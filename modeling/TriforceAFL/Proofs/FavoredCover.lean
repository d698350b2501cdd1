import Mathlib.Data.List.Nodup
import TriforceAFL.Proofs.QueueFields
import TriforceAFL.Proofs.QueueRuns

/-!
# `TriforceAFL.Proofs.FavoredCover`: what the favored set covers, and its marks on disk

`cull_queue` is a greedy cover: it scans the slots, and picks the owner of a slot unless an entry
picked before covers the slot in its cached trace. `favored_cover` says, for every state that a run
can reach, what one recomputation gives: the favored entries are the picked ones, they cover every
slot with an owner, none is picked at a slot that an earlier pick covers, and the marker files in
`queue/.state/redundant_edges` are those of the entries that are not favored.

* `SelectInv` is the invariant of the selection loop. It does not ask the cached traces to be
  right, unlike `CullInv`, so it holds in every run.
* `MarksOk` relates `fs_redundant` to the files, and `markQueue_spec` is the walk over the queue.
-/

set_option autoImplicit false

namespace TriforceAFL.Proofs

open Lib Spec

/-! ### The selection loop -/

section Selection
variable {k : Nat} {s : FuzzState (8 * k)}

/-- Is bit `i` set in the cached trace of an entry? -/
def coversSlot (s : FuzzState (8 * k)) (p : Ptr) (i : Nat) : Bool :=
  miniBit ((s.entry p).traceMini.getD []) i

/-- The entry that the selection loop picks at slot `i`. -/
def pickedAt (s : FuzzState (8 * k)) (i : Nat) : Option Ptr :=
  if miniBit (selection s i).1 i then slot (selection s i).2 i else none

/-- One turn of the loop. -/
theorem selection_succ (s : FuzzState (8 * k)) (n : Nat) :
    selection s (n + 1) =
      match pickedAt s n with
      | some p => pick (selection s n) p
      | none => selection s n := by
  have hsucc : selection s (n + 1) = cullSlot (selection s n) n := by
    rw [selection, List.range_succ, List.foldl_append]
    rfl
  rw [hsucc, pickedAt]
  unfold cullSlot slot
  cases hbit : miniBit (selection s n).1 n with
  | true =>
    rw [if_pos rfl]
    cases (selection s n).2.topRated.getD n none with
    | none => rfl
    | some p => rfl
  | false =>
    rw [if_neg (by decide)]
    cases (selection s n).2.topRated.getD n none with
    | none => rfl
    | some p => rfl

/-- What holds after the first `n` slots. -/
structure SelectInv (s : FuzzState (8 * k)) (n : Nat) : Prop where
  temp_length : (selection s n).1.length = k
  /-- `temp_v` holds the bits that no picked entry covers. -/
  temp : ∀ i < 8 * k, miniBit (selection s n).1 i = true ↔
    ∀ j < n, ∀ p, pickedAt s j = some p → coversSlot s p i = false
  same : SameQueue s (selection s n).2
  favored : ∀ p, ((selection s n).2.entry p).favored = true ↔ ∃ j < n, pickedAt s j = some p

theorem selection_zero (hchain : Chain s) :
    selection s 0 = (List.replicate k 0xff, clearFavored s) := by
  unfold selection clearFavored
  rw [walkQueue_unfavor hchain, shiftRight_three]
  rfl

theorem selectInv_zero (hchain : Chain s) : SelectInv s 0 := by
  have hstart := selection_zero hchain
  refine ⟨?_, fun i hi => ?_, ?_, fun p => ?_⟩
  · rw [hstart]
    exact List.length_replicate
  · rw [hstart]
    refine ⟨fun _ j hj => absurd hj (Nat.not_lt_zero j), fun _ => ?_⟩
    refine ((cullInv_clearFavored s).temp i hi).mpr fun p mini hfav => ?_
    rw [entry_clearFavored_favored] at hfav
    cases hfav
  · rw [hstart]
    exact sameQueue_clearFavored s
  · rw [hstart, entry_clearFavored_favored]
    constructor
    · intro h
      cases h
    · rintro ⟨j, hj, _⟩
      exact absurd hj (Nat.not_lt_zero j)

/-- What is picked owns the slot. -/
theorem SelectInv.slot_of_picked {i p : Nat} (h : SelectInv s i) (hp : pickedAt s i = some p) :
    slot s i = some p := by
  unfold pickedAt at hp
  split at hp
  · unfold slot at hp ⊢
    rwa [h.same.slots] at hp
  · cases hp

theorem SelectInv.step (hrefs : RefInv s) {n : Nat} (h : SelectInv s n) :
    SelectInv s (n + 1) := by
  have hsucc := selection_succ s n
  -- The picks among the first `n + 1` slots.
  have hpicks : ∀ P : Ptr → Prop, (∀ j < n + 1, ∀ p, pickedAt s j = some p → P p) ↔
      (∀ j < n, ∀ p, pickedAt s j = some p → P p) ∧ ∀ p, pickedAt s n = some p → P p :=
    fun P => Nat.forall_lt_succ_right
  have hexists : ∀ p, (∃ j < n + 1, pickedAt s j = some p) ↔
      (∃ j < n, pickedAt s j = some p) ∨ pickedAt s n = some p :=
    fun p => Nat.exists_lt_succ_right
  cases hpick : pickedAt s n with
  | none =>
    rw [hpick] at hsucc hpicks hexists
    refine ⟨?_, fun i hi => ?_, ?_, fun p => ?_⟩
    · rw [hsucc, h.temp_length]
    · rw [hsucc, h.temp i hi, hpicks]
      refine ⟨fun hall => ⟨hall, fun p hp => by cases hp⟩, fun hall => hall.1⟩
    · rw [hsucc]
      exact h.same
    · rw [hsucc, h.favored p, hexists]
      refine ⟨Or.inl, fun hor => hor.resolve_right fun hp => by cases hp⟩
  | some p =>
    rw [hpick] at hsucc hpicks hexists
    have hvalid : p < s.entries.length := hrefs.valid n p (h.slot_of_picked hpick)
    have hlen : p < (selection s n).2.entries.length := by rwa [h.same.length_eq]
    have hmini : ((selection s n).2.entry p).traceMini = (s.entry p).traceMini :=
      h.same.traceMini p hvalid
    refine ⟨?_, fun i hi => ?_, ?_, fun r => ?_⟩
    · rw [hsucc]
      exact (length_removeBits _ _).trans h.temp_length
    · rw [hsucc, hpicks]
      show miniBit (removeBits (((selection s n).2.entry p).traceMini.getD []) _) i = true ↔ _
      rw [hmini, (miniBit_removeBits _ _ i (by rwa [h.temp_length])).2, Bool.and_eq_true,
        h.temp i hi, Bool.not_eq_true']
      refine and_congr_right fun _ => ⟨fun hnot r hr => ?_, fun hall => hall p rfl⟩
      cases hr
      exact hnot
    · rw [hsucc]
      have hwrite := h.same.trans (SameQueue.updateEntry (selection s n).2 p
        (f := fun e => { e with favored := true }) fun e => ⟨rfl, rfl, rfl⟩)
      exact ⟨hwrite.1, hwrite.2, hwrite.3, hwrite.4, hwrite.5, hwrite.6, hwrite.7⟩
    · rw [hsucc, hexists, ← h.favored r, entry_pick hlen]
      by_cases hr : r = p
      · rw [if_pos hr, hr]
        exact ⟨fun _ => Or.inr rfl, fun _ => rfl⟩
      · rw [if_neg hr]
        refine ⟨Or.inl, fun hor => hor.resolve_right fun heq => hr ?_⟩
        cases heq
        rfl

theorem selectInv (hchain : Chain s) (hrefs : RefInv s) (n : Nat) : SelectInv s n := by
  induction n with
  | zero => exact selectInv_zero hchain
  | succ n ih => exact ih.step hrefs

/-- A slot with an owner is covered by an entry that was picked before, or its owner is picked. -/
theorem exists_picked (hchain : Chain s) (hrefs : RefInv s) {i p : Nat}
    (hslot : slot s i = some p) :
    ∃ j < 8 * k, ∃ q, pickedAt s j = some q ∧ (q = p ∨ coversSlot s q i = true) := by
  have hi : i < 8 * k := by
    rw [← hrefs.slots]
    by_contra hge
    unfold slot at hslot
    rw [List.getD_eq_getElem?_getD, List.getElem?_eq_none (Nat.le_of_not_lt hge)] at hslot
    cases hslot
  have h := selectInv hchain hrefs i
  cases hbit : miniBit (selection s i).1 i with
  | true =>
    refine ⟨i, hi, p, ?_, Or.inl rfl⟩
    unfold pickedAt slot
    rw [if_pos hbit, h.same.slots]
    exact hslot
  | false =>
    by_contra hnone
    have hclear : miniBit (selection s i).1 i = true := by
      refine (h.temp i hi).mpr fun j hj q hq => ?_
      cases hcov : coversSlot s q i with
      | false => rfl
      | true => exact absurd ⟨j, by omega, q, hq, Or.inr hcov⟩ hnone
    rw [hclear] at hbit
    cases hbit

/-- No entry is picked at a slot that an earlier pick covers. -/
theorem picked_not_covered (hchain : Chain s) (hrefs : RefInv s) {i p : Nat} (hi : i < 8 * k)
    (hp : pickedAt s i = some p) :
    slot s i = some p ∧ ∀ j < i, ∀ q, pickedAt s j = some q → coversSlot s q i = false := by
  have h := selectInv hchain hrefs i
  refine ⟨h.slot_of_picked hp, (h.temp i hi).mp ?_⟩
  unfold pickedAt at hp
  split at hp
  · rename_i hbit
    exact hbit
  · cases hp

end Selection

/-! ### The queue and the slots in every run -/

section Shape
variable {k : Nat} {s : FuzzState (8 * k)}

/-- The part of `QueueInv` that holds in all runs. -/
structure QueueShape (s : FuzzState (8 * k)) : Prop where
  chain : Chain s
  refs : RefInv s

theorem QueueShape.of_same {s' : FuzzState (8 * k)} (h : QueueShape s) (hsame : SameQueue s s') :
    QueueShape s' :=
  ⟨hsame.chain h.chain, hsame.refInv h.refs⟩

/-- The walk that ends a recomputation writes `fs_redundant` of every entry. -/
theorem recomputeFavored_eq (h : QueueShape s) :
    recomputeFavored s = { (selection s (8 * k)).2 with
      entries := (selection s (8 * k)).2.entries.map fun e =>
        { e with fsRedundant := !e.favored } } := by
  have hchain := (selectInv h.chain h.refs (8 * k)).same.chain h.chain
  have hwalk := walkQueue_eq_map (f := fun e : QueueEntry => { e with fsRedundant := !e.favored })
    (fun _ => rfl) hchain.linked hchain.queue
  rw [← hwalk]
  rfl

theorem QueueShape.sameQueue_recomputeFavored (h : QueueShape s) :
    SameQueue s (recomputeFavored s) := by
  rw [recomputeFavored_eq h]
  have hmap := SameQueue.mapEntries (selection s (8 * k)).2
    (f := fun e => { e with fsRedundant := !e.favored }) fun e => ⟨rfl, rfl, rfl⟩
  exact (selectInv h.chain h.refs (8 * k)).same.trans hmap

/-- Every call but `add_to_queue` and `update_bitmap_score` leaves the list and the slots alone. -/
theorem QueueShape.sameQueue_call (h : QueueShape s) (op : QueueOp (8 * k)) :
    (∃ fname len passedDet, op = .add fname len passedDet) ∨ (∃ q trace, op = .score q trace) ∨
      SameQueue s (op.apply s) := by
  cases op with
  | add fname len passedDet => exact Or.inl ⟨fname, len, passedDet, rfl⟩
  | score q trace => exact Or.inr (Or.inl ⟨q, trace, rfl⟩)
  | measure q execUs len calFailed =>
    exact Or.inr (Or.inr (SameQueue.updateEntry s q fun e => ⟨rfl, rfl, rfl⟩))
  | cull =>
    refine Or.inr (Or.inr ?_)
    show SameQueue s (cullQueue s)
    unfold cullQueue
    split
    · exact h.sameQueue_recomputeFavored
    · exact SameQueue.refl s
  | finish q stopSoon =>
    refine Or.inr (Or.inr ?_)
    show SameQueue s (abandonEntry s q stopSoon)
    unfold abandonEntry
    dsimp only
    split
    · have hsame := SameQueue.updateEntry s q
        (f := fun e : QueueEntry => { e with wasFuzzed := true }) fun e => ⟨rfl, rfl, rfl⟩
      exact ⟨hsame.1, hsame.2, hsame.3, hsame.4, hsame.5, hsame.6, hsame.7⟩
    · exact SameQueue.refl s

theorem QueueShape.call (h : QueueShape s) (op : QueueOp (8 * k)) (hvalid : op.Valid s) :
    QueueShape (op.apply s) := by
  rcases h.sameQueue_call op with ⟨fname, len, passedDet, rfl⟩ | ⟨q, trace, rfl⟩ | hsame
  · obtain ⟨s', happ, hchain, hsame, _⟩ := addToQueue_appended h.chain fname len passedDet
    exact ⟨hsame.chain hchain, hsame.refInv (happ.refInv h.refs)⟩
  · refine ⟨updateBitmapScore_chain ?_, updateBitmapScore_refInv hvalid ?_⟩
    · exact ⟨h.chain.linked, h.chain.queue, h.chain.top⟩
    · exact ⟨h.refs.slots, h.refs.valid, h.refs.refs, h.refs.cached⟩
  · exact h.of_same hsame

end Shape

/-! ### The marker files -/

/-- Setting one flag in a list with distinct keys. -/
theorem mem_modify_flag {α : Type} [DecidableEq α] {l : List (α × Bool)} {p : Nat}
    (hnodup : (l.map Prod.fst).Nodup) (hp : p < l.length) (a : α) (b : Bool) :
    (a, true) ∈ l.modify p (fun x => (x.1, b)) ↔
      if a = (l.get ⟨p, hp⟩).1 then b = true else (a, true) ∈ l := by
  have hsplit : l = l.take p ++ l.get ⟨p, hp⟩ :: l.drop (p + 1) := by
    rw [List.get_eq_getElem, ← List.drop_eq_getElem_cons hp, List.take_append_drop]
  rw [List.modify_eq_take_cons_drop hp]
  change _ ∈ l.take p ++ ((l.get ⟨p, hp⟩).1, b) :: l.drop (p + 1) ↔ _
  generalize l.get ⟨p, hp⟩ = x at hsplit ⊢
  generalize l.take p = l₁ at hsplit ⊢
  generalize l.drop (p + 1) = l₂ at hsplit ⊢
  subst hsplit
  rw [List.map_append, List.map_cons, List.nodup_middle, List.nodup_cons,
    ← List.map_append] at hnodup
  -- The key of the changed pair occurs nowhere else.
  have hother : (x.1, true) ∉ l₁ ++ l₂ := fun hmem =>
    hnodup.1 (List.mem_map.mpr ⟨_, hmem, rfl⟩)
  rw [List.mem_append] at hother
  simp only [List.mem_append, List.mem_cons]
  by_cases ha : a = x.1
  · rw [if_pos ha, ha, Prod.mk.injEq, eq_self_iff_true, true_and]
    constructor
    · rintro (hmem | hb | hmem)
      · exact absurd (Or.inl hmem) hother
      · exact hb.symm
      · exact absurd (Or.inr hmem) hother
    · exact fun hb => Or.inr (Or.inl hb.symm)
  · have hfirst : (a, true) ≠ (x.1, b) := fun heq => ha (Prod.mk.inj heq).1
    have hsecond : (a, true) ≠ x := fun heq => ha (congrArg Prod.fst heq)
    rw [if_neg ha]
    simp only [hfirst, hsecond, false_or]

section Marks
variable {n : Nat} {diskOk : Text → Bool} {m m' : MarkedState n} {q : Nat}

/-- The file name of every entry, and whether the entry is marked. -/
def markView (s : FuzzState n) : List (Text × Bool) :=
  fields (fun e => (fileNameOf e.fname, e.fsRedundant)) s

/-- Entries have different files, and the markers are those of the entries with `fs_redundant`. -/
structure MarksOk (m : MarkedState n) : Prop where
  distinct : ((markView m.globals).map Prod.fst).Nodup
  nodup : m.redundantEdges.Nodup
  marks : ∀ fn, fn ∈ m.redundantEdges ↔ (fn, true) ∈ markView m.globals

/-- A change of the globals that touches neither names nor marks. -/
theorem MarksOk.of_view (h : MarksOk m) {s : FuzzState n}
    (hview : markView s = markView m.globals) : MarksOk { m with globals := s } :=
  ⟨by rw [hview]; exact h.distinct, h.nodup, fun fn => by rw [hview]; exact h.marks fn⟩

theorem get_markView (s : FuzzState n) (hq : q < s.entries.length) (hq' : q < (markView s).length) :
    (markView s).get ⟨q, hq'⟩ = (fileNameOf (s.entry q).fname, (s.entry q).fsRedundant) := by
  have hentry : s.entry q = s.entries[q] := by
    rw [FuzzState.entry, List.getD_eq_getElem?_getD, List.getElem?_eq_getElem hq, Option.getD_some]
  rw [hentry]
  simp [markView, fields]

/-- Writing the flag of one entry. -/
theorem markView_setFlag (s : FuzzState n) (q : Nat) (state : Bool) :
    markView (s.updateEntry q fun e => { e with fsRedundant := state }) =
      (markView s).modify q fun x => (x.1, state) := by
  unfold markView fields FuzzState.updateEntry
  apply List.ext_getElem?
  intro r
  simp only [List.getElem?_map, List.getElem?_modify]
  cases s.entries[r]? with
  | none => simp
  | some e =>
    by_cases hr : q = r
    · simp [hr]
    · simp [hr]

theorem MarksOk.setFlag (h : MarksOk m) (hq : q < m.globals.entries.length) {state : Bool}
    {marks : List Text} (hnodup : marks.Nodup) (hmarks : ∀ fn, fn ∈ marks ↔
      if fn = fileNameOf (m.globals.entry q).fname then state = true else fn ∈ m.redundantEdges) :
    MarksOk { globals := m.globals.updateEntry q fun e => { e with fsRedundant := state }
              redundantEdges := marks } := by
  have hlen : q < (markView m.globals).length := by rwa [markView, length_fields]
  refine ⟨?_, hnodup, fun fn => ?_⟩
  · show ((markView (m.globals.updateEntry q _)).map Prod.fst).Nodup
    rw [markView_setFlag]
    have hkeys : ((markView m.globals).modify q fun x => (x.1, state)).map Prod.fst =
        (markView m.globals).map Prod.fst := by
      apply List.ext_getElem?
      intro r
      simp only [List.getElem?_map, List.getElem?_modify]
      cases (markView m.globals)[r]? with
      | none => simp
      | some x => by_cases hr : q = r <;> simp [hr]
    rw [hkeys]
    exact h.distinct
  · show fn ∈ marks ↔ (fn, true) ∈ markView (m.globals.updateEntry q _)
    rw [markView_setFlag, mem_modify_flag h.distinct hlen, get_markView _ hq, hmarks]
    split
    · rfl
    · exact h.marks fn

/-- One call of `mark_as_redundant`. -/
theorem markAsRedundant_spec (h : MarksOk m) (hq : q < m.globals.entries.length) {state : Bool}
    (hrun : markAsRedundant diskOk m q state = .ok m') :
    m'.globals = m.globals.updateEntry q (fun e => { e with fsRedundant := state }) ∧
      MarksOk m' := by
  unfold markAsRedundant at hrun
  dsimp only at hrun
  split at hrun
  · rename_i hsame
    cases hrun
    refine ⟨(updateEntry_eq_self ?_).symm, h⟩
    rw [hsame]
  · split at hrun
    · rename_i hstate
      split at hrun
      · rename_i hcond
        cases hrun
        rw [Bool.and_eq_true, Bool.not_eq_true', List.contains_eq_mem,
          decide_eq_false_iff_not] at hcond
        refine ⟨rfl, h.setFlag hq ?_ fun fn => ?_⟩
        · rw [List.nodup_append]
          refine ⟨h.nodup, List.nodup_singleton _, fun a ha b hb heq => hcond.2 ?_⟩
          rwa [← List.mem_singleton.mp hb, ← heq]
        · rw [List.mem_append, List.mem_singleton]
          split
          · rename_i heq
            exact ⟨fun _ => hstate, fun _ => Or.inr heq⟩
          · rename_i hne
            exact ⟨fun hor => hor.resolve_right hne, Or.inl⟩
      · cases hrun
    · rename_i hstate
      split at hrun
      · cases hrun
        refine ⟨rfl, h.setFlag hq (h.nodup.erase _) fun fn => ?_⟩
        rw [h.nodup.mem_erase_iff]
        split
        · rename_i heq
          exact ⟨fun hand => absurd heq hand.1, fun htrue => absurd htrue hstate⟩
        · rename_i hne
          exact ⟨fun hand => hand.2, fun hmem => ⟨hne, hmem⟩⟩
      · cases hrun

/-- The file of an entry is there exactly if its flag is set. -/
theorem MarksOk.mem_iff (h : MarksOk m) (hq : q < m.globals.entries.length) :
    fileNameOf (m.globals.entry q).fname ∈ m.redundantEdges ↔
      (m.globals.entry q).fsRedundant = true := by
  have hlen : q < (markView m.globals).length := by rwa [markView, length_fields]
  have hself := mem_modify_flag h.distinct hlen (fileNameOf (m.globals.entry q).fname)
    (m.globals.entry q).fsRedundant
  rw [get_markView _ hq, if_pos rfl, ← markView_setFlag, updateEntry_eq_self rfl] at hself
  rw [h.marks, hself]

/-- While the disk does its work, `mark_as_redundant` finds the files as it expects them. -/
theorem markAsRedundant_ok (h : MarksOk m) (hq : q < m.globals.entries.length)
    (hdisk : ∀ fn, diskOk fn = true) (state : Bool) :
    ∃ m', markAsRedundant diskOk m q state = .ok m' := by
  have hown := h.mem_iff hq
  unfold markAsRedundant
  dsimp only
  split
  · exact ⟨_, rfl⟩
  · rename_i hne
    cases state with
    | true =>
      have hnot : (m.globals.entry q).fsRedundant ≠ true := fun heq => hne heq.symm
      rw [if_pos rfl, if_pos]
      · exact ⟨_, rfl⟩
      · rw [hdisk, List.contains_eq_mem, decide_eq_false (mt hown.mp hnot)]
        rfl
    | false =>
      have hset : (m.globals.entry q).fsRedundant = true := by
        cases hflag : (m.globals.entry q).fsRedundant with
        | true => rfl
        | false => exact absurd hflag.symm hne
      rw [if_neg (by decide), if_pos]
      · exact ⟨_, rfl⟩
      · rw [hdisk, List.contains_eq_mem, decide_eq_true (hown.mpr hset)]
        rfl

/-- Walking on along the queue. -/
theorem next_valid {s : FuzzState n} (hlinked : Linked s.entries) (hq : q < s.entries.length) :
    ∀ p, (s.entry q).next = some p → p < s.entries.length := by
  intro p hp
  rw [FuzzState.entry, hlinked q hq] at hp
  split at hp
  · cases hp
    assumption
  · cases hp

/-- The walk marks every entry on its way as the plain walk of `recomputeFavored` does. -/
theorem markQueue_spec (fuel : Nat) :
    ∀ (q : Option Ptr) (m m' : MarkedState n), Linked m.globals.entries →
      (∀ p, q = some p → p < m.globals.entries.length) → MarksOk m →
      markQueue diskOk fuel q m = .ok m' →
      m'.globals = { m.globals with
          entries := walkQueue (fun e => { e with fsRedundant := !e.favored }) fuel q
            m.globals.entries } ∧ MarksOk m' := by
  -- Induction on the fuel; both walks make the same steps.
  induction fuel with
  | zero =>
    intro q m m' _ _ h hrun
    cases hrun
    exact ⟨rfl, h⟩
  | succ fuel ih =>
    intro q m m' hlinked hvalid h hrun
    cases q with
    | none =>
      cases hrun
      exact ⟨rfl, h⟩
    | some q =>
      have hq := hvalid q rfl
      rw [markQueue] at hrun
      split at hrun
      · cases hrun
      · rename_i m₁ hmark
        obtain ⟨hglobals, hok⟩ := markAsRedundant_spec h hq hmark
        have hwrite : m₁.globals = m.globals.updateEntry q
            (fun e => { e with fsRedundant := !e.favored }) := by
          rw [hglobals]
          exact updateEntry_congr rfl
        have hlinked' : Linked m₁.globals.entries := by
          rw [hwrite]
          exact hlinked.modify q fun e => rfl
        have hq' : q < m₁.globals.entries.length := by
          rwa [hwrite, length_updateEntry]
        obtain ⟨hglobals', hok'⟩ :=
          ih _ m₁ m' hlinked' (next_valid hlinked' hq') hok hrun
        refine ⟨?_, hok'⟩
        rw [hglobals', hwrite]
        rfl

/-- While the disk does its work, the walk does not end the process. -/
theorem markQueue_ok (hdisk : ∀ fn, diskOk fn = true) (fuel : Nat) :
    ∀ (q : Option Ptr) (m : MarkedState n), Linked m.globals.entries →
      (∀ p, q = some p → p < m.globals.entries.length) → MarksOk m →
      ∃ m', markQueue diskOk fuel q m = .ok m' := by
  induction fuel with
  | zero => exact fun q m _ _ _ => ⟨m, rfl⟩
  | succ fuel ih =>
    intro q m hlinked hvalid h
    cases q with
    | none => exact ⟨m, rfl⟩
    | some q =>
      have hq := hvalid q rfl
      obtain ⟨m₁, hmark⟩ := markAsRedundant_ok h hq hdisk (!(m.globals.entry q).favored)
      obtain ⟨hglobals, hok⟩ := markAsRedundant_spec h hq hmark
      have hlinked' : Linked m₁.globals.entries := by
        rw [hglobals]
        exact hlinked.modify q fun e => rfl
      have hq' : q < m₁.globals.entries.length := by
        rwa [hglobals, length_updateEntry]
      rw [markQueue, hmark]
      exact ih _ m₁ hlinked' (next_valid hlinked' hq') hok

end Marks

/-! ### Runs -/

section Runs
variable {k : Nat} {m m' : MarkedState (8 * k)}

/-- The invariant of all runs. -/
structure MarkedInv (m : MarkedState (8 * k)) : Prop where
  shape : QueueShape m.globals
  marks : MarksOk m

/-- A recomputation in a reachable state starts its last walk in a state like this. -/
theorem MarkedInv.selected (h : MarkedInv m) :
    MarkedInv { m with globals := (selection m.globals (8 * k)).2 } := by
  have hselect := selectInv h.shape.chain h.shape.refs (8 * k)
  exact ⟨h.shape.of_same hselect.same, h.marks.of_view (fields_selection (fun e b => rfl) _ _)⟩

theorem queue_valid {s : FuzzState (8 * k)} (h : QueueShape s) :
    ∀ p, s.queue = some p → p < s.entries.length := by
  intro p hp
  rw [h.chain.queue] at hp
  split at hp
  · cases hp
  · rename_i hne
    cases hp
    exact List.length_pos_iff.mpr hne

/-- `cull_queue` with its effect on the disk changes the globals as `cull_queue` does. -/
theorem cullMarked_spec (h : MarkedInv m) {diskOk : Text → Bool}
    (hrun : cullMarked diskOk m = .ok m') :
    m'.globals = cullQueue m.globals ∧ MarksOk m' := by
  unfold cullMarked at hrun
  unfold cullQueue
  split at hrun
  · rename_i hrec
    have hsel := h.selected
    rw [if_pos hrec]
    exact markQueue_spec _ _ _ _ hsel.shape.chain.linked (queue_valid hsel.shape) hsel.marks hrun
  · rename_i hrec
    cases hrun
    rw [if_neg hrec]
    exact ⟨rfl, h.marks⟩

theorem sameQueue_cullMarked (h : MarkedInv m) {diskOk : Text → Bool}
    (hrun : cullMarked diskOk m = .ok m') : SameQueue m.globals m'.globals := by
  rw [(cullMarked_spec h hrun).1]
  unfold cullQueue
  split
  · exact h.shape.sameQueue_recomputeFavored
  · exact SameQueue.refl _

theorem cullMarked_ok (h : MarkedInv m) {diskOk : Text → Bool}
    (hdisk : ∀ fn, diskOk fn = true) : ∃ m', cullMarked diskOk m = .ok m' := by
  unfold cullMarked
  split
  · have hsel := h.selected
    exact markQueue_ok hdisk _ _ _ hsel.shape.chain.linked (queue_valid hsel.shape) hsel.marks
  · exact ⟨m, rfl⟩

theorem MarkedInv.init (dumbMode : Bool) :
    MarkedInv ({ globals := { dumbMode } } : MarkedState (8 * k)) := by
  have hinv := QueueInv.init (k := k) dumbMode
  refine ⟨⟨hinv.chain, hinv.refs⟩, List.nodup_nil, List.nodup_nil, fun fn => ?_⟩
  exact ⟨fun h => absurd h List.not_mem_nil, fun h => absurd h List.not_mem_nil⟩

/-- A new entry has a file of its own and is not marked. -/
theorem MarkedInv.add (h : MarkedInv m) {fname : Text} (len : Nat) (passedDet : Bool)
    (hfresh : fileNameOf fname ∉ MarkedOp.entryFiles m.globals) :
    MarkedInv { m with globals := addToQueue m.globals fname len passedDet } := by
  have hview : markView (addToQueue m.globals fname len passedDet) =
      markView m.globals ++ [(fileNameOf fname, false)] :=
    fields_addToQueue (fun e q => rfl) (fun e q => rfl) m.globals fname len passedDet
  have hkeys : (markView m.globals).map Prod.fst = MarkedOp.entryFiles m.globals := by
    rw [markView, fields, List.map_map]
    rfl
  refine ⟨h.shape.call (.add fname len passedDet) trivial, ?_, h.marks.nodup, fun fn => ?_⟩
  · show ((markView (addToQueue m.globals fname len passedDet)).map Prod.fst).Nodup
    rw [hview, List.map_append, List.nodup_append]
    refine ⟨h.marks.distinct, List.nodup_singleton _, fun a ha b hb heq => hfresh ?_⟩
    have hb' : b = fileNameOf fname := List.mem_singleton.mp hb
    rw [← hkeys, ← hb', ← heq]
    exact ha
  · show _ ↔ (fn, true) ∈ markView (addToQueue m.globals fname len passedDet)
    rw [hview, List.mem_append, List.mem_singleton, h.marks.marks]
    refine ⟨Or.inl, fun hor => hor.resolve_right fun heq => ?_⟩
    cases heq

/-- `pivot_inputs` writes the names of the entries, none of which is marked. -/
theorem MarkedInv.pivot (h : MarkedInv m) {names : List Text}
    (hlen : names.length = m.globals.entries.length) (hnodup : (names.map fileNameOf).Nodup)
    (hnone : ∀ e ∈ m.globals.entries, e.fsRedundant = false) :
    MarkedInv { m with globals := { m.globals with
      entries := m.globals.entries.zipWith (fun e fname => { e with fname }) names } } := by
  -- Everything but the names is as before.
  have hfield : ∀ {β : Type} (g : QueueEntry → β), (∀ e fname, g { e with fname } = g e) →
      fields g { m.globals with
        entries := m.globals.entries.zipWith (fun e fname => { e with fname }) names } =
        fields g m.globals := by
    intro β g hg
    refine List.ext_getElem (by simp [hlen, fields]) fun r _ _ => ?_
    simp [fields, hg]
  have hview : (m.globals.entries.zipWith (fun e fname => { e with fname }) names).map
      (fun e => (fileNameOf e.fname, e.fsRedundant)) =
        names.map fun fname => (fileNameOf fname, false) := by
    refine List.ext_getElem (by simp [hlen]) fun r _ _ => ?_
    simp [hnone]
  refine ⟨h.shape.of_same ⟨rfl, rfl, rfl, by simp [hlen], fun p _ => ?_, fun p _ => ?_,
    fun p _ => ?_⟩, ?_, h.marks.nodup, fun fn => ?_⟩
  · exact field_eq_of_fields_eq (hfield (·.tcRef) fun _ _ => rfl) p
  · exact field_eq_of_fields_eq (hfield (·.traceMini) fun _ _ => rfl) p
  · exact field_eq_of_fields_eq (hfield (·.next) fun _ _ => rfl) p
  · unfold markView fields
    rw [hview, List.map_map]
    exact hnodup
  · unfold markView fields
    rw [hview, h.marks.marks]
    -- Nothing is marked, before and after.
    constructor
    · intro hmem
      obtain ⟨e, he, heq⟩ := List.mem_map.mp hmem
      have hset : e.fsRedundant = true := (Prod.mk.inj heq).2
      rw [hnone e he] at hset
      cases hset
    · intro hmem
      obtain ⟨fname, _, heq⟩ := List.mem_map.mp hmem
      cases (Prod.mk.inj heq).2

theorem MarkedInv.step (h : MarkedInv m) (hstep : MarkedStep m m') : MarkedInv m' := by
  obtain ⟨op, hvalid, hrun⟩ := hstep
  cases op with
  | call op =>
    cases hrun
    cases op with
    | add fname len passedDet => exact h.add len passedDet hvalid
    | measure q execUs len calFailed =>
      exact ⟨h.shape.call (.measure q execUs len calFailed) hvalid,
        h.marks.of_view (fields_updateEntry _ q fun e => rfl)⟩
    | score q trace =>
      refine ⟨h.shape.call (.score q trace) hvalid, h.marks.of_view ?_⟩
      exact fields_updateBitmapScore (fun e r mini => rfl)
        { m.globals with traceBits := trace } q
    | cull => exact absurd hvalid id
    | finish q stopSoon =>
      exact ⟨h.shape.call (.finish q stopSoon) hvalid,
        h.marks.of_view (fields_abandonEntry (fun e b => rfl) _ q stopSoon)⟩
  | pivot names =>
    cases hrun
    exact h.pivot hvalid.1 hvalid.2.1 hvalid.2.2
  | cull diskOk =>
    obtain ⟨hglobals, hmarks⟩ := cullMarked_spec h hrun
    refine ⟨?_, hmarks⟩
    rw [hglobals]
    exact h.shape.call .cull trivial

theorem MarkedInv.reachable (h : Reachable MarkedStart MarkedStep m) : MarkedInv m := by
  refine h.invariant (fun m hm => ?_) fun m m' hm hstep => hm.step hstep
  obtain ⟨dumbMode, rfl⟩ := hm
  exact MarkedInv.init dumbMode

/-- After a recomputation, the entries with the flag are those that are not favored. -/
theorem entry_recomputeFavored {s : FuzzState (8 * k)} (h : QueueShape s) {q : Nat}
    (hq : q < s.entries.length) :
    (recomputeFavored s).entry q = { (selection s (8 * k)).2.entry q with
      fsRedundant := !((selection s (8 * k)).2.entry q).favored } := by
  have hq' : q < (selection s (8 * k)).2.entries.length := by
    rwa [(selectInv h.chain h.refs (8 * k)).same.length_eq]
  rw [recomputeFavored_eq h]
  show (List.map _ _).getD q default = _
  simp [FuzzState.entry, List.getD_eq_getElem?_getD, hq']

theorem favored_recomputeFavored {s s' : FuzzState (8 * k)} (h : QueueShape s)
    (hs' : s' = recomputeFavored s) (q : Nat) :
    (s'.entry q).favored = true ↔ ((selection s (8 * k)).2.entry q).favored = true := by
  have hfields : fields (·.favored) s' = fields (·.favored) (selection s (8 * k)).2 := by
    rw [hs', recomputeFavored_eq h]
    unfold fields
    rw [List.map_map]
    rfl
  rw [field_eq_of_fields_eq hfields q]

/-- In every state that a run reaches, one recomputation of the favored set gives this, and it does
not end the process unless the disk fails:

* the favored entries are those that the selection loop picks;
* for every slot with an owner, a favored entry is the owner or covers the slot;
* every favored entry owns a slot that no entry picked at a smaller slot covers;
* the marker files are those of the entries that are not favored. -/
theorem favored_cover (h : Reachable MarkedStart MarkedStep m)
    (hrec : cullRecomputes m.globals = true) :
    (∃ m', cullMarked (fun _ => true) m = .ok m') ∧
      ∀ diskOk m', cullMarked diskOk m = .ok m' →
        (∀ q, (m'.globals.entry q).favored = true ↔
          ∃ i < 8 * k, pickedAt m.globals i = some q) ∧
        (∀ i p, slot m'.globals i = some p → ∃ q < m'.globals.entries.length,
          (m'.globals.entry q).favored = true ∧ (q = p ∨ coversSlot m'.globals q i = true)) ∧
        (∀ q, (m'.globals.entry q).favored = true → ∃ i, slot m'.globals i = some q ∧
          ∀ j < i, ∀ p, pickedAt m.globals j = some p → coversSlot m'.globals p i = false) ∧
        (∀ q < m'.globals.entries.length, fileNameOf (m'.globals.entry q).fname ∈
          m'.redundantEdges ↔ (m'.globals.entry q).favored = false) ∧
        ∀ fn ∈ m'.redundantEdges, ∃ q < m'.globals.entries.length,
          (m'.globals.entry q).favored = false ∧ fileNameOf (m'.globals.entry q).fname = fn := by
  have hinv := MarkedInv.reachable h
  refine ⟨cullMarked_ok hinv fun _ => rfl, fun diskOk m' hrun => ?_⟩
  obtain ⟨hcull, hmarks⟩ := cullMarked_spec hinv hrun
  have hglobals : m'.globals = recomputeFavored m.globals := by
    rw [hcull, cullQueue, if_pos hrec]
  have hsame := sameQueue_cullMarked hinv hrun
  have hslot : ∀ i, slot m'.globals i = slot m.globals i := by
    intro i
    unfold slot
    rw [hsame.slots]
  have hcovers : ∀ p < m.globals.entries.length, ∀ i,
      coversSlot m'.globals p i = coversSlot m.globals p i := by
    intro p hp i
    unfold coversSlot
    rw [hsame.traceMini p hp]
  have hpicked : ∀ i < 8 * k, ∀ q, pickedAt m.globals i = some q →
      q < m.globals.entries.length := by
    intro i hi q hq
    exact hinv.shape.refs.valid i q (picked_not_covered hinv.shape.chain hinv.shape.refs hi hq).1
  have hfavored : ∀ q, (m'.globals.entry q).favored = true ↔
      ∃ i < 8 * k, pickedAt m.globals i = some q := by
    intro q
    rw [← (selectInv hinv.shape.chain hinv.shape.refs (8 * k)).favored q]
    exact favored_recomputeFavored hinv.shape hglobals q
  have hflag : ∀ q < m'.globals.entries.length,
      (m'.globals.entry q).fsRedundant = !(m'.globals.entry q).favored := by
    intro q hq
    rw [hsame.length_eq] at hq
    rw [hglobals, entry_recomputeFavored hinv.shape hq]
  refine ⟨hfavored, fun i p hp => ?_, fun q hq => ?_, fun q hq => ?_, fun fn hfn => ?_⟩
  · rw [hslot] at hp
    obtain ⟨j, hj, q, hpick, hor⟩ := exists_picked hinv.shape.chain hinv.shape.refs hp
    have hlt := hpicked j hj q hpick
    refine ⟨q, by rwa [hsame.length_eq], (hfavored q).mpr ⟨j, hj, hpick⟩, ?_⟩
    rwa [hcovers q hlt]
  · obtain ⟨i, hi, hpick⟩ := (hfavored q).mp hq
    obtain ⟨hown, hearlier⟩ := picked_not_covered hinv.shape.chain hinv.shape.refs hi hpick
    refine ⟨i, by rwa [hslot], fun j hj p hp => ?_⟩
    rw [hcovers p (hpicked j (by omega) p hp)]
    exact hearlier j hj p hp
  · rw [hmarks.mem_iff hq, hflag q hq, Bool.not_eq_true']
  · obtain ⟨e, he, heq⟩ := List.mem_map.mp ((hmarks.marks fn).mp hfn)
    obtain ⟨q, hq, rfl⟩ := List.getElem_of_mem he
    have hentry : m'.globals.entry q = m'.globals.entries[q] := by
      rw [FuzzState.entry, List.getD_eq_getElem?_getD, List.getElem?_eq_getElem hq,
        Option.getD_some]
    obtain ⟨hname, hset⟩ := Prod.mk.inj heq
    refine ⟨q, hq, ?_, by rw [hentry, hname]⟩
    have hnot := hflag q hq
    rw [hentry, hset] at hnot
    rw [hentry]
    cases hfav : m'.globals.entries[q].favored with
    | false => rfl
    | true =>
      rw [hfav] at hnot
      cases hnot

end Runs

/-- A run with two entries. Each owns a slot that the other one does not cover, so both become
favored. -/
theorem favored_cover_bothScored :
    ∃ m' : MarkedState (8 * 1),
      cullMarked (fun _ => true) { globals := bothScored twoEntries } = .ok m' ∧
        ∀ q < 2, (m'.globals.entry q).favored = true := by
  have hadd : Reachable MarkedStart MarkedStep
      ({ globals := twoEntries } : MarkedState (8 * 1)) :=
    .step (.step (.init ⟨false, rfl⟩) ⟨.call (.add "a".toList 4 false), List.not_mem_nil, rfl⟩)
      ⟨.call (.add "b".toList 2 false), by change _ ∉ MarkedOp.entryFiles _; decide, rfl⟩
  have hrun : Reachable MarkedStart MarkedStep
      ({ globals := bothScored twoEntries } : MarkedState (8 * 1)) :=
    .step (.step hadd ⟨.call (.score 0 firstTrace), Nat.two_pos, rfl⟩)
      ⟨.call (.score 1 secondTrace), Nat.one_lt_two, rfl⟩
  obtain ⟨⟨m', hcull⟩, hall⟩ := favored_cover hrun (by decide +kernel)
  refine ⟨m', hcull, fun q hq => ((hall _ m' hcull).1 q).mpr ?_⟩
  revert q
  decide +kernel

end TriforceAFL.Proofs
