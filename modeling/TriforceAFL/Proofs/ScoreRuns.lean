import TriforceAFL.Lib.LatestMin
import TriforceAFL.Proofs.FavoredCover

/-!
# `TriforceAFL.Proofs.ScoreRuns`: the slots over any sequence of scoring calls

`ScoreRun` is a sequence of `update_bitmap_score` calls, for any entries and with any traces. In
between everything may change (`Elsewhere`) but what only `update_bitmap_score` writes: the slots,
the reference counts and the cached traces. Every other call on the queue is of that kind
(`elsewhere_call`), so the runs of the fuzzer are such sequences (`scoreRun_of_reachable`).

* `scoreRun_refs`: the reference counts are exact in every state, also between two turns of the
  scoring loop. The trace of an entry is cached exactly while it owns a slot, so `cull_queue` finds
  the trace of every owner, and a slot is never given up.
* `scoreRun_winner`: with fixed costs, the owner of a slot is the latest of the cheapest entries
  that were scored with the byte of the slot set.
-/

set_option autoImplicit false

namespace TriforceAFL.Proofs

open Lib Spec

section ScoreRuns
variable {k : Nat} {s : FuzzState (8 * k)} {calls : List (Ptr × TraceMap (8 * k))}

/-! ### Sequences of scoring calls -/

/-- What happens between two scoring calls. Entries are added, and all fields may change apart from
those that `update_bitmap_score` keeps for itself. -/
structure Elsewhere (s s' : FuzzState (8 * k)) : Prop where
  slots : s'.topRated = s.topRated
  length_le : s.entries.length ≤ s'.entries.length
  tcRef : ∀ p < s.entries.length, (s'.entry p).tcRef = (s.entry p).tcRef
  traceMini : ∀ p < s.entries.length, (s'.entry p).traceMini = (s.entry p).traceMini
  /-- A new entry comes zeroed from `ck_alloc`. -/
  fresh : ∀ p < s'.entries.length, s.entries.length ≤ p →
    (s'.entry p).tcRef = 0 ∧ (s'.entry p).traceMini = none

/-- The scoring calls `calls`, each with its entry and its trace, lead from `s₀` to `s`. The states
before the calls meet `P`. -/
inductive ScoreRun (P : FuzzState (8 * k) → Prop) (s₀ : FuzzState (8 * k)) :
    List (Ptr × TraceMap (8 * k)) → FuzzState (8 * k) → Prop
  | start : ScoreRun P s₀ [] s₀
  | elsewhere {calls : List (Ptr × TraceMap (8 * k))} {s s' : FuzzState (8 * k)} :
      ScoreRun P s₀ calls s → Elsewhere s s' → ScoreRun P s₀ calls s'
  | score {calls : List (Ptr × TraceMap (8 * k))} {s : FuzzState (8 * k)} (q : Ptr)
      (trace : TraceMap (8 * k)) :
      ScoreRun P s₀ calls s → q < s.entries.length → P s →
        ScoreRun P s₀ (calls ++ [(q, trace)])
          (updateBitmapScore { s with traceBits := trace } q)

/-- No entry has been scored yet. -/
structure Unscored (s : FuzzState (8 * k)) : Prop where
  slots : s.topRated = List.replicate (8 * k) none
  tcRef : ∀ p < s.entries.length, (s.entry p).tcRef = 0
  traceMini : ∀ p < s.entries.length, (s.entry p).traceMini = none

/-- The state after the first `n` turns of `update_bitmap_score(q)`. -/
def scoreTurns (s : FuzzState (8 * k)) (q : Ptr) (n : Nat) : FuzzState (8 * k) :=
  (List.range n).foldl (scoreSlot q (favFactor (s.entry q))) s

theorem updateBitmapScore_eq (s : FuzzState (8 * k)) (q : Ptr) :
    updateBitmapScore s q = scoreTurns s q (8 * k) :=
  rfl

/-! ### The other calls on the queue -/

theorem SameQueue.elsewhere {s s' : FuzzState (8 * k)} (h : SameQueue s s') : Elsewhere s s' where
  slots := h.slots
  length_le := by rw [h.length_eq]
  tcRef := h.tcRef
  traceMini := h.traceMini
  fresh := fun p hp hle => by
    rw [h.length_eq] at hp
    omega

theorem Appended.elsewhere {s s' s'' : FuzzState (8 * k)} (h : Appended s s')
    (hsame : SameQueue s' s'') : Elsewhere s s'' where
  slots := hsame.slots.trans h.slots
  length_le := by
    rw [hsame.length_eq, h.length]
    omega
  tcRef := fun p hp => by
    rw [hsame.tcRef p (by rw [h.length]; omega), h.refs, if_neg (Nat.ne_of_lt hp)]
  traceMini := fun p hp => by
    rw [hsame.traceMini p (by rw [h.length]; omega), h.minis, if_neg (Nat.ne_of_lt hp)]
  fresh := fun p hp hle => by
    rw [hsame.length_eq] at hp
    have hlast : p = s.entries.length := by
      rw [h.length] at hp
      omega
    rw [hsame.tcRef p hp, hsame.traceMini p hp, h.refs, h.minis, if_pos hlast, if_pos hlast]
    exact ⟨rfl, rfl⟩

/-- Every call on the queue is a scoring call or leaves the slots alone. -/
theorem elsewhere_call (h : QueueShape s) (op : QueueOp (8 * k)) :
    (∃ q trace, op = .score q trace) ∨ Elsewhere s (op.apply s) := by
  rcases h.sameQueue_call op with ⟨fname, len, passedDet, rfl⟩ | hscore | hsame
  · obtain ⟨s', happ, _, hsame, _⟩ := addToQueue_appended h.chain fname len passedDet
    exact Or.inr (happ.elsewhere hsame)
  · exact Or.inl hscore
  · exact Or.inr hsame.elsewhere

theorem unscored_start (h : QueueStart s) : Unscored s := by
  obtain ⟨dumbMode, rfl⟩ := h
  exact ⟨rfl, fun p hp => absurd hp (Nat.not_lt_zero p), fun p hp => absurd hp (Nat.not_lt_zero p)⟩

/-- A run of the fuzzer is a sequence of scoring calls, with the other calls in between. -/
theorem scoreRun_of_reachable (h : Reachable QueueStart QueueStep s) :
    ∃ s₀ calls, Unscored s₀ ∧ ScoreRun (fun _ => True) s₀ calls s := by
  have hinv : QueueShape s ∧ ∃ s₀ calls, Unscored s₀ ∧ ScoreRun (fun _ => True) s₀ calls s := by
    refine Reachable.invariant (P := fun s => QueueShape s ∧
      ∃ s₀ calls, Unscored s₀ ∧ ScoreRun (fun _ => True) s₀ calls s) ?_ ?_ h
    · intro s hs
      have hunscored := unscored_start hs
      obtain ⟨dumbMode, rfl⟩ := hs
      have hq := QueueInv.init (k := k) dumbMode
      exact ⟨⟨hq.chain, hq.refs⟩, _, _, hunscored, .start⟩
    · rintro s s' ⟨hshape, s₀, calls, hunscored, hrun⟩ ⟨op, hvalid, rfl⟩
      refine ⟨hshape.call op hvalid, s₀, ?_⟩
      rcases elsewhere_call hshape op with ⟨q, trace, rfl⟩ | hother
      · exact ⟨_, hunscored, hrun.score q trace hvalid trivial⟩
      · exact ⟨calls, hunscored, hrun.elsewhere hother⟩
  exact hinv.2

/-! ### Reference counts -/

theorem Unscored.refInv (h : Unscored s) : RefInv s := by
  have hnone : ∀ p : Ptr, some p ∉ s.topRated := by
    intro p hmem
    rw [h.slots] at hmem
    cases List.eq_of_mem_replicate hmem
  refine ⟨?_, ?_, ?_, ?_⟩
  · rw [h.slots, List.length_replicate]
  · intro i p hp
    unfold slot at hp
    rw [h.slots, List.getD_eq_getElem?_getD, List.getElem?_replicate] at hp
    split at hp <;> cases hp
  · intro p hp
    rw [h.tcRef p hp, List.count_eq_zero.mpr (hnone p)]
  · intro p hp
    exact ⟨fun _ => h.tcRef p hp, fun _ => h.traceMini p hp⟩

theorem Elsewhere.slot_eq {s s' : FuzzState (8 * k)} (h : Elsewhere s s') (i : Nat) :
    slot s' i = slot s i := by
  unfold slot
  rw [h.slots]

theorem Elsewhere.refInv {s s' : FuzzState (8 * k)} (h : Elsewhere s s') (hr : RefInv s) :
    RefInv s' := by
  refine ⟨?_, ?_, ?_, ?_⟩
  · rw [h.slots, hr.slots]
  · intro i p hp
    rw [h.slot_eq] at hp
    exact Nat.lt_of_lt_of_le (hr.valid i p hp) h.length_le
  · intro p hp
    rw [h.slots]
    by_cases hold : p < s.entries.length
    · rw [h.tcRef p hold, hr.refs p hold]
    · -- Nobody can point to an entry that was not there.
      rw [(h.fresh p hp (Nat.le_of_not_lt hold)).1]
      refine (List.count_eq_zero.mpr ?_).symm
      intro hmem
      obtain ⟨i, hi⟩ := List.getElem?_of_mem hmem
      have hown : slot s i = some p := by
        unfold slot
        rw [List.getD_eq_getElem?_getD, hi]
        rfl
      exact hold (hr.valid i p hown)
  · intro p hp
    by_cases hold : p < s.entries.length
    · rw [h.traceMini p hold, h.tcRef p hold]
      exact hr.cached p hold
    · obtain ⟨href, hmini⟩ := h.fresh p hp (Nat.le_of_not_lt hold)
      exact ⟨fun _ => href, fun _ => hmini⟩

/-- The scoring loop keeps the reference counts turn by turn, and the slots that it has not reached
are as before the call. -/
theorem scoreTurns_inv (h : RefInv s) {q : Nat} (hq : q < s.entries.length) {n : Nat}
    (hn : n ≤ 8 * k) :
    RefInv (scoreTurns s q n) ∧ ScoreFrame s n (scoreTurns s q n) := by
  refine foldl_range_induct (P := fun n t => RefInv t ∧ ScoreFrame s n t) ⟨h, ?_⟩ ?_
  · exact ⟨rfl, rfl, fun _ _ => rfl, fun _ => rfl⟩
  · intro i hi t ht
    have hqt : q < t.entries.length := by rwa [ht.2.length_eq]
    have hi' : i < 8 * k := Nat.lt_of_lt_of_le hi hn
    exact ⟨scoreSlot_refInv _ hqt hi' ht.1, ht.2.step _ ht.1 hqt hi'⟩

/-- The invariant does not read `trace_bits`. -/
theorem RefInv.withTrace (h : RefInv s) (trace : TraceMap (8 * k)) :
    RefInv { s with traceBits := trace } :=
  ⟨h.slots, h.valid, h.refs, h.cached⟩

theorem ScoreRun.refInv {P : FuzzState (8 * k) → Prop} {s₀ s : FuzzState (8 * k)} (h₀ : RefInv s₀)
    (h : ScoreRun P s₀ calls s) :
    RefInv s := by
  induction h with
  | start => exact h₀
  | elsewhere _ hother ih => exact hother.refInv ih
  | score q trace _ hq _ ih => exact updateBitmapScore_refInv hq (ih.withTrace trace)

/-! ### Slots are never given up -/

theorem slot_vacate (s : FuzzState (8 * k)) (i j : Nat) : slot (vacate s i) j = slot s j := by
  unfold slot
  rw [topRated_vacate]

/-- A turn of the scoring loop fills its slot or leaves all slots as they are. -/
theorem filled_scoreSlot (h : RefInv s) (q : Ptr) (fav : Nat) {n i : Nat} (hn : n < 8 * k)
    (hi : slot s i ≠ none) : slot (scoreSlot q fav s n) i ≠ none := by
  rcases scoreSlot_cases q fav s n with ⟨_, heq⟩ | ⟨_, heq⟩
  · rw [heq, slot_winSlot _ q (by rwa [topRated_vacate, h.slots]), slot_vacate]
    split
    · exact Option.some_ne_none q
    · exact hi
  · rw [heq]
    exact hi

theorem filled_scoreTurns (h : RefInv s) {q : Nat} (hq : q < s.entries.length) {n i : Nat}
    (hn : n ≤ 8 * k) (hi : slot s i ≠ none) :
    slot (scoreTurns s q n) i ≠ none := by
  induction n with
  | zero => exact hi
  | succ n ih =>
    have hstep : scoreTurns s q (n + 1)
        = scoreSlot q (favFactor (s.entry q)) (scoreTurns s q n) n := by
      unfold scoreTurns
      rw [List.range_succ, List.foldl_append, List.foldl_cons, List.foldl_nil]
    have hinv := scoreTurns_inv h hq (n := n) (by omega)
    rw [hstep]
    exact filled_scoreSlot hinv.1 q _ (by omega) (ih (by omega))

theorem ScoreRun.filled {P : FuzzState (8 * k) → Prop} {s₀ s : FuzzState (8 * k)} (h₀ : RefInv s₀)
    (h : ScoreRun P s₀ calls s) {i : Nat} (hi : slot s₀ i ≠ none) : slot s i ≠ none := by
  induction h with
  | start => exact hi
  | elsewhere _ hother ih =>
    rw [hother.slot_eq]
    exact ih
  | score q trace hrun hq _ ih =>
    rw [updateBitmapScore_eq]
    exact filled_scoreTurns ((hrun.refInv h₀).withTrace trace) hq (Nat.le_refl _) ih

/-! ### The traces that `cull_queue` reads -/

/-- A walk along the queue keeps the field that its function keeps. -/
theorem field_walkQueue {β : Type} (field : QueueEntry → β) {f : QueueEntry → QueueEntry}
    (hf : ∀ e, field (f e) = field e) (fuel : Nat) :
    ∀ (q : Option Ptr) (entries : List QueueEntry) (p : Nat),
      field ((walkQueue f fuel q entries).getD p default) = field (entries.getD p default) := by
  induction fuel with
  | zero => exact fun _ _ _ => rfl
  | succ fuel ih =>
    intro q entries p
    cases q with
    | none => rfl
    | some q =>
      rw [walkQueue, ih, List.getD_eq_getElem?_getD, List.getD_eq_getElem?_getD,
        List.getElem?_modify]
      cases entries[p]? with
      | none => rfl
      | some e =>
        show field (if q = p then f e else e) = field e
        split
        · exact hf e
        · rfl

/-- The selection loop of `cull_queue` changes neither the slots nor the cached traces. -/
theorem selection_keeps (s : FuzzState (8 * k)) (n : Nat) :
    (∀ i, slot (selection s n).2 i = slot s i) ∧
      ∀ p, ((selection s n).2.entry p).traceMini = (s.entry p).traceMini := by
  unfold selection
  refine List.foldlRecOn (motive := fun t : List U8 × FuzzState (8 * k) =>
    (∀ i, slot t.2 i = slot s i) ∧ ∀ p, (t.2.entry p).traceMini = (s.entry p).traceMini) _ _ ?_ ?_
  · refine ⟨fun _ => rfl, ?_⟩
    intro p
    exact field_walkQueue (·.traceMini)
      (f := fun e : QueueEntry => { e with favored := false }) (fun _ => rfl) _ _ _ p
  · intro t ht i _
    unfold cullSlot
    split
    · split
      · refine ⟨ht.1, ?_⟩
        intro p
        rw [← ht.2 p]
        exact field_updateEntry (·.traceMini)
          (f := fun e : QueueEntry => { e with favored := true }) (fun _ => rfl) p
      · exact ht
    · exact ht

/-! ### The reference counts of a run -/

/-- `tc_ref` is the number of slots that an entry owns, and the trace is cached exactly while there
is one. -/
def RefsExact (s : FuzzState (8 * k)) : Prop :=
  ∀ p < s.entries.length, (s.entry p).tcRef = s.topRated.count (some p) ∧
    ((s.entry p).traceMini ≠ none ↔ 0 < (s.entry p).tcRef)

theorem RefInv.refsExact (h : RefInv s) : RefsExact s := by
  intro p hp
  refine ⟨h.refs p hp, ?_⟩
  rw [ne_eq, h.cached p hp]
  omega

/-- The owner of a slot has a cached trace. -/
theorem RefInv.owner_cached (h : RefInv s) {i p : Nat} (hp : slot s i = some p) :
    (s.entry p).traceMini ≠ none := by
  have hlt := h.valid i p hp
  rw [ne_eq, h.cached p hlt, h.refs p hlt]
  refine Nat.ne_of_gt (List.count_pos_iff.mpr ?_)
  unfold slot at hp
  rw [List.getD_eq_getElem?_getD] at hp
  cases hget : s.topRated[i]? with
  | none =>
    rw [hget] at hp
    cases hp
  | some o =>
    rw [hget, Option.getD_some] at hp
    rw [← hp]
    exact List.mem_of_getElem? hget

/-- In every state of a sequence of scoring calls, and after every turn of the next call, the
reference counts are exact. An owner that `cull_queue` reads has its trace, and a slot that is
filled stays filled. -/
theorem scoreRun_refs {s₀ s : FuzzState (8 * k)} {calls : List (Ptr × TraceMap (8 * k))}
    (hstart : Unscored s₀) (hrun : ScoreRun (fun _ => True) s₀ calls s) :
    RefsExact s ∧
    (∀ q < s.entries.length, ∀ trace, ∀ n ≤ 8 * k,
      RefsExact (scoreTurns { s with traceBits := trace } q n)) ∧
    (∀ i p, slot (selection s i).2 i = some p →
      p < s.entries.length ∧ ((selection s i).2.entry p).traceMini ≠ none) ∧
    (∀ calls' s', ScoreRun (fun _ => True) s calls' s' → ∀ i, slot s i ≠ none → slot s' i ≠ none) ∧
    ∀ q < s.entries.length, ∀ trace, ∀ n ≤ 8 * k, ∀ i, slot s i ≠ none →
      slot (scoreTurns { s with traceBits := trace } q n) i ≠ none := by
  have hrefs := hrun.refInv hstart.refInv
  refine ⟨hrefs.refsExact, ?_, ?_, ?_, ?_⟩
  · intro q hq trace n hn
    exact (scoreTurns_inv (hrefs.withTrace trace) hq hn).1.refsExact
  · intro i p hp
    obtain ⟨hslots, hminis⟩ := selection_keeps s i
    rw [hslots] at hp
    rw [hminis]
    exact ⟨hrefs.valid i p hp, hrefs.owner_cached hp⟩
  · intro calls' s' hrun' i hi
    exact hrun'.filled hrefs hi
  · intro q hq trace n hn i hi
    exact filled_scoreTurns (hrefs.withTrace trace) hq hn hi

/-- Two entries. The second has taken a slot from the first. -/
theorem scoreRun_refs_bothScored :
    Unscored twoEntries ∧
    ScoreRun (fun _ => True) twoEntries [(0, firstTrace), (1, secondTrace)]
      (bothScored twoEntries) ∧
    RefsExact (bothScored twoEntries) :=
  have hstart : Unscored twoEntries := ⟨rfl, by decide, by decide⟩
  have hrun : ScoreRun (fun _ => True) twoEntries [(0, firstTrace), (1, secondTrace)]
      (bothScored twoEntries) :=
    .score 1 secondTrace (.score 0 firstTrace .start (by decide) trivial) (by decide +kernel)
      trivial
  ⟨hstart, hrun, (scoreRun_refs hstart hrun).1⟩

/-! ### The owner of a slot -/

/-- The entries that were scored with byte `i` of the trace set, in the order of the calls. -/
def contenders (i : Nat) (calls : List (Ptr × TraceMap (8 * k))) : List Ptr :=
  (calls.filter fun c => c.2.byte i != 0).map (·.1)

theorem contenders_append (i : Nat) (calls : List (Ptr × TraceMap (8 * k))) (q : Ptr)
    (trace : TraceMap (8 * k)) :
    contenders i (calls ++ [(q, trace)])
      = contenders i calls ++ if trace.byte i ≠ 0 then [q] else [] := by
  unfold contenders
  rw [List.filter_append, List.map_append]
  by_cases h : trace.byte i = 0
  · simp [h]
  · have hset : (trace.byte i != 0) = true := bne_iff_ne.mpr h
    rw [if_pos h, List.filter_cons, if_pos hset]
    rfl

/-- What a scoring call makes of a slot: the entry takes it if it wins. -/
theorem slot_updateBitmapScore {q : Nat} (hq : q < s.entries.length) (h : RefInv s) {i : Nat}
    (hi : i < 8 * k) :
    (Wins (favFactor (s.entry q)) s i ∧ slot (updateBitmapScore s q) i = some q) ∨
      (¬ Wins (favFactor (s.entry q)) s i ∧ slot (updateBitmapScore s q) i = slot s i) := by
  unfold updateBitmapScore
  -- Turn `i` decides as the state before the call does, and later turns leave the slot alone.
  refine (foldl_range_induct (P := fun n t => (RefInv t ∧ ScoreFrame s n t) ∧ (i < n →
    (Wins (favFactor (s.entry q)) s i ∧ slot t i = some q) ∨
      (¬ Wins (favFactor (s.entry q)) s i ∧ slot t i = slot s i)))
    ⟨⟨h, ⟨rfl, rfl, fun _ _ => rfl, fun _ => rfl⟩⟩, fun hlt => absurd hlt (Nat.not_lt_zero i)⟩
    ?_).2 hi
  intro n hn t ⟨⟨hr, hframe⟩, hslot⟩
  have hqt : q < t.entries.length := by rwa [hframe.length_eq]
  refine ⟨⟨scoreSlot_refInv _ hqt hn hr, hframe.step _ hr hqt hn⟩, ?_⟩
  intro hlt
  have hset := slot_winSlot (vacate t n) q (i := n) (by rwa [topRated_vacate, hr.slots]) i
  rw [slot_vacate] at hset
  rcases scoreSlot_cases q (favFactor (s.entry q)) t n with ⟨hwins, heq⟩ | ⟨hwins, heq⟩
  · rw [heq, hset]
    by_cases hin : i = n
    · subst hin
      exact Or.inl ⟨(hframe.wins_iff _).mp hwins, if_pos rfl⟩
    · rw [if_neg hin]
      exact hslot (by omega)
  · rw [heq]
    by_cases hin : i = n
    · subst hin
      exact Or.inr ⟨fun hw => hwins ((hframe.wins_iff _).mpr hw), hframe.later i (le_refl i)⟩
    · exact hslot (by omega)

/-- The cost of each entry is the given one. -/
def CostsAre (execUs len : Ptr → Nat) (s : FuzzState (8 * k)) : Prop :=
  ∀ p < s.entries.length, (s.entry p).execUs = execUs p ∧ (s.entry p).len = len p

/-- `exec_us * len` as a 64-bit product. -/
def cost (execUs len : Ptr → Nat) (p : Ptr) : Nat := execUs p * len p % 2 ^ 64

/-- A slot without contenders has no owner, and else the owner is the latest of the cheapest. -/
def SlotOwner (execUs len : Ptr → Nat) (calls : List (Ptr × TraceMap (8 * k)))
    (s : FuzzState (8 * k)) (i : Nat) : Prop :=
  (slot s i = none ∧ contenders i calls = []) ∨
    ∃ p, slot s i = some p ∧ LatestMin (cost execUs len) (contenders i calls) p

/-- A scoring call with fixed costs. -/
theorem SlotOwner.score {execUs len : Ptr → Nat} {i q : Nat} {trace : TraceMap (8 * k)}
    (hr : RefInv s) (hq : q < s.entries.length) (hcosts : CostsAre execUs len s) (hi : i < 8 * k)
    (h : SlotOwner execUs len calls s i) :
    SlotOwner execUs len (calls ++ [(q, trace)])
      (updateBitmapScore { s with traceBits := trace } q) i := by
  have hfav : ∀ p < s.entries.length, favFactor (s.entry p) = cost execUs len p := by
    intro p hp
    obtain ⟨hexec, hlen⟩ := hcosts p hp
    unfold favFactor cost
    rw [hexec, hlen]
  unfold SlotOwner
  rw [contenders_append]
  rcases slot_updateBitmapScore (s := { s with traceBits := trace }) hq (hr.withTrace trace) hi
    with ⟨⟨hbyte, hwins⟩, hslot⟩ | ⟨hloses, hslot⟩
  · -- The entry takes the slot.
    rw [hslot, if_pos hbyte]
    refine Or.inr ⟨q, rfl, ?_⟩
    rcases h with ⟨_, hnobody⟩ | ⟨p, howner, hmin⟩
    · rw [hnobody]
      exact LatestMin.first _ q
    · refine hmin.replace ?_
      rw [← hfav q hq, ← hfav p (hr.valid i p howner)]
      exact hwins p howner
  · rw [hslot]
    by_cases hbyte : trace.byte i = 0
    · rw [if_neg (not_not.mpr hbyte), List.append_nil]
      exact h
    · -- The slot has an owner, and the entry costs more.
      rw [if_pos hbyte]
      rcases h with ⟨hfree, _⟩ | ⟨p, howner, hmin⟩
      · refine absurd ⟨hbyte, ?_⟩ hloses
        intro p hp
        change slot s i = some p at hp
        rw [hfree] at hp
        cases hp
      · refine Or.inr ⟨p, howner, hmin.keep ?_⟩
        rw [← hfav q hq, ← hfav p (hr.valid i p howner)]
        refine Nat.lt_of_not_le ?_
        intro hle
        refine hloses ⟨hbyte, ?_⟩
        intro p' hp'
        change slot s i = some p' at hp'
        rw [howner] at hp'
        cases hp'
        exact hle

theorem ScoreRun.slotOwner {execUs len : Ptr → Nat} {s₀ s : FuzzState (8 * k)}
    (hstart : Unscored s₀) (hrun : ScoreRun (CostsAre execUs len) s₀ calls s) {i : Nat}
    (hi : i < 8 * k) :
    SlotOwner execUs len calls s i := by
  induction hrun with
  | start =>
    refine Or.inl ⟨?_, rfl⟩
    unfold slot
    rw [hstart.slots, List.getD_eq_getElem?_getD, List.getElem?_replicate, if_pos hi]
    rfl
  | elsewhere _ hother ih =>
    unfold SlotOwner
    rw [hother.slot_eq]
    exact ih
  | score q trace hrun hq hcosts ih =>
    exact SlotOwner.score (hrun.refInv hstart.refInv) hq hcosts hi ih

/-- With fixed execution times and lengths, every slot that was set in a scored trace is owned by
one of the entries scored with it set. No such entry costs less, and none that costs as little was
scored with the byte set after the owner was. -/
theorem scoreRun_winner {execUs len : Ptr → Nat} {s₀ s : FuzzState (8 * k)}
    {calls : List (Ptr × TraceMap (8 * k))} (hstart : Unscored s₀)
    (hrun : ScoreRun (CostsAre execUs len) s₀ calls s) {i : Nat} (hi : i < 8 * k)
    (hset : ∃ c ∈ calls, c.2.byte i ≠ 0) :
    ∃ p, slot s i = some p ∧ p ∈ contenders i calls ∧
      (∀ r ∈ contenders i calls,
        execUs p * len p % 2 ^ 64 ≤ execUs r * len r % 2 ^ 64) ∧
      ∃ before after, contenders i calls = before ++ p :: after ∧
        ∀ r ∈ after, execUs r * len r % 2 ^ 64 ≠ execUs p * len p % 2 ^ 64 := by
  rcases hrun.slotOwner hstart hi with ⟨_, hnobody⟩ | ⟨p, howner, hmin⟩
  · obtain ⟨c, hmem, hbyte⟩ := hset
    have hc : c.1 ∈ contenders i calls :=
      List.mem_map.mpr ⟨c, List.mem_filter.mpr ⟨hmem, bne_iff_ne.mpr hbyte⟩, rfl⟩
    rw [hnobody] at hc
    cases hc
  · refine ⟨p, howner, ?_, fun r hr => hmin.le hr, ?_⟩
    · obtain ⟨before, after, hsplit, _⟩ := hmin
      rw [hsplit]
      exact List.mem_append_right before List.mem_cons_self
    · obtain ⟨before, after, hsplit, _, hafter⟩ := hmin
      exact ⟨before, after, hsplit, fun r hr => Nat.ne_of_gt (hafter r hr)⟩

/-- The two entries with their execution times. The second is the cheaper one. -/
def twoMeasured : FuzzState (8 * 1) :=
  (QueueOp.measure 1 10 2 0).apply ((QueueOp.measure 0 30 4 0).apply twoEntries)

/-- It takes the slot that both traces set. -/
theorem scoreRun_winner_bothScored :
    let execUs p := if p = 0 then 30 else 10
    let len p := if p = 0 then 4 else 2
    let calls := [(0, firstTrace), (1, secondTrace)]
    ScoreRun (CostsAre execUs len) twoMeasured calls (bothScored twoMeasured) ∧
    ∃ p, slot (bothScored twoMeasured) 1 = some p ∧ p ∈ contenders 1 calls ∧
      ∀ r ∈ contenders 1 calls, execUs p * len p % 2 ^ 64 ≤ execUs r * len r % 2 ^ 64 := by
  intro execUs len calls
  have hrun : ScoreRun (CostsAre execUs len) twoMeasured calls (bothScored twoMeasured) :=
    .score 1 secondTrace (.score 0 firstTrace .start (by decide) (by unfold CostsAre; decide))
      (by decide +kernel) (by unfold CostsAre; decide +kernel)
  obtain ⟨p, hslot, hmem, hmin, -⟩ := scoreRun_winner ⟨rfl, by decide, by decide⟩ hrun (i := 1)
    (by decide) ⟨_, List.mem_cons_self, by decide⟩
  exact ⟨hrun, p, hslot, hmem, hmin⟩

end ScoreRuns

end TriforceAFL.Proofs
