import TriforceAFL.Lib.Reachable
import TriforceAFL.Proofs.TopRated
import TriforceAFL.Spec.QueueOps

/-!
# `TriforceAFL.Proofs.Favored`: the counters of the favored set

`cull_queue` counts one favored entry for every slot that it picks. The count is right when it
picks no entry twice, and for that the cached trace of an entry has to cover the slots that the
entry owns (`CoverInv`).

* `CullInv` is the invariant of the selection loop, and `recomputeFavored_spec` what one
  recomputation gives.
* `QueueInv` is what every call keeps: `QueueInv.add`, `.measure`, `.score`, `.cull`, `.finish`.
-/

set_option autoImplicit false

namespace TriforceAFL.Proofs

open Lib Spec

/-! ### The bits left in `temp_v` -/

/-- The bytes after `removeBits` has worked on the positions in `js`. -/
theorem byteOf_removeBits_fold (mini : List U8) (js : List Nat) (v : List U8)
    (hjs : ∀ j ∈ js, j < v.length) (r : Nat) :
    (js.foldl (fun v j => if byteOf mini j ≠ 0 then v.set j (byteOf v j &&& ~~~byteOf mini j)
        else v) v).length = v.length ∧
      byteOf (js.foldl (fun v j => if byteOf mini j ≠ 0
        then v.set j (byteOf v j &&& ~~~byteOf mini j) else v) v) r =
        if r ∈ js then byteOf v r &&& ~~~byteOf mini r else byteOf v r := by
  induction js generalizing v with
  | nil => exact ⟨rfl, by simp⟩
  | cons j js ih =>
    rw [List.foldl_cons]
    have hj : j < v.length := hjs j List.mem_cons_self
    -- One position; a byte of `mini` that is zero removes nothing.
    have hstep : ∀ w, w = (if byteOf mini j ≠ 0
        then v.set j (byteOf v j &&& ~~~byteOf mini j) else v) →
        w.length = v.length ∧
          byteOf w r = if r = j then byteOf v r &&& ~~~byteOf mini r else byteOf v r := by
      intro w hw
      subst hw
      split
      · refine ⟨List.length_set, ?_⟩
        rw [byteOf_set _ _ _ _ hj]
        split
        · rename_i hr
          rw [hr]
        · rfl
      · rename_i hzero
        refine ⟨rfl, ?_⟩
        split
        · rename_i hr
          rw [hr, not_not.mp hzero]
          exact (and_ff (byteOf v j)).symm
        · rfl
    obtain ⟨hlen, hbyte⟩ := hstep _ rfl
    obtain ⟨hlen', hbyte'⟩ := ih _ fun i hi => by
      rw [hlen]
      exact hjs i (List.mem_cons_of_mem j hi)
    refine ⟨hlen'.trans hlen, ?_⟩
    rw [hbyte', hbyte]
    by_cases hrj : r = j
    · subst hrj
      simp [BitVec.and_assoc]
    · simp [hrj]

theorem length_removeBits (mini v : List U8) : (removeBits mini v).length = v.length :=
  (byteOf_removeBits_fold mini (List.range v.length).reverse v (fun j hj => by simpa using hj) 0).1

/-- `removeBits` removes exactly the bits of `mini`. -/
theorem miniBit_removeBits (mini v : List U8) (i : Nat) (hi : i < 8 * v.length) :
    (removeBits mini v).length = v.length ∧
      miniBit (removeBits mini v) i = (miniBit v i && !miniBit mini i) := by
  obtain ⟨hlen, hbyte⟩ := byteOf_removeBits_fold mini (List.range v.length).reverse v
    (fun j hj => by simpa using hj) (i / 8)
  refine ⟨hlen, ?_⟩
  have hmem : i / 8 ∈ (List.range v.length).reverse := by
    rw [List.mem_reverse, List.mem_range]
    omega
  rw [if_pos hmem] at hbyte
  rw [miniBit_eq, miniBit_eq, miniBit_eq, removeBits, hbyte, BitVec.getLsbD_and,
    BitVec.getLsbD_not]
  have hlt : i % 8 < 8 := Nat.mod_lt _ (by decide)
  simp [hlt]

/-! ### The invariant of the queue -/

section Invariant
variable {k : Nat}

/-- The list of queue entries is the heap, in allocation order. -/
structure Chain (s : FuzzState (8 * k)) : Prop where
  linked : Linked s.entries
  queue : s.queue = if s.entries = [] then none else some 0
  top : s.queueTop = if s.entries = [] then none else some (s.entries.length - 1)

/-- The invariant of all runs in which the scoring calls meet `ScoreOk`. -/
structure QueueInv (s : FuzzState (8 * k)) : Prop where
  chain : Chain s
  refs : RefInv s
  cover : CoverInv s
  pending : s.pendingFavored.toNat = pendingFavoredCount s

/-- Two states with the same slots, and entries that agree in what the invariant reads. -/
structure SameQueue (s s' : FuzzState (8 * k)) : Prop where
  slots : s'.topRated = s.topRated
  queue : s'.queue = s.queue
  top : s'.queueTop = s.queueTop
  length_eq : s'.entries.length = s.entries.length
  tcRef : ∀ p < s.entries.length, (s'.entry p).tcRef = (s.entry p).tcRef
  traceMini : ∀ p < s.entries.length, (s'.entry p).traceMini = (s.entry p).traceMini
  next : ∀ p < s.entries.length, (s'.entry p).next = (s.entry p).next

namespace SameQueue

variable {s s' : FuzzState (8 * k)}

theorem refl (s : FuzzState (8 * k)) : SameQueue s s :=
  ⟨rfl, rfl, rfl, rfl, fun _ _ => rfl, fun _ _ => rfl, fun _ _ => rfl⟩

theorem refInv (h : SameQueue s s') (hr : RefInv s) : RefInv s' := by
  refine ⟨?_, fun i p hp => ?_, fun p hp => ?_, fun p hp => ?_⟩
  · rw [h.slots, hr.slots]
  · unfold slot at hp
    rw [h.slots] at hp
    rw [h.length_eq]
    exact hr.valid i p hp
  · rw [h.length_eq] at hp
    rw [h.tcRef p hp, h.slots, hr.refs p hp]
  · rw [h.length_eq] at hp
    rw [h.traceMini p hp, h.tcRef p hp]
    exact hr.cached p hp

theorem coverInv (h : SameQueue s s') (hr : RefInv s) (hc : CoverInv s) : CoverInv s' := by
  intro i p hp
  have hp' : slot s i = some p := by
    unfold slot at hp ⊢
    rwa [h.slots] at hp
  rw [h.traceMini p (hr.valid i p hp')]
  exact hc i p hp'

theorem chain (h : SameQueue s s') (hc : Chain s) : Chain s' := by
  have hempty : s'.entries = [] ↔ s.entries = [] := by
    rw [← List.length_eq_zero_iff, h.length_eq, List.length_eq_zero_iff]
  refine ⟨fun p hp => ?_, ?_, ?_⟩
  · rw [h.length_eq] at hp ⊢
    rw [← hc.linked p hp]
    exact h.next p hp
  · rw [h.queue, hc.queue]
    simp only [hempty]
  · rw [h.top, hc.top, h.length_eq]
    simp only [hempty]

theorem trans {s₁ s₂ s₃ : FuzzState (8 * k)} (h : SameQueue s₁ s₂) (h' : SameQueue s₂ s₃) :
    SameQueue s₁ s₃ := by
  refine ⟨h'.slots.trans h.slots, h'.queue.trans h.queue, h'.top.trans h.top,
    h'.length_eq.trans h.length_eq, fun p hp => ?_, fun p hp => ?_, fun p hp => ?_⟩
  · rw [h'.tcRef p (by rwa [h.length_eq]), h.tcRef p hp]
  · rw [h'.traceMini p (by rwa [h.length_eq]), h.traceMini p hp]
  · rw [h'.next p (by rwa [h.length_eq]), h.next p hp]

/-- A write that keeps the three fields. -/
theorem updateEntry (s : FuzzState (8 * k)) (p : Nat) {f : QueueEntry → QueueEntry}
    (hf : ∀ e, (f e).tcRef = e.tcRef ∧ (f e).traceMini = e.traceMini ∧ (f e).next = e.next) :
    SameQueue s (s.updateEntry p f) :=
  ⟨rfl, rfl, rfl, length_updateEntry s p f,
    fun r _ => field_updateEntry (·.tcRef) (fun e => (hf e).1) r,
    fun r _ => field_updateEntry (·.traceMini) (fun e => (hf e).2.1) r,
    fun r _ => field_updateEntry (·.next) (fun e => (hf e).2.2) r⟩

/-- A change of all entries that keeps the three fields. -/
theorem mapEntries (s : FuzzState (8 * k)) {f : QueueEntry → QueueEntry}
    (hf : ∀ e, (f e).tcRef = e.tcRef ∧ (f e).traceMini = e.traceMini ∧ (f e).next = e.next) :
    SameQueue s { s with entries := s.entries.map f } := by
  have hentry : ∀ p < s.entries.length,
      ({ s with entries := s.entries.map f } : FuzzState (8 * k)).entry p = f (s.entry p) := by
    intro p hp
    show (s.entries.map f).getD p default = f (s.entries.getD p default)
    simp [List.getD_eq_getElem?_getD, List.getElem?_eq_getElem hp]
  refine ⟨rfl, rfl, rfl, List.length_map f, fun p hp => ?_, fun p hp => ?_, fun p hp => ?_⟩
  · rw [hentry p hp]
    exact (hf _).1
  · rw [hentry p hp]
    exact (hf _).2.1
  · rw [hentry p hp]
    exact (hf _).2.2

end SameQueue

end Invariant

/-! ### One recomputation of the favored set -/

section Cull
variable {k : Nat} {t : List U8 × FuzzState (8 * k)} {s₀ : FuzzState (8 * k)}

/-- What holds after the first `n` slots, when the loop started in `s₀`. -/
structure CullInv (s₀ : FuzzState (8 * k)) (n : Nat) (t : List U8 × FuzzState (8 * k)) :
    Prop where
  temp_length : t.1.length = k
  /-- `temp_v` holds the bits that no favored entry covers. -/
  temp : ∀ i < 8 * k, miniBit t.1 i = true ↔ ∀ p mini, (t.2.entry p).favored = true →
    (t.2.entry p).traceMini = some mini → miniBit mini i = false
  same : SameQueue s₀ t.2
  /-- Only `favored` is written. -/
  frame : ∀ p, t.2.entry p = { s₀.entry p with favored := (t.2.entry p).favored }
  queued : t.2.queuedFavored = favoredCount t.2
  pending : t.2.pendingFavored.toNat = pendingFavoredCount t.2
  bound : t.2.queuedFavored ≤ n

/-- The pending favorites are favorites. -/
theorem pendingFavoredCount_le {m : Nat} (s : FuzzState m) :
    pendingFavoredCount s ≤ favoredCount s :=
  List.countP_mono_left fun _ _ he => (Bool.and_eq_true _ _ ▸ he).1

/-- The owner of a slot whose bit is still in `temp_v` is not favored yet. -/
theorem CullInv.not_favored {n p : Nat} (hcover : CoverInv s₀) (h : CullInv s₀ n t) (hn : n < 8 * k)
    (hslot : slot s₀ n = some p) (hbit : miniBit t.1 n = true) :
    (t.2.entry p).favored = false := by
  obtain ⟨mini, hmini, hcovers⟩ := hcover n p hslot
  cases hfav : (t.2.entry p).favored with
  | false => rfl
  | true =>
    have hmini' : (t.2.entry p).traceMini = some mini := by
      rw [h.frame p]
      exact hmini
    -- A favored owner would have removed the bit of this slot.
    rw [(h.temp n hn).mp hbit p mini hfav hmini'] at hcovers
    cases hcovers

/-- The state after the owner `p` of a slot is picked. -/
def pick (t : List U8 × FuzzState (8 * k)) (p : Nat) : List U8 × FuzzState (8 * k) :=
  (removeBits ((t.2.entry p).traceMini.getD []) t.1,
    { t.2.updateEntry p (fun e => { e with favored := true }) with
      queuedFavored := t.2.queuedFavored + 1
      pendingFavored := if (t.2.entry p).wasFuzzed then t.2.pendingFavored
        else t.2.pendingFavored + 1 })

theorem entry_pick {p : Nat} (hp : p < t.2.entries.length) (r : Nat) : (pick t p).2.entry r =
      if r = p then { t.2.entry p with favored := true } else t.2.entry r := by
  show (t.2.updateEntry p _).entry r = _
  rw [entry_updateEntry]
  simp only [hp, and_true]

/-- Picking removes the bits of the picked entry from `temp_v`. -/
theorem CullInv.temp_pick {n p : Nat} {mini : List U8} (h : CullInv s₀ n t)
    (hp : p < t.2.entries.length) (hmini : (t.2.entry p).traceMini = some mini) (i : Nat)
    (hi : i < 8 * k) :
    miniBit (pick t p).1 i = true ↔ ∀ r mini, ((pick t p).2.entry r).favored = true →
      ((pick t p).2.entry r).traceMini = some mini → miniBit mini i = false := by
  have hbits : miniBit (pick t p).1 i = (miniBit t.1 i && !miniBit mini i) := by
    show miniBit (removeBits ((t.2.entry p).traceMini.getD []) t.1) i = _
    rw [hmini]
    exact (miniBit_removeBits mini t.1 i (by rwa [h.temp_length])).2
  rw [hbits, Bool.and_eq_true, h.temp i hi, Bool.not_eq_true']
  constructor
  · rintro ⟨hothers, hself⟩ r mini' hfav hmini'
    rw [entry_pick hp] at hfav hmini'
    -- The favored entries are the old ones and `p`.
    by_cases hr : r = p
    · rw [if_pos hr] at hmini'
      change (t.2.entry p).traceMini = some mini' at hmini'
      rw [hmini] at hmini'
      cases hmini'
      exact hself
    · rw [if_neg hr] at hfav hmini'
      exact hothers r mini' hfav hmini'
  · intro hall
    refine ⟨fun r mini' hfav hmini' => ?_, ?_⟩
    · refine hall r mini' ?_ ?_
      · rw [entry_pick hp]
        split
        · rfl
        · exact hfav
      · rw [entry_pick hp]
        split
        · rename_i hr
          rw [← hr]
          exact hmini'
        · exact hmini'
    · refine hall p mini ?_ ?_
      · rw [entry_pick hp, if_pos rfl]
      · rw [entry_pick hp, if_pos rfl]
        exact hmini

/-- The entry that is picked counts once more, in both counters. -/
theorem CullInv.counts_pick {n p : Nat} (hn : n < 2 ^ 32 - 1) (h : CullInv s₀ n t)
    (hp : p < t.2.entries.length) (hfresh : (t.2.entry p).favored = false) :
    (pick t p).2.queuedFavored = favoredCount (pick t p).2 ∧
      (pick t p).2.pendingFavored.toNat = pendingFavoredCount (pick t p).2 := by
  have hcount := countP_updateEntry t.2 (fun e => { e with favored := true }) hp (·.favored)
  have hpend := countP_updateEntry t.2 (fun e => { e with favored := true }) hp
    (fun e => e.favored && !e.wasFuzzed)
  dsimp only at hcount hpend
  rw [hfresh] at hcount hpend
  rw [Bool.false_and] at hpend
  rw [Bool.true_and] at hpend
  simp only [Bool.toNat_true, Bool.toNat_false, Nat.add_zero] at hcount hpend
  have hle := pendingFavoredCount_le t.2
  have hqueued := h.queued
  have hpending := h.pending
  have hbound := h.bound
  -- At most one entry per slot is counted, so the 32-bit counter does not wrap.
  have hno : (t.2.pendingFavored + 1).toNat = t.2.pendingFavored.toNat + 1 := by
    rw [BitVec.toNat_add]
    exact Nat.mod_eq_of_lt (by change t.2.pendingFavored.toNat + 1 < 2 ^ 32; omega)
  refine ⟨?_, ?_⟩
  · show t.2.queuedFavored + 1 = (t.2.updateEntry p _).entries.countP _
    rw [hcount, hqueued]
    rfl
  · show (if (t.2.entry p).wasFuzzed then t.2.pendingFavored
      else t.2.pendingFavored + 1).toNat = (t.2.updateEntry p _).entries.countP _
    rw [hpend]
    cases (t.2.entry p).wasFuzzed with
    | true => exact hpending
    | false =>
      rw [if_neg (by decide), hno, hpending]
      rfl

theorem cullSlot_inv {n : Nat} (hk : 8 * k < 2 ^ 32) (hrefs : RefInv s₀) (hcover : CoverInv s₀)
    (hn : n < 8 * k) (h : CullInv s₀ n t) :
    CullInv s₀ (n + 1) (cullSlot t n) := by
  have hsame : CullInv s₀ (n + 1) t :=
    ⟨h.temp_length, h.temp, h.same, h.frame, h.queued, h.pending, Nat.le_succ_of_le h.bound⟩
  unfold cullSlot
  split
  · rename_i p hp
    split
    · rename_i hbit
      have hslot : slot s₀ n = some p := by
        unfold slot
        rw [← h.same.slots]
        exact hp
      have hplen : p < t.2.entries.length := by
        rw [h.same.length_eq]
        exact hrefs.valid n p hslot
      obtain ⟨mini, hmini, _⟩ := hcover n p hslot
      have hmini' : (t.2.entry p).traceMini = some mini := by
        rw [h.frame p]
        exact hmini
      obtain ⟨hqueued, hpending⟩ :=
        h.counts_pick (by omega) hplen (h.not_favored hcover hn hslot hbit)
      -- The slot has an owner, and its bit is still uncovered.
      show CullInv s₀ (n + 1) (pick t p)
      have hwrite : SameQueue t.2 (t.2.updateEntry p fun e => { e with favored := true }) :=
        SameQueue.updateEntry t.2 p fun e => ⟨rfl, rfl, rfl⟩
      have hsame := h.same.trans hwrite
      refine ⟨?_, h.temp_pick hplen hmini', ⟨hsame.1, hsame.2, hsame.3, hsame.4, hsame.5, hsame.6,
        hsame.7⟩, fun r => ?_, hqueued, hpending, Nat.succ_le_succ h.bound⟩
      · exact (miniBit_removeBits _ t.1 n (by rwa [h.temp_length])).1.trans h.temp_length
      · rw [entry_pick hplen]
        split
        · rename_i hr
          rw [h.frame p, hr]
        · exact h.frame r
    · exact hsame
  · exact hsame

/-- The state in which the selection loop starts. -/
def clearFavored (s : FuzzState (8 * k)) : FuzzState (8 * k) :=
  { s with
    scoreChanged := false
    queuedFavored := 0
    pendingFavored := 0
    entries := s.entries.map fun e => { e with favored := false } }

theorem sameQueue_clearFavored (s : FuzzState (8 * k)) : SameQueue s (clearFavored s) := by
  have h := SameQueue.mapEntries s (f := fun e : QueueEntry => { e with favored := false })
    fun e => ⟨rfl, rfl, rfl⟩
  exact ⟨h.1, h.2, h.3, h.4, h.5, h.6, h.7⟩

theorem entry_clearFavored_favored (s : FuzzState (8 * k)) (p : Nat) :
    ((clearFavored s).entry p).favored = false := by
  show ((s.entries.map fun e : QueueEntry => { e with favored := false }).getD p default).favored =
    false
  rw [List.getD_eq_getElem?_getD, List.getElem?_map]
  cases s.entries[p]? <;> rfl

/-- Nothing is favored when the selection starts. -/
theorem cullInv_clearFavored (s : FuzzState (8 * k)) :
    CullInv (clearFavored s) 0 (List.replicate k 0xff, clearFavored s) := by
  have hcount : ∀ c : QueueEntry → Bool, (∀ e, e.favored = false → c e = false) →
      (clearFavored s).entries.countP c = 0 := by
    intro c hc
    rw [List.countP_eq_zero]
    intro e he
    obtain ⟨e', _, rfl⟩ := List.mem_map.mp he
    rw [hc _ rfl]
    decide
  refine ⟨List.length_replicate, fun i hi => ?_, ⟨rfl, rfl, rfl, rfl, fun _ _ => rfl,
    fun _ _ => rfl, fun _ _ => rfl⟩, fun p => rfl, ?_, ?_, Nat.le_refl 0⟩
  · have hbyte : byteOf (List.replicate k (0xff : U8)) (i / 8) = 0xff := by
      unfold byteOf
      rw [List.getD_eq_getElem?_getD, List.getElem?_replicate, if_pos (by omega)]
      rfl
    have hbit : ∀ j < 8, (0xff : U8).getLsbD j = true := by decide
    constructor
    · -- All bits are set, and no entry is favored that could cover one.
      intro _ p mini hfav
      rw [entry_clearFavored_favored] at hfav
      cases hfav
    · intro _
      show miniBit (List.replicate k 0xff) i = true
      rw [miniBit_eq, hbyte]
      exact hbit _ (Nat.mod_lt _ (by decide))
  · exact (hcount (·.favored) fun e he => he).symm
  · refine (hcount _ fun e he => ?_).symm
    rw [he]
    rfl

/-- The first walk reaches every entry. -/
theorem walkQueue_unfavor {s : FuzzState (8 * k)} (hchain : Chain s) :
    walkQueue (fun e => { e with favored := false }) s.entries.length s.queue s.entries =
      s.entries.map fun e => { e with favored := false } :=
  walkQueue_eq_map (f := fun e : QueueEntry => { e with favored := false }) (fun _ => rfl)
    hchain.linked hchain.queue

/-- Recomputing the favored set makes both counters exact. -/
theorem recomputeFavored_spec {s : FuzzState (8 * k)} (hk : 8 * k < 2 ^ 32) (hchain : Chain s)
    (hrefs : RefInv s) (hcover : CoverInv s) :
    SameQueue s (recomputeFavored s) ∧
      (recomputeFavored s).queuedFavored = favoredCount (recomputeFavored s) ∧
      (recomputeFavored s).pendingFavored.toNat = pendingFavoredCount (recomputeFavored s) := by
  have hclear := sameQueue_clearFavored s
  have hloop : CullInv (clearFavored s) (8 * k) ((List.range (8 * k)).foldl cullSlot
      (List.replicate k 0xff, clearFavored s)) :=
    foldl_range_induct (P := CullInv (clearFavored s)) (cullInv_clearFavored s)
      fun n hn t ht => cullSlot_inv hk (hclear.refInv hrefs) (hclear.coverInv hrefs hcover) hn ht
  have heq : recomputeFavored s = (fun t : FuzzState (8 * k) => { t with
      entries := walkQueue (fun e => { e with fsRedundant := !e.favored }) t.entries.length t.queue
        t.entries }) ((List.range (8 * k)).foldl cullSlot
          (List.replicate k 0xff, clearFavored s)).2 := by
    unfold recomputeFavored clearFavored
    rw [walkQueue_unfavor hchain, shiftRight_three]
  rw [heq]
  generalize (List.range (8 * k)).foldl cullSlot (List.replicate k 0xff, clearFavored s) = t
    at hloop
  have hsame := hclear.trans hloop.same
  have hchain' := hsame.chain hchain
  -- The second walk reaches every entry too, and only writes `fs_redundant`.
  have hwalk' : walkQueue (fun e => { e with fsRedundant := !e.favored }) t.2.entries.length
      t.2.queue t.2.entries = t.2.entries.map fun e => { e with fsRedundant := !e.favored } :=
    walkQueue_eq_map (f := fun e : QueueEntry => { e with fsRedundant := !e.favored })
      (fun _ => rfl) hchain'.linked hchain'.queue
  dsimp only
  rw [hwalk']
  refine ⟨hsame.trans (SameQueue.mapEntries t.2 fun e => ⟨rfl, rfl, rfl⟩), ?_, ?_⟩
  · refine hloop.queued.trans ?_
    unfold favoredCount
    rw [List.countP_map]
    rfl
  · refine hloop.pending.trans ?_
    unfold pendingFavoredCount
    rw [List.countP_map]
    rfl

end Cull

/-! ### The operations keep the invariant -/

section Ops
variable {k : Nat} {s : FuzzState (8 * k)}

/-- A change that the invariant does not see. -/
theorem QueueInv.of_same {s' : FuzzState (8 * k)} (h : QueueInv s) (hsame : SameQueue s s')
    (hpending : s'.pendingFavored.toNat = pendingFavoredCount s') : QueueInv s' :=
  ⟨hsame.chain h.chain, hsame.refInv h.refs, hsame.coverInv h.refs h.cover, hpending⟩

theorem QueueInv.init (dumbMode : Bool) : QueueInv ({ dumbMode } : FuzzState (8 * k)) := by
  have hslot : ∀ i, slot ({ dumbMode } : FuzzState (8 * k)) i = none := by
    intro i
    show (List.replicate (8 * k) (none : Option Ptr)).getD i none = none
    rw [List.getD_eq_getElem?_getD, List.getElem?_replicate]
    split <;> rfl
  refine ⟨⟨fun p hp => absurd hp (Nat.not_lt_zero p), rfl, rfl⟩,
    ⟨List.length_replicate, fun i p hp => ?_, fun p hp => absurd hp (Nat.not_lt_zero p),
      fun p hp => absurd hp (Nat.not_lt_zero p)⟩, fun i p hp => ?_, rfl⟩
  · rw [hslot] at hp
    cases hp
  · rw [hslot] at hp
    cases hp

theorem QueueInv.measure (h : QueueInv s) (q execUs len calFailed : Nat) :
    QueueInv (s.updateEntry q fun e => { e with execUs, len, calFailed }) := by
  refine h.of_same (SameQueue.updateEntry s q fun e => ⟨rfl, rfl, rfl⟩) ?_
  refine h.pending.trans (countP_updateEntry_same s q ?_).symm
  exact fun e => rfl

theorem QueueInv.cull (hk : 8 * k < 2 ^ 32) (h : QueueInv s) : QueueInv (cullQueue s) := by
  unfold cullQueue
  split
  · obtain ⟨hsame, _, hpending⟩ := recomputeFavored_spec hk h.chain h.refs h.cover
    exact h.of_same hsame hpending
  · exact h

/-- Completing an entry that is favored takes one off `pending_favored`, and there is one. -/
theorem QueueInv.finish (h : QueueInv s) {q : Nat} (hq : q < s.entries.length)
    (stopSoon : Bool) : QueueInv (abandonEntry s q stopSoon) := by
  unfold abandonEntry
  dsimp only
  split
  · rename_i hcond
    have hfuzzed : (s.entry q).wasFuzzed = false := by
      simp only [Bool.and_eq_true, Bool.not_eq_true'] at hcond
      exact hcond.2
    have hsame := SameQueue.updateEntry s q
      (f := fun e : QueueEntry => { e with wasFuzzed := true })
      fun e => ⟨rfl, rfl, rfl⟩
    refine h.of_same ⟨hsame.1, hsame.2, hsame.3, hsame.4, hsame.5, hsame.6, hsame.7⟩ ?_
    have hcount := countP_updateEntry s (fun e => { e with wasFuzzed := true }) hq
      (fun e => e.favored && !e.wasFuzzed)
    dsimp only at hcount
    rw [hfuzzed, Bool.not_true, Bool.and_false, Bool.not_false, Bool.and_true, Bool.toNat_false,
      Nat.add_zero] at hcount
    have hpending := h.pending
    show (if (s.entry q).favored then s.pendingFavored - 1 else s.pendingFavored).toNat =
      (s.updateEntry q _).entries.countP _
    unfold pendingFavoredCount at hpending
    cases hfav : (s.entry q).favored with
    | false =>
      rw [hfav, Bool.toNat_false, Nat.add_zero] at hcount
      rw [hcount, ← hpending]
      rfl
    | true =>
      rw [hfav, Bool.toNat_true] at hcount
      have hsub : (s.pendingFavored - 1).toNat = s.pendingFavored.toNat - 1 := by
        have hle : (1 : U32) ≤ s.pendingFavored := by
          rw [BitVec.le_def]
          show 1 ≤ s.pendingFavored.toNat
          omega
        exact BitVec.toNat_sub_of_le hle
      rw [if_pos rfl, hsub, hpending]
      omega
  · exact h

/-- Scoring touches neither the marks of the entries nor the links. -/
theorem scoreSlot_marks (q : Nat) (fav : Nat) (t : FuzzState (8 * k)) (i : Nat) :
    pendingFavoredCount (scoreSlot q fav t i) = pendingFavoredCount t ∧
      (scoreSlot q fav t i).pendingFavored = t.pendingFavored := by
  have hvacate : pendingFavoredCount (vacate t i) = pendingFavoredCount t ∧
      (vacate t i).pendingFavored = t.pendingFavored := by
    unfold vacate
    split
    · exact ⟨countP_updateEntry_same t _ fun e => rfl, rfl⟩
    · exact ⟨rfl, rfl⟩
  rcases scoreSlot_cases q fav t i with ⟨_, heq⟩ | ⟨_, heq⟩
  · rw [heq]
    refine ⟨(countP_updateEntry_same (vacate t i) q ?_).trans hvacate.1, hvacate.2⟩
    exact fun e => rfl
  · rw [heq]
    exact ⟨rfl, rfl⟩

theorem scoreSlot_chain {q : Nat} (fav : Nat) {t : FuzzState (8 * k)} (i : Nat) (h : Chain t) :
    Chain (scoreSlot q fav t i) := by
  have hwrite : ∀ (u : FuzzState (8 * k)) (p : Nat) (f : QueueEntry → QueueEntry),
      (∀ e, (f e).next = e.next) → Chain u → Chain (u.updateEntry p f) := by
    intro u p f hf hu
    have hempty : (u.updateEntry p f).entries = [] ↔ u.entries = [] := by
      rw [← List.length_eq_zero_iff, length_updateEntry, List.length_eq_zero_iff]
    refine ⟨hu.linked.modify p hf, hu.queue.trans ?_, hu.top.trans ?_⟩
    · simp only [hempty]
    · simp only [hempty, length_updateEntry]
  have hvacate : Chain (vacate t i) := by
    unfold vacate
    split
    · exact hwrite t _ _ (fun e => rfl) h
    · exact h
  rcases scoreSlot_cases q fav t i with ⟨_, heq⟩ | ⟨_, heq⟩
  · rw [heq]
    have hwin := hwrite (vacate t i) q (fun e => { e with
      tcRef := e.tcRef + 1
      traceMini := some (e.traceMini.getD (minimizeBits (vacate t i).traceBits)) })
      (fun e => rfl) hvacate
    exact ⟨hwin.linked, hwin.queue, hwin.top⟩
  · rw [heq]
    exact h

theorem updateBitmapScore_chain {q : Nat} (h : Chain s) : Chain (updateBitmapScore s q) :=
  List.foldlRecOn (motive := Chain) _ _ h fun _ ht i _ => scoreSlot_chain _ i ht

theorem QueueInv.score (h : QueueInv s) {q : Nat} (hq : q < s.entries.length)
    (trace : TraceMap (8 * k)) (hok : ScoreOk { s with traceBits := trace } q) :
    QueueInv (updateBitmapScore { s with traceBits := trace } q) := by
  have h₀ : QueueInv { s with traceBits := trace } :=
    ⟨⟨h.chain.linked, h.chain.queue, h.chain.top⟩,
      ⟨h.refs.slots, h.refs.valid, h.refs.refs, h.refs.cached⟩, h.cover, h.pending⟩
  refine ⟨updateBitmapScore_chain h₀.chain, updateBitmapScore_refInv hq h₀.refs,
    updateBitmapScore_coverInv hq h₀.refs h₀.cover hok, ?_⟩
  refine List.foldlRecOn (motive := fun t : FuzzState (8 * k) =>
    t.pendingFavored.toNat = pendingFavoredCount t) _ _ h₀.pending fun t ht i _ => ?_
  obtain ⟨hcount, hcounter⟩ := scoreSlot_marks q (favFactor
    (({ s with traceBits := trace } : FuzzState (8 * k)).entry q)) t i
  rw [hcount, hcounter]
  exact ht

/-! ### Adding an entry -/

/-- The new entry is behind the old ones. -/
theorem entry_allocEntry (s : FuzzState (8 * k)) (fname : Text) (len : Nat) (passedDet : Bool)
    (p : Nat) : (allocEntry s fname len passedDet).entry p =
      if p = s.entries.length then { fname, len, depth := s.curDepth + 1, passedDet }
      else s.entry p := by
  show (s.entries ++ [_]).getD p default = if _ then _ else s.entries.getD p default
  simp only [List.getD_eq_getElem?_getD, List.getElem?_append]
  by_cases hlt : p < s.entries.length
  · rw [if_pos hlt, if_neg (by omega)]
  · rw [if_neg hlt]
    by_cases heq : p = s.entries.length
    · rw [if_pos heq, heq, Nat.sub_self]
      rfl
    · rw [if_neg heq, List.getElem?_eq_none (Nat.le_of_not_lt hlt),
        List.getElem?_eq_none (by simp; omega)]

/-- `s'` is `s` with one more entry, which is not favored, owns no slot and has no cached trace. -/
structure Appended (s s' : FuzzState (8 * k)) : Prop where
  length : s'.entries.length = s.entries.length + 1
  slots : s'.topRated = s.topRated
  counter : s'.pendingFavored = s.pendingFavored
  count : pendingFavoredCount s' = pendingFavoredCount s
  refs : ∀ p, (s'.entry p).tcRef = if p = s.entries.length then 0 else (s.entry p).tcRef
  minis : ∀ p, (s'.entry p).traceMini =
    if p = s.entries.length then none else (s.entry p).traceMini

theorem appended_allocEntry (s : FuzzState (8 * k)) (fname : Text) (len : Nat)
    (passedDet : Bool) : Appended s (allocEntry s fname len passedDet) where
  length := List.length_append
  slots := rfl
  counter := rfl
  count := by
    show (s.entries ++ [_]).countP _ = s.entries.countP _
    rw [List.countP_append]
    rfl
  refs p := by
    rw [entry_allocEntry]
    split <;> rfl
  minis p := by
    rw [entry_allocEntry]
    split <;> rfl

/-- Linking the new entry changes `next` only. -/
theorem appended_linkTop (s : FuzzState (8 * k)) (fname : Text) (len : Nat) (passedDet : Bool)
    (q : Nat) : Appended s (linkTop (allocEntry s fname len passedDet) q) := by
  have h := appended_allocEntry s fname len passedDet
  unfold linkTop
  split
  · -- The last entry gets a `next`, which none of the fields reads.
    refine ⟨(length_updateEntry _ _ _).trans h.length, h.slots, h.counter, ?_, fun p => ?_,
      fun p => ?_⟩
    · refine (countP_updateEntry_same _ _ ?_).trans h.count
      exact fun e => rfl
    · refine (field_updateEntry (·.tcRef) ?_ p).trans (h.refs p)
      exact fun e => rfl
    · refine (field_updateEntry (·.traceMini) ?_ p).trans (h.minis p)
      exact fun e => rfl
  · exact ⟨h.length, h.slots, h.counter, h.count, h.refs, h.minis⟩

/-- The first entry starts the queue. -/
theorem chain_linkTop_of_empty (hempty : s.entries = []) (htop : s.queueTop = none) (fname : Text)
    (len : Nat) (passedDet : Bool) :
    Chain (linkTop (allocEntry s fname len passedDet) s.entries.length) := by
  have hlen := (appended_linkTop s fname len passedDet s.entries.length).length
  have hzero : s.entries.length = 0 := by rw [hempty]; rfl
  unfold linkTop at hlen ⊢
  rw [show (allocEntry s fname len passedDet).queueTop = none from htop] at hlen ⊢
  dsimp only at hlen ⊢
  refine ⟨fun p hp => ?_, ?_, ?_⟩
  · show ((allocEntry s fname len passedDet).entry p).next = _
    change p < (allocEntry s fname len passedDet).entries.length at hp
    rw [hlen, hzero] at hp
    have hp0 : p = 0 := by omega
    rw [entry_allocEntry, if_pos (by omega), hlen, if_neg (by omega)]
  · show some s.entries.length = if s.entries ++ [_] = [] then none else some 0
    rw [if_neg (by simp), hzero]
  · show some s.entries.length = if s.entries ++ [_] = [] then none
      else some ((s.entries ++ [_]).length - 1)
    rw [if_neg (by simp), List.length_append]
    rfl

/-- A later entry is linked behind the last one. -/
theorem chain_linkTop_of_top (h : Chain s) (hne : s.entries ≠ []) (fname : Text) (len : Nat)
    (passedDet : Bool) :
    Chain (linkTop (allocEntry s fname len passedDet) s.entries.length) := by
  have hlen := (appended_linkTop s fname len passedDet s.entries.length).length
  have hpos : 0 < s.entries.length := List.length_pos_iff.mpr hne
  have htop : (allocEntry s fname len passedDet).queueTop = some (s.entries.length - 1) := by
    show s.queueTop = _
    rw [h.top, if_neg hne]
  unfold linkTop at hlen ⊢
  rw [htop] at hlen ⊢
  dsimp only at hlen ⊢
  have hsome : ((allocEntry s fname len passedDet).updateEntry (s.entries.length - 1)
      fun t => { t with next := some s.entries.length }).entries ≠ [] := by
    rw [ne_eq, ← List.length_eq_zero_iff, hlen]
    omega
  refine ⟨fun p hp => ?_, ?_, ?_⟩
  · show (((allocEntry s fname len passedDet).updateEntry (s.entries.length - 1) _).entry p).next =
      _
    change p < ((allocEntry s fname len passedDet).updateEntry _ _).entries.length at hp
    rw [hlen] at hp ⊢
    rw [entry_updateEntry, (appended_allocEntry s fname len passedDet).length]
    by_cases hlast : p = s.entries.length - 1
    · rw [if_pos ⟨hlast, by omega⟩, if_pos (by omega)]
      show some s.entries.length = some (p + 1)
      congr 1
      omega
    · rw [if_neg fun hand => hlast hand.1, entry_allocEntry]
      by_cases hnew : p = s.entries.length
      · -- The new entry is the last one.
        rw [if_pos hnew, if_neg (by omega)]
      · have hnext := h.linked p (by omega)
        rw [if_neg hnew, if_pos (by omega)]
        rw [if_pos (by omega)] at hnext
        exact hnext
  · refine h.queue.trans ?_
    rw [if_neg hne, if_neg hsome]
  · show some s.entries.length = _
    rw [if_neg hsome, hlen]
    rfl

theorem chain_linkTop (h : Chain s) (fname : Text) (len : Nat) (passedDet : Bool) :
    Chain (linkTop (allocEntry s fname len passedDet) s.entries.length) := by
  by_cases hempty : s.entries = []
  · have htop := h.top
    rw [if_pos hempty] at htop
    exact chain_linkTop_of_empty hempty htop fname len passedDet
  · exact chain_linkTop_of_top h hempty fname len passedDet

/-- Linking through `next_100` changes nothing that the invariant reads. -/
theorem sameQueue_linkHundred (s : FuzzState (8 * k)) (q : Nat) :
    SameQueue s (linkHundred s q) := by
  unfold linkHundred
  split
  · split
    · rename_i prev _
      have hsame := SameQueue.updateEntry s prev
        (f := fun e : QueueEntry => { e with next100 := some q }) fun e => ⟨rfl, rfl, rfl⟩
      exact ⟨hsame.1, hsame.2, hsame.3, hsame.4, hsame.5, hsame.6, hsame.7⟩
    · exact SameQueue.refl s
  · exact SameQueue.refl s

theorem pendingFavored_linkHundred (s : FuzzState (8 * k)) (q : Nat) :
    (linkHundred s q).pendingFavored = s.pendingFavored ∧
      pendingFavoredCount (linkHundred s q) = pendingFavoredCount s := by
  unfold linkHundred
  split
  · split
    · refine ⟨rfl, countP_updateEntry_same s _ ?_⟩
      exact fun e => rfl
    · exact ⟨rfl, rfl⟩
  · exact ⟨rfl, rfl⟩

namespace Appended

variable {s' : FuzzState (8 * k)}

theorem slot_eq (happ : Appended s s') (i : Nat) : slot s' i = slot s i := by
  unfold slot
  rw [happ.slots]

theorem lt_of_ne (happ : Appended s s') {p : Nat} (hp : p < s'.entries.length)
    (hne : p ≠ s.entries.length) : p < s.entries.length := by
  rw [happ.length] at hp
  omega

/-- The new entry owns no slot, so it needs no cached trace. -/
theorem refInv (happ : Appended s s') (h : RefInv s) : RefInv s' := by
  refine ⟨?_, fun i p hp => ?_, fun p hp => ?_, fun p hp => ?_⟩
  · rw [happ.slots, h.slots]
  · rw [happ.slot_eq] at hp
    rw [happ.length]
    exact Nat.lt_succ_of_lt (h.valid i p hp)
  · rw [happ.refs, happ.slots]
    split
    · rename_i heq
      refine (List.count_eq_zero.mpr fun hmem => ?_).symm
      obtain ⟨i, hi⟩ := List.getElem?_of_mem hmem
      have hown : slot s i = some p := by
        unfold slot
        rw [List.getD_eq_getElem?_getD, hi]
        rfl
      exact Nat.ne_of_lt (h.valid i p hown) heq
    · rename_i hne
      exact h.refs p (happ.lt_of_ne hp hne)
  · rw [happ.refs, happ.minis]
    split
    · exact ⟨fun _ => rfl, fun _ => rfl⟩
    · rename_i hne
      exact h.cached p (happ.lt_of_ne hp hne)

theorem coverInv (happ : Appended s s') (hr : RefInv s) (h : CoverInv s) : CoverInv s' := by
  intro i p hp
  rw [happ.slot_eq] at hp
  rw [happ.minis, if_neg (Nat.ne_of_lt (hr.valid i p hp))]
  exact h i p hp

end Appended

/-- Adding an entry appends it, and then writes fields that the invariant does not read. -/
theorem addToQueue_appended (h : Chain s) (fname : Text) (len : Nat) (passedDet : Bool) :
    ∃ s', Appended s s' ∧ Chain s' ∧ SameQueue s' (addToQueue s fname len passedDet) ∧
      (addToQueue s fname len passedDet).pendingFavored = s.pendingFavored ∧
      pendingFavoredCount (addToQueue s fname len passedDet) = pendingFavoredCount s := by
  have happ := appended_linkTop s fname len passedDet s.entries.length
  have hchain := chain_linkTop h fname len passedDet
  refine ⟨_, happ, hchain, ?_⟩
  unfold addToQueue
  dsimp only
  generalize linkTop (allocEntry s fname len passedDet) s.entries.length = s' at happ hchain ⊢
  have hsame := sameQueue_linkHundred { s' with
    queuedPaths := s'.queuedPaths + 1
    pendingNotFuzzed := s'.pendingNotFuzzed + 1
    cyclesWoFinds := 0 } s.entries.length
  obtain ⟨hcounter, hcount⟩ := pendingFavored_linkHundred { s' with
    queuedPaths := s'.queuedPaths + 1
    pendingNotFuzzed := s'.pendingNotFuzzed + 1
    cyclesWoFinds := 0 } s.entries.length
  exact ⟨⟨hsame.1, hsame.2, hsame.3, hsame.4, hsame.5, hsame.6, hsame.7⟩,
    hcounter.trans happ.counter, hcount.trans happ.count⟩

theorem QueueInv.add (h : QueueInv s) (fname : Text) (len : Nat) (passedDet : Bool) :
    QueueInv (addToQueue s fname len passedDet) := by
  obtain ⟨s', happ, hchain, hsame, hcounter, hcount⟩ :=
    addToQueue_appended h.chain fname len passedDet
  refine ⟨hsame.chain hchain, hsame.refInv (happ.refInv h.refs),
    hsame.coverInv (happ.refInv h.refs) (happ.coverInv h.refs h.cover), ?_⟩
  rw [hcounter, hcount, h.pending]

end Ops

end TriforceAFL.Proofs
