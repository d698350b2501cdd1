import TriforceAFL.Lib.Loop
import TriforceAFL.Proofs.QueueHeap

/-!
# `TriforceAFL.Proofs.TopRated`: reference counts and cached traces of the slot winners

`update_bitmap_score` lets an entry compete for the slots of `top_rated[]`. Two invariants
describe what it keeps:

* `RefInv`: `tc_ref` is the number of slots that an entry owns, and an entry has a `trace_mini`
  exactly when it owns a slot. Every call keeps it (`updateBitmapScore_refInv`).
* `CoverInv`: the `trace_mini` of an entry covers every slot that the entry owns. A call can break
  it, because `trace_mini` is filled once and then kept while the entry wins slots with another
  trace. `ScoreOk` is the condition on the state before the call under which it is kept
  (`updateBitmapScore_coverInv`).
-/

set_option autoImplicit false

namespace TriforceAFL.Proofs

open Lib Spec

/-! ### Compacted traces -/

/-- `map[i >> 3] & (1 << (i & 7))` tests one bit. -/
theorem miniBit_eq (mini : List U8) (i : Nat) :
    miniBit mini i = (byteOf mini (i / 8)).getLsbD (i % 8) := by
  have hmod : i &&& 7 = i % 8 := Nat.and_two_pow_sub_one_eq_mod i 3
  have hlt : i % 8 < 8 := Nat.mod_lt _ (by decide)
  unfold miniBit
  rw [Nat.shiftRight_eq_div_pow, hmod]
  have hpow : (1#8 <<< (i % 8)) = BitVec.twoPow 8 (i % 8) := by
    rw [BitVec.twoPow_eq]
  rw [hpow, BitVec.and_twoPow]
  cases (byteOf mini (i / 2 ^ 3)).getLsbD (i % 8) with
  | false => rfl
  | true =>
    have hne : BitVec.twoPow 8 (i % 8) ≠ 0#8 := by
      intro h
      have hbit := congrArg (fun x => BitVec.getLsbD x (i % 8)) h
      simp [hlt] at hbit
    simpa using hne

section Minimize
variable {k : Nat}

/-- One turn of `minimize_bits` sets the bit of its byte. -/
theorem miniBit_minimizeStep (src dst : List U8) (n i : Nat) (hn : n < 8 * dst.length) :
    miniBit (minimizeStep src dst n) i =
      (miniBit dst i || (decide (i = n) && decide (byteOf src n ≠ 0))) := by
  have hmod : n &&& 7 = n % 8 := Nat.and_two_pow_sub_one_eq_mod n 3
  unfold minimizeStep
  by_cases hsrc : byteOf src n = 0
  · rw [if_neg (not_not.mpr hsrc)]
    simp [hsrc]
  · rw [if_pos hsrc, miniBit_eq, miniBit_eq, Nat.shiftRight_eq_div_pow, hmod,
      byteOf_set _ _ _ _ (by omega)]
    have hpow : (1#8 <<< (n % 8)) = BitVec.twoPow 8 (n % 8) := by rw [BitVec.twoPow_eq]
    by_cases hbyte : i / 8 = n / 2 ^ 3
    · rw [if_pos hbyte, BitVec.getLsbD_or, hpow, BitVec.getLsbD_twoPow, hbyte]
      have hiff : (i % 8 < 8 ∧ n % 8 = i % 8) ↔ i = n := by omega
      congr 1
      rw [decide_eq_true (p := byteOf src n ≠ 0) hsrc, Bool.and_true, ← Bool.decide_and,
        decide_eq_decide]
      omega
    · -- The bit is in another byte of the compacted map.
      have hne : i ≠ n := fun h => hbyte (by rw [h]; rfl)
      rw [if_neg hbyte, decide_eq_false hne, Bool.false_and, Bool.or_false]

/-- `trace_mini` and `temp_v` have a bit for every byte of the trace. -/
theorem shiftRight_three (k : Nat) : (8 * k) >>> 3 = k := by
  rw [Nat.shiftRight_eq_div_pow]
  omega

/-- `trace_mini` has a bit for every byte that is set in the trace. -/
theorem miniBit_minimizeBits (src : TraceMap (8 * k)) (i : Nat) (hi : i < 8 * k) :
    miniBit (minimizeBits src) i = true ↔ src.byte i ≠ 0 := by
  -- After `n` turns, the bits are those of the first `n` bytes.
  have hinv : (minimizeBits src).length = k ∧
      (miniBit (minimizeBits src) i = true ↔ i < 8 * k ∧ src.byte i ≠ 0) := by
    unfold minimizeBits
    refine foldl_range_induct (P := fun n dst => dst.length = k ∧
      (miniBit dst i = true ↔ i < n ∧ src.byte i ≠ 0)) ?_ ?_
    · -- Before the loop no bit is set.
      rw [shiftRight_three]
      refine ⟨List.length_replicate, ?_⟩
      have hzero : byteOf (List.replicate k (0 : U8)) (i / 8) = 0 := by
        unfold byteOf
        rw [List.getD_eq_getElem?_getD, List.getElem?_replicate]
        split <;> rfl
      rw [miniBit_eq, hzero]
      simp
    · intro n hn dst hdst
      obtain ⟨hdlen, hdbits⟩ := hdst
      refine ⟨?_, ?_⟩
      · unfold minimizeStep
        split
        · rw [List.length_set, hdlen]
        · exact hdlen
      · rw [miniBit_minimizeStep src.bytes dst n i (by rw [hdlen]; omega), Bool.or_eq_true,
          hdbits, Bool.and_eq_true, decide_eq_true_iff, decide_eq_true_iff]
        show (i < n ∧ src.byte i ≠ 0) ∨ (i = n ∧ src.byte n ≠ 0) ↔ i < n + 1 ∧ src.byte i ≠ 0
        constructor
        · rintro (⟨h1, h2⟩ | ⟨rfl, h2⟩)
          · exact ⟨by omega, h2⟩
          · exact ⟨by omega, h2⟩
        · rintro ⟨h1, h2⟩
          rcases Nat.lt_succ_iff_lt_or_eq.mp h1 with h | rfl
          · exact Or.inl ⟨h, h2⟩
          · exact Or.inr ⟨rfl, h2⟩
  rw [hinv.2]
  exact ⟨fun h => h.2, fun h => ⟨hi, h⟩⟩

end Minimize

/-! ### Slots and their owners -/

section Slots
variable {k : Nat} {s : FuzzState (8 * k)} {s₀ t : FuzzState (8 * k)} {q i : Nat}

/-- The owner of slot `i`. -/
def slot (s : FuzzState (8 * k)) (i : Nat) : Option Ptr := s.topRated.getD i none

/-- Does a contender with the cost `fav` win slot `i` with the current trace? -/
def Wins (fav : Nat) (s : FuzzState (8 * k)) (i : Nat) : Prop :=
  s.traceBits.byte i ≠ 0 ∧ ∀ p, slot s i = some p → fav ≤ favFactor (s.entry p)

/-- The state after the previous owner of slot `i` has lost its reference. -/
def vacate (s : FuzzState (8 * k)) (i : Nat) : FuzzState (8 * k) :=
  match slot s i with
  | some p => releaseSlot s p
  | none => s

/-- One turn of `update_bitmap_score`. -/
theorem scoreSlot_cases (q : Ptr) (fav : Nat) (s : FuzzState (8 * k)) (i : Nat) :
    (Wins fav s i ∧ scoreSlot q fav s i = winSlot (vacate s i) q i) ∨
      (¬ Wins fav s i ∧ scoreSlot q fav s i = s) := by
  unfold scoreSlot vacate Wins slot
  by_cases hbyte : s.traceBits.byte i = 0
  · rw [if_pos hbyte]
    exact Or.inr ⟨fun h => h.1 hbyte, rfl⟩
  · rw [if_neg hbyte]
    -- A slot without an owner is won by anyone.
    cases hslot : s.topRated.getD i none with
    | none => exact Or.inl ⟨⟨hbyte, fun p hp => by cases hp⟩, rfl⟩
    | some p =>
      dsimp only
      split
      · rename_i hgt
        refine Or.inr ⟨fun h => ?_, rfl⟩
        exact absurd (h.2 p rfl) (Nat.not_le.mpr hgt)
      · rename_i hle
        refine Or.inl ⟨⟨hbyte, fun p' hp' => ?_⟩, rfl⟩
        cases hp'
        exact Nat.le_of_not_lt hle

/-- Reference counts: `tc_ref` is the number of owned slots, and the trace is cached exactly while
there is one. -/
structure RefInv (s : FuzzState (8 * k)) : Prop where
  slots : s.topRated.length = 8 * k
  valid : ∀ i p, slot s i = some p → p < s.entries.length
  refs : ∀ p < s.entries.length, (s.entry p).tcRef = s.topRated.count (some p)
  cached : ∀ p < s.entries.length, ((s.entry p).traceMini = none ↔ (s.entry p).tcRef = 0)

/-- The cached trace of an entry covers the slots that it owns. -/
def CoverInv (s : FuzzState (8 * k)) : Prop :=
  ∀ i p, slot s i = some p → ∃ mini, (s.entry p).traceMini = some mini ∧ miniBit mini i = true

/-- The entries after the previous owner has lost its reference. -/
theorem entry_vacate (h : RefInv s) (i r : Nat) :
    (vacate s i).entry r =
      if slot s i = some r then { s.entry r with
        tcRef := (s.entry r).tcRef - 1
        traceMini := if (s.entry r).tcRef - 1 = 0 then none else (s.entry r).traceMini }
      else s.entry r := by
  unfold vacate
  cases hslot : slot s i with
  | none => simp
  | some p =>
    dsimp only
    have hp := h.valid i p hslot
    unfold releaseSlot
    by_cases hr : r = p
    · subst hr
      rw [entry_updateEntry_self hp, if_pos rfl]
    · rw [entry_updateEntry_of_ne hr, if_neg fun heq => hr (Option.some.inj heq).symm]

theorem length_vacate (s : FuzzState (8 * k)) (i : Nat) :
    (vacate s i).entries.length = s.entries.length := by
  unfold vacate
  split
  · exact length_updateEntry _ _ _
  · rfl

theorem traceBits_vacate (s : FuzzState (8 * k)) (i : Nat) :
    (vacate s i).traceBits = s.traceBits := by
  unfold vacate
  split <;> rfl

theorem topRated_vacate (s : FuzzState (8 * k)) (i : Nat) :
    (vacate s i).topRated = s.topRated := by
  unfold vacate
  split <;> rfl

/-- The entries after `q` has won a slot. -/
theorem entry_winSlot {q : Nat} (hq : q < s.entries.length) (i r : Nat) :
    (winSlot s q i).entry r =
      if r = q then { s.entry q with
        tcRef := (s.entry q).tcRef + 1
        traceMini := some ((s.entry q).traceMini.getD (minimizeBits s.traceBits)) }
      else s.entry r := by
  show (s.updateEntry q _).entry r = _
  by_cases hr : r = q
  · subst hr
    rw [entry_updateEntry_self hq, if_pos rfl]
  · rw [entry_updateEntry_of_ne hr, if_neg hr]

/-- The owners of the slots after `q` has won slot `i`. -/
theorem slot_winSlot (s : FuzzState (8 * k)) (q : Ptr) {i : Nat} (hi : i < s.topRated.length)
    (j : Nat) : slot (winSlot s q i) j = if j = i then some q else slot s j := by
  show (s.topRated.set i (some q)).getD j none = _
  unfold slot
  simp only [List.getD_eq_getElem?_getD, List.getElem?_set]
  by_cases h : i = j
  · subst h
    simp [hi]
  · have hne : ¬ j = i := fun heq => h heq.symm
    simp [h, hne]

/-- An entry that owns two slots has at least two references. -/
theorem two_le_count {i j p : Nat} (hi : slot s i = some p) (hj : slot s j = some p) (hne : i ≠ j) :
    2 ≤ s.topRated.count (some p) := by
  have hget : ∀ {n : Nat}, slot s n = some p → ∃ h : n < s.topRated.length,
      s.topRated[n] = some p := by
    intro n hn
    unfold slot at hn
    rw [List.getD_eq_getElem?_getD] at hn
    by_cases hlt : n < s.topRated.length
    · rw [List.getElem?_eq_getElem hlt, Option.getD_some] at hn
      exact ⟨hlt, hn⟩
    · rw [List.getElem?_eq_none (Nat.le_of_not_lt hlt)] at hn
      cases hn
  obtain ⟨hilt, hival⟩ := hget hi
  obtain ⟨hjlt, hjval⟩ := hget hj
  -- Clear slot `i`: the other one is still there.
  have hset := List.count_set (a := none) (b := some p) hilt
  have hmem : some p ∈ s.topRated.set i none := by
    refine List.mem_iff_getElem.mpr ⟨j, by rwa [List.length_set], ?_⟩
    rw [List.getElem_set_ne hne]
    exact hjval
  have hpos := List.count_pos_iff.mpr hmem
  rw [hival] at hset
  simp only [beq_self_eq_true, if_true] at hset
  have hnone : ((none : Option Ptr) == some p) = false := rfl
  rw [hnone] at hset
  simp only [Bool.false_eq_true, if_false] at hset
  omega

/-! ### One turn of the scoring loop -/

/-- How many slots an entry owns after `q` has won slot `i`. -/
theorem count_winSlot {i : Nat} (hi : i < s.topRated.length) (q r : Nat) :
    (winSlot (vacate s i) q i).topRated.count (some r) =
      s.topRated.count (some r) - (if slot s i = some r then 1 else 0) +
        (if r = q then 1 else 0) := by
  show ((vacate s i).topRated.set i (some q)).count (some r) = _
  rw [topRated_vacate, List.count_set hi]
  have hslot : slot s i = s.topRated[i] := by
    unfold slot
    rw [List.getD_eq_getElem?_getD, List.getElem?_eq_getElem hi, Option.getD_some]
  have hqr : ((some q : Option Ptr) == some r) = decide (r = q) := by
    by_cases h : r = q
    · subst h
      simp
    · have hne : q ≠ r := fun heq => h heq.symm
      simp [h, hne]
  rw [hslot, hqr]
  simp only [beq_iff_eq, decide_eq_true_eq]

theorem winSlot_refInv (hq : q < s.entries.length) (hi : i < 8 * k) (h : RefInv s) :
    RefInv (winSlot (vacate s i) q i) := by
  have hislots : i < s.topRated.length := by rwa [h.slots]
  have hqv : q < (vacate s i).entries.length := by rwa [length_vacate]
  have hlen : (winSlot (vacate s i) q i).entries.length = s.entries.length := by
    show ((vacate s i).updateEntry q _).entries.length = _
    rw [length_updateEntry, length_vacate]
  -- An owner holds at least the reference that it loses.
  have hpos : ∀ r, slot s i = some r → 0 < (s.entry r).tcRef := by
    intro r hr
    rw [h.refs r (h.valid i r hr), List.count_pos_iff]
    unfold slot at hr
    rw [List.getD_eq_getElem?_getD, List.getElem?_eq_getElem hislots, Option.getD_some] at hr
    exact hr ▸ List.getElem_mem hislots
  refine ⟨?_, ?_, ?_, ?_⟩
  · show ((vacate s i).topRated.set i (some q)).length = 8 * k
    rw [List.length_set, topRated_vacate, h.slots]
  · intro j p hj
    rw [slot_winSlot _ q (by rwa [topRated_vacate])] at hj
    rw [hlen]
    split at hj
    · cases hj
      exact hq
    · unfold slot at hj
      rw [topRated_vacate] at hj
      exact h.valid j p hj
  · -- The reference that moves from the old owner to `q` is counted on both sides.
    intro r hr
    rw [hlen] at hr
    rw [count_winSlot hislots, entry_winSlot hqv, ← h.refs r hr]
    by_cases hrq : r = q
    · subst hrq
      rw [if_pos rfl, if_pos rfl, entry_vacate h]
      split <;> rfl
    · rw [if_neg hrq, if_neg hrq, entry_vacate h]
      split <;> rfl
  · intro r hr
    rw [hlen] at hr
    rw [entry_winSlot hqv]
    by_cases hrq : r = q
    · rw [if_pos hrq]
      simp
    · rw [if_neg hrq, entry_vacate h]
      split
      · simp only [ite_eq_left_iff]
        have hc := h.cached r hr
        constructor
        · intro himp
          by_contra hne
          have hnone := himp hne
          rw [hc] at hnone
          omega
        · intro h0 hne
          exact absurd h0 hne
      · exact h.cached r hr

/-- Every turn keeps the reference counts. -/
theorem scoreSlot_refInv (fav : Nat) (hq : q < s.entries.length) (hi : i < 8 * k) (h : RefInv s) :
    RefInv (scoreSlot q fav s i) := by
  rcases scoreSlot_cases q fav s i with ⟨_, heq⟩ | ⟨_, heq⟩
  · rw [heq]
    exact winSlot_refInv hq hi h
  · rw [heq]
    exact h

/-- A won slot keeps the cover when the winner's trace is filled from the current one, or covers
the slot already. -/
theorem winSlot_coverInv (hq : q < s.entries.length) (hi : i < 8 * k) (h : RefInv s)
    (hc : CoverInv s) (hbyte : s.traceBits.byte i ≠ 0)
    (hok : ∀ mini, ((vacate s i).entry q).traceMini = some mini → miniBit mini i = true) :
    CoverInv (winSlot (vacate s i) q i) := by
  have hqv : q < (vacate s i).entries.length := by rwa [length_vacate]
  -- An owner of another slot keeps its trace when slot `i` is vacated.
  have hkeep : ∀ j p, j ≠ i → slot s j = some p →
      ((vacate s i).entry p).traceMini = (s.entry p).traceMini := by
    intro j p hne hj
    rw [entry_vacate h]
    split
    · rename_i howner
      have htwo := two_le_count hj howner hne
      rw [← h.refs p (h.valid j p hj)] at htwo
      rw [if_neg (by omega)]
    · rfl
  intro j p hj
  rw [slot_winSlot _ q (by rwa [topRated_vacate, h.slots])] at hj
  rw [entry_winSlot hqv]
  split at hj
  · rename_i hji
    cases hj
    rw [if_pos rfl, hji]
    cases hmini : ((vacate s i).entry q).traceMini with
    | none =>
      refine ⟨_, rfl, ?_⟩
      rw [Option.getD_none, traceBits_vacate]
      exact (miniBit_minimizeBits s.traceBits i hi).mpr hbyte
    | some mini => exact ⟨mini, rfl, hok mini hmini⟩
  · rename_i hji
    have hj' : slot s j = some p := by
      unfold slot at hj ⊢
      rwa [topRated_vacate] at hj
    obtain ⟨mini, hmini, hbit⟩ := hc j p hj'
    have hvac := (hkeep j p hji hj').trans hmini
    by_cases hpq : p = q
    · subst hpq
      rw [if_pos rfl, hvac]
      exact ⟨mini, rfl, hbit⟩
    · rw [if_neg hpq]
      exact ⟨mini, hvac, hbit⟩

/-! ### The whole scoring loop -/

/-- Slot `j` is the first one that `q` wins, and it is the only slot that `q` owns. Winning it
drops the cached trace of `q` and fills it anew. -/
def Refreshes (s : FuzzState (8 * k)) (q j : Nat) : Prop :=
  (∀ i < j, ¬ Wins (favFactor (s.entry q)) s i) ∧ Wins (favFactor (s.entry q)) s j ∧
    slot s j = some q ∧ (s.entry q).tcRef = 1

/-- The condition on a call of `update_bitmap_score`: an entry that has a cached trace is about to
drop it, or the trace covers every slot that the entry wins. -/
def ScoreOk (s : FuzzState (8 * k)) (q : Nat) : Prop :=
  ∀ mini, (s.entry q).traceMini = some mini →
    (∃ j < 8 * k, Refreshes s q j) ∨
      ∀ i < 8 * k, Wins (favFactor (s.entry q)) s i → miniBit mini i = true

/-- What the winner's cached trace can be after the first `n` slots, for a call in state `s₀`. -/
def CacheOk (s₀ : FuzzState (8 * k)) (q n : Nat) (t : FuzzState (8 * k)) : Prop :=
  (t.entry q).traceMini = none ∨
    (t.entry q).traceMini = some (minimizeBits s₀.traceBits) ∨
    (∃ mini, (t.entry q).traceMini = some mini ∧ ∀ i < 8 * k, n ≤ i →
      Wins (favFactor (s₀.entry q)) s₀ i → miniBit mini i = true) ∨
    (t = s₀ ∧ ∃ j, n ≤ j ∧ Refreshes s₀ q j)

/-- The slots and costs that the loop has not reached are those of the state before the call. -/
structure ScoreFrame (s₀ : FuzzState (8 * k)) (n : Nat) (t : FuzzState (8 * k)) : Prop where
  length_eq : t.entries.length = s₀.entries.length
  trace : t.traceBits = s₀.traceBits
  later : ∀ j, n ≤ j → slot t j = slot s₀ j
  fav : ∀ p, favFactor (t.entry p) = favFactor (s₀.entry p)

/-- So the loop decides about a slot as the state before the call does. -/
theorem ScoreFrame.wins_iff {n : Nat} (h : ScoreFrame s₀ n t) (fav : Nat) :
    Wins fav t n ↔ Wins fav s₀ n := by
  unfold Wins
  rw [h.trace, h.later n (Nat.le_refl n)]
  simp only [h.fav]

/-- Winning a slot changes no cost. -/
theorem favFactor_winSlot (h : RefInv s) (hq : q < s.entries.length) (p : Nat) :
    favFactor ((winSlot (vacate s i) q i).entry p) = favFactor (s.entry p) := by
  rw [entry_winSlot (by rwa [length_vacate])]
  have hvac : ∀ r, favFactor ((vacate s i).entry r) = favFactor (s.entry r) := by
    intro r
    rw [entry_vacate h]
    split <;> rfl
  split
  · rename_i hp
    rw [hp]
    exact hvac q
  · exact hvac p

theorem ScoreFrame.step {q n : Nat} (fav : Nat) (hr : RefInv t) (hq : q < t.entries.length)
    (hn : n < 8 * k) (h : ScoreFrame s₀ n t) :
    ScoreFrame s₀ (n + 1) (scoreSlot q fav t n) := by
  rcases scoreSlot_cases q fav t n with ⟨_, heq⟩ | ⟨_, heq⟩
  · rw [heq]
    refine ⟨?_, ?_, fun j hj => ?_, fun p => ?_⟩
    · show ((vacate t n).updateEntry q _).entries.length = _
      rw [length_updateEntry, length_vacate, h.length_eq]
    · show (vacate t n).traceBits = _
      rw [traceBits_vacate, h.trace]
    · rw [slot_winSlot _ q (by rwa [topRated_vacate, hr.slots]), if_neg (by omega)]
      unfold slot
      rw [topRated_vacate]
      exact h.later j (by omega)
    · rw [favFactor_winSlot hr hq, h.fav]
  · rw [heq]
    exact ⟨h.length_eq, h.trace, fun j hj => h.later j (by omega), h.fav⟩

/-- Vacating a slot drops the cached trace of an entry or keeps it. -/
theorem traceMini_vacate (h : RefInv s) (i q : Nat) :
    ((vacate s i).entry q).traceMini = none ∨
      ((vacate s i).entry q).traceMini = (s.entry q).traceMini := by
  rw [entry_vacate h]
  split
  · dsimp only
    split
    · exact Or.inl rfl
    · exact Or.inr rfl
  · exact Or.inr rfl

/-- Before `q` wins slot `n`, its trace is dropped or covers the slot. -/
theorem CacheOk.covers {q n : Nat} (hr : RefInv t) (hn : n < 8 * k) (h : CacheOk s₀ q n t)
    (hwins : Wins (favFactor (s₀.entry q)) s₀ n) :
    ∀ mini, ((vacate t n).entry q).traceMini = some mini → miniBit mini n = true := by
  intro mini hmini
  have hkept : (t.entry q).traceMini = some mini := by
    rcases traceMini_vacate hr n q with hnone | hsame
    · rw [hnone] at hmini
      cases hmini
    · rw [← hsame]
      exact hmini
  rcases h with hnone | hcur | ⟨mini', hold, hcover⟩ | ⟨rfl, j, hj, hfirst, _, howner, href⟩
  · rw [hnone] at hkept
    cases hkept
  · rw [hcur] at hkept
    cases hkept
    exact (miniBit_minimizeBits s₀.traceBits n hn).mpr hwins.1
  · rw [hold] at hkept
    cases hkept
    exact hcover n hn (Nat.le_refl n) hwins
  · -- The first slot that is won is `j`, and winning it drops the trace.
    have hjn : j = n := by
      rcases Nat.lt_or_eq_of_le hj with hlt | heq
      · exact absurd hwins (hfirst n hlt)
      · exact heq.symm
    subst hjn
    rw [entry_vacate hr, if_pos howner] at hmini
    dsimp only at hmini
    rw [if_pos (by omega)] at hmini
    cases hmini

theorem CacheOk.step {q n : Nat} (hr : RefInv t) (hq : q < t.entries.length)
    (hf : ScoreFrame s₀ n t) (h : CacheOk s₀ q n t) :
    CacheOk s₀ q (n + 1) (scoreSlot q (favFactor (s₀.entry q)) t n) := by
  rcases scoreSlot_cases q (favFactor (s₀.entry q)) t n with ⟨hwins, heq⟩ | ⟨hwins, heq⟩
  · rw [hf.wins_iff] at hwins
    rw [heq]
    unfold CacheOk
    rw [entry_winSlot (by rwa [length_vacate]), if_pos rfl]
    dsimp only
    rw [traceBits_vacate, hf.trace]
    rcases traceMini_vacate hr n q with hnone | hsame
    · rw [hnone]
      exact Or.inr (Or.inl rfl)
    · rw [hsame]
      rcases h with hnone | hcur | ⟨mini, hold, hcover⟩ | ⟨rfl, j, hj, hfirst, _, howner, href⟩
      · rw [hnone]
        exact Or.inr (Or.inl rfl)
      · rw [hcur]
        exact Or.inr (Or.inl rfl)
      · rw [hold]
        exact Or.inr (Or.inr (Or.inl ⟨mini, rfl, fun i hi hle => hcover i hi (by omega)⟩))
      · have hjn : j = n := by
          rcases Nat.lt_or_eq_of_le hj with hlt | heq
          · exact absurd hwins (hfirst n hlt)
          · exact heq.symm
        subst hjn
        rw [entry_vacate hr, if_pos howner] at hsame
        dsimp only at hsame
        rw [if_pos (by omega)] at hsame
        rw [← hsame]
        exact Or.inr (Or.inl rfl)
  · rw [hf.wins_iff] at hwins
    rw [heq]
    rcases h with hnone | hcur | ⟨mini, hold, hcover⟩ | ⟨rfl, j, hj, hfirst, hjwins, hrest⟩
    · exact Or.inl hnone
    · exact Or.inr (Or.inl hcur)
    · exact Or.inr (Or.inr (Or.inl ⟨mini, hold, fun i hi hle => hcover i hi (by omega)⟩))
    · have hne : n ≠ j := fun heq => hwins (heq ▸ hjwins)
      exact Or.inr (Or.inr (Or.inr ⟨rfl, j, by omega, hfirst, hjwins, hrest⟩))

/-- Every call of `update_bitmap_score` keeps the reference counts. -/
theorem updateBitmapScore_refInv {q : Nat} (hq : q < s.entries.length) (h : RefInv s) :
    RefInv (updateBitmapScore s q) := by
  unfold updateBitmapScore
  refine (foldl_range_induct (P := fun n t => RefInv t ∧ ScoreFrame s n t) ⟨h, ?_⟩ ?_).1
  · exact ⟨rfl, rfl, fun _ _ => rfl, fun _ => rfl⟩
  · intro n hn t ht
    have hqt : q < t.entries.length := by rwa [ht.2.length_eq]
    exact ⟨scoreSlot_refInv _ hqt hn ht.1, ht.2.step _ ht.1 hqt hn⟩

/-- A call that meets `ScoreOk` keeps the cover. -/
theorem updateBitmapScore_coverInv {q : Nat} (hq : q < s.entries.length) (h : RefInv s)
    (hc : CoverInv s) (hok : ScoreOk s q) : CoverInv (updateBitmapScore s q) := by
  unfold updateBitmapScore
  refine (foldl_range_induct (P := fun n t =>
    RefInv t ∧ CoverInv t ∧ ScoreFrame s n t ∧ CacheOk s q n t) ⟨h, hc, ?_, ?_⟩ ?_).2.1
  · exact ⟨rfl, rfl, fun _ _ => rfl, fun _ => rfl⟩
  · cases hmini : (s.entry q).traceMini with
    | none => exact Or.inl hmini
    | some mini =>
      rcases hok mini hmini with ⟨j, _, hj⟩ | hcover
      · exact Or.inr (Or.inr (Or.inr ⟨rfl, j, Nat.zero_le j, hj⟩))
      · exact Or.inr (Or.inr (Or.inl ⟨mini, hmini, fun i hi _ => hcover i hi⟩))
  · intro n hn t ht
    obtain ⟨hr, hcov, hframe, hcache⟩ := ht
    have hqt : q < t.entries.length := by rwa [hframe.length_eq]
    refine ⟨scoreSlot_refInv _ hqt hn hr, ?_, hframe.step _ hr hqt hn,
      hcache.step hr hqt hframe⟩
    rcases scoreSlot_cases q (favFactor (s.entry q)) t n with ⟨hwins, heq⟩ | ⟨_, heq⟩
    · rw [heq]
      have hwins₀ := (hframe.wins_iff _).mp hwins
      exact winSlot_coverInv hqt hn hr hcov hwins.1 (hcache.covers hr hn hwins₀)
    · rw [heq]
      exact hcov

end Slots

end TriforceAFL.Proofs
