import TriforceAFL.Lib.Loop
import TriforceAFL.Lib.Tally
import TriforceAFL.Proofs.Tmin

/-!
# `TriforceAFL.Proofs.TminStats`: the counters of the alphabet stage of afl-tmin

`alpha_map` is a static table of 256 counters of four bytes, and `memset(alpha_map, 0, 256)` clears
the first 64 of them. So the statistics of a stage are exact if and only if the other 192 counters
are zero when it starts (`alphabet_stats_iff`). They are in the first pass, and in all passes for an
input without bytes from 64 on (`clean_of_small`). Otherwise a later pass tries symbols that are
long gone, and counts them as replaced.

`ByTests` says what the other stages do to a state, and `AlphabetStart` which states the alphabet
stage is started in.
-/

set_option autoImplicit false

namespace TriforceAFL.Proofs

open Lib Spec

namespace Tmin

variable {f : List U8 → Bool} {s s' s'' : TminState}

/-- The number of bytes with a value. -/
def occurrences (buf : List U8) (c : Nat) : Nat := buf.countP fun b => b.toNat = c

/-- The statistics of the alphabet stage, started in `s`, are what they are printed as. -/
structure ExactStats (f : List U8 → Bool) (s : TminState) : Prop where
  counts : ∀ c < 256, ((minimizeAlphabetStats f s).1.alphaMap.getD c 0).toNat
    = occurrences s.inData c
  size : (minimizeAlphabetStats f s).2.alphaSize.toNat = s.inData.toFinset.card
  tried : ∀ i ∈ (minimizeAlphabetStats f s).2.tried, 0 < occurrences s.inData i
  replaced : (minimizeAlphabetStats f s).2.alphaDel1.toNat = (minimizeAlphabetStats f s).2.replaced

/-- The counters that `memset` does not reach are zero. -/
def Clean (s : TminState) : Prop := ∀ c, 64 ≤ c → c < 256 → s.alphaMap.getD c 0 = 0

/-! ### The table of symbols -/

/-- The table when counting starts. -/
def clearedMap (s : TminState) : List U32 := List.replicate 64 0 ++ s.alphaMap.drop 64

/-- The table when the symbols are counted. -/
def countSymbols (s : TminState) : List U32 := tally BitVec.toNat (clearedMap s) s.inData

theorem foldl_countStep (s : TminState) :
    (s.inData.foldl countStep (clearedMap s, 0)).1 = countSymbols s :=
  @distinctStep_table U8 32 BitVec.toNat s.inData (clearedMap s, 0)

/-- The state and the counters in which the symbol loop starts. -/
def counted (s : TminState) : TminState × AlphaStats :=
  ({ s with alphaMap := countSymbols s },
    { alphaSize := (s.inData.foldl countStep (clearedMap s, 0)).2 })

theorem minimizeAlphabetStats_eq (s : TminState) :
    minimizeAlphabetStats f s = (List.range 256).foldl (alphabetStep f) (counted s) := by
  rw [counted, ← foldl_countStep]
  rfl

/-! ### Counting -/

section Counting

theorem getD_clearedMap (s : TminState) (c : Nat) :
    (clearedMap s).getD c 0 = if c < 64 then 0 else s.alphaMap.getD c 0 := by
  rw [clearedMap, List.getD_eq_getElem?_getD]
  split
  · rename_i hlow
    rw [List.getElem?_append_left (by simpa using hlow), List.getElem?_replicate, if_pos hlow]
    rfl
  · rename_i hhigh
    rw [List.getElem?_append_right (by simpa using hhigh), List.length_replicate,
      List.getElem?_drop, List.getD_eq_getElem?_getD, Nat.add_sub_cancel' (Nat.le_of_not_lt hhigh)]

variable (hmap : s.alphaMap.length = 256) (hlen : s.inData.length < 2 ^ 32)
include hmap

theorem length_clearedMap : (clearedMap s).length = 256 := by
  rw [clearedMap, List.length_append, List.length_replicate, List.length_drop, hmap]

/-- A counter after counting. -/
theorem getD_countSymbols {c : Nat} (hc : c < 256) :
    (countSymbols s).getD c 0
      = (if c < 64 then 0 else s.alphaMap.getD c 0) + BitVec.ofNat 32 (occurrences s.inData c) := by
  rw [countSymbols, getD_tally (by rw [length_clearedMap hmap]; exact hc),
    getD_clearedMap]
  rfl

include hlen

/-- The counters are exact if the table was clean. -/
theorem counts_iff :
    (∀ c < 256, ((countSymbols s).getD c 0).toNat = occurrences s.inData c) ↔
      Clean s := by
  have hfits : ∀ c, (BitVec.ofNat 32 (occurrences s.inData c)).toNat = occurrences s.inData c := by
    intro c
    rw [BitVec.toNat_ofNat]
    exact Nat.mod_eq_of_lt (Nat.lt_of_le_of_lt List.countP_le_length hlen)
  constructor
  · intro hexact c hhigh hc
    have hcount := hexact c hc
    rw [getD_countSymbols hmap hc, if_neg (by omega)] at hcount
    have hsame := BitVec.eq_of_toNat_eq (hcount.trans (hfits c).symm)
    simpa using hsame
  · intro hclean c hc
    have hbase : (if c < 64 then 0 else s.alphaMap.getD c 0) = (0 : U32) := by
      split
      · rfl
      · exact hclean c (by omega) hc
    rw [getD_countSymbols hmap hc, hbase, ← hfits c]
    simp

/-- `alpha_size`, for a table that was clean. -/
theorem alphaSize_of_clean (hclean : Clean s) :
    (counted s).2.alphaSize.toNat = s.inData.toFinset.card := by
  have hempty : ∀ c < (clearedMap s).length, (clearedMap s).getD c 0 = 0 := by
    intro c hc
    rw [length_clearedMap hmap] at hc
    rw [getD_clearedMap]
    split
    · rfl
    · exact hclean c (by omega) hc
  have hsize : (counted s).2.alphaSize = BitVec.ofNat 32 s.inData.toFinset.card :=
    distinct_empty (fun a b hab => BitVec.eq_of_toNat_eq hab) hempty
      (fun b _ => by rw [length_clearedMap hmap]; exact b.isLt) hlen
  rw [hsize, BitVec.toNat_ofNat]
  exact Nat.mod_eq_of_lt (Nat.lt_of_le_of_lt (List.toFinset_card_le s.inData) hlen)

end Counting

/-! ### Replacing a symbol -/

section Replace
variable {i : Nat} (hi : i ≠ zeroDigit.toNat) (buf : List U8)

/-- The candidate of a turn. -/
def withoutSymbol (buf : List U8) (i : Nat) : List U8 :=
  buf.map fun b => if b.toNat = i then zeroDigit else b

/-- The number of bytes that are not the digit. -/
def otherBytes (buf : List U8) : Nat := buf.countP fun b => b != zeroDigit

theorem changedBytes_self : changedBytes buf buf = 0 := by
  induction buf with
  | nil => rfl
  | cons b buf ih =>
    rw [changedBytes, List.zip_cons_cons, List.countP_cons_of_neg (by simp)]
    exact ih

include hi

/-- What the replacement changes, and what it leaves. -/
theorem withoutSymbol_spec :
    changedBytes buf (withoutSymbol buf i) = occurrences buf i ∧
      otherBytes (withoutSymbol buf i) + occurrences buf i = otherBytes buf ∧
      ∀ k, k ≠ i → k ≠ zeroDigit.toNat →
        occurrences (withoutSymbol buf i) k = occurrences buf k := by
  induction buf with
  | nil => exact ⟨rfl, rfl, fun _ _ _ => rfl⟩
  | cons b buf ih =>
    obtain ⟨hchanged, hother, hkept⟩ := ih
    simp only [changedBytes, withoutSymbol, otherBytes, occurrences, List.map_cons,
      List.zip_cons_cons, List.countP_cons] at hchanged hother hkept ⊢
    by_cases hb : b.toNat = i
    · have hne : b ≠ zeroDigit := by
        rintro rfl
        exact hi hb.symm
      simp only [hb, hne, if_true, bne_iff_ne, ne_eq, not_false_eq_true, decide_true,
        bne_self_eq_false, Bool.false_eq_true, if_false]
      refine ⟨by omega, by omega, fun k hk hk' => ?_⟩
      have hki : ¬i = k := fun h => hk h.symm
      have hkz : ¬zeroDigit.toNat = k := fun h => hk' h.symm
      simp only [hki, hkz, decide_false, Bool.false_eq_true, if_false]
      exact hkept k hk hk'
    · simp only [hb, if_false, bne_self_eq_false, Bool.false_eq_true, decide_false]
      refine ⟨by omega, by omega, fun k hk hk' => ?_⟩
      rw [hkept k hk hk']

end Replace

/-! ### The symbol loop -/

/-- What holds before turn `j` of the symbol loop of a stage that was started in `s`. -/
structure LoopInv (s : TminState) (j : Nat) (t : TminState × AlphaStats) : Prop where
  map : t.1.alphaMap = countSymbols s
  size : t.2.alphaSize = (counted s).2.alphaSize
  tried : ∀ i ∈ t.2.tried, i < 256 ∧ (countSymbols s).getD i 0 ≠ 0
  /-- The symbols that are still to come have not been touched. -/
  ahead : ∀ i, j ≤ i → i ≠ zeroDigit.toNat → occurrences t.1.inData i = occurrences s.inData i
  /-- A byte is replaced once. -/
  once : t.2.replaced + otherBytes t.1.inData = otherBytes s.inData
  deleted : t.2.alphaDel1.toNat = t.2.replaced

theorem LoopInv.start (s : TminState) : LoopInv s 0 (counted s) where
  map := rfl
  size := rfl
  tried _ hi := absurd hi List.not_mem_nil
  ahead _ _ _ := rfl
  once := Nat.zero_add _
  deleted := rfl

/-- A turn that tries a symbol. -/
def turnStats (f : List U8 → Bool) (t : TminState) (stats : AlphaStats) (j : Nat) :
    TminState × AlphaStats :=
  let test := t.test f .alphabet (withoutSymbol t.inData j) (withoutSymbol t.inData j)
  let stats := { stats with
    tried := stats.tried ++ [j]
    replaced := stats.replaced + changedBytes t.inData test.2.inData }
  (test.2, if test.1 then { stats with
    symsRemoved := stats.symsRemoved + 1
    alphaDel1 := stats.alphaDel1 + t.alphaMap.getD j 0 } else stats)

section Turn
variable {j : Nat} {t : TminState} {stats : AlphaStats}

theorem LoopInv.ahead_succ {t : TminState × AlphaStats} (h : LoopInv s j t) (i : Nat)
    (hi : j + 1 ≤ i) (hne : i ≠ zeroDigit.toNat) :
    occurrences t.1.inData i = occurrences s.inData i :=
  h.ahead i (Nat.le_of_succ_le hi) hne

/-- A turn tries a symbol that has a counter. -/
theorem LoopInv.tried_concat (h : LoopInv s j (t, stats)) (hj : j < 256)
    (hne : t.alphaMap.getD j 0 ≠ 0) : ∀ i ∈ stats.tried ++ [j],
      i < 256 ∧ (countSymbols s).getD i 0 ≠ 0 := by
  intro i hi
  have hcounter := h.map
  rcases List.mem_append.mp hi with hold | hnew
  · exact h.tried i hold
  · rw [List.mem_singleton.mp hnew, ← hcounter]
    exact ⟨hj, hne⟩

/-- The target refuses: the symbol was tried, and that is all. -/
theorem LoopInv.refused (h : LoopInv s j (t, stats)) (hj : j < 256)
    (hne : t.alphaMap.getD j 0 ≠ 0) (hf : f (withoutSymbol t.inData j) = false) :
    LoopInv s (j + 1) (turnStats f t stats j) := by
  have hdata : (turnStats f t stats j).1.inData = t.inData := if_neg (by simp [hf])
  have hstats : (turnStats f t stats j).2 = { stats with tried := stats.tried ++ [j] } := by
    simp [turnStats, TminState.test, hf, changedBytes_self]
  refine ⟨h.map, ?_, ?_, ?_, ?_, ?_⟩
  · rw [hstats]
    exact h.size
  · rw [hstats]
    exact h.tried_concat hj hne
  · rw [hdata]
    exact h.ahead_succ
  · rw [hdata, hstats]
    exact h.once
  · rw [hstats]
    exact h.deleted

/-- The target accepts: as many bytes are replaced as the counter says. -/
theorem LoopInv.accepted (h : LoopInv s j (t, stats)) (hj : j < 256)
    (hne : t.alphaMap.getD j 0 ≠ 0) (hdigit : j ≠ zeroDigit.toNat)
    (hlen : s.inData.length < 2 ^ 32)
    (hexact : ((countSymbols s).getD j 0).toNat = occurrences s.inData j)
    (hf : f (withoutSymbol t.inData j) = true) :
    LoopInv s (j + 1) (turnStats f t stats j) := by
  obtain ⟨hchanged, hother, hkept⟩ := withoutSymbol_spec hdigit t.inData
  have honce := h.once
  have hdata : (turnStats f t stats j).1.inData = withoutSymbol t.inData j := if_pos hf
  have hstats : (turnStats f t stats j).2 = { stats with
      tried := stats.tried ++ [j]
      replaced := stats.replaced + occurrences t.inData j
      symsRemoved := stats.symsRemoved + 1
      alphaDel1 := stats.alphaDel1 + t.alphaMap.getD j 0 } := by
    simp [turnStats, TminState.test, hf, hchanged]
  refine ⟨h.map, ?_, ?_, ?_, ?_, ?_⟩
  · rw [hstats]
    exact h.size
  · rw [hstats]
    exact h.tried_concat hj hne
  · intro i hi hzero
    rw [hdata, hkept i (by omega) hzero]
    exact h.ahead_succ i hi hzero
  · rw [hdata, hstats]
    dsimp only at honce ⊢
    omega
  · have hcounter := h.map
    have hnow := h.ahead j (Nat.le_refl j) hdigit
    have hdeleted := h.deleted
    -- All bytes that were ever replaced are bytes of the input of the stage.
    have hfits : stats.replaced + occurrences t.inData j < 2 ^ 32 := by
      have hbound : otherBytes s.inData ≤ s.inData.length := List.countP_le_length
      dsimp only at honce
      omega
    rw [hstats]
    dsimp only at hcounter hnow hdeleted ⊢
    rw [BitVec.toNat_add, hcounter, hexact, hdeleted, ← hnow]
    exact Nat.mod_eq_of_lt hfits

end Turn

theorem LoopInv.step {j : Nat} {t : TminState × AlphaStats} (h : LoopInv s j t) (hj : j < 256)
    (hlen : s.inData.length < 2 ^ 32)
    (hexact : ((countSymbols s).getD j 0).toNat = occurrences s.inData j) :
    LoopInv s (j + 1) (alphabetStep f t j) := by
  obtain ⟨t, stats⟩ := t
  by_cases hskip : j = zeroDigit.toNat ∨ t.alphaMap.getD j 0 = 0
  · rw [alphabetStep, if_pos hskip]
    exact ⟨h.map, h.size, h.tried, h.ahead_succ, h.once, h.deleted⟩
  · have hturn : alphabetStep f (t, stats) j = turnStats f t stats j := if_neg hskip
    obtain ⟨hdigit, hne⟩ := not_or.mp hskip
    rw [hturn]
    cases hf : f (withoutSymbol t.inData j) with
    | false => exact h.refused hj hne hf
    | true => exact h.accepted hj hne hdigit hlen hexact hf

/-! ### One stage -/

theorem alphaMap_minimizeAlphabetStats (s : TminState) :
    (minimizeAlphabetStats f s).1.alphaMap = countSymbols s := by
  rw [minimizeAlphabetStats_eq]
  refine List.foldlRecOn (motive := fun t : TminState × AlphaStats =>
    t.1.alphaMap = countSymbols s) _ _ rfl ?_
  intro t ht i _
  rw [alphabetStep]
  split
  · exact ht
  · exact ht

/-- The statistics of a stage are exact if and only if the table was clean. -/
theorem exactStats_iff (hmap : s.alphaMap.length = 256) (hlen : s.inData.length < 2 ^ 32) :
    ExactStats f s ↔ Clean s := by
  constructor
  · intro hexact
    have hcounts := hexact.counts
    rw [alphaMap_minimizeAlphabetStats] at hcounts
    exact (counts_iff hmap hlen).mp hcounts
  · intro hclean
    have hcounts := (counts_iff hmap hlen).mpr hclean
    have hloop : LoopInv s 256 (minimizeAlphabetStats f s) := by
      rw [minimizeAlphabetStats_eq]
      exact foldl_range_induct (LoopInv.start s)
        fun j hj t ht => ht.step hj hlen (hcounts j hj)
    refine ⟨?_, ?_, ?_, hloop.deleted⟩
    · rw [alphaMap_minimizeAlphabetStats]
      exact hcounts
    · rw [hloop.size]
      exact alphaSize_of_clean hmap hlen hclean
    · intro i hi
      obtain ⟨hlt, hne⟩ := hloop.tried i hi
      rw [← hcounts i hlt, Nat.pos_iff_ne_zero]
      exact fun hzero => hne (BitVec.eq_of_toNat_eq hzero)

/-! ### The other stages -/

/-- A stage that only lets the target decide about buffers of bytes that were there, and of the
digit. -/
inductive ByTests (f : List U8 → Bool) (s : TminState) : TminState → Prop
  | refl : ByTests f s s
  | test {s' : TminState} (h : ByTests f s s') (stage : TminStage) (tmpBuf : List U8)
      {accepted : List U8} (hbytes : ∀ b ∈ accepted, b ∈ s'.inData ∨ b = zeroDigit) :
      ByTests f s (s'.test f stage tmpBuf accepted).2

namespace ByTests

theorem alphaMap_eq (h : ByTests f s s') : s'.alphaMap = s.alphaMap := by
  induction h with
  | refl => rfl
  | test _ _ _ _ ih => exact ih

theorem bytes (h : ByTests f s s') : ∀ b ∈ s'.inData, b ∈ s.inData ∨ b = zeroDigit := by
  induction h with
  | refl => exact fun b hb => Or.inl hb
  | @test s' _ stage tmpBuf accepted hbytes ih =>
    intro b hb
    have hnew : (s'.test f stage tmpBuf accepted).2.inData
        = if f tmpBuf then accepted else s'.inData := rfl
    rw [hnew] at hb
    split at hb
    · exact (hbytes b hb).elim (ih b) Or.inr
    · exact ih b hb

end ByTests

theorem mem_memset {buf : List U8} {pos m : Nat} {b : U8}
    (hb : b ∈ memset buf pos zeroDigit m) : b ∈ buf ∨ b = zeroDigit := by
  rw [memset, List.append_assoc] at hb
  rcases List.mem_append.mp hb with htake | hb
  · exact Or.inl (List.mem_of_mem_take htake)
  · rcases List.mem_append.mp hb with hset | hdrop
    · exact Or.inr (List.eq_of_mem_replicate hset)
    · exact Or.inl (List.mem_of_mem_drop hdrop)

theorem byTests_normalizeBlocks {budget : Nat} (h : normalizeBlocks f budget s = some s') :
    ByTests f s s' := by
  refine repeatStep_induct (I := fun t : TminState × Nat => ByTests f s t.1)
    (Q := fun s' => ByTests f s s') ?_ ByTests.refl h
  intro t r ht hstep
  cases hstep
  simp only [normalizeStep]
  split
  · show ByTests f s _
    split
    · exact ht
    · exact ht.test .normalize _ fun b hb => mem_memset hb
  · exact ht

theorem byTests_deleteRound {delLen budget : Nat} (h : deleteRound f delLen budget s = some s') :
    ByTests f s s' := by
  refine repeatStep_induct (I := fun d : DelState => ByTests f s d.s)
    (Q := fun s' => ByTests f s s') ?_ ByTests.refl h
  intro d r hd hstep
  cases hstep
  have htest : ByTests f s (d.s.test f .delete
      (d.s.inData.take d.delPos ++ block d.s.inData (d.delPos + delLen)
        (d.s.inData.length - d.delPos - delLen))
      (d.s.inData.take d.delPos ++ block d.s.inData (d.delPos + delLen)
        (d.s.inData.length - d.delPos - delLen))).2 := by
    refine hd.test .delete _ fun b hb => Or.inl ?_
    rcases List.mem_append.mp hb with htake | hblock
    · exact List.mem_of_mem_take htake
    · exact List.mem_of_mem_drop (List.mem_of_mem_take hblock)
  simp only [delStep]
  split
  · split
    · exact hd
    · split
      · exact htest
      · exact htest
  · exact hd

theorem ByTests.trans (h : ByTests f s s') (h' : ByTests f s' s'') : ByTests f s s'' := by
  induction h' with
  | refl => exact h
  | test _ stage tmpBuf hbytes ih => exact ih.test stage tmpBuf hbytes

theorem byTests_deleteBlocks {budget : Nat} (h : deleteBlocks f budget s = some s') :
    ByTests f s s' := by
  refine repeatStep_induct (I := fun t : Nat × TminState => ByTests f s t.2)
    (Q := fun s' => ByTests f s s') ?_ ByTests.refl h
  intro t r ht hstep
  simp only [deleteStep] at hstep
  obtain ⟨s₁, hround, hend⟩ := Option.bind_eq_some_iff.mp hstep
  generalize (if t.1 = 0 then 1 else t.1) = delLen at hround hend
  have hmore := ht.trans (byTests_deleteRound hround)
  split at hend
  · cases hend
    exact hmore
  · cases hend
    exact hmore

theorem byTests_minimizeCharacters (s : TminState) : ByTests f s (minimizeCharacters f s) := by
  refine List.foldlRecOn (motive := fun t : TminState × List U8 => ByTests f s t.1) _ _
    ByTests.refl ?_
  intro t ht i _
  simp only [characterStep]
  split
  · exact ht
  · exact ht.test .character _ fun b hb => List.mem_or_eq_of_mem_set hb

/-! ### Runs -/

/-- The states that a pass of `minimize` starts in, with the number of passes before it. -/
inductive PassStart (f : List U8 → Bool) (input : TminInput) : Nat × TminState → Prop
  | first {budget : Nat} {s : TminState}
      (h : normalizeBlocks f budget { inData := input.data } = some s) : PassStart f input (0, s)
  | next {budget : Nat} {t t' : Nat × TminState} (ht : PassStart f input t)
      (h : tminPass f budget t = some (.inl t')) : PassStart f input t'

/-- The states that the alphabet stage of a pass starts in. -/
def AlphabetStart (f : List U8 → Bool) (input : TminInput) (pass : Nat) (s : TminState) : Prop :=
  ∃ t budget, PassStart f input t ∧ pass = t.1 + 1 ∧
    deleteBlocks f budget { t.2 with changedAny := false } = some s ∧
    ¬(pass > 1 ∧ s.changedAny = false)

variable {input : TminInput} {t t' : Nat × TminState} {pass budget : Nat}

/-- A pass that is followed by another one has gone through its alphabet stage. -/
theorem tminPass_inl (h : tminPass f budget t = some (.inl t')) :
    ∃ s, deleteBlocks f budget { t.2 with changedAny := false } = some s ∧
      ¬(t.1 + 1 > 1 ∧ s.changedAny = false) ∧
      t' = (t.1 + 1, minimizeCharacters f (minimizeAlphabet f s)) := by
  rw [tminPass] at h
  obtain ⟨s, hdelete, hend⟩ := Option.bind_eq_some_iff.mp h
  refine ⟨s, hdelete, ?_⟩
  split at hend
  · cases hend
  · rename_i hgoes
    refine ⟨hgoes, ?_⟩
    dsimp only at hend
    split at hend
    · cases hend
      rfl
    · cases hend

/-- The table has 256 counters, and the data is never longer than the input. -/
structure InBounds (f : List U8 → Bool) (input : TminInput) (s : TminState) : Prop where
  sound : Sound f input.data.length s
  map : s.alphaMap.length = 256

theorem InBounds.deleteBlocks (h : InBounds f input s)
    (hdelete : deleteBlocks f budget { s with changedAny := false } = some s') :
    InBounds f input s' := by
  have hstart : Sound f input.data.length { s with changedAny := false } :=
    ⟨h.sound.accepted, h.sound.length_le, h.sound.tests⟩
  refine ⟨((ends_deleteBlocks hstart).of_eq_some hdelete).1, ?_⟩
  rw [(byTests_deleteBlocks hdelete).alphaMap_eq]
  exact h.map

theorem InBounds.laterStages (h : InBounds f input s) :
    InBounds f input (minimizeCharacters f (minimizeAlphabet f s)) := by
  refine ⟨(kept_minimizeCharacters (kept_minimizeAlphabet h.sound).sound).sound, ?_⟩
  rw [(byTests_minimizeCharacters _).alphaMap_eq, minimizeAlphabet,
    alphaMap_minimizeAlphabetStats, countSymbols, length_tally, length_clearedMap h.map]

theorem PassStart.inBounds (h : f input.data = true) (ht : PassStart f input t) :
    InBounds f input t.2 := by
  induction ht with
  | first hnorm =>
    have hstart : Sound f input.data.length { inData := input.data } :=
      ⟨h, Nat.le_refl _, fun t ht => absurd ht List.not_mem_nil⟩
    refine ⟨(ends_normalizeBlocks hstart).of_eq_some hnorm, ?_⟩
    rw [(byTests_normalizeBlocks hnorm).alphaMap_eq]
    simp only [List.length_replicate]
  | next _ hpass ih =>
    obtain ⟨s, hdelete, _, rfl⟩ := tminPass_inl hpass
    have hlater := (ih.deleteBlocks hdelete).laterStages
    dsimp only
    exact hlater

/-- The first pass starts with a clean table. -/
theorem clean_first (hs : AlphabetStart f input 1 s) : Clean s := by
  obtain ⟨t, budget, ht, hpass, hdelete, _⟩ := hs
  have hmap : t.2.alphaMap = List.replicate 256 0 := by
    cases ht with
    | first hnorm => exact (byTests_normalizeBlocks hnorm).alphaMap_eq
    | next _ hbefore =>
      obtain ⟨_, _, _, rfl⟩ := tminPass_inl hbefore
      omega
  intro c _ hc
  rw [(byTests_deleteBlocks hdelete).alphaMap_eq, hmap, List.getD_eq_getElem?_getD,
    List.getElem?_replicate, if_pos hc]
  rfl

/-- Bytes below 64, and a table that is clean because there have never been others. -/
structure Small (s : TminState) : Prop where
  bytes : ∀ b ∈ s.inData, b.toNat < 64
  clean : Clean s

theorem Small.byTests (h : Small s) (htests : ByTests f s s') : Small s' := by
  constructor
  · intro b hb
    rcases htests.bytes b hb with hold | rfl
    · exact h.bytes b hold
    · decide
  · intro c hlow hhigh
    rw [htests.alphaMap_eq]
    exact h.clean c hlow hhigh

theorem Small.minimizeAlphabet (h : Small s) (hmap : s.alphaMap.length = 256) :
    Small (minimizeAlphabet f s) := by
  unfold Spec.minimizeAlphabet
  have hbytes : ∀ b ∈ (minimizeAlphabetStats f s).1.inData, b.toNat < 64 := by
    rw [minimizeAlphabetStats_eq]
    refine List.foldlRecOn (motive := fun t : TminState × AlphaStats =>
      ∀ b ∈ t.1.inData, b.toNat < 64) _ _ h.bytes ?_
    intro t ht i _
    rw [alphabetStep]
    split
    · exact ht
    · intro b hb
      dsimp only [TminState.test] at hb
      split at hb
      · obtain ⟨b', hb', rfl⟩ := List.mem_map.mp hb
        split
        · decide
        · exact ht b' hb'
      · exact ht b hb
  refine ⟨hbytes, ?_⟩
  intro c hlow hhigh
  have hnone : occurrences s.inData c = 0 := by
    rw [occurrences, List.countP_eq_zero]
    intro b hb
    have := h.bytes b hb
    simp only [decide_eq_true_eq]
    omega
  rw [alphaMap_minimizeAlphabetStats, getD_countSymbols hmap hhigh,
    if_neg (by omega), h.clean c hlow hhigh, hnone]
  rfl

/-- If no byte of the input is from 64 on, the table is clean in every pass. -/
theorem clean_of_small (h : f input.data = true) (hsmall : ∀ b ∈ input.data, b.toNat < 64)
    (hs : AlphabetStart f input pass s) : Clean s := by
  have hall : ∀ t, PassStart f input t → Small t.2 := by
    intro t ht
    induction ht with
    | first hnorm =>
      refine Small.byTests ⟨hsmall, ?_⟩ (byTests_normalizeBlocks hnorm)
      intro c _ hc
      rw [List.getD_eq_getElem?_getD, List.getElem?_replicate, if_pos hc]
      rfl
    | @next _ t _ ht hpass ih =>
      obtain ⟨s, hdelete, _, rfl⟩ := tminPass_inl hpass
      have hstart : Small { t.2 with changedAny := false } := ⟨ih.bytes, ih.clean⟩
      have hmap := ((ht.inBounds h).deleteBlocks hdelete).map
      have halphabet : Small (Spec.minimizeAlphabet f s) :=
        (hstart.byTests (byTests_deleteBlocks hdelete)).minimizeAlphabet hmap
      dsimp only
      exact halphabet.byTests (byTests_minimizeCharacters (Spec.minimizeAlphabet f s))
  obtain ⟨t, budget, ht, _, hdelete, _⟩ := hs
  have hstart : Small { t.2 with changedAny := false } := ⟨(hall t ht).bytes, (hall t ht).clean⟩
  exact (hstart.byTests (byTests_deleteBlocks hdelete)).clean

end Tmin

open Tmin

/-- For every verdict and every input that it accepts, in every pass that reaches the alphabet
stage: the counters of the symbols, the number of symbols, the symbols that are tried and the number
of replaced bytes are exact if and only if the counters from 64 on are zero when the stage
starts. -/
theorem alphabet_stats_iff (f : List U8 → Bool) (input : TminInput) (h : f input.data = true)
    (pass : Nat) (s : TminState) (hs : AlphabetStart f input pass s) :
    ExactStats f s ↔ Clean s := by
  obtain ⟨t, budget, ht, _, hdelete, _⟩ := hs
  have hbounds := (ht.inBounds h).deleteBlocks hdelete
  refine exactStats_iff hbounds.map ?_
  calc s.inData.length ≤ input.data.length := hbounds.sound.length_le
    _ < TMIN_MAX_FILE := input.small
    _ < 2 ^ 32 := by simp [TMIN_MAX_FILE]

/-- A target that takes three inputs, of which one comes from another by a deletion that is not
possible in the first pass. -/
def takesThree (buf : List U8) : Bool :=
  buf == [0x41, 0x42] || buf == [0x30, 0x42] || buf == [0x30]

@[inherit_doc takesThree] def letters : TminInput := ⟨[0x41, 0x42], by decide, by decide⟩

/-- The letters after normalization. -/
def lettersStart : TminState :=
  { inData := [0x41, 0x42]
    tests := [⟨.normalize, [0x30, 0x30], false, [0x41, 0x42]⟩] }

/-- The letters when the alphabet stage of the first pass starts. Nothing was deleted. -/
def lettersFirst : TminState :=
  { lettersStart with
    tests := lettersStart.tests ++
      [⟨.delete, [0x42], false, [0x41, 0x42]⟩, ⟨.delete, [0x41], false, [0x41, 0x42]⟩] }

/-- The state after the first pass, which has replaced the first letter. -/
def lettersPass : TminState where
  inData := [0x30, 0x42]
  changedAny := true
  alphaMap := ((List.replicate 256 0).set 0x41 1).set 0x42 1
  tests := lettersFirst.tests ++
    [⟨.alphabet, [0x30, 0x42], true, [0x30, 0x42]⟩,
      ⟨.alphabet, [0x30, 0x30], false, [0x30, 0x42]⟩,
      ⟨.character, [0x30, 0x30], false, [0x30, 0x42]⟩]

/-- The state when the alphabet stage of the second pass starts. The other letter is gone. -/
def lettersSecond : TminState :=
  { lettersPass with
    inData := [0x30]
    tests := lettersPass.tests ++
      [⟨.delete, [0x42], false, [0x30, 0x42]⟩, ⟨.delete, [0x30], true, [0x30]⟩] }

theorem passStart_letters : PassStart takesThree letters (0, lettersStart) := by
  have hnorm : normalizeBlocks takesThree 10 { inData := letters.data } = some lettersStart := by
    decide +kernel
  exact .first hnorm

theorem alphabetStart_letters : AlphabetStart takesThree letters 1 lettersFirst := by
  have hdelete : deleteBlocks takesThree 10 { lettersStart with changedAny := false }
      = some lettersFirst := by
    decide +kernel
  exact ⟨_, 10, passStart_letters, rfl, hdelete, by decide⟩

/-- In the first pass, the statistics are exact. -/
theorem alphabet_stats_iff_letters :
    AlphabetStart takesThree letters 1 lettersFirst ∧ ExactStats takesThree lettersFirst :=
  ⟨alphabetStart_letters, (alphabet_stats_iff takesThree letters (by decide) 1 lettersFirst
    alphabetStart_letters).mpr (clean_first alphabetStart_letters)⟩

/-- In the second pass, a digit is all that is left. Both letters are tried, and counted as
replaced, so the statistics are not exact. -/
theorem alphabet_stats_stale :
    AlphabetStart takesThree letters 2 lettersSecond ∧ lettersSecond.inData = [0x30] ∧
      (minimizeAlphabetStats takesThree lettersSecond).2 =
        { alphaSize := 1, symsRemoved := 2, alphaDel1 := 2, tried := [0x41, 0x42], replaced := 0 } ∧
      ((minimizeAlphabetStats takesThree lettersSecond).1.alphaMap.getD 0x41 0) = 1 ∧
      ¬ExactStats takesThree lettersSecond := by
  have hpass : tminPass takesThree 10 (0, lettersStart) = some (.inl (1, lettersPass)) := by
    decide +kernel
  have hdelete : deleteBlocks takesThree 10 { lettersPass with changedAny := false }
      = some lettersSecond := by
    decide +kernel
  have hstats : (minimizeAlphabetStats takesThree lettersSecond).2 =
      { alphaSize := 1, symsRemoved := 2, alphaDel1 := 2, tried := [0x41, 0x42],
        replaced := 0 } := by
    decide +kernel
  refine ⟨⟨(1, lettersPass), 10, passStart_letters.next hpass, rfl, hdelete, by decide⟩, rfl,
    hstats, by decide +kernel, fun hexact => ?_⟩
  have hreplaced := hexact.replaced
  rw [hstats] at hreplaced
  exact absurd hreplaced (by decide)

end TriforceAFL.Proofs
