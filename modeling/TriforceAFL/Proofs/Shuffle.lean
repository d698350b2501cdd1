import TriforceAFL.Lib.Shuffle
import TriforceAFL.Spec.Shuffle

/-!
# `TriforceAFL.Proofs.Shuffle`: which orders `shuffle_ptrs` can give

A turn of the loop leaves the elements before its index alone, and is a turn of `Lib.Shuffles` on
the elements behind it (`shuffleLoop_valid`, `shuffleLoop_complete`). The loop ends before index
`cnt - 2`, so the last two elements have no turn of their own, and half of the orders of different
elements are impossible (`shuffle_all_iff`).
-/

set_option autoImplicit false

namespace TriforceAFL.Proofs

open Lib Spec

variable {α : Type} {pre l r : List α} {ur : Nat → Nat}

/-- One exchange, behind the elements that have had their turn. -/
theorem swapPtrs_append (pre : List α) (x : α) (t : List α) :
    swapPtrs (pre ++ x :: t) pre.length pre.length = some (pre ++ x :: t) ∧
      ∀ (k : Nat) (hk : k < t.length), swapPtrs (pre ++ x :: t) pre.length (pre.length + (k + 1))
        = some (pre ++ t[k] :: t.set k x) := by
  have hfirst : (pre ++ x :: t)[pre.length]? = some x := by simp
  constructor
  · rw [swapPtrs, hfirst]
    simp
  · intro k hk
    have hother : (pre ++ x :: t)[pre.length + (k + 1)]? = some t[k] := by
      rw [List.getElem?_append_right (Nat.le_add_right _ _), Nat.add_sub_cancel_left,
        List.getElem?_cons_succ, List.getElem?_eq_getElem hk]
    rw [swapPtrs, hfirst, hother]
    simp

/-- The loop from index `pre.length` on. -/
def shuffleLoop (ur : Nat → Nat) (pre l : List α) : Option (List α) :=
  (List.range' pre.length (l.length - 2)).foldlM (shuffleTurn ur) (pre ++ l)

theorem shuffleLoop_done (hl : l.length ≤ 2) : shuffleLoop ur pre l = some (pre ++ l) := by
  rw [shuffleLoop, Nat.sub_eq_zero_of_le hl]
  rfl

theorem shuffleLoop_turn {x : α} {t : List α} (ht : 2 ≤ t.length)
    (hsmall : pre.length + ur pre.length < 2 ^ 32) {y : α} {t' : List α}
    (hlen : t'.length = t.length)
    (hswap : swapPtrs (pre ++ x :: t) pre.length (pre.length + ur pre.length)
      = some (pre ++ y :: t')) :
    shuffleLoop ur pre (x :: t) = shuffleLoop ur (pre ++ [y]) t' := by
  have hturns : (x :: t).length - 2 = (t'.length - 2) + 1 := by
    rw [List.length_cons]
    omega
  have hturn : shuffleTurn ur (pre ++ x :: t) pre.length = some (pre ++ y :: t') := by
    rw [shuffleTurn, Nat.mod_eq_of_lt hsmall, hswap]
  rw [shuffleLoop, shuffleLoop, hturns, List.range'_succ, List.foldlM_cons, hturn]
  simp

/-- With valid draws the loop makes no access outside of the array, and shuffles. -/
theorem shuffleLoop_valid (hsmall : pre.length + l.length < 2 ^ 32)
    (hur : ∀ i < l.length - 2, ur (pre.length + i) < l.length - i) :
    ∃ r, shuffleLoop ur pre l = some (pre ++ r) ∧ Shuffles l r := by
  generalize hn : l.length = n at hsmall hur
  induction n generalizing pre l with
  | zero =>
    have hl : l.length ≤ 2 := by omega
    exact ⟨l, shuffleLoop_done hl, .done hl⟩
  | succ n ih =>
    obtain ⟨x, t, rfl⟩ := List.exists_cons_of_length_eq_add_one hn
    have hlen : t.length = n := Nat.succ.inj hn
    by_cases ht : 2 ≤ t.length
    · have hdraw := hur 0 (by omega)
      have hrest : ∀ (y : α) (t' : List α), t'.length = n →
          ∃ r, shuffleLoop ur (pre ++ [y]) t' = some (pre ++ y :: r) ∧ Shuffles t' r := by
        intro y t' hlen'
        obtain ⟨r, hr, hshuffles⟩ := @ih (pre ++ [y]) t' hlen' (by simp; omega) (by
          intro i hi
          have := hur (i + 1) (by omega)
          simp only [List.length_append, List.length_singleton]
          rw [Nat.add_assoc, Nat.add_comm 1]
          omega)
        exact ⟨r, by rw [hr]; simp, hshuffles⟩
      -- The draw of this turn: the element itself, or one behind it.
      cases hk : ur pre.length with
      | zero =>
        obtain ⟨r, hr, hshuffles⟩ := hrest x t hlen
        refine ⟨x :: r, ?_, .keep ht hshuffles⟩
        rw [← hr]
        exact shuffleLoop_turn ht (by omega) rfl (by rw [hk]; exact (swapPtrs_append pre x t).1)
      | succ k =>
        have hkt : k < t.length := by
          rw [Nat.add_zero, hk] at hdraw
          omega
        obtain ⟨r, hr, hshuffles⟩ := hrest t[k] (t.set k x) ((List.length_set ..).trans hlen)
        refine ⟨t[k] :: r, ?_, .swap hkt ht hshuffles⟩
        rw [← hr]
        exact shuffleLoop_turn ht (by omega) (List.length_set ..)
          (by rw [hk]; exact (swapPtrs_append pre x t).2 k hkt)
    · have hl : (x :: t).length ≤ 2 := by
        rw [List.length_cons]
        omega
      exact ⟨x :: t, shuffleLoop_done hl, .done hl⟩

/-- The loop does not look at the draws of earlier turns. -/
theorem shuffleTurns_congr {ur ur' : Nat → Nat} (n : Nat) {i : Nat} (h : ∀ j ≥ i, ur j = ur' j)
    (ptrs : List α) : (List.range' i n).foldlM (shuffleTurn ur) ptrs
      = (List.range' i n).foldlM (shuffleTurn ur') ptrs := by
  induction n generalizing i ptrs with
  | zero => rfl
  | succ n ih =>
    have hturn : shuffleTurn ur ptrs i = shuffleTurn ur' ptrs i := by
      rw [shuffleTurn, shuffleTurn, h i (Nat.le_refl i)]
    rw [List.range'_succ, List.foldlM_cons, List.foldlM_cons, hturn]
    exact bind_congr fun ptrs => ih (fun j hj => h j (Nat.le_of_succ_le hj)) ptrs

/-- A draw `k`, in front of the draws for the elements that are left. -/
theorem shuffleLoop_first {x y : α} {t t' : List α} {k : Nat} (ht : 2 ≤ t.length)
    (hsmall : pre.length + (x :: t).length < 2 ^ 32) (hk : k < (x :: t).length)
    (hlen : t'.length = t.length) (hur : ∀ i < t'.length - 2,
      ur ((pre ++ [y]).length + i) < t'.length - i)
    (hloop : shuffleLoop ur (pre ++ [y]) t' = some (pre ++ [y] ++ r))
    (hswap : swapPtrs (pre ++ x :: t) pre.length (pre.length + k) = some (pre ++ y :: t')) :
    ∃ ur' : Nat → Nat, (∀ i < (x :: t).length - 2, ur' (pre.length + i) < (x :: t).length - i) ∧
      shuffleLoop ur' pre (x :: t) = some (pre ++ y :: r) := by
  have hnow : Function.update ur pre.length k pre.length = k := Function.update_self ..
  have hlater : ∀ j ≥ pre.length + 1, Function.update ur pre.length k j = ur j :=
    fun j hj => Function.update_of_ne (Nat.ne_of_gt hj) ..
  refine ⟨Function.update ur pre.length k, ?_, ?_⟩
  · intro i hi
    cases i with
    | zero =>
      rw [Nat.add_zero, hnow]
      exact hk
    | succ i =>
      have hdraw := hur i (by rw [List.length_cons] at hi; omega)
      rw [List.length_append, List.length_singleton, Nat.add_assoc, Nat.add_comm 1] at hdraw
      rw [hlater _ (by omega), List.length_cons]
      omega
  · rw [shuffleLoop_turn ht (by rw [hnow]; omega) hlen (by rw [hnow]; exact hswap)]
    rw [List.append_assoc, List.singleton_append] at hloop
    rw [← hloop]
    exact shuffleTurns_congr _ (fun j hj => hlater j (by simpa using hj)) _

/-- Every shuffle is made by some valid draws. -/
theorem shuffleLoop_complete (h : Shuffles l r) (hsmall : pre.length + l.length < 2 ^ 32) :
    ∃ ur : Nat → Nat, (∀ i < l.length - 2, ur (pre.length + i) < l.length - i) ∧
      shuffleLoop ur pre l = some (pre ++ r) := by
  induction h generalizing pre with
  | done hl => exact ⟨fun _ => 0, fun i hi => by omega, shuffleLoop_done hl⟩
  | @keep x t r ht _ ih =>
    obtain ⟨ur, hur, hloop⟩ := @ih (pre ++ [x]) (by
      simp only [List.length_append, List.length_cons, List.length_nil] at hsmall ⊢
      omega)
    exact shuffleLoop_first ht hsmall (Nat.zero_lt_succ _) rfl hur hloop
      (swapPtrs_append pre x t).1
  | @swap x t r k hk ht _ ih =>
    obtain ⟨ur, hur, hloop⟩ := @ih (pre ++ [t[k]]) (by
      simp only [List.length_append, List.length_cons, List.length_nil, List.length_set]
        at hsmall ⊢
      omega)
    exact shuffleLoop_first ht hsmall (Nat.succ_lt_succ hk) (List.length_set ..) hur hloop
      ((swapPtrs_append pre x t).2 k hk)

/-! ### `shuffle_ptrs` -/

section Ptrs
variable {ptrs out : List α} {cnt : U32}

theorem toNat_sub_two (hcnt : ptrs.length = cnt.toNat) (htwo : 2 ≤ ptrs.length) :
    (cnt - 2).toNat = ptrs.length - 2 := by
  have hbound := cnt.isLt
  rw [BitVec.toNat_sub, hcnt]
  show (2 ^ 32 - 2 + cnt.toNat) % 2 ^ 32 = cnt.toNat - 2
  omega

theorem shufflePtrs_eq (hcnt : ptrs.length = cnt.toNat) (htwo : 2 ≤ ptrs.length) :
    shufflePtrs ur ptrs cnt = shuffleLoop ur [] ptrs := by
  rw [shufflePtrs, shuffleLoop, toNat_sub_two hcnt htwo, List.range_eq_range']
  rfl

/-- What comes out for some valid draws. -/
theorem shufflePtrs_iff (hcnt : ptrs.length = cnt.toNat) (htwo : 2 ≤ ptrs.length) :
    (∃ ur, ValidDraws ur cnt ∧ shufflePtrs ur ptrs cnt = some out) ↔ Shuffles ptrs out := by
  have hsmall : ([] : List α).length + ptrs.length < 2 ^ 32 := by
    have hbound := cnt.isLt
    simp only [List.length_nil]
    omega
  simp only [ValidDraws, toNat_sub_two hcnt htwo, ← hcnt, shufflePtrs_eq hcnt htwo]
  constructor
  · rintro ⟨ur, hur, hout⟩
    have hloop : ∃ r, shuffleLoop ur [] ptrs = some ([] ++ r) ∧ Shuffles ptrs r :=
      shuffleLoop_valid hsmall (by simpa using hur)
    obtain ⟨r, hr, hshuffles⟩ := hloop
    rw [hr] at hout
    cases hout
    exact hshuffles
  · intro hshuffles
    obtain ⟨ur, hur, hloop⟩ := shuffleLoop_complete hshuffles hsmall
    exact ⟨ur, by simpa using hur, hloop⟩

theorem shufflePtrs_perm (hcnt : ptrs.length = cnt.toNat) (htwo : 2 ≤ ptrs.length)
    (hur : ValidDraws ur cnt) : ∃ out, shufflePtrs ur ptrs cnt = some out ∧ out.Perm ptrs := by
  have hbound := cnt.isLt
  simp only [ValidDraws, toNat_sub_two hcnt htwo, ← hcnt] at hur
  have hloop : ∃ r, shuffleLoop ur [] ptrs = some ([] ++ r) ∧ Shuffles ptrs r :=
    shuffleLoop_valid (by rw [List.length_nil]; omega) (by simpa using hur)
  obtain ⟨r, hr, hshuffles⟩ := hloop
  exact ⟨r, (shufflePtrs_eq hcnt htwo).trans hr, hshuffles.perm⟩

end Ptrs

/-- With draws below the bounds that `UR` is called with, no access is outside of the array and the
result is a permutation. Every permutation is the result of some draws exactly if the last two
pointers of the array are equal. -/
theorem shuffle_all_iff (ptrs : List α) (cnt : U32) (hcnt : ptrs.length = cnt.toNat)
    (htwo : 2 ≤ ptrs.length) :
    (∀ ur, ValidDraws ur cnt → ∃ out, shufflePtrs ur ptrs cnt = some out ∧ out.Perm ptrs) ∧
      ((∀ out, out.Perm ptrs → ∃ ur, ValidDraws ur cnt ∧ shufflePtrs ur ptrs cnt = some out) ↔
        ptrs[ptrs.length - 2]? = ptrs[ptrs.length - 1]?) := by
  constructor
  · intro ur hur
    exact shufflePtrs_perm hcnt htwo hur
  · simp only [shufflePtrs_iff hcnt htwo]
    exact forall_shuffles_iff htwo

/-- Three pointers, of which the last two are equal. -/
theorem shuffle_all_iff_three : [8, 7, 8].Perm [7, 8, 8] ∧
    ∃ ur, ValidDraws ur 3 ∧ shufflePtrs ur [7, 8, 8] 3 = some [8, 7, 8] :=
  have hperm : [8, 7, 8].Perm [7, 8, 8] := by decide
  ⟨hperm, (shuffle_all_iff [7, 8, 8] 3 rfl (by decide)).2.mpr rfl [8, 7, 8] hperm⟩

/-- Two pointers never change places. -/
theorem shuffle_never_swaps_two : [8, 7].Perm [7, 8] ∧
    ¬ ∃ ur, ValidDraws ur 2 ∧ shufflePtrs ur [7, 8] 2 = some [8, 7] := by
  constructor
  · decide
  · rintro ⟨ur, _, hout⟩
    have hsame : shufflePtrs ur [7, 8] 2 = some [7, 8] := rfl
    rw [hsame] at hout
    exact absurd hout (by decide)

/-- So `read_testcases` goes through the entries of the directory in some order, each once. -/
theorem shuffleQueue_perm (shuffle : Bool) {nl : List α} (hsize : nl.length < 2 ^ 32)
    (hur : ValidDraws ur (BitVec.ofNat 32 nl.length)) :
    ∃ out, shuffleQueue shuffle ur nl = some out ∧ out.Perm nl := by
  rw [shuffleQueue]
  split
  · rename_i hshuffle
    exact shufflePtrs_perm (by rw [BitVec.toNat_ofNat, Nat.mod_eq_of_lt hsize]) hshuffle.2 hur
  · exact ⟨nl, rfl, List.Perm.refl nl⟩

end TriforceAFL.Proofs
