import Mathlib.Algebra.Ring.Nat
import Mathlib.Data.Finset.Card
import Mathlib.Data.List.Induction
import Mathlib.Tactic.Common

/-!
# `TriforceAFL.Lib.Tally`: tables of counters

A loop over some elements adds one to the counter at the key of each (`tally`). The counters are
machine words, so what they hold is the number of elements modulo the word size (`getD_tally`).
`distinctStep` also counts how often a counter was zero when it was used. From an empty table that
is the number of different elements (`distinct_empty`).
-/

set_option autoImplicit false

namespace TriforceAFL.Lib

variable {α : Type} {w : Nat} {key : α → Nat} {table : List (BitVec w)} {xs : List α} {i : Nat}

/-- Count the elements by their keys. -/
def tally (key : α → Nat) (table : List (BitVec w)) (xs : List α) : List (BitVec w) :=
  xs.foldl (fun t x => t.modify (key x) (· + 1)) table

@[simp] theorem tally_nil : tally key table [] = table := rfl

@[simp] theorem tally_append_singleton (x : α) :
    tally key table (xs ++ [x]) = (tally key table xs).modify (key x) (· + 1) := by
  simp [tally]

@[simp] theorem length_tally : (tally key table xs).length = table.length := by
  induction xs using List.reverseRecOn with
  | nil => rfl
  | append_singleton xs x ih => simp [ih]

/-- A counter that is changed, or another one. -/
theorem getD_modify_succ (table : List (BitVec w)) {i j : Nat} (hj : j < table.length) :
    (table.modify i (· + 1)).getD j 0 = table.getD j 0 + if i = j then 1 else 0 := by
  rw [List.getD_eq_getElem?_getD, List.getD_eq_getElem?_getD, List.getElem?_modify,
    List.getElem?_eq_getElem hj]
  split
  · rfl
  · simp

/-- A counter grows by the number of elements with its key. -/
theorem getD_tally (hi : i < table.length) :
    (tally key table xs).getD i 0
      = table.getD i 0 + BitVec.ofNat w (xs.countP fun x => key x = i) := by
  induction xs using List.reverseRecOn with
  | nil => simp
  | append_singleton xs x ih =>
    rw [tally_append_singleton, getD_modify_succ _ (by simpa using hi), ih, List.countP_append,
      List.countP_singleton, BitVec.ofNat_add, BitVec.add_assoc]
    by_cases hkey : key x = i
    · simp [hkey]
    · simp [hkey]

section Distinct

/-- One turn that also counts the counters that were zero. -/
def distinctStep (key : α → Nat) (t : List (BitVec w) × BitVec w) (x : α) :
    List (BitVec w) × BitVec w :=
  (t.1.modify (key x) (· + 1), if t.1.getD (key x) 0 = 0 then t.2 + 1 else t.2)

theorem distinctStep_table (t : List (BitVec w) × BitVec w) :
    (xs.foldl (distinctStep key) t).1 = tally key t.1 xs := by
  induction xs generalizing t with
  | nil => rfl
  | cons x xs ih => exact ih _

/-- From an empty table, a counter is zero when its element comes for the first time. -/
theorem distinct_empty [DecidableEq α] (hkey : Function.Injective key)
    (hempty : ∀ i < table.length, table.getD i 0 = 0) (hin : ∀ x ∈ xs, key x < table.length)
    (hlen : xs.length < 2 ^ w) :
    (xs.foldl (distinctStep key) (table, 0)).2 = BitVec.ofNat w xs.toFinset.card := by
  induction xs using List.reverseRecOn with
  | nil => rfl
  | append_singleton xs x ih =>
    have hx : key x < table.length := hin x (by simp)
    have hshort : xs.length < 2 ^ w := by
      rw [List.length_append] at hlen
      omega
    have hcount : xs.countP (fun y => key y = key x) = xs.count x := by
      rw [List.count]
      exact List.countP_congr fun y _ => by simp [hkey.eq_iff]
    have hseen : (tally key table xs).getD (key x) 0 = 0 ↔ x ∉ xs := by
      have hfits : xs.count x % 2 ^ w = xs.count x :=
        Nat.mod_eq_of_lt (Nat.lt_of_le_of_lt List.count_le_length hshort)
      have hzero : (0 : BitVec w) + BitVec.ofNat w (xs.count x) = BitVec.ofNat w (xs.count x) :=
        BitVec.zero_add _
      rw [getD_tally hx, hempty _ hx, hcount, hzero, ← List.count_eq_zero, ← BitVec.toNat_inj,
        BitVec.toNat_ofNat, hfits]
      simp
    have ih := ih (fun y hy => hin y (by simp [hy])) hshort
    rw [List.foldl_append, List.foldl_cons, List.foldl_nil, distinctStep, ih,
      distinctStep_table]
    by_cases hmem : x ∈ xs
    · have hsame : (xs ++ [x]).toFinset = xs.toFinset := by
        simp [hmem]
      rw [hsame, if_neg (fun hzero => hseen.mp hzero hmem)]
    · have hmore : (xs ++ [x]).toFinset.card = xs.toFinset.card + 1 := by
        rw [List.toFinset_append, Finset.union_comm]
        simp [hmem]
      rw [hmore, if_pos (hseen.mpr hmem), BitVec.ofNat_add]
      rfl

end Distinct

end TriforceAFL.Lib
