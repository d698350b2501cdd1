import Mathlib.Algebra.Ring.Nat
import TriforceAFL.Spec.Config

/-!
# `TriforceAFL.Spec.Shuffle`: shuffling the input files

With `AFL_SHUFFLE_QUEUE`, `read_testcases` shuffles the directory entries with `shuffle_ptrs`. The
draws are an input of the model: `ur i` is what `UR(cnt - i)` returns in turn `i`. An access outside
of the array gives `none`.
-/

set_option autoImplicit false

namespace TriforceAFL.Spec

variable {α : Type}

/-- `s = ptrs[i]; ptrs[i] = ptrs[j]; ptrs[j] = s`. -/
def swapPtrs (ptrs : List α) (i j : Nat) : Option (List α) := do
  let s ← ptrs[i]?
  let t ← ptrs[j]?
  some ((ptrs.set i t).set j s)

/-- The body of the loop. -/
def shuffleTurn (ur : Nat → Nat) (ptrs : List α) (i : Nat) : Option (List α) :=
  swapPtrs ptrs i ((i + ur i) % 2 ^ 32)

/-- Shuffle an array of pointers. The bound of the loop is computed on a `u32`. -/
def shufflePtrs (ur : Nat → Nat) (ptrs : List α) (cnt : U32) : Option (List α) :=
  (List.range (cnt - 2).toNat).foldlM (shuffleTurn ur) ptrs

/-- `UR(n)` is below `n`, in each turn of the loop. -/
def ValidDraws (ur : Nat → Nat) (cnt : U32) : Prop := ∀ i < (cnt - 2).toNat, ur i < cnt.toNat - i

/-- The entries of the input directory, as `read_testcases` goes through them. -/
def shuffleQueue (shuffle : Bool) (ur : Nat → Nat) (nl : List α) : Option (List α) :=
  if shuffle ∧ nl.length > 1 then shufflePtrs ur nl (BitVec.ofNat 32 nl.length) else some nl

end TriforceAFL.Spec
