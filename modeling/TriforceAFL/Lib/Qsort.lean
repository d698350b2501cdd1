import Mathlib.Data.List.Sort
import Mathlib.Order.Basic

/-!
# `TriforceAFL.Lib.Qsort`: what `qsort` promises

`qsort` permutes the array, and sorts it if the comparison function is consistent on its elements.
Elements that compare equal come in any order, so `Qsort cmp sort` can hold of many functions. A
comparison that subtracts can be inconsistent, and then nothing but the permutation is left.
-/

set_option autoImplicit false

namespace TriforceAFL.Lib

variable {α : Type}

/-- On the elements of `l`, the comparison function defines a total ordering. -/
structure Consistent (cmp : α → α → Int) (l : List α) : Prop where
  symm : ∀ a ∈ l, ∀ b ∈ l, cmp a b ≤ 0 ↔ 0 ≤ cmp b a
  trans : ∀ a ∈ l, ∀ b ∈ l, ∀ c ∈ l, cmp a b ≤ 0 → cmp b c ≤ 0 → cmp a c ≤ 0

/-- `sort` is a `qsort` with the comparison function `cmp`. -/
structure Qsort (cmp : α → α → Int) (sort : List α → List α) : Prop where
  perm : ∀ l, (sort l).Perm l
  sorted : ∀ l, Consistent cmp l → (sort l).Pairwise fun a b => cmp a b ≤ 0

/-- A comparison function that compares keys on the elements at hand sorts by the keys. -/
theorem Qsort.pairwise {β : Type} [LinearOrder β] {cmp : α → α → Int} {sort : List α → List α}
    (h : Qsort cmp sort) (key : α → β) {l : List α}
    (hcmp : ∀ a ∈ l, ∀ b ∈ l, (cmp a b ≤ 0 ↔ key a ≤ key b) ∧ (0 ≤ cmp a b ↔ key b ≤ key a)) :
    (sort l).Pairwise fun a b => key a ≤ key b := by
  have hconsistent : Consistent cmp l := by
    constructor
    · intro a ha b hb
      rw [(hcmp a ha b hb).1, (hcmp b hb a ha).2]
    · intro a ha b hb c hc hab hbc
      rw [(hcmp a ha b hb).1] at hab
      rw [(hcmp b hb c hc).1] at hbc
      exact (hcmp a ha c hc).1.mpr (le_trans hab hbc)
  refine (h.sorted l hconsistent).imp_of_mem ?_
  intro a b ha hb hle
  exact (hcmp a ((h.perm l).mem_iff.mp ha) b ((h.perm l).mem_iff.mp hb)).1.mp hle

/-- Insertion is one way to sort. -/
theorem qsort_insertionSort (cmp : α → α → Int) :
    Qsort cmp (List.insertionSort fun a b => cmp a b ≤ 0) where
  perm := List.perm_insertionSort _
  sorted := by
    intro l hl
    -- The comparison is total and transitive on the elements of the list, and only there.
    let r : { a // a ∈ l } → { a // a ∈ l } → Prop := fun a b => cmp a.1 b.1 ≤ 0
    have : Std.Total r := ⟨by
      intro a b
      have hsymm := hl.symm b.1 b.2 a.1 a.2
      show cmp a.1 b.1 ≤ 0 ∨ cmp b.1 a.1 ≤ 0
      omega⟩
    have : IsTrans _ r := ⟨fun a b c => hl.trans a.1 a.2 b.1 b.2 c.1 c.2⟩
    have hmap : (l.attach.insertionSort r).map Subtype.val
        = (l.attach.map Subtype.val).insertionSort fun a b => cmp a b ≤ 0 :=
      List.map_insertionSort _ _ _ _ fun _ _ _ _ => Iff.rfl
    rw [List.attach_map_subtype_val] at hmap
    rw [← hmap, List.pairwise_map]
    exact List.pairwise_insertionSort r l.attach

end TriforceAFL.Lib
