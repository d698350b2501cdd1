import Mathlib.Data.List.Basic
import Mathlib.Tactic.Common

/-!
# `TriforceAFL.Lib.SortUnique`: a stable sort that keeps one line for each key

`sort -s -u` with a key sorts a list of lines by their keys, keeps the order of lines with equal
keys, and puts out the first line of each run of equal keys (`firstOfRuns`).
`mem_sortUnique_iff` says what is left: for every key that occurs, the line that was the first one
with this key before the sort.
-/

set_option autoImplicit false

namespace TriforceAFL.Lib

variable {α κ : Type} [DecidableEq κ]

/-- The first element of each run of equal keys, after an element whose key was `prev`. -/
def firstOfRuns (key : α → κ) : Option κ → List α → List α
  | _, [] => []
  | prev, a :: l =>
    if prev = some (key a) then firstOfRuns key prev l
    else a :: firstOfRuns key (some (key a)) l

/-- `sort -s -u` with a key. -/
def sortUnique (le : κ → κ → Bool) (key : α → κ) (l : List α) : List α :=
  firstOfRuns key none (l.mergeSort fun a b => le (key a) (key b))

variable {le : κ → κ → Bool} {key : α → κ}

/-- In a sorted list the runs are all elements of a key, so their first elements are the first ones
of their key. -/
theorem mem_firstOfRuns_iff (hanti : ∀ a b, le a b → le b a → a = b) {prev : Option κ} {l : List α}
    (hsorted : l.Pairwise fun a b => le (key a) (key b))
    (hprev : ∀ k, prev = some k → ∀ b ∈ l, le k (key b)) (a : α) :
    a ∈ firstOfRuns key prev l ↔
      prev ≠ some (key a) ∧ l.find? (fun b => key b = key a) = some a := by
  induction l generalizing prev with
  | nil => simp [firstOfRuns]
  | cons b l ih =>
    rw [List.pairwise_cons] at hsorted
    have hnext : a ∈ firstOfRuns key (some (key b)) l ↔
        some (key b) ≠ some (key a) ∧ l.find? (fun c => key c = key a) = some a := by
      apply ih hsorted.2
      rintro k ⟨⟩
      exact hsorted.1
    rw [firstOfRuns]
    by_cases hrun : prev = some (key b)
    · rw [if_pos hrun, hrun, hnext]
      constructor
      · rintro ⟨hne, hfind⟩
        have hkey : ¬ key b = key a := fun h => hne (congrArg some h)
        exact ⟨hne, by simpa [List.find?_cons, hkey] using hfind⟩
      · rintro ⟨hne, hfind⟩
        have hkey : ¬ key b = key a := fun h => hne (congrArg some h)
        exact ⟨hne, by simpa [List.find?_cons, hkey] using hfind⟩
    · rw [if_neg hrun, List.mem_cons, hnext]
      by_cases hkey : key b = key a
      · -- `b` begins the run of its key.
        simp only [hkey, ne_eq, not_true_eq_false, false_and, or_false, List.find?_cons,
          decide_true, Option.some.injEq]
        rw [hkey] at hrun
        exact ⟨fun h => ⟨hrun, h.symm⟩, fun h => h.2.symm⟩
      · -- If the key of `a` was the previous one, then `b` would lie between two equal keys.
        have hbetween : l.find? (fun c => key c = key a) = some a → prev ≠ some (key a) := by
          intro hfind hp
          have hmem : a ∈ l := List.mem_of_find?_eq_some hfind
          have hle : le (key a) (key b) := hprev _ hp b List.mem_cons_self
          exact hkey (hanti _ _ (hsorted.1 a hmem) hle)
        have hne : a ≠ b := fun h => hkey (congrArg key h).symm
        simp only [hne, false_or, List.find?_cons, hkey, decide_false, Option.some.injEq, ne_eq,
          not_false_eq_true, true_and]
        exact ⟨fun h => ⟨hbetween h, h⟩, fun h => h.2⟩

/-- A stable sort does not change which element is the first one of its key. -/
theorem find?_mergeSort_key (htrans : ∀ a b c, le a b → le b c → le a c)
    (htotal : ∀ a b, (le a b || le b a) = true) (l : List α) (k : κ) :
    (l.mergeSort fun a b => le (key a) (key b)).find? (fun b => key b = k) =
      l.find? (fun b => key b = k) := by
  have hsub : (l.filter fun b => key b = k).Sublist
      (l.mergeSort fun a b => le (key a) (key b)) := by
    apply List.sublist_mergeSort (fun a b c => htrans (key a) (key b) (key c))
      (fun a b => htotal (key a) (key b))
    · rw [List.pairwise_iff_forall_sublist]
      intro a b hab
      have hk : ∀ c ∈ [a, b], key c = k := fun c hc => by
        simpa using (List.mem_filter.mp (hab.subset hc)).2
      rw [hk a (by simp), hk b (by simp)]
      simpa using htotal k k
    · exact List.filter_sublist
  have hfilter : (l.mergeSort fun a b => le (key a) (key b)).filter (fun b => key b = k) =
      l.filter (fun b => key b = k) := by
    symm
    apply List.Sublist.eq_of_length
    · have h := hsub.filter (fun b => key b = k)
      simpa only [List.filter_filter, Bool.and_self] using h
    · exact ((List.mergeSort_perm l _).filter _).length_eq.symm
  rw [← List.head?_filter, hfilter, List.head?_filter]

/-- What `sort -s -u` puts out: the first line of every key. -/
theorem mem_sortUnique_iff (htrans : ∀ a b c, le a b → le b c → le a c)
    (htotal : ∀ a b, (le a b || le b a) = true) (hanti : ∀ a b, le a b → le b a → a = b)
    (l : List α) (a : α) :
    a ∈ sortUnique le key l ↔ l.find? (fun b => key b = key a) = some a := by
  have hsorted : (l.mergeSort fun a b => le (key a) (key b)).Pairwise
      fun a b => le (key a) (key b) :=
    List.pairwise_mergeSort (fun a b c => htrans (key a) (key b) (key c))
      (fun a b => htotal (key a) (key b)) l
  rw [sortUnique, mem_firstOfRuns_iff hanti hsorted (by simp)]
  rw [find?_mergeSort_key htrans htotal]
  simp

/-- In a list that goes upwards in `R`, the first element with a property is below the others. -/
theorem rel_of_find?_eq_some {R : α → α → Prop} (hrefl : ∀ a, R a a) {l : List α}
    (hl : l.Pairwise R) {P : α → Bool} {a b : α} (ha : l.find? P = some a) (hb : b ∈ l)
    (hP : P b = true) : R a b := by
  obtain ⟨-, before, after, rfl, hbefore⟩ := List.find?_eq_some_iff_append.mp ha
  rcases List.mem_append.mp hb with hb | hb
  · exact absurd hP (by simpa using hbefore b hb)
  · rcases List.mem_cons.mp hb with rfl | hb
    · exact hrefl b
    · exact List.rel_of_pairwise_cons (List.pairwise_append.mp hl).2.1 hb

end TriforceAFL.Lib
