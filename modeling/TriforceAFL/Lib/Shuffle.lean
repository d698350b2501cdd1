import Mathlib.Data.List.Permutation
import Mathlib.Tactic.Common

/-!
# `TriforceAFL.Lib.Shuffle`: a shuffle that leaves out its last turn

`Shuffles l r` says that `r` comes out of a shuffle of `l` in which each turn exchanges the first
element that is left with any other one, and the last two elements have no turn of their own.

The result is a permutation (`Shuffles.perm`). Not every permutation is a result: of two lists that
differ in the order of their last two elements, each permutation is a result for at least one
(`shuffles_or`), but the list with its last two elements exchanged is a result for neither, unless
the two are equal (`Shuffles.swapLast_eq`). So the shuffle reaches every permutation exactly if they
are equal (`forall_shuffles_iff`).
-/

set_option autoImplicit false

namespace TriforceAFL.Lib

variable {α : Type} {l r t : List α} {x : α}

/-- What the turns of a shuffle make of a list. -/
inductive Shuffles : List α → List α → Prop
  | done {l : List α} : l.length ≤ 2 → Shuffles l l
  /-- The first element is exchanged with itself. -/
  | keep {x : α} {t r : List α} : 2 ≤ t.length → Shuffles t r → Shuffles (x :: t) (x :: r)
  | swap {x : α} {t r : List α} {k : Nat} (hk : k < t.length) : 2 ≤ t.length →
      Shuffles (t.set k x) r → Shuffles (x :: t) (t[k] :: r)

/-- Exchanging two elements of a list is a permutation. -/
theorem set_perm_swap {k : Nat} (hk : k < t.length) (x : α) :
    (t[k] :: t.set k x).Perm (x :: t) :=
  calc (t[k] :: t.set k x).Perm (t[k] :: x :: t.eraseIdx k) :=
        (List.set_perm_cons_eraseIdx hk x).cons _
    _ |>.Perm (x :: t[k] :: t.eraseIdx k) := List.Perm.swap _ _ _
    _ |>.Perm (x :: t) := (List.getElem_cons_eraseIdx_perm hk).cons x

theorem Shuffles.perm (h : Shuffles l r) : r.Perm l := by
  induction h with
  | done _ => exact List.Perm.refl _
  | keep _ _ ih => exact ih.cons _
  | swap hk _ _ ih => exact (ih.cons _).trans (set_perm_swap hk _)

/-! ### The last two elements -/

/-- The list with its last two elements exchanged. -/
def swapLast : List α → List α
  | [] => []
  | [a] => [a]
  | [a, b] => [b, a]
  | a :: b :: c :: t => a :: swapLast (b :: c :: t)

theorem swapLast_cons (ht : 2 ≤ t.length) : swapLast (x :: t) = x :: swapLast t := by
  rcases t with _ | ⟨b, _ | ⟨c, t⟩⟩
  · exact absurd ht (by simp)
  · exact absurd ht (by simp)
  · rfl

theorem swapLast_perm (l : List α) : (swapLast l).Perm l := by
  induction l using swapLast.induct with
  | case1 => exact List.Perm.refl _
  | case2 a => exact List.Perm.refl _
  | case3 a b => exact List.Perm.swap a b []
  | case4 a b c t ih => exact ih.cons a

/-- The two lists have the same elements to exchange the first one with, and the same lists are
left, up to their last two elements. -/
theorem exists_swapLast_set (ht : 2 ≤ t.length) {k : Nat} (hk : k < t.length) (x : α) :
    ∃ (k' : Nat) (hk' : k' < (swapLast t).length),
      (swapLast t)[k'] = t[k] ∧ (swapLast t).set k' x = swapLast (t.set k x) := by
  induction t using swapLast.induct generalizing k with
  | case1 => exact absurd hk (Nat.not_lt_zero k)
  | case2 a => exact absurd ht (by simp)
  | case3 a b =>
    rcases k with _ | _ | k
    · exact ⟨1, Nat.one_lt_two, rfl, rfl⟩
    · exact ⟨0, Nat.zero_lt_two, rfl, rfl⟩
    · exact absurd hk (by simp)
  | case4 a b c t ih =>
    cases k with
    | zero => exact ⟨0, Nat.zero_lt_succ _, rfl, rfl⟩
    | succ k =>
      obtain ⟨k', hk', hget, hset⟩ := ih (by simp) (Nat.lt_of_succ_lt_succ hk)
      have hlong : 2 ≤ ((b :: c :: t).set k x).length := by simp
      refine ⟨k' + 1, Nat.succ_lt_succ hk', hget, ?_⟩
      show a :: (swapLast (b :: c :: t)).set k' x = swapLast (a :: (b :: c :: t).set k x)
      rw [hset, swapLast_cons hlong]

/-- The last two elements are equal. -/
theorem swapLast_eq_iff (hl : 2 ≤ l.length) :
    swapLast l = l ↔ l[l.length - 2]? = l[l.length - 1]? := by
  induction l using swapLast.induct with
  | case1 => exact absurd hl (by simp)
  | case2 a => exact absurd hl (by simp)
  | case3 a b => simp [swapLast, eq_comm]
  | case4 a b c t ih =>
    have hshift : ∀ k ≤ t.length + 2,
        (a :: b :: c :: t)[t.length + 3 - k]? = (b :: c :: t)[t.length + 2 - k]? := by
      intro k hk
      rw [Nat.succ_sub hk, List.getElem?_cons_succ]
    show a :: swapLast (b :: c :: t) = a :: b :: c :: t ↔ _
    rw [List.cons.injEq, ih (by simp)]
    show _ ↔ (a :: b :: c :: t)[t.length + 3 - 2]? = (a :: b :: c :: t)[t.length + 3 - 1]?
    rw [hshift 2 (by omega), hshift 1 (by omega)]
    exact and_iff_right rfl

/-! ### Which permutations come out -/

/-- Every permutation comes out, from the list as it is or with its last two elements exchanged. -/
theorem shuffles_or (hl : 2 ≤ l.length) (hperm : r.Perm l) :
    Shuffles l r ∨ Shuffles (swapLast l) r := by
  -- The induction is on the length: a turn changes the elements that are left.
  generalize hn : l.length = n at hl
  induction n, hl using Nat.le_induction generalizing l r with
  | base =>
    obtain ⟨a, b, rfl⟩ := List.length_eq_two.mp hn
    rcases List.perm_pair.mp hperm with rfl | rfl
    · exact Or.inl (.done (by simp))
    · exact Or.inr (.done (by simp [swapLast]))
  | succ n hn2 ih =>
    obtain ⟨x, t, rfl⟩ := List.exists_cons_of_length_eq_add_one hn
    have hlen : t.length = n := Nat.succ.inj hn
    have ht : 2 ≤ t.length := hlen.symm ▸ hn2
    have hlast : 2 ≤ (swapLast t).length := (swapLast_perm t).length_eq.symm ▸ ht
    cases r with
    | nil => exact absurd hperm.length_eq (by simp)
    | cons y r =>
      rw [swapLast_cons ht]
      rcases List.mem_cons.mp (hperm.subset List.mem_cons_self) with rfl | hy
      · rcases ih (hperm.cons_inv) hlen with h | h
        · exact Or.inl (.keep ht h)
        · exact Or.inr (.keep hlast h)
      · obtain ⟨k, hk, rfl⟩ := List.getElem_of_mem hy
        have hrest : r.Perm (t.set k x) :=
          (hperm.trans (set_perm_swap hk x).symm).cons_inv
        rcases ih hrest ((List.length_set ..).trans hlen) with h | h
        · exact Or.inl (.swap hk ht h)
        · obtain ⟨k', hk', hget, hset⟩ := exists_swapLast_set ht hk x
          rw [← hset] at h
          rw [← hget]
          exact Or.inr (.swap hk' hlast h)

/-- Putting an element where an equal one is changes nothing. -/
theorem set_getElem_self' {k : Nat} (hk : k < t.length) (hx : t[k] = x) : t.set k x = t := by
  rw [← hx, List.set_getElem_self]

/-- The exchange of the last two elements comes out only if they are equal. -/
theorem Shuffles.swapLast_eq (hl : 2 ≤ l.length) (h : Shuffles l (swapLast l)) :
    swapLast l = l := by
  -- The result begins with the element that the list begins with, so every turn leaves the list
  -- as it is, and the last two elements are never touched.
  generalize hr : swapLast l = r at h
  induction h with
  | done _ => rfl
  | @keep x t r ht h ih =>
    rw [swapLast_cons ht, List.cons.injEq] at hr
    rw [ih ht hr.2]
  | @swap x t r k hk ht h ih =>
    rw [swapLast_cons ht, List.cons.injEq] at hr
    have hsame : t.set k x = t := set_getElem_self' hk hr.1.symm
    rw [hsame] at ih
    rw [ih ht hr.2, hr.1]

theorem forall_shuffles_iff (hl : 2 ≤ l.length) :
    (∀ r, r.Perm l → Shuffles l r) ↔ l[l.length - 2]? = l[l.length - 1]? := by
  rw [← swapLast_eq_iff hl]
  constructor
  · intro hall
    exact (hall _ (swapLast_perm l)).swapLast_eq hl
  · intro heq r hperm
    have hor := shuffles_or hl hperm
    rwa [heq, or_self] at hor

end TriforceAFL.Lib
