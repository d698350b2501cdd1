import Mathlib.Data.List.Basic

/-!
# `TriforceAFL.Lib.Runs`: maximal runs of a sequence

`IsRun c n lo hi` says that `c` is constant on the interval from `lo` up to `hi`, and that the
interval cannot be made longer within the first `n` positions. A program that reads the sequence
once knows, after `m` positions, where the run that it is in has started (`runStart c m`) and which
runs have ended (`closedRuns c m`). `mem_closedRuns_iff` and `mem_allRuns_iff` say that these are
the maximal runs, and `pairwise_allRuns` that they come in order.
-/

set_option autoImplicit false

namespace TriforceAFL.Lib

variable {α : Type}

/-- `c` is constant from `lo` up to `hi`, and the interval is maximal below `n`. -/
structure IsRun (c : Nat → α) (n lo hi : Nat) : Prop where
  lt : lo < hi
  le : hi ≤ n
  const : ∀ i, lo ≤ i → i < hi → c i = c lo
  left : 0 < lo → c (lo - 1) ≠ c lo
  right : hi < n → c hi ≠ c lo

variable [DecidableEq α] (c : Nat → α)

/-- Where the run of position `m - 1` starts. -/
def runStart : Nat → Nat
  | 0 => 0
  | m + 1 => if c m = c (m - 1) then runStart m else m

/-- The runs that have ended before position `m - 1`. -/
def closedRuns : Nat → List (Nat × Nat)
  | 0 => []
  | m + 1 => if c m = c (m - 1) then closedRuns m else closedRuns m ++ [(runStart c m, m)]

/-- All runs of the first `n` positions. -/
def allRuns (n : Nat) : List (Nat × Nat) := closedRuns c n ++ [(runStart c n, n)]

/-! ### The run at the end -/

/-- A run starts where it ends, or before. -/
theorem runStart_le (m : Nat) : runStart c m ≤ m := by
  induction m with
  | zero => exact Nat.le_refl 0
  | succ m ih =>
    rw [runStart]
    split
    · exact Nat.le_succ_of_le ih
    · exact Nat.le_succ m

theorem runStart_lt {m : Nat} (hm : 0 < m) : runStart c m < m := by
  cases m with
  | zero => omega
  | succ m =>
    rw [runStart]
    split
    · exact Nat.lt_succ_of_le (runStart_le c m)
    · exact Nat.lt_succ_self m

/-- A run has one value. -/
theorem runStart_const {m i : Nat} (hi : runStart c m ≤ i) (him : i < m) : c i = c (m - 1) := by
  induction m with
  | zero => omega
  | succ m ih =>
    rw [runStart] at hi
    rcases Nat.lt_succ_iff_lt_or_eq.mp him with hlt | rfl
    · split at hi
      · rename_i hsame
        rw [ih hi hlt, Nat.add_sub_cancel, hsame]
      · omega
    · rfl

/-- The value before it is another one. -/
theorem runStart_left {m : Nat} (hstart : 0 < runStart c m) :
    c (runStart c m - 1) ≠ c (m - 1) := by
  induction m with
  | zero => exact absurd hstart (Nat.lt_irrefl 0)
  | succ m ih =>
    rw [runStart] at hstart ⊢
    rw [Nat.add_sub_cancel]
    split at hstart
    · rename_i hsame
      rw [if_pos hsame, hsame]
      exact ih hstart
    · rename_i hdiff
      rw [if_neg hdiff]
      exact fun h => hdiff h.symm

/-- The only start that an interval up to `m` can have. -/
theorem eq_runStart {m lo : Nat} (hlt : lo < m) (hconst : ∀ i, lo ≤ i → i < m → c i = c lo)
    (hleft : 0 < lo → c (lo - 1) ≠ c lo) : lo = runStart c m := by
  have hlast := hconst (m - 1) (by omega) (by omega)
  rcases Nat.lt_trichotomy lo (runStart c m) with h | h | h
  · -- The position before the start would be in the interval.
    have hle := runStart_le c m
    refine absurd ?_ (runStart_left c (m := m) (by omega))
    rw [hconst (runStart c m - 1) (by omega) (by omega), hlast]
  · exact h
  · refine absurd ?_ (hleft (by omega))
    rw [runStart_const c (m := m) (i := lo - 1) (by omega) (by omega), hlast]

theorem isRun_runStart {m n : Nat} (hm : 0 < m) (hmn : m ≤ n) (hend : m < n → c m ≠ c (m - 1)) :
    IsRun c n (runStart c m) m where
  lt := runStart_lt c hm
  le := hmn
  const := fun i hi him => by
    rw [runStart_const c hi him, runStart_const c (Nat.le_refl _) (runStart_lt c hm)]
  left := fun hstart => by
    rw [runStart_const c (Nat.le_refl _) (runStart_lt c hm)]
    exact runStart_left c hstart
  right := fun h => by
    rw [runStart_const c (Nat.le_refl _) (runStart_lt c hm)]
    exact hend h

/-- A run that ends at `m` starts where the run of `m - 1` does. -/
theorem IsRun.start_eq {n lo m : Nat} (h : IsRun c n lo m) : lo = runStart c m :=
  eq_runStart c h.lt h.const h.left

/-! ### The runs before -/

/-- The runs that have ended are the maximal ones. -/
theorem mem_closedRuns_iff {m : Nat} {r : Nat × Nat} :
    r ∈ closedRuns c m ↔ IsRun c m r.1 r.2 ∧ r.2 < m := by
  induction m with
  | zero =>
    constructor
    · intro h
      cases h
    · rintro ⟨_, h⟩
      omega
  | succ m ih =>
    -- A run that ends before `m` is the same one for `m` and for `m + 1`.
    have hsame : IsRun c (m + 1) r.1 r.2 ∧ r.2 < m ↔ IsRun c m r.1 r.2 ∧ r.2 < m := by
      constructor
      · rintro ⟨h, hlt⟩
        exact ⟨⟨h.lt, Nat.le_of_lt hlt, h.const, h.left, fun _ => h.right (by omega)⟩, hlt⟩
      · rintro ⟨h, hlt⟩
        exact ⟨⟨h.lt, by omega, h.const, h.left, fun _ => h.right hlt⟩, hlt⟩
    have hsplit : (IsRun c (m + 1) r.1 r.2 ∧ r.2 < m + 1) ↔
        (IsRun c m r.1 r.2 ∧ r.2 < m) ∨ (IsRun c (m + 1) r.1 r.2 ∧ r.2 = m) := by
      rw [Nat.lt_succ_iff_lt_or_eq, and_or_left, hsame]
    rw [hsplit, closedRuns, ← ih]
    split
    · rename_i hnext
      -- No run ends at `m`.
      constructor
      · exact Or.inl
      · rintro (h | ⟨h, hend⟩)
        · exact h
        · refine absurd ?_ (h.right (by omega))
          have hlt := h.lt
          rw [hend] at hlt ⊢
          rw [hnext, ← h.const (m - 1) (by omega) (by omega)]
    · rename_i hnext
      rw [List.mem_append, List.mem_singleton]
      refine or_congr Iff.rfl ?_
      constructor
      · rintro rfl
        have hm : 0 < m := by
          rcases Nat.eq_zero_or_pos m with rfl | hm
          · exact absurd rfl hnext
          · exact hm
        exact ⟨isRun_runStart c hm (Nat.le_succ m) fun _ => hnext, rfl⟩
      · rintro ⟨h, hend⟩
        rw [hend] at h
        exact Prod.ext (h.start_eq c) hend

/-- All runs are the maximal ones. -/
theorem mem_allRuns_iff {n : Nat} (hn : 0 < n) {r : Nat × Nat} :
    r ∈ allRuns c n ↔ IsRun c n r.1 r.2 := by
  unfold allRuns
  rw [List.mem_append, List.mem_singleton, mem_closedRuns_iff]
  constructor
  · rintro (h | rfl)
    · exact h.1
    · exact isRun_runStart c hn (Nat.le_refl n) fun h => absurd h (Nat.lt_irrefl n)
  · intro h
    rcases Nat.lt_or_eq_of_le h.le with hlt | hend
    · exact Or.inl ⟨h, hlt⟩
    · right
      have hr : IsRun c n r.1 n := hend ▸ h
      exact Prod.ext (hr.start_eq c) hend

/-- Runs that have ended lie before the run that has not. -/
theorem end_le_runStart {m : Nat} {r : Nat × Nat} (h : r ∈ closedRuns c m) :
    r.2 ≤ runStart c m := by
  induction m with
  | zero => cases h
  | succ m ih =>
    rw [closedRuns] at h
    rw [runStart]
    split at h
    · rename_i hnext
      rw [if_pos hnext]
      exact ih h
    · rename_i hnext
      rw [if_neg hnext]
      rcases List.mem_append.mp h with hold | hnew
      · exact Nat.le_trans (ih hold) (runStart_le c m)
      · cases List.mem_singleton.mp hnew
        exact Nat.le_refl m

/-- Runs do not overlap. -/
theorem pairwise_closedRuns (m : Nat) : (closedRuns c m).Pairwise fun a b => a.2 ≤ b.1 := by
  induction m with
  | zero => exact List.Pairwise.nil
  | succ m ih =>
    rw [closedRuns]
    split
    · exact ih
    · refine List.pairwise_append.mpr ⟨ih, List.pairwise_singleton _ _, ?_⟩
      intro a ha b hb
      rw [List.mem_singleton.mp hb]
      exact end_le_runStart c ha

/-- The runs come in order. -/
theorem pairwise_allRuns (n : Nat) : (allRuns c n).Pairwise fun a b => a.2 ≤ b.1 := by
  refine List.pairwise_append.mpr ⟨pairwise_closedRuns c n, List.pairwise_singleton _ _, ?_⟩
  intro a ha b hb
  rw [List.mem_singleton.mp hb]
  exact end_le_runStart c ha

end TriforceAFL.Lib
