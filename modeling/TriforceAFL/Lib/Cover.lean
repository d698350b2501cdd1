import Mathlib.Data.Set.Basic
import Mathlib.Data.List.Basic
import Mathlib.Tactic.Common

/-!
# `TriforceAFL.Lib.Cover`: covering things one after the other

Things `α` are to be covered by sets that are named by `β`. `greedyCover` goes through a list of
things. A thing that no choice so far covers is covered by the choice `best` has for it, and the
choice is noted together with the thing.

`exists_mem_greedyCover` says that everything ends up covered. `pairwise_greedyCover` says that each
choice was needed when it was made: its thing was in no set chosen before.
-/

set_option autoImplicit false

namespace TriforceAFL.Lib

open Classical

variable {α β : Type} (covers : β → Set α) (best : α → β)

/-- Go through a list of things, with the choices so far. -/
noncomputable def greedyCover : List (α × β) → List α → List (α × β)
  | picks, [] => picks
  | picks, t :: ts =>
    if ∃ p ∈ picks, t ∈ covers p.2 then greedyCover picks ts
    else greedyCover (picks ++ [(t, best t)]) ts

variable {covers best}

/-- No choice is taken back. -/
theorem mem_greedyCover_of_mem {picks : List (α × β)} {p : α × β} (hp : p ∈ picks) (ts : List α) :
    p ∈ greedyCover covers best picks ts := by
  induction ts generalizing picks with
  | nil => exact hp
  | cons t ts ih =>
    rw [greedyCover]
    split
    · exact ih hp
    · exact ih (List.mem_append_left _ hp)

/-- Everything is covered, if the best choice for a thing covers it. -/
theorem exists_mem_greedyCover (picks : List (α × β)) {ts : List α}
    (hbest : ∀ t ∈ ts, t ∈ covers (best t)) {t : α} (ht : t ∈ ts) :
    ∃ p ∈ greedyCover covers best picks ts, t ∈ covers p.2 := by
  induction ts generalizing picks with
  | nil => cases ht
  | cons u ts ih =>
    have hbest' : ∀ t ∈ ts, t ∈ covers (best t) := fun t h => hbest t (List.mem_cons_of_mem u h)
    rw [greedyCover]
    rcases List.mem_cons.mp ht with rfl | ht
    · split
      case isTrue hcovered =>
        obtain ⟨p, hp, hcov⟩ := hcovered
        exact ⟨p, mem_greedyCover_of_mem hp ts, hcov⟩
      case isFalse =>
        refine ⟨(t, best t), mem_greedyCover_of_mem ?_ ts, hbest t List.mem_cons_self⟩
        exact List.mem_append_right _ List.mem_cons_self
    · split
      · exact ih _ hbest' ht
      · exact ih _ hbest' ht

/-- Each thing with a choice of its own was not covered by the choices before it. -/
theorem pairwise_greedyCover {picks : List (α × β)}
    (hpicks : picks.Pairwise fun p q => q.1 ∉ covers p.2) (ts : List α) :
    (greedyCover covers best picks ts).Pairwise fun p q => q.1 ∉ covers p.2 := by
  induction ts generalizing picks with
  | nil => exact hpicks
  | cons t ts ih =>
    rw [greedyCover]
    split
    case isTrue => exact ih hpicks
    case isFalse hfresh =>
      apply ih
      rw [List.pairwise_append]
      refine ⟨hpicks, List.pairwise_singleton _ _, ?_⟩
      intro p hp q hq hcov
      rw [List.mem_singleton.mp hq] at hcov
      exact hfresh ⟨p, hp, hcov⟩

/-- The choices are the best ones for things of the list. -/
theorem eq_best_of_mem_greedyCover {picks : List (α × β)} {ts : List α} {p : α × β}
    (hp : p ∈ greedyCover covers best picks ts) : p ∈ picks ∨ (p.1 ∈ ts ∧ p.2 = best p.1) := by
  induction ts generalizing picks with
  | nil => exact Or.inl hp
  | cons t ts ih =>
    rw [greedyCover] at hp
    split at hp
    · rcases ih hp with h | ⟨hmem, heq⟩
      · exact Or.inl h
      · exact Or.inr ⟨List.mem_cons_of_mem t hmem, heq⟩
    · rcases ih hp with h | ⟨hmem, heq⟩
      · rcases List.mem_append.mp h with h | h
        · exact Or.inl h
        · rw [List.mem_singleton.mp h]
          exact Or.inr ⟨List.mem_cons_self, rfl⟩
      · exact Or.inr ⟨List.mem_cons_of_mem t hmem, heq⟩

end TriforceAFL.Lib
