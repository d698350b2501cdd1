import Mathlib.Tactic.Common

/-!
# `TriforceAFL.Lib.Budget`: loops that run on a step budget

A loop whose number of turns is not known beforehand is run on a budget, and `none` stands for a
budget that is used up. `repeatStep` is such a loop: a turn goes on with a new state or leaves the
loop with a result, so a `while`, a `do ... while` and a loop closed by `goto` are all of this form.

`Ends p Q` is total correctness of a program `p` that takes a budget: there is one result, in `Q`,
every large enough budget gives it, and no budget gives another. `Ends.bind` composes programs.
`Ends.repeatStep` is the loop rule, with an invariant and a measure that every turn lowers.
-/

set_option autoImplicit false

namespace TriforceAFL.Lib

variable {σ α β : Type}

/-- Take turns until one of them leaves the loop. -/
def repeatStep (step : σ → Option (σ ⊕ α)) : Nat → σ → Option α
  | 0, _ => none
  | budget + 1, s =>
    match step s with
    | none => none
    | some (.inl s') => repeatStep step budget s'
    | some (.inr a) => some a

section Turns
variable {step : σ → Option (σ ⊕ α)} {s : σ}

theorem repeatStep_of_none (h : step s = none) (n : Nat) : repeatStep step (n + 1) s = none := by
  rw [repeatStep, h]

theorem repeatStep_of_inl {s' : σ} (h : step s = some (.inl s')) (n : Nat) :
    repeatStep step (n + 1) s = repeatStep step n s' := by
  rw [repeatStep, h]

theorem repeatStep_of_inr {a : α} (h : step s = some (.inr a)) (n : Nat) :
    repeatStep step (n + 1) s = some a := by
  rw [repeatStep, h]

/-- What every turn keeps, a run keeps. -/
theorem repeatStep_induct {I : σ → Prop} {Q : α → Prop}
    (h : ∀ s r, I s → step s = some r → Sum.elim I Q r) {n : Nat} {a : α} (hs : I s)
    (hrun : repeatStep step n s = some a) : Q a := by
  induction n generalizing s with
  | zero => cases hrun
  | succ n ih =>
    rcases hstep : step s with _ | (s' | b)
    · rw [repeatStep_of_none hstep] at hrun
      cases hrun
    · rw [repeatStep_of_inl hstep] at hrun
      exact ih (h s _ hs hstep) hrun
    · rw [repeatStep_of_inr hstep] at hrun
      cases hrun
      exact h s _ hs hstep

end Turns

/-- The program has one result, which is in `Q`, and every large enough budget gives it. -/
def Ends (p : Nat → Option α) (Q : α → Prop) : Prop :=
  ∃ a, Q a ∧ (∀ budget, p budget = none ∨ p budget = some a) ∧
    ∃ enough, ∀ budget ≥ enough, p budget = some a

namespace Ends

variable {Q : α → Prop}

theorem pure {a : α} (h : Q a) : Ends (fun _ => some a) Q :=
  ⟨a, h, fun _ => Or.inr rfl, 0, fun _ _ => rfl⟩

theorem mono {p : Nat → Option α} {Q R : α → Prop} (h : Ends p Q) (himp : ∀ a, Q a → R a) :
    Ends p R := by
  obtain ⟨a, hQ, hrest⟩ := h
  exact ⟨a, himp a hQ, hrest⟩

/-- Whatever a budget gives is the result. -/
theorem of_eq_some {p : Nat → Option α} (h : Ends p Q) {budget : Nat} {a : α}
    (heq : p budget = some a) : Q a := by
  obtain ⟨b, hQ, hsame, _⟩ := h
  rcases hsame budget with hnone | hsome
  · rw [hnone] at heq
    cases heq
  · rw [hsome] at heq
    cases heq
    exact hQ

/-- One program after another. -/
theorem bind {p : Nat → Option α} {g : Nat → α → Option β} {R : β → Prop} (hp : Ends p Q)
    (hg : ∀ a, Q a → Ends (fun budget => g budget a) R) :
    Ends (fun budget => p budget >>= g budget) R := by
  obtain ⟨a, hQ, hsame, enough, hp⟩ := hp
  obtain ⟨b, hR, hsame', enough', hg⟩ := hg a hQ
  refine ⟨b, hR, fun budget => ?_, max enough enough', fun budget hbudget => ?_⟩
  · show (p budget >>= g budget) = none ∨ (p budget >>= g budget) = some b
    rcases hsame budget with h | h
    · rw [h]
      exact Or.inl rfl
    · rw [h]
      exact hsame' budget
  · show (p budget >>= g budget) = some b
    rw [hp budget (Nat.le_trans (Nat.le_max_left _ _) hbudget)]
    exact hg budget (Nat.le_trans (Nat.le_max_right _ _) hbudget)

/-- The loop rule. A turn that goes on keeps the invariant and lowers the measure. -/
theorem repeatStep {step : Nat → σ → Option (σ ⊕ α)} (I : σ → Prop) (μ : σ → Nat)
    (h : ∀ s, I s → Ends (fun budget => step budget s)
      (Sum.elim (fun s' => I s' ∧ μ s' < μ s) Q)) (s : σ) (hs : I s) :
    Ends (fun budget => Lib.repeatStep (step budget) budget s) Q := by
  -- The budget of the turns and the number of turns are kept apart for the induction, which is on
  -- a bound of the measure.
  have hall : ∀ m s, I s → μ s < m →
      ∃ a, Q a ∧ (∀ budget n, Lib.repeatStep (step budget) n s = none ∨
        Lib.repeatStep (step budget) n s = some a) ∧
        ∃ enough, ∀ budget ≥ enough, ∀ n ≥ enough, Lib.repeatStep (step budget) n s = some a := by
    intro m
    induction m with
    | zero =>
      intro s _ hm
      exact absurd hm (Nat.not_lt_zero _)
    | succ m ih =>
      intro s hs hm
      obtain ⟨r, hr, hsame, enough, henough⟩ := h s hs
      cases r with
      | inr a =>
        refine ⟨a, hr, fun budget n => ?_, enough + 1, fun budget hb n hn => ?_⟩
        · cases n with
          | zero => exact Or.inl rfl
          | succ n =>
            rcases hsame budget with hnone | hsome
            · exact Or.inl (repeatStep_of_none hnone n)
            · exact Or.inr (repeatStep_of_inr hsome n)
        · cases n with
          | zero => exact absurd hn (Nat.not_succ_le_zero _)
          | succ n => exact repeatStep_of_inr (henough budget (Nat.le_of_succ_le hb)) n
      | inl s' =>
        obtain ⟨hs', hlt⟩ := hr
        obtain ⟨a, hQ, hsame', enough', henough'⟩ := ih s' hs' (by omega)
        refine ⟨a, hQ, fun budget n => ?_, max enough enough' + 1, fun budget hb n hn => ?_⟩
        · cases n with
          | zero => exact Or.inl rfl
          | succ n =>
            rcases hsame budget with hnone | hsome
            · exact Or.inl (repeatStep_of_none hnone n)
            · rw [repeatStep_of_inl hsome n]
              exact hsame' budget n
        · cases n with
          | zero => exact absurd hn (Nat.not_succ_le_zero _)
          | succ n =>
            have hb' : max enough enough' ≤ budget := Nat.le_of_succ_le hb
            have hn' : max enough enough' ≤ n := Nat.le_of_succ_le_succ hn
            rw [repeatStep_of_inl (henough budget (Nat.le_trans (Nat.le_max_left _ _) hb')) n]
            exact henough' budget (Nat.le_trans (Nat.le_max_right _ _) hb') n
              (Nat.le_trans (Nat.le_max_right _ _) hn')
  obtain ⟨a, hQ, hsame, enough, henough⟩ := hall (μ s + 1) s hs (Nat.lt_succ_self _)
  exact ⟨a, hQ, fun budget => hsame budget budget, enough,
    fun budget hb => henough budget hb budget hb⟩

end Ends

end TriforceAFL.Lib
