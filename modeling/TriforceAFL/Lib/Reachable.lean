import Mathlib.Tactic.Common

/-!
# `TriforceAFL.Lib.Reachable`: states that a transition system can reach

`Reachable Init Step` holds of the states that some number of steps leads to. An invariant holds in
all of them when the initial states have it and every step keeps it (`Reachable.invariant`).
-/

set_option autoImplicit false

namespace TriforceAFL.Lib

/-- The states that are reachable by any number of steps. -/
inductive Reachable {σ : Type} (Init : σ → Prop) (Step : σ → σ → Prop) : σ → Prop
  | init {s : σ} : Init s → Reachable Init Step s
  | step {s s' : σ} : Reachable Init Step s → Step s s' → Reachable Init Step s'

namespace Reachable

variable {σ : Type} {Init : σ → Prop} {Step : σ → σ → Prop}

/-- The invariant rule. -/
theorem invariant {P : σ → Prop} (hinit : ∀ s, Init s → P s)
    (hstep : ∀ s s', P s → Step s s' → P s') {s : σ} (h : Reachable Init Step s) : P s := by
  induction h with
  | init h => exact hinit _ h
  | step _ hs ih => exact hstep _ _ ih hs

end Reachable

end TriforceAFL.Lib
