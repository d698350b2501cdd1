import Mathlib.Algebra.Ring.Defs
import Mathlib.Tactic.Abel
import TriforceAFL.Lib.Asks

/-!
# `TriforceAFL.Lib.Meter`: a budget that ends as the number of events

A program starts with an upper bound on the number of its events, and takes off what it avoids. If
it does so everywhere, the bound ends as the number of events. The budget is in a ring, so it may
wrap around on the way.

* `Meter.Spends c s s'`: between the states, `c` events either happened or were taken off.
* `Meter.Takes c m s`: the computation `m` spends `c`, if it ends normally. The rules `Takes.pure`,
  `Takes.bind` and `Takes.foldlM` add the costs along a program.
* `countSince p before events`: the events with `p`, which also sees all events before.
-/

set_option autoImplicit false

namespace TriforceAFL.Lib

/-! ### Counting events by their history -/

section Count
variable {ε : Type}

/-- The number of events with `p`, when the events `before` have come first. -/
def countSince (p : List ε → ε → Bool) : List ε → List ε → Nat
  | _, [] => 0
  | before, e :: events => (p before e).toNat + countSince p (before ++ [e]) events

/-- An event with `c` has `r`, or it has not. -/
theorem countSince_add (c : ε → Bool) (r : List ε → ε → Bool) (before events : List ε) :
    countSince (fun before e => c e && !r before e) before events +
      countSince (fun before e => c e && r before e) before events = events.countP c := by
  induction events generalizing before with
  | nil => rfl
  | cons e events ih =>
    have hone : (c e && !r before e).toNat + (c e && r before e).toNat = (c e).toNat := by
      cases c e <;> cases r before e <;> rfl
    have hc : (e :: events).countP c = (c e).toNat + events.countP c := by
      rw [List.countP_cons, Nat.add_comm]
      cases c e <;> rfl
    rw [hc, ← hone, ← ih (before ++ [e])]
    simp only [countSince]
    omega

theorem countSince_false (before events : List ε) :
    countSince (fun _ _ => false) before events = 0 := by
  induction events generalizing before with
  | nil => rfl
  | cons e events ih => simp [countSince, ih]

end Count

/-! ### Budgets -/

/-- What a program on states `σ` is measured by: its log, the events of it that count, and its
budget. `kept` is something that it does not touch. -/
structure Meter (σ ε τ R : Type) where
  log : σ → List ε
  counts : ε → Bool
  budget : σ → R
  kept : σ → τ

namespace Meter

variable {σ ε τ R : Type} [CommRing R] (M : Meter σ ε τ R)

/-- From `s` to `s'`, `c` events have happened or were taken off the budget. -/
def Spends (c : Nat) (s s' : σ) : Prop :=
  M.kept s' = M.kept s ∧ ∃ events, M.log s' = M.log s ++ events ∧
    M.budget s' + c = M.budget s + (events.countP M.counts : Nat)

/-- The computation spends `c`, if it ends normally. -/
def Takes {α : Type} (c : Nat) (m : Except α σ) (s : σ) : Prop :=
  ∀ s', m = .ok s' → M.Spends c s s'

namespace Spends

variable {M} {c d : Nat} {s t u : σ}

/-- Nothing happens that the meter sees. -/
theorem same (hlog : M.log t = M.log s) (hbudget : M.budget t = M.budget s)
    (hkept : M.kept t = M.kept s) : M.Spends 0 s t :=
  ⟨hkept, [], by rw [hlog, List.append_nil], by simp [hbudget]⟩

/-- An event that counts. -/
theorem event {e : ε} (he : M.counts e = true) (hlog : M.log t = M.log s ++ [e])
    (hbudget : M.budget t = M.budget s) (hkept : M.kept t = M.kept s) : M.Spends 1 s t :=
  ⟨hkept, [e], hlog, by simp [hbudget, he]⟩

/-- Events are avoided, and taken off. -/
theorem skip {l : List ε} (hnone : l.countP M.counts = 0) (hlog : M.log t = M.log s ++ l)
    (hbudget : M.budget t = M.budget s - c) (hkept : M.kept t = M.kept s) : M.Spends c s t :=
  ⟨hkept, l, hlog, by simp [hbudget, hnone]⟩

theorem trans (h : M.Spends c s t) (h' : M.Spends d t u) : M.Spends (c + d) s u := by
  obtain ⟨hkept, events, hlog, hbudget⟩ := h
  obtain ⟨hkept', events', hlog', hbudget'⟩ := h'
  refine ⟨hkept'.trans hkept, events ++ events', ?_, ?_⟩
  · rw [hlog', hlog, List.append_assoc]
  · calc M.budget u + ((c + d : Nat) : R)
        = (M.budget u + d) + c := by push_cast; abel
      _ = (M.budget t + c) + (events'.countP M.counts : Nat) := by rw [hbudget']; abel
      _ = M.budget s + ((events ++ events').countP M.counts : Nat) := by
          rw [hbudget, List.countP_append]
          push_cast
          abel

/-- A budget that is spent as a whole ends as the number of events. -/
theorem exact (h : M.Spends c s t) (hstart : M.budget s = c) :
    ∃ events, M.log t = M.log s ++ events ∧ M.budget t = (events.countP M.counts : Nat) := by
  obtain ⟨_, events, hlog, hbudget⟩ := h
  refine ⟨events, hlog, ?_⟩
  rw [hstart, add_comm] at hbudget
  exact add_left_cancel hbudget

end Spends

namespace Takes

variable {M} {α : Type} {c d : Nat} {s t : σ} {m : Except α σ} {f : σ → Except α σ}

theorem pure (h : M.Spends c s t) : M.Takes c (Pure.pure t : Except α σ) s := by
  intro s' hs'
  obtain rfl := Except.ok.inj hs'
  exact h

theorem bind (hm : M.Takes c m s) (hf : ∀ t, M.Takes d (f t) t) : M.Takes (c + d) (m >>= f) s := by
  intro s' hs'
  cases hrun : m with
  | error e =>
    rw [hrun] at hs'
    exact nomatch hs'
  | ok t =>
    rw [hrun] at hs'
    exact (hm t hrun).trans (hf t s' hs')

/-- A step before the computation that the meter does not see. -/
theorem after (h : M.Spends 0 s t) (hm : M.Takes c m t) : M.Takes c m s := by
  intro s' hs'
  have hall := h.trans (hm s' hs')
  rwa [Nat.zero_add] at hall

/-- A step after the computation that the meter does not see. -/
theorem map {g : σ → σ} (hm : M.Takes c m s) (hg : ∀ t, M.Spends 0 t (g t)) :
    M.Takes c (m >>= fun t => Pure.pure (g t)) s :=
  bind hm fun t => Takes.pure (hg t)

/-- A loop whose turns all spend `c`. -/
theorem foldlM {β : Type} {f : σ → β → Except α σ} (h : ∀ s x, M.Takes c (f s x) s) (xs : List β)
    (s : σ) : M.Takes (xs.length * c) (xs.foldlM f s) s := by
  induction xs generalizing s with
  | nil =>
    rw [List.length_nil, Nat.zero_mul]
    exact Takes.pure (Spends.same rfl rfl rfl)
  | cons x xs ih =>
    rw [List.length_cons, Nat.succ_mul, Nat.add_comm, List.foldlM_cons]
    exact bind (h s x) ih

end Takes

/-! ### Programs that ask questions -/

section Asks
variable {Q β γ ρ : Type} {A : Q → Type} {V : (x : Q) → A x → Prop} {P : List Q → Q → Prop}
variable {M : Meter (ρ × List Q) Q τ R} {c : Nat}

/-- A loop that can be left, whose turns all spend `c`. The questions are the log, and `v` is what
else the meter sees. -/
theorem safe_foldUntil {f : γ → β → Asks Q A (Option γ)} (v : γ → ρ)
    (h : ∀ acc x asked, Asks.Safe V P (f acc x) asked fun r asked' =>
      ∀ acc' ∈ r, M.Spends c (v acc, asked) (v acc', asked')) (xs : List β) (acc : γ)
    (asked : List Q) :
    Asks.Safe V P (Asks.foldUntil f xs acc) asked fun r asked' =>
      ∀ acc' ∈ r, M.Spends (xs.length * c) (v acc, asked) (v acc', asked') := by
  induction xs generalizing acc asked with
  | nil =>
    intro acc' hacc'
    rw [← Option.mem_some_iff.mp hacc', List.length_nil, Nat.zero_mul]
    exact Spends.same rfl rfl rfl
  | cons x xs ih =>
    refine (h acc x asked).bind fun r asked' hr => ?_
    cases r with
    | none => exact fun acc' hacc' => absurd hacc' (Option.not_mem_none acc')
    | some next =>
      refine (ih next asked').mono fun r' asked'' hr' acc' hacc' => ?_
      rw [List.length_cons, Nat.succ_mul, Nat.add_comm]
      exact (hr next rfl).trans (hr' acc' hacc')

end Asks

end Meter

end TriforceAFL.Lib
