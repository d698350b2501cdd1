import TriforceAFL.Lib.Process

/-!
# `TriforceAFL.Lib.Asks`: programs that ask questions

A program over questions `Q` returns a result, or asks a question and goes on with the answer. What
the program does to the world is a question too, with the answer `()`. So the program is the tree
of everything that it can do, for all answers.

* `Safe V P p asked post`: if every answer to a question `x` is in `V x`, then every question that
  `p` asks is in `P`, given the questions before it, and every result is in `post`, given all
  questions of the run.
* `interp answer p` is the program in another monad, where `answer` answers the questions.
-/

set_option autoImplicit false

namespace TriforceAFL.Lib

/-- A program that asks questions in `Q`. An answer to the question `x` is in `A x`. -/
inductive Asks (Q : Type) (A : Q → Type) (α : Type) : Type
  | pure (a : α)
  | ask (x : Q) (k : A x → Asks Q A α)

namespace Asks

variable {Q : Type} {A : Q → Type} {α β γ : Type}

/-- One program after another. -/
protected def bind : Asks Q A α → (α → Asks Q A β) → Asks Q A β
  | .pure a, f => f a
  | .ask x k, f => .ask x fun r => (k r).bind f

instance : Monad (Asks Q A) where
  pure := Asks.pure
  bind := Asks.bind

instance : LawfulMonad (Asks Q A) := LawfulMonad.mk' (Asks Q A)
  (by
    intro α p
    induction p with
    | pure a => rfl
    | ask x k ih => exact congrArg (Asks.ask x) (funext ih))
  (by intro α β a f; rfl)
  (by
    intro α β γ p f g
    induction p with
    | pure a => rfl
    | ask x k ih => exact congrArg (Asks.ask x) (funext ih))

/-- Ask one question. -/
def query (x : Q) : Asks Q A (A x) := .ask x .pure

/-- A loop over a list with an accumulator, which a turn can leave with `none`. -/
def foldUntil (f : γ → β → Asks Q A (Option γ)) : List β → γ → Asks Q A (Option γ)
  | [], acc => Pure.pure (some acc)
  | x :: xs, acc => do
      match ← f acc x with
      | none => Pure.pure none
      | some acc => foldUntil f xs acc

/-! ### Safe programs -/

/-- With answers in `V`, after the questions `asked`, every question is in `P` and every result in
`post`. -/
def Safe (V : (x : Q) → A x → Prop) (P : List Q → Q → Prop) :
    Asks Q A α → List Q → (α → List Q → Prop) → Prop
  | .pure a, asked, post => post a asked
  | .ask x k, asked, post => P asked x ∧ ∀ r, V x r → Safe V P (k r) (asked ++ [x]) post

namespace Safe

variable {V : (x : Q) → A x → Prop} {P : List Q → Q → Prop} {asked : List Q}

theorem query {x : Q} {post : A x → List Q → Prop} (hx : P asked x)
    (h : ∀ r, V x r → post r (asked ++ [x])) : Safe V P (Asks.query x) asked post := ⟨hx, h⟩

/-- The rule of consequence. -/
theorem mono {p : Asks Q A α} {post post' : α → List Q → Prop} (h : Safe V P p asked post)
    (himp : ∀ a asked', post a asked' → post' a asked') : Safe V P p asked post' := by
  induction p generalizing asked with
  | pure a => exact himp a asked h
  | ask x k ih => exact ⟨h.1, fun r hr => ih r (h.2 r hr)⟩

/-- The rule of composition. -/
theorem bind {p : Asks Q A α} {f : α → Asks Q A β} {mid : α → List Q → Prop}
    {post : β → List Q → Prop} (h : Safe V P p asked mid)
    (hf : ∀ a asked', mid a asked' → Safe V P (f a) asked' post) :
    Safe V P (p >>= f) asked post := by
  induction p generalizing asked with
  | pure a => exact hf a asked h
  | ask x k ih => exact ⟨h.1, fun r hr => ih r (h.2 r hr)⟩

theorem ite {c : Prop} [Decidable c] {p q : Asks Q A α} {post : α → List Q → Prop}
    (hp : c → Safe V P p asked post) (hq : ¬c → Safe V P q asked post) :
    Safe V P (if c then p else q) asked post := by
  split
  · rename_i hc
    exact hp hc
  · rename_i hc
    exact hq hc

/-- The rule of a loop over a list. `J xs acc` holds when `xs` is still to come. -/
theorem foldUntil {f : γ → β → Asks Q A (Option γ)} {J : List β → γ → List Q → Prop}
    {L : List Q → Prop}
    (h : ∀ x xs acc asked, J (x :: xs) acc asked →
      Safe V P (f acc x) asked fun r asked' => r.elim (L asked') (J xs · asked'))
    {xs : List β} {acc : γ} (hacc : J xs acc asked) :
    Safe V P (Asks.foldUntil f xs acc) asked
      fun r asked' => r.elim (L asked') (J [] · asked') := by
  induction xs generalizing acc asked with
  | nil => exact hacc
  | cons x xs ih =>
    refine (h x xs acc asked hacc).bind fun r asked' hr => ?_
    cases r with
    | none => exact hr
    | some acc => exact ih hr

end Safe

/-! ### Interpretation -/

section Interp
variable {m : Type → Type} [Monad m] [LawfulMonad m] (answer : (x : Q) → m (A x))

/-- The program in a monad that answers its questions. -/
def interp {m : Type → Type} [Monad m] (answer : (x : Q) → m (A x)) : Asks Q A α → m α
  | .pure a => Pure.pure a
  | .ask x k => answer x >>= fun r => interp answer (k r)

omit [LawfulMonad m] in
@[simp]
theorem interp_pure (a : α) : interp answer (Pure.pure a) = Pure.pure a := rfl

@[simp]
theorem interp_query (x : Q) : interp answer (query x) = answer x := bind_pure (answer x)

@[simp]
theorem interp_bind (p : Asks Q A α) (f : α → Asks Q A β) :
    interp answer (p >>= f) = interp answer p >>= fun a => interp answer (f a) := by
  induction p with
  | pure a => exact (pure_bind (m := m) a fun a => interp answer (f a)).symm
  | ask x k ih =>
    show (answer x >>= fun r => interp answer (k r >>= f)) =
      (answer x >>= fun r => interp answer (k r)) >>= fun a => interp answer (f a)
    rw [bind_assoc]
    exact bind_congr fun r => ih r

omit [LawfulMonad m] in
@[simp]
theorem interp_ite (c : Prop) [Decidable c] (p q : Asks Q A α) :
    interp answer (if c then p else q) = if c then interp answer p else interp answer q := by
  split <;> rfl

end Interp

section Process
variable {σ ε : Type} (answer : (x : Q) → Process σ ε (A x))

theorem interp_foldUntil (f : γ → β → Asks Q A (Option γ)) (xs : List β) (acc : γ) :
    interp answer (foldUntil f xs acc) =
      Process.foldUntil (fun acc x => interp answer (f acc x)) xs acc := by
  induction xs generalizing acc with
  | nil => rfl
  | cons x xs ih =>
    refine (interp_bind answer (f acc x) _).trans (bind_congr fun r => ?_)
    cases r with
    | none => rfl
    | some acc => exact ih acc

end Process

end Asks

end TriforceAFL.Lib
