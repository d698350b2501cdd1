import Mathlib.Tactic.Common

/-!
# `TriforceAFL.Lib.Process`: processes that work in steps and can exit

A process over states `σ` is built from atomic steps. Its run ends with a result, or with an exit
for a reason in `ε`, and records the state before every step (`points`), so that a statement about
a run can speak about all states on the way.

* `Meets P p C Q E` is the triple of a process: from a state in `P`, every recorded state is in
  `C`, a result leaves a state in `Q`, and an exit leaves a state in `E`.
* `Keeps I X p φ` is the triple of an invariant `I`: the process keeps it at every point, its
  results are in `φ`, and an exit leaves a state in `X`.
* `Sim P p q R`: from a state in `P`, two processes run in step, with results in `R`.
* `Visits P p R`: from a state in `P`, the run records a state in `R`.
-/

set_option autoImplicit false

namespace TriforceAFL.Lib

/-- A run of a process. -/
structure Run (σ ε α : Type) where
  /-- The states before the steps of the run. -/
  points : List σ
  result : Except ε α
  /-- The state in which the run ends. -/
  final : σ

/-- A process over states `σ` with exits in `ε` and results in `α`. -/
def Process (σ ε α : Type) : Type := σ → Run σ ε α

namespace Process

variable {σ ε α β γ : Type}

/-- No step, only a result. -/
protected def pure (a : α) : Process σ ε α := fun s => ⟨[], .ok a, s⟩

/-- One process after another. -/
protected def bind (p : Process σ ε α) (f : α → Process σ ε β) : Process σ ε β := fun s =>
  match p s with
  | ⟨points, .error e, s'⟩ => ⟨points, .error e, s'⟩
  | ⟨points, .ok a, s'⟩ =>
    match f a s' with
    | ⟨points', result, final⟩ => ⟨points ++ points', result, final⟩

instance : Monad (Process σ ε) where
  pure := Process.pure
  bind := Process.bind

/-- An atomic step. A step that exits leaves the state as it is. -/
def step (g : σ → Except ε (α × σ)) : Process σ ε α := fun s =>
  match g s with
  | .ok (a, s') => ⟨[s], .ok a, s'⟩
  | .error e => ⟨[s], .error e, s⟩

/-- A step that only changes the state. -/
def modify (f : σ → σ) : Process σ ε Unit := step fun s => .ok ((), f s)

/-- Look at the state. -/
def get : Process σ ε σ := fun s => ⟨[], .ok s, s⟩

/-- Exit. -/
def exit (e : ε) : Process σ ε α := fun s => ⟨[], .error e, s⟩

/-- All states of a run, the last one included. -/
def states (p : Process σ ε α) (s : σ) : List σ := (p s).points ++ [(p s).final]

/-- A loop over a list with an accumulator, which a turn can leave with `none`. -/
def foldUntil (f : γ → β → Process σ ε (Option γ)) : List β → γ → Process σ ε (Option γ)
  | [], acc => pure (some acc)
  | x :: xs, acc => do
      match ← f acc x with
      | none => pure none
      | some acc => foldUntil f xs acc

section Bind
variable {p : Process σ ε α} {f : α → Process σ ε β} {s s' : σ} {points : List σ}

theorem bind_of_error {e : ε} (h : p s = ⟨points, .error e, s'⟩) :
    (p >>= f) s = ⟨points, .error e, s'⟩ := by
  show Process.bind p f s = _
  simp only [Process.bind, h]

theorem bind_of_ok {a : α} (h : p s = ⟨points, .ok a, s'⟩) :
    (p >>= f) s = ⟨points ++ (f a s').points, (f a s').result, (f a s').final⟩ := by
  show Process.bind p f s = _
  simp only [Process.bind, h]

/-- A process after one that ends with a result. -/
theorem bind_of_result {a : α} (h : (p s).result = .ok a) :
    (p >>= f) s = ⟨(p s).points ++ (f a (p s).final).points, (f a (p s).final).result,
      (f a (p s).final).final⟩ := by
  rcases hrun : p s with ⟨points, result, s'⟩
  rw [hrun] at h
  cases h
  exact bind_of_ok hrun

theorem bind_assoc_eq (p : Process σ ε α) (f : α → Process σ ε β) (g : β → Process σ ε γ) :
    p >>= f >>= g = p >>= fun a => f a >>= g := by
  funext s
  rcases h : p s with ⟨points, e | a, s'⟩
  · rw [bind_of_error h, bind_of_error (bind_of_error h)]
  · rw [bind_of_ok h]
    rcases h' : f a s' with ⟨points', e | b, s''⟩
    · have hpf : (p >>= f) s = ⟨points ++ points', .error e, s''⟩ := by rw [bind_of_ok h, h']
      rw [bind_of_error hpf, bind_of_error h']
    · have hpf : (p >>= f) s = ⟨points ++ points', .ok b, s''⟩ := by rw [bind_of_ok h, h']
      rw [bind_of_ok hpf, bind_of_ok h', List.append_assoc]

theorem bind_pure_eq (p : Process σ ε α) : (p >>= fun a => pure a) = p := by
  funext s
  rcases h : p s with ⟨points, e | a, s'⟩
  · exact bind_of_error h
  · refine (bind_of_ok h).trans ?_
    show (⟨points ++ [], .ok a, s'⟩ : Run σ ε α) = _
    rw [List.append_nil]

instance : LawfulMonad (Process σ ε) :=
  LawfulMonad.mk' _ bind_pure_eq (fun _ _ => funext fun _ => bind_of_ok rfl) bind_assoc_eq

/-- Two loops with the same turns, up to a part `g` of the accumulator. -/
theorem map_foldUntil {δ : Type} {f : γ → β → Process σ ε (Option γ)}
    {k : δ → β → Process σ ε (Option δ)} {g : γ → δ}
    (h : ∀ acc x, Option.map g <$> f acc x = k (g acc) x) (xs : List β) (acc : γ) :
    Option.map g <$> foldUntil f xs acc = foldUntil k xs (g acc) := by
  induction xs generalizing acc with
  | nil => rfl
  | cons x xs ih =>
    simp only [foldUntil]
    rw [map_bind, ← h, bind_map_left]
    refine bind_congr fun r => ?_
    cases r with
    | none => rfl
    | some next => exact ih next

end Bind

/-! ### Triples -/

/-- From `P`, every recorded state is in `C`, a result in `Q` and an exit in `E`. -/
def Meets (P : σ → Prop) (p : Process σ ε α) (C : σ → Prop) (Q : α → σ → Prop)
    (E : ε → σ → Prop) : Prop :=
  ∀ s, P s → (∀ c ∈ (p s).points, C c) ∧ (∀ a, (p s).result = .ok a → Q a (p s).final) ∧
    ∀ e, (p s).result = .error e → E e (p s).final

namespace Meets

variable {P P' C C' : σ → Prop} {p : Process σ ε α} {Q Q' : α → σ → Prop} {E E' : ε → σ → Prop}

/-- The rule of consequence. -/
theorem mono (h : Meets P p C Q E) (hpre : ∀ s, P' s → P s) (hpoints : ∀ s, C s → C' s)
    (hpost : ∀ a s, Q a s → Q' a s) (hexit : ∀ e s, E e s → E' e s) : Meets P' p C' Q' E' := by
  intro s hs
  obtain ⟨hc, hq, he⟩ := h s (hpre s hs)
  exact ⟨fun c hmem => hpoints c (hc c hmem), fun a ha => hpost a _ (hq a ha),
    fun e hres => hexit e _ (he e hres)⟩

/-- A stronger precondition. -/
theorem of_pre (h : Meets P p C Q E) (hpre : ∀ s, P' s → P s) : Meets P' p C Q E :=
  h.mono hpre (fun _ hs => hs) (fun _ _ hs => hs) fun _ _ he => he

/-- More points. -/
theorem of_points (h : Meets P p C Q E) (hpoints : ∀ s, C s → C' s) : Meets P p C' Q E :=
  h.mono (fun _ hs => hs) hpoints (fun _ _ hs => hs) fun _ _ he => he

/-- A weaker postcondition. -/
theorem of_post (h : Meets P p C Q E) (hpost : ∀ a s, Q a s → Q' a s) : Meets P p C Q' E :=
  h.mono (fun _ hs => hs) (fun _ hs => hs) hpost fun _ _ he => he

theorem pure {a : α} (h : ∀ s, P s → Q a s) : Meets P (Pure.pure a) C Q E := by
  intro s hs
  refine ⟨fun c hc => absurd hc List.not_mem_nil, fun b hb => ?_, fun e he => ?_⟩
  · cases hb
    exact h s hs
  · cases he

/-- The rule of composition: `R` holds in between. -/
theorem bind {f : α → Process σ ε β} {R : α → σ → Prop} {S : β → σ → Prop}
    (hp : Meets P p C R E) (hf : ∀ a, Meets (R a) (f a) C S E) : Meets P (p >>= f) C S E := by
  intro s hs
  obtain ⟨hc, hq, he⟩ := hp s hs
  rcases hrun : p s with ⟨points, e | a, s'⟩
  · rw [hrun] at hc he
    rw [bind_of_error hrun]
    refine ⟨hc, fun b hb => (by cases hb), fun e' he' => ?_⟩
    cases he'
    exact he e rfl
  · rw [hrun] at hc hq
    rw [bind_of_ok hrun]
    obtain ⟨hc', hq', he'⟩ := hf a s' (hq a rfl)
    refine ⟨fun c hmem => ?_, hq', he'⟩
    rcases List.mem_append.mp hmem with hmem | hmem
    · exact hc c hmem
    · exact hc' c hmem

/-- A fact about the result that does not depend on the state can be used outside. -/
theorem bind_of_fact {f : α → Process σ ε β} {φ : α → Prop} {R : σ → Prop} {S : β → σ → Prop}
    (hp : Meets P p C (fun a s => φ a ∧ R s) E) (hf : ∀ a, φ a → Meets R (f a) C S E) :
    Meets P (p >>= f) C S E :=
  hp.bind fun a s hs => hf a hs.1 s hs.2

theorem step {g : σ → Except ε (α × σ)} (hpoint : ∀ s, P s → C s)
    (hok : ∀ s a s', P s → g s = .ok (a, s') → Q a s')
    (hexit : ∀ s e, P s → g s = .error e → E e s) : Meets P (Process.step g) C Q E := by
  intro s hs
  unfold Process.step
  rcases hg : g s with e | ⟨a, s'⟩
  · refine ⟨fun c hc => ?_, fun b hb => (by cases hb), fun e' he' => ?_⟩
    · rw [List.mem_singleton.mp hc]
      exact hpoint s hs
    · cases he'
      exact hexit s e hs hg
  · refine ⟨fun c hc => ?_, fun b hb => ?_, fun e he => (by cases he)⟩
    · rw [List.mem_singleton.mp hc]
      exact hpoint s hs
    · cases hb
      exact hok s a s' hs hg

theorem modify {f : σ → σ} {Q : Unit → σ → Prop} (hpoint : ∀ s, P s → C s)
    (h : ∀ s, P s → Q () (f s)) : Meets P (Process.modify f) C Q E := by
  refine step hpoint (fun s a s' hs hg => ?_) fun s e _ hg => (by cases hg)
  cases hg
  exact h s hs

theorem get {Q : σ → σ → Prop} (h : ∀ s, P s → Q s s) : Meets P Process.get C Q E := by
  intro s hs
  refine ⟨fun c hc => absurd hc List.not_mem_nil, fun a ha => ?_, fun e he => (by cases he)⟩
  cases ha
  exact h s hs

theorem exit {e : ε} (h : ∀ s, P s → E e s) : Meets P (Process.exit e : Process σ ε α) C Q E := by
  intro s hs
  refine ⟨fun c hc => absurd hc List.not_mem_nil, fun a ha => (by cases ha), fun e' he' => ?_⟩
  cases he'
  exact h s hs

/-- The rule of a loop over a list. `J` is the invariant, `L` holds when a turn leaves the loop. -/
theorem foldUntil {f : γ → β → Process σ ε (Option γ)} {J : γ → σ → Prop} {L : σ → Prop}
    (xs : List β)
    (h : ∀ x ∈ xs, ∀ acc, Meets (J acc) (f acc x) C (fun r s => r.elim (L s) (J · s)) E)
    (acc : γ) :
    Meets (J acc) (Process.foldUntil f xs acc) C (fun r s => r.elim (L s) (J · s)) E := by
  induction xs generalizing acc with
  | nil => exact pure fun s hs => hs
  | cons x xs ih =>
    refine (h x List.mem_cons_self acc).bind fun r => ?_
    cases r with
    | none => exact pure fun s hs => hs
    | some acc => exact ih (fun y hy => h y (List.mem_cons_of_mem x hy)) acc

/-- The rule of a counted loop, whose invariant may speak about the number of turns done. -/
theorem forM_range {n : Nat} {body : Nat → Process σ ε PUnit} {J : Nat → σ → Prop}
    (h : ∀ i < n, Meets (J i) (body i) C (fun _ => J (i + 1)) E) :
    Meets (J 0) ((List.range n).forM body) C (fun _ => J n) E := by
  -- The induction is on the turns that are left, from turn `a` on.
  have hfrom : ∀ m a, a + m = n →
      Meets (J a) ((List.range' a m).forM body) C (fun _ => J n) E := by
    intro m
    induction m with
    | zero =>
      intro a ha
      refine pure fun s hs => ?_
      rwa [← ha, Nat.add_zero]
    | succ m ih =>
      intro a ha
      exact (h a (by omega)).bind fun _ => ih (a + 1) (by omega)
  rw [List.range_eq_range']
  exact hfrom n 0 (Nat.zero_add n)

/-- The first state can be fixed, and what is known about it can be used outside. -/
theorem of_eq (h : ∀ s, P s → Meets (· = s) p C Q E) : Meets P p C Q E :=
  fun s hs => h s hs s rfl

/-- A run from a given state, with what it returns. -/
theorem from_state (h : Meets P p C Q E) {s : σ} (hs : P s) :
    Meets (· = s) p C (fun a t => Q a t ∧ (p s).result = .ok a ∧ (p s).final = t) E := by
  rintro t rfl
  obtain ⟨hc, hq, he⟩ := h t hs
  exact ⟨hc, fun a ha => ⟨hq a ha, ha, rfl⟩, he⟩

/-- All states of a run from `P`. -/
theorem of_mem_states (h : Meets P p C Q E) (hq : ∀ a s, Q a s → C s)
    (he : ∀ e s, E e s → C s) {s c : σ} (hs : P s) (hc : c ∈ p.states s) : C c := by
  obtain ⟨hpoints, hok, hexit⟩ := h s hs
  rcases List.mem_append.mp hc with hc | hc
  · exact hpoints c hc
  · rw [List.mem_singleton.mp hc]
    cases hres : (p s).result with
    | ok a => exact hq a _ (hok a hres)
    | error e => exact he e _ (hexit e hres)

end Meets

/-! ### Invariants -/

/-- The process keeps `I`, has its results in `φ`, and an exit leaves a state in `X`. -/
def Keeps (I : σ → Prop) (X : ε → σ → Prop) (p : Process σ ε α) (φ : α → Prop) : Prop :=
  Meets I p I (fun a s => φ a ∧ I s) X

namespace Keeps

variable {I : σ → Prop} {X : ε → σ → Prop} {p : Process σ ε α} {φ ψ : α → Prop}

theorem mono (h : Keeps I X p φ) (himp : ∀ a, φ a → ψ a) : Keeps I X p ψ :=
  Meets.mono h (fun _ hs => hs) (fun _ hs => hs) (fun a _ hs => ⟨himp a hs.1, hs.2⟩)
    fun _ _ he => he

theorem pure {a : α} (h : φ a) : Keeps I X (Pure.pure a) φ := Meets.pure fun _ hs => ⟨h, hs⟩

theorem bind {f : α → Process σ ε β} {ψ : β → Prop} (hp : Keeps I X p φ)
    (hf : ∀ a, φ a → Keeps I X (f a) ψ) : Keeps I X (p >>= f) ψ := Meets.bind_of_fact hp hf

theorem step {g : σ → Except ε (α × σ)} (hok : ∀ s a s', I s → g s = .ok (a, s') → φ a ∧ I s')
    (hexit : ∀ s e, I s → g s = .error e → X e s) : Keeps I X (Process.step g) φ :=
  Meets.step (fun _ hs => hs) hok hexit

theorem modify {f : σ → σ} (h : ∀ s, I s → I (f s)) :
    Keeps I X (Process.modify f) fun _ => True :=
  Meets.modify (fun _ hs => hs) fun s hs => ⟨trivial, h s hs⟩

/-- A state that was looked at has the invariant. -/
theorem get : Keeps I X Process.get I := Meets.get fun _ hs => ⟨hs, hs⟩

theorem exit {e : ε} (h : ∀ s, I s → X e s) : Keeps I X (Process.exit e) φ := Meets.exit h

theorem ite {c : Prop} [Decidable c] {q : Process σ ε α} (hp : c → Keeps I X p φ)
    (hq : ¬c → Keeps I X q φ) : Keeps I X (if c then p else q) φ := by
  split
  · rename_i hc
    exact hp hc
  · rename_i hc
    exact hq hc

/-- A loop over a list, with a fact about its accumulator. -/
theorem foldUntil {f : γ → β → Process σ ε (Option γ)} {J : γ → Prop} {xs : List β}
    (h : ∀ x ∈ xs, ∀ acc, J acc → Keeps I X (f acc x) fun r => ∀ acc' ∈ r, J acc') {acc : γ}
    (hacc : J acc) :
    Keeps I X (Process.foldUntil f xs acc) fun r => ∀ acc' ∈ r, J acc' := by
  induction xs generalizing acc with
  | nil =>
    refine pure fun acc' hmem => ?_
    rwa [← Option.mem_some_iff.mp hmem]
  | cons x xs ih =>
    refine (h x List.mem_cons_self acc hacc).bind fun r hr => ?_
    cases r with
    | none => exact pure fun acc' hmem => absurd hmem (Option.not_mem_none _)
    | some acc => exact ih (fun y hy => h y (List.mem_cons_of_mem x hy)) (hr acc rfl)

theorem forM {f : β → Process σ ε PUnit} {xs : List β}
    (h : ∀ x ∈ xs, Keeps I X (f x) fun _ => True) : Keeps I X (xs.forM f) fun _ => True := by
  induction xs with
  | nil => exact pure trivial
  | cons x xs ih =>
    refine (h x List.mem_cons_self).bind fun _ _ => ?_
    exact ih fun y hy => h y (List.mem_cons_of_mem x hy)

end Keeps

/-! ### Simulation -/

/-- From a state in `P`, both processes record the same states and end in the same state, with the
same exit or with results in `R`. -/
structure Sim (P : σ → Prop) (p : Process σ ε α) (q : Process σ ε β) (R : α → β → σ → Prop) :
    Prop where
  run : ∀ s, P s → ∃ points s',
    (∃ e, p s = ⟨points, .error e, s'⟩ ∧ q s = ⟨points, .error e, s'⟩) ∨
      ∃ a b, p s = ⟨points, .ok a, s'⟩ ∧ q s = ⟨points, .ok b, s'⟩ ∧ R a b s'

namespace Sim

variable {P : σ → Prop} {p : Process σ ε α} {q : Process σ ε β} {R : α → β → σ → Prop}

theorem pure {a : α} {b : β} (h : ∀ s, P s → R a b s) :
    Sim P (Pure.pure a : Process σ ε α) (Pure.pure b) R :=
  ⟨fun s hs => ⟨[], s, Or.inr ⟨a, b, rfl, rfl, h s hs⟩⟩⟩

/-- The first process starts with a look at the state. -/
theorem look_left {p₀ : Process σ ε γ} {g : σ → γ} {f : γ → Process σ ε α}
    (hp₀ : ∀ s, p₀ s = ⟨[], .ok (g s), s⟩) (h : ∀ t, P t → Sim (· = t) (f (g t)) q R) :
    Sim P (p₀ >>= f) q R := by
  refine ⟨fun s hs => ?_⟩
  rw [bind_of_ok (hp₀ s)]
  exact (h s hs).run s rfl

/-- Only the second process looks at the state. -/
theorem get_right {g : σ → Process σ ε β} (h : ∀ t, P t → Sim (· = t) p (g t) R) :
    Sim P p (Process.get >>= g) R := by
  refine ⟨fun s hs => ?_⟩
  rw [bind_of_ok (show (Process.get : Process σ ε σ) s = ⟨[], .ok s, s⟩ from rfl)]
  exact (h s hs).run s rfl

/-- A process simulates itself. -/
theorem refl {Q : α → σ → Prop} (h : ∀ s a, P s → (p s).result = .ok a → Q a (p s).final) :
    Sim P p p fun a b s => a = b ∧ Q a s := by
  refine ⟨fun s hs => ?_⟩
  rcases hrun : p s with ⟨points, e | a, s'⟩
  · exact ⟨points, s', Or.inl ⟨e, rfl, rfl⟩⟩
  · have hQ := h s a hs (by rw [hrun])
    rw [hrun] at hQ
    exact ⟨points, s', Or.inr ⟨a, a, rfl, rfl, rfl, hQ⟩⟩

theorem mono {P' : σ → Prop} {R' : α → β → σ → Prop} (h : Sim P p q R) (hpre : ∀ s, P' s → P s)
    (hpost : ∀ a b s, R a b s → R' a b s) : Sim P' p q R' := by
  refine ⟨fun s hs => ?_⟩
  obtain ⟨points, s', hexit | ⟨a, b, hp, hq, hR⟩⟩ := h.run s (hpre s hs)
  · exact ⟨points, s', Or.inl hexit⟩
  · exact ⟨points, s', Or.inr ⟨a, b, hp, hq, hpost a b s' hR⟩⟩

/-- The rule of composition. -/
theorem bind {δ : Type} {f : α → Process σ ε γ} {g : β → Process σ ε δ} {S : γ → δ → σ → Prop}
    (h : Sim P p q R) (hfg : ∀ a b, Sim (R a b) (f a) (g b) S) : Sim P (p >>= f) (q >>= g) S := by
  refine ⟨fun s hs => ?_⟩
  obtain ⟨points, s', ⟨e, hp, hq⟩ | ⟨a, b, hp, hq, hR⟩⟩ := h.run s hs
  · exact ⟨points, s', Or.inl ⟨e, bind_of_error hp, bind_of_error hq⟩⟩
  · rw [bind_of_ok hp, bind_of_ok hq]
    obtain ⟨points', s'', ⟨e, hf, hg⟩ | ⟨c, d, hf, hg, hS⟩⟩ := (hfg a b).run s' hR
    · rw [hf, hg]
      exact ⟨points ++ points', s'', Or.inl ⟨e, rfl, rfl⟩⟩
    · rw [hf, hg]
      exact ⟨points ++ points', s'', Or.inr ⟨c, d, rfl, rfl, hS⟩⟩

/-- A fact about the results that does not depend on the state can be used outside. -/
theorem bind_of_fact {δ : Type} {f : α → Process σ ε γ} {g : β → Process σ ε δ}
    {S : γ → δ → σ → Prop} {φ : α → β → Prop} {I : α → β → σ → Prop}
    (h : Sim P p q fun a b s => φ a b ∧ I a b s)
    (hfg : ∀ a b, φ a b → Sim (I a b) (f a) (g b) S) : Sim P (p >>= f) (q >>= g) S :=
  h.bind fun a b => ⟨fun s hs => (hfg a b hs.1).run s hs.2⟩

theorem ite {c d : Prop} [Decidable c] [Decidable d] {p' : Process σ ε α} {q' : Process σ ε β}
    (hcd : c ↔ d) (h : c → Sim P p q R) (h' : ¬c → Sim P p' q' R) :
    Sim P (if c then p else p') (if d then q else q') R := by
  by_cases hc : c
  · rw [if_pos hc, if_pos (hcd.mp hc)]
    exact h hc
  · rw [if_neg hc, if_neg fun hd => hc (hcd.mpr hd)]
    exact h' hc

end Sim

/-! ### Single runs -/

/-- From `s`, the process returns `a` and ends in `s'`. -/
def Returns (s : σ) (p : Process σ ε α) (a : α) (s' : σ) : Prop :=
  (p s).result = .ok a ∧ (p s).final = s'

namespace Returns

variable {s s' s'' : σ} {p : Process σ ε α} {a : α}

theorem of_result (h : (p s).result = .ok a) : Returns s p a (p s).final := ⟨h, rfl⟩

theorem pure (a : α) : Returns s (Pure.pure a : Process σ ε α) a s := ⟨rfl, rfl⟩

theorem get : Returns s (Process.get : Process σ ε σ) s s := ⟨rfl, rfl⟩

theorem bind {f : α → Process σ ε β} {b : β} (hp : Returns s p a s') (hf : Returns s' (f a) b s'') :
    Returns s (p >>= f) b s'' := by
  have hrun := bind_of_result (f := f) hp.1
  rw [hp.2] at hrun
  exact ⟨(congrArg Run.result hrun).trans hf.1, (congrArg Run.final hrun).trans hf.2⟩

theorem forM_singleton {f : β → Process σ ε PUnit} {x : β} (h : Returns s (f x) ⟨⟩ s') :
    Returns s ([x].forM f) ⟨⟩ s' := h.bind (pure _)

end Returns

/-! ### Visited states -/

/-- From `P`, the run records a state in `R`. -/
def Visits (P : σ → Prop) (p : Process σ ε α) (R : σ → Prop) : Prop :=
  ∀ s, P s → ∃ c ∈ (p s).points, R c

namespace Visits

variable {P R : σ → Prop} {p : Process σ ε α}

theorem mono (h : Visits P p R) {P' : σ → Prop} (hpre : ∀ s, P' s → P s) : Visits P' p R :=
  fun s hs => h s (hpre s hs)

theorem step {g : σ → Except ε (α × σ)} (h : ∀ s, P s → R s) : Visits P (Process.step g) R := by
  intro s hs
  refine ⟨s, ?_, h s hs⟩
  unfold Process.step
  split <;> exact List.mem_singleton.mpr rfl

/-- In the first of two processes. -/
theorem bind_left (h : Visits P p R) (f : α → Process σ ε β) : Visits P (p >>= f) R := by
  intro s hs
  obtain ⟨c, hc, hR⟩ := h s hs
  refine ⟨c, ?_, hR⟩
  rcases hrun : p s with ⟨points, e | a, s'⟩
  · rw [bind_of_error hrun]
    rwa [hrun] at hc
  · rw [bind_of_ok hrun]
    rw [hrun] at hc
    exact List.mem_append_left _ hc

/-- In the second of two processes, after the first one has returned. -/
theorem after {s s' : σ} {a : α} {f : α → Process σ ε β} (hp : Returns s p a s')
    (h : Visits (· = s') (f a) R) : Visits (· = s) (p >>= f) R := by
  rintro _ rfl
  rw [bind_of_result hp.1, hp.2]
  obtain ⟨c, hc, hR⟩ := h s' rfl
  exact ⟨c, List.mem_append_right _ hc, hR⟩

/-- In the second of two processes, when the first one cannot exit. -/
theorem bind_right {f : α → Process σ ε β} {C : σ → Prop} {Q : α → σ → Prop}
    (hp : Meets P p C Q fun _ _ => False) (h : ∀ a, Visits (Q a) (f a) R) :
    Visits P (p >>= f) R := by
  intro s hs
  obtain ⟨_, hq, he⟩ := hp s hs
  cases hres : (p s).result with
  | error e => exact (he e hres).elim
  | ok a => exact after (.of_result hres) (fun t ht => h a t (ht ▸ hq a hres)) s rfl

/-- After a process that keeps an invariant and cannot exit. -/
theorem bind_keeps {f : α → Process σ ε β} {φ : α → Prop} (hp : Keeps P (fun _ _ => False) p φ)
    (h : ∀ a, φ a → Visits P (f a) R) : Visits P (p >>= f) R :=
  bind_right hp fun a s hs => h a hs.1 s hs.2

end Visits

end Process

end TriforceAFL.Lib
