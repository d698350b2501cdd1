import Mathlib.Data.List.Infix

/-!
# `TriforceAFL.Lib.Logged`: computations that append to a log and may be abandoned

A computation `Except σ σ` works on a state with a log. It ends normally with `.ok`, or it is
abandoned with `.error`, and then the state is the one reached so far. `Logs` says which events
such a computation appends: all of a given list when it ends normally, and an initial part of it
when it is abandoned. The rules `Logs.pure`, `Logs.bind` and `Logs.foldlM` compose these
statements along a program, so a program with early exits is described by one plain list.
-/

set_option autoImplicit false

namespace TriforceAFL.Lib

section Logged
variable {σ ε : Type} {log : σ → List ε}

/-- Started in `s`, the computation appends `events` and ends in `Post`, or it is abandoned after
an initial part of `events`. -/
def Logs (log : σ → List ε) (m : Except σ σ) (s : σ) (events : List ε) (Post : σ → Prop) : Prop :=
  match m with
  | .ok s' => log s' = log s ++ events ∧ Post s'
  | .error s' => ∃ done, done <+: events ∧ log s' = log s ++ done

/-- The state in which a computation ends, one way or the other. -/
def finalState : Except σ σ → σ
  | .ok s => s
  | .error s => s

namespace Logs

variable {m : Except σ σ} {P Q : σ → Prop} {events : List ε} {s : σ}

theorem pure {s s' : σ} {Post : σ → Prop} (hlog : log s' = log s) (h : Post s') :
    Logs log (Pure.pure s') s [] Post :=
  ⟨by rw [hlog, List.append_nil], h⟩

theorem mono (h : Logs log m s events P) (himp : ∀ s', P s' → Q s') :
    Logs log m s events Q := by
  cases m with
  | ok s' => exact ⟨h.1, himp s' h.2⟩
  | error s' => exact h

/-- Only the log of the first state matters. -/
theorem of_log_eq {s t : σ} {Post : σ → Prop} (h : Logs log m s events Post)
    (hlog : log s = log t) : Logs log m t events Post := by
  cases m with
  | ok s' => exact ⟨hlog ▸ h.1, h.2⟩
  | error s' =>
    obtain ⟨done, hdone, hs'⟩ := h
    exact ⟨done, hdone, hlog ▸ hs'⟩

theorem bind {f : σ → Except σ σ} {e₁ e₂ : List ε} (hm : Logs log m s e₁ P)
    (hf : ∀ s', m = .ok s' → P s' → Logs log (f s') s' e₂ Q) :
    Logs log (m >>= f) s (e₁ ++ e₂) Q := by
  cases m with
  | error s' =>
    obtain ⟨done, hdone, hlog⟩ := hm
    exact ⟨done, hdone.trans (List.prefix_append e₁ e₂), hlog⟩
  | ok s' =>
    obtain ⟨hlog, hP⟩ := hm
    have hrest := hf s' rfl hP
    show Logs log (f s') s (e₁ ++ e₂) Q
    cases hfs : f s' with
    | ok t =>
      rw [hfs] at hrest
      obtain ⟨hlog', hQ⟩ := hrest
      exact ⟨by rw [hlog', hlog, List.append_assoc], hQ⟩
    | error t =>
      rw [hfs] at hrest
      obtain ⟨done, hdone, hlog'⟩ := hrest
      refine ⟨e₁ ++ done, (List.prefix_append_right_inj e₁).mpr hdone, ?_⟩
      rw [hlog', hlog, List.append_assoc]

/-- The first step appends one event. -/
theorem cons {f : σ → Except σ σ} {e : ε} {es : List ε} (hm : Logs log m s [e] P)
    (hf : ∀ s', P s' → Logs log (f s') s' es Q) :
    Logs log (m >>= f) s (e :: es) Q :=
  bind hm fun s' _ hs' => hf s' hs'

/-- A last step that appends nothing. -/
theorem map {f : σ → σ} (hm : Logs log m s events P)
    (hf : ∀ s', P s' → log (f s') = log s' ∧ Q (f s')) :
    Logs log (m >>= fun s' => Pure.pure (f s')) s events Q := by
  have h := bind hm fun s' _ hs' => Logs.pure (hf s' hs').1 (hf s' hs').2
  rwa [List.append_nil] at h

/-- A loop whose turns keep an invariant and each append their own events. -/
theorem foldlM {α : Type} {f : σ → α → Except σ σ} {events : α → List ε} {Inv : σ → Prop}
    (l : List α) (hstep : ∀ a ∈ l, ∀ s, Inv s → Logs log (f s a) s (events a) Inv) (s : σ)
    (hs : Inv s) : Logs log (l.foldlM f s) s (l.flatMap events) Inv := by
  induction l generalizing s with
  | nil => exact Logs.pure rfl hs
  | cons a l ih =>
    rw [List.foldlM_cons, List.flatMap_cons]
    refine Logs.bind (hstep a List.mem_cons_self s hs) fun s' _ hs' => ?_
    exact ih (fun b hb => hstep b (List.mem_cons_of_mem a hb)) s' hs'

/-- What the log of the final state holds. -/
theorem finalState_log {Post : σ → Prop} (h : Logs log m s events Post) :
    ∃ done, done <+: events ∧ log (finalState m) = log s ++ done := by
  cases m with
  | ok s' => exact ⟨events, List.prefix_refl _, h.1⟩
  | error s' => exact h

end Logs

/-- A loop whose turns only append to the log only appends to the log. -/
theorem log_prefix_foldlM {α : Type} {f : σ → α → Except σ σ}
    (hstep : ∀ s a, log s <+: log (finalState (f s a))) (l : List α) (s : σ) :
    log s <+: log (finalState (l.foldlM f s)) := by
  induction l generalizing s with
  | nil => exact List.prefix_refl _
  | cons a l ih =>
    rw [List.foldlM_cons]
    have ha := hstep s a
    cases hrun : f s a with
    | ok t =>
      rw [hrun] at ha
      exact ha.trans (ih t)
    | error t =>
      rw [hrun] at ha
      exact ha

/-- An initial part of `a ++ b` that holds something outside `a` holds all of `a`. -/
theorem prefix_of_mem_of_notMem {done a b : List ε} {x : ε} (hdone : done <+: a ++ b)
    (hx : x ∈ done) (hnot : x ∉ a) : a <+: done := by
  rcases List.prefix_or_prefix_of_prefix (List.prefix_append a b) hdone with h | h
  · exact h
  · exact absurd (h.subset hx) hnot

end Logged

end TriforceAFL.Lib
