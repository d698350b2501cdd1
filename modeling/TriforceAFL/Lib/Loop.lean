import Mathlib.Data.List.Induction
import Mathlib.Tactic.Common

/-!
# `TriforceAFL.Lib.Loop`: counted loops

A counted C loop `for (i = 0; i < n; i++)` is a fold of its body over `List.range n`.
`foldl_range_induct` is its invariant rule: the invariant may speak about the number of turns
done. A loop whose invariant does not depend on the turn uses `List.foldlRecOn` of the library.
`foldlM_range_ok` is the same rule for a loop that can be left early but is not. `foldlM_mapError`
compares two such loops. `foldl_range_idle` cuts off turns that change nothing.

`foldl_flag_iff` is about a loop over events that set, clear or keep a property of the state: the
property holds at the end if it was set and not cleared since.
-/

set_option autoImplicit false

namespace TriforceAFL.Lib

/-- The invariant rule of a counted loop. -/
theorem foldl_range_induct {σ : Type} {f : σ → Nat → σ} {P : Nat → σ → Prop} {n : Nat} {s : σ}
    (h0 : P 0 s) (hstep : ∀ i < n, ∀ s, P i s → P (i + 1) (f s i)) :
    P n ((List.range n).foldl f s) := by
  induction n with
  | zero => exact h0
  | succ n ih =>
    rw [List.range_succ, List.foldl_append, List.foldl_cons, List.foldl_nil]
    exact hstep n (Nat.lt_succ_self n) _
      (ih fun i hi => hstep i (Nat.lt_succ_of_lt hi))

/-- A loop whose turns from `m` on change nothing is the loop of the first `m` turns. -/
theorem foldl_range_idle {σ : Type} {f : σ → Nat → σ} {P : σ → Prop} {m n : Nat} {s : σ}
    (hmn : m ≤ n) (hs : P s) (hstep : ∀ t i, P t → P (f t i))
    (hidle : ∀ t i, P t → m ≤ i → f t i = t) :
    (List.range n).foldl f s = (List.range m).foldl f s := by
  induction n with
  | zero => rw [Nat.le_zero.mp hmn]
  | succ n ih =>
    rcases Nat.lt_or_eq_of_le hmn with hlt | heq
    · have hkeep : P ((List.range m).foldl f s) :=
        List.foldlRecOn (motive := P) _ _ hs fun t ht i _ => hstep t i ht
      rw [List.range_succ, List.foldl_append, ih (Nat.le_of_lt_succ hlt), List.foldl_cons,
        List.foldl_nil, hidle _ n hkeep (Nat.le_of_lt_succ hlt)]
    · rw [heq]

/-- The invariant rule of a loop that is not left early. -/
theorem foldlM_range_ok {σ ε : Type} {f : σ → Nat → Except ε σ} {P : Nat → σ → Prop} {n : Nat}
    {s : σ} (h0 : P 0 s) (hstep : ∀ i < n, ∀ t, P i t → ∃ t', f t i = .ok t' ∧ P (i + 1) t') :
    ∃ s', (List.range n).foldlM f s = .ok s' ∧ P n s' := by
  induction n with
  | zero => exact ⟨s, rfl, h0⟩
  | succ n ih =>
    obtain ⟨t, hrest, ht⟩ := ih fun i hi => hstep i (Nat.lt_succ_of_lt hi)
    obtain ⟨t', hlast, ht'⟩ := hstep n (Nat.lt_succ_self n) t ht
    refine ⟨t', ?_, ht'⟩
    rw [List.range_succ, List.foldlM_append, hrest]
    change (f t n >>= pure) = .ok t'
    rw [bind_pure, hlast]

/-- Two loops whose turns do the same, up to how an early exit is reported. -/
theorem foldlM_mapError {σ ε ε' α : Type} {f : σ → α → Except ε σ} {f' : σ → α → Except ε' σ}
    {g : ε → ε'} {I : σ → Prop} (hkeep : ∀ s a s', I s → f s a = .ok s' → I s')
    (hsame : ∀ s a, I s → f' s a = (f s a).mapError g) (l : List α) {s : σ} (hs : I s) :
    l.foldlM f' s = (l.foldlM f s).mapError g := by
  induction l generalizing s with
  | nil => rfl
  | cons a l ih =>
    rw [List.foldlM_cons, List.foldlM_cons, hsame s a hs]
    cases hturn : f s a with
    | error e => rfl
    | ok t => exact ih (hkeep s a t hs hturn)

/-- What events set and clear, and nothing else touches, has been set and not cleared since. -/
theorem foldl_flag_iff {σ α : Type} {f : σ → α → σ} {P : σ → Prop} {sets clears : α → Prop}
    {s : σ} (h0 : ¬P s) {l : List α} (hset : ∀ a ∈ l, sets a → ∀ s, P (f s a))
    (hclear : ∀ a ∈ l, clears a → ∀ s, ¬P (f s a))
    (hkeep : ∀ a ∈ l, ¬sets a → ¬clears a → ∀ s, P (f s a) ↔ P s) :
    P (l.foldl f s) ↔ ∃ before a since, l = before ++ a :: since ∧ sets a ∧
      ∀ b ∈ since, ¬clears b := by
  -- The last event decides, so the induction takes events off the end.
  induction l using List.reverseRecOn with
  | nil => simp [h0]
  | append_singleton l last ih =>
    have hlast : last ∈ l ++ [last] := by simp
    have ih := ih (fun a ha => hset a (by simp [ha])) (fun a ha => hclear a (by simp [ha]))
      (fun a ha => hkeep a (by simp [ha]))
    rw [List.foldl_append, List.foldl_cons, List.foldl_nil]
    by_cases hsets : sets last
    · exact iff_of_true (hset last hlast hsets _) ⟨l, last, [], rfl, hsets, by simp⟩
    -- It is not the event that has set the property, so that one is followed by it.
    have hshift : (∃ before a since, l ++ [last] = before ++ a :: since ∧ sets a ∧
          ∀ b ∈ since, ¬clears b) ↔
        ¬clears last ∧ ∃ before a since, l = before ++ a :: since ∧ sets a ∧
          ∀ b ∈ since, ¬clears b := by
      constructor
      · rintro ⟨before, a, since, heq, ha, hsince⟩
        rcases List.eq_nil_or_concat since with rfl | ⟨since, b, rfl⟩
        · obtain ⟨-, hsame⟩ := List.append_inj' heq rfl
          cases hsame
          exact absurd ha hsets
        · rw [List.concat_eq_append] at heq hsince
          obtain ⟨hl, hsame⟩ := List.append_inj' (heq.trans (List.append_assoc before (a :: since)
            [b]).symm) rfl
          cases hsame
          exact ⟨hsince last (by simp), before, a, since, hl, ha,
            fun b hb => hsince b (by simp [hb])⟩
      · rintro ⟨hkeeps, before, a, since, rfl, ha, hsince⟩
        refine ⟨before, a, since ++ [last], by simp, ha, ?_⟩
        intro b hb
        rcases List.mem_append.mp hb with hb | hb
        · exact hsince b hb
        · rw [List.mem_singleton.mp hb]
          exact hkeeps
    rw [hshift]
    by_cases hclears : clears last
    · exact iff_of_false (hclear last hlast hclears _) (fun h => h.1 hclears)
    · rw [hkeep last hlast hsets hclears, ih]
      exact (and_iff_right hclears).symm

end TriforceAFL.Lib
