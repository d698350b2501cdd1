import Mathlib.Order.Basic
import Mathlib.Tactic.Common

/-!
# `TriforceAFL.Lib.LatestMin`: the latest of the cheapest contenders

Contenders come one after the other, and a newcomer replaces the holder unless it costs more.
`LatestMin cost cs w` says what the holder `w` is after the contenders `cs`: no contender costs
less, and none that came later costs as little. `LatestMin.keep` and `LatestMin.replace` are the
two outcomes of a turn.
-/

set_option autoImplicit false

namespace TriforceAFL.Lib

variable {α β : Type} [Preorder β]

/-- `w` is the latest of the cheapest contenders in `cs`. -/
def LatestMin (cost : α → β) (cs : List α) (w : α) : Prop :=
  ∃ before after, cs = before ++ w :: after ∧ (∀ c ∈ before, cost w ≤ cost c) ∧
    ∀ c ∈ after, cost w < cost c

namespace LatestMin

variable {cost : α → β} {cs : List α} {w c : α}

/-- Nobody costs less than the holder. -/
theorem le (h : LatestMin cost cs w) (hc : c ∈ cs) : cost w ≤ cost c := by
  obtain ⟨before, after, rfl, hbefore, hafter⟩ := h
  rcases List.mem_append.mp hc with hmem | hmem
  · exact hbefore c hmem
  · rcases List.mem_cons.mp hmem with rfl | hmem
    · exact le_refl _
    · exact le_of_lt (hafter c hmem)

/-- The first contender. -/
theorem first (cost : α → β) (c : α) : LatestMin cost [c] c :=
  ⟨[], [], rfl, fun _ h => absurd h List.not_mem_nil, fun _ h => absurd h List.not_mem_nil⟩

/-- A newcomer that costs more leaves the holder. -/
theorem keep (h : LatestMin cost cs w) (hc : cost w < cost c) : LatestMin cost (cs ++ [c]) w := by
  obtain ⟨before, after, rfl, hbefore, hafter⟩ := h
  refine ⟨before, after ++ [c], ?_, hbefore, ?_⟩
  · rw [List.append_assoc, List.cons_append]
  · intro d hd
    rcases List.mem_append.mp hd with hmem | hmem
    · exact hafter d hmem
    · rw [List.mem_singleton.mp hmem]
      exact hc

/-- Any other newcomer replaces the holder. -/
theorem replace (h : LatestMin cost cs w) (hc : cost c ≤ cost w) :
    LatestMin cost (cs ++ [c]) c :=
  ⟨cs, [], rfl, fun _ hd => le_trans hc (h.le hd), fun _ hd => absurd hd List.not_mem_nil⟩

end LatestMin

end TriforceAFL.Lib
