import Mathlib.Logic.Function.Basic
import Mathlib.Tactic.Common

/-!
# `TriforceAFL.Lib.Mixing`: mixing steps that lose nothing

A hash function of the Murmur kind is a loop over words with a state of one word, made of a few
operations on words that are all injective: multiplication by an odd constant, rotation, exclusive
or with a word, and exclusive or with a shift of the word itself (`injective_xorShift`).

A step that is injective in the state and in the word (`Lossless`) carries a difference in one word
through any number of further words (`Lossless.foldl_ne`).
-/

set_option autoImplicit false

namespace TriforceAFL.Lib

open Function

/-! ### Operations on words -/

section Words
variable {w : Nat}

/-- `(x << r) | (x >> (w - r))`. -/
def rol (x : BitVec w) (r : Nat) : BitVec w := (x <<< r) ||| (x >>> (w - r))

/-- Multiplication by a constant that has an inverse. -/
theorem injective_mul {c d : BitVec w} (hcd : c * d = 1#w) : Injective fun x => x * c := by
  intro x y hxy
  have hback : x * c * d = y * c * d := congrArg (· * d) hxy
  rwa [BitVec.mul_assoc, BitVec.mul_assoc, hcd, BitVec.mul_one, BitVec.mul_one] at hback

/-- Each bit of a word is a bit of the rotated word. -/
theorem getLsbD_rol {x : BitVec w} {r : Nat} (hr : r ≤ w) {i : Nat} (hi : i < w) :
    (rol x r).getLsbD ((i + r) % w) = x.getLsbD i := by
  simp only [rol, BitVec.getLsbD_or, BitVec.getLsbD_shiftLeft, BitVec.getLsbD_ushiftRight]
  by_cases hwrap : i + r < w
  · -- The bit moves up, and what the right shift brings in lies beyond the word.
    have hzero : x.getLsbD (w - r + (i + r)) = false := BitVec.getLsbD_of_ge _ _ (by omega)
    rw [Nat.mod_eq_of_lt hwrap, hzero, Nat.add_sub_cancel]
    simp [hwrap]
  · have hmod : (i + r) % w = i + r - w := by
      rw [Nat.mod_eq_sub_mod (by omega), Nat.mod_eq_of_lt (by omega)]
    have hidx : w - r + (i + r - w) = i := by omega
    have hlow : i + r - w < r := by omega
    rw [hmod, hidx]
    simp [hlow]

theorem injective_rol {r : Nat} (hr : r ≤ w) : Injective fun x : BitVec w => rol x r := by
  intro x y hxy
  apply BitVec.eq_of_getLsbD_eq
  intro i hi
  have hbit := congrArg (fun z => BitVec.getLsbD z ((i + r) % w)) hxy
  simp only [getLsbD_rol hr hi] at hbit
  exact hbit

/-- The high bits are not changed, and each further bit is found from the bits above it. -/
theorem injective_xorShift {k : Nat} (hk : 0 < k) :
    Injective fun x : BitVec w => x ^^^ (x >>> k) := by
  intro x y hxy
  have hbit : ∀ i, (x.getLsbD i ^^ x.getLsbD (k + i)) = (y.getLsbD i ^^ y.getLsbD (k + i)) := by
    intro i
    have h := congrArg (fun z => BitVec.getLsbD z i) hxy
    simpa only [BitVec.getLsbD_xor, BitVec.getLsbD_ushiftRight] using h
  -- By induction on the distance from the upper end of the word.
  have hdown : ∀ n i, w ≤ i + n → x.getLsbD i = y.getLsbD i := by
    intro n
    induction n with
    | zero =>
      intro i hi
      rw [BitVec.getLsbD_of_ge x i hi, BitVec.getLsbD_of_ge y i hi]
    | succ n ih =>
      intro i hi
      have h := hbit i
      rw [ih (k + i) (by omega)] at h
      exact Bool.xor_left_inj.mp h
  apply BitVec.eq_of_getLsbD_eq
  intro i _
  exact hdown w i (Nat.le_add_left w i)

end Words

/-! ### A loop over words -/

section Loop
variable {σ κ : Type} {f : σ → κ → σ}

/-- A step from which the state can be found when the word is known, and the word when the state
is. -/
structure Lossless (f : σ → κ → σ) : Prop where
  state : ∀ k, Injective fun h => f h k
  word : ∀ h, Injective (f h)

/-- Two sequences of words that differ in exactly one place lead to different states. -/
theorem Lossless.foldl_ne (hf : Lossless f) {a b : Nat → κ} {count i : Nat} (hi : i < count)
    (hne : a i ≠ b i) (hsame : ∀ j < count, j ≠ i → a j = b j) (h : σ) :
    (List.range count).foldl (fun h j => f h (a j)) h
      ≠ (List.range count).foldl (fun h j => f h (b j)) h := by
  -- The agreement of equal sequences serves the words before the difference.
  have hequal : ∀ n, (∀ j < n, a j = b j) →
      (List.range n).foldl (fun h j => f h (a j)) h
        = (List.range n).foldl (fun h j => f h (b j)) h := by
    intro n
    induction n with
    | zero =>
      intro _
      rfl
    | succ n ih =>
      intro hall
      simp only [List.range_succ, List.foldl_append, List.foldl_cons, List.foldl_nil]
      rw [ih fun j hj => hall j (Nat.lt_succ_of_lt hj), hall n (Nat.lt_succ_self n)]
  induction count with
  | zero => exact absurd hi (Nat.not_lt_zero i)
  | succ n ih =>
    simp only [List.range_succ, List.foldl_append, List.foldl_cons, List.foldl_nil]
    rcases Nat.lt_succ_iff_lt_or_eq.mp hi with hlt | rfl
    · have hstates := ih hlt fun j hj => hsame j (Nat.lt_succ_of_lt hj)
      rw [hsame n (Nat.lt_succ_self n) (Nat.ne_of_gt hlt)]
      exact fun heq => hstates (hf.state (b n) heq)
    · have hstates := hequal i fun j hj =>
        hsame j (Nat.lt_succ_of_lt hj) (Nat.ne_of_lt hj)
      rw [hstates]
      exact fun heq => hne (hf.word _ heq)

end Loop

end TriforceAFL.Lib
