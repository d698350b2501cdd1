import TriforceAFL.Lib.Words

/-!
# `TriforceAFL.Lib.BitOrder`: the bits of a buffer, most significant bit first

`bitAt buf n` numbers the bits of a buffer from the most significant bit of the first byte on. The
bits of a little-endian word at an offset run the other way inside each byte: `bitAt_store` gives
the translation. `FlipsTo` says that one buffer is another with a run of consecutive bits flipped.
-/

set_option autoImplicit false

namespace TriforceAFL.Lib

/-- Bit `n` of a buffer, counted from the most significant bit of each byte. -/
def bitAt (buf : List (BitVec 8)) (n : Nat) : Bool := (byteOf buf (n / 8)).getLsbD (7 - n % 8)

/-- Two buffers of one length with the same bits are equal. -/
theorem eq_of_bitAt_eq {xs ys : List (BitVec 8)} (hlen : xs.length = ys.length)
    (h : ∀ n < 8 * xs.length, bitAt xs n = bitAt ys n) : xs = ys := by
  refine eq_of_byteOf_eq hlen fun j hj => BitVec.eq_of_getLsbD_eq fun k hk => ?_
  have hbit := h (8 * j + (7 - k)) (by omega)
  have hdiv : (8 * j + (7 - k)) / 8 = j := by omega
  have hmod : 7 - (8 * j + (7 - k)) % 8 = k := by omega
  rwa [bitAt, bitAt, hdiv, hmod] at hbit

/-- The bits of the buffer after a store. -/
theorem bitAt_store (k : Nat) (buf : List (BitVec 8)) (off : Nat) (w : BitVec (8 * k)) (n : Nat)
    (hn : n < 8 * buf.length) :
    bitAt (store k buf off w) n =
      if off ≤ n / 8 ∧ n / 8 < off + k then w.getLsbD (8 * (n / 8 - off) + (7 - n % 8))
      else bitAt buf n := by
  have hlt : 7 - n % 8 < 8 := by omega
  rw [bitAt, byteOf_store k buf off w (n / 8) (by omega)]
  by_cases hwin : off ≤ n / 8 ∧ n / 8 < off + k
  · rw [if_pos hwin, if_pos hwin, getLsbD_byteAt]
    simp only [hlt, decide_true, Bool.true_and]
  · rw [if_neg hwin, if_neg hwin, bitAt]

/-- The bits of a buffer inside the window of a word are the bits of that word. -/
theorem getLsbD_load (k : Nat) (buf : List (BitVec 8)) (off n : Nat)
    (hwin : off ≤ n / 8 ∧ n / 8 < off + k) :
    (load k buf off).getLsbD (8 * (n / 8 - off) + (7 - n % 8)) = bitAt buf n := by
  have hlt : 7 - n % 8 < 8 := by omega
  have hbyte := getLsbD_byteAt (load k buf off) (n / 8 - off) (7 - n % 8)
  have hpos : off + (n / 8 - off) = n / 8 := by omega
  rw [byteAt_load buf off (n / 8 - off) (by omega), hpos] at hbyte
  simp only [hlt, decide_true, Bool.true_and] at hbyte
  rw [← hbyte, bitAt]

/-- `c` is `buf` with the `m` bits from `b` on flipped. -/
def FlipsTo (buf c : List (BitVec 8)) (b m : Nat) : Prop :=
  c.length = buf.length ∧
    ∀ n < 8 * buf.length, bitAt c n = (bitAt buf n ^^ decide (b ≤ n ∧ n < b + m))

/-- A run of flipped bits determines the buffer. -/
theorem FlipsTo.unique {buf c c' : List (BitVec 8)} {b m : Nat} (h : FlipsTo buf c b m)
    (h' : FlipsTo buf c' b m) : c = c' := by
  refine eq_of_bitAt_eq (h.1.trans h'.1.symm) fun n hn => ?_
  rw [h.1] at hn
  rw [h.2 n hn, h'.2 n hn]

/-- Flipping a run of bits twice changes nothing. -/
theorem FlipsTo.involutive {buf c d : List (BitVec 8)} {b m : Nat} (h : FlipsTo buf c b m)
    (h' : FlipsTo c d b m) : d = buf := by
  refine eq_of_bitAt_eq (h'.1.trans h.1) fun n hn => ?_
  rw [h'.1] at hn
  rw [h'.2 n hn, h.2 n (by rwa [← h.1]), Bool.xor_assoc, Bool.xor_self, Bool.xor_false]

/-- Xoring a word flips the bits of the word's pattern. -/
theorem bitAt_store_xor (k : Nat) (buf : List (BitVec 8)) (off : Nat) (x : BitVec (8 * k))
    (n : Nat) (hn : n < 8 * buf.length) :
    bitAt (store k buf off (load k buf off ^^^ x)) n =
      (bitAt buf n ^^ (decide (off ≤ n / 8 ∧ n / 8 < off + k) &&
        x.getLsbD (8 * (n / 8 - off) + (7 - n % 8)))) := by
  rw [bitAt_store k buf off _ n hn]
  by_cases hwin : off ≤ n / 8 ∧ n / 8 < off + k
  · rw [if_pos hwin, BitVec.getLsbD_xor, getLsbD_load k buf off n hwin, decide_eq_true hwin,
      Bool.true_and]
  · rw [if_neg hwin, decide_eq_false hwin, Bool.false_and, Bool.xor_false]

end TriforceAFL.Lib
