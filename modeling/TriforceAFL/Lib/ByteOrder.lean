import TriforceAFL.Lib.Words

/-!
# `TriforceAFL.Lib.ByteOrder`: integers of either byte order inside a buffer

`byteSwap x` is the word with its bytes reversed, and `o.word x` the value of the memory word `x` as
an integer of byte order `o`. `writeInt` and `addAt` write an integer and add to one in place.

Two facts relate words of different widths at one place. `store_eq_store_window`: a word that
differs from the buffer in a part only is a store of that part. `addAt_eq_narrow` and
`subAt_eq_narrow`: adding to an integer, or subtracting from it, without a carry out of its low
bytes is doing so with those bytes alone.
-/

set_option autoImplicit false

namespace TriforceAFL.Lib

variable {buf : List (BitVec 8)}

/-! ### Windows of words -/

/-- The bytes of a widened or narrowed word. -/
theorem byteAt_setWidth {w : Nat} (x : BitVec w) {m b : Nat} (hb : b < m) :
    byteAt (x.setWidth (8 * m)) b = byteAt x b := by
  apply BitVec.eq_of_getLsbD_eq
  intro j hj
  have hin : 8 * b + j < 8 * m := by omega
  simp only [getLsbD_byteAt, BitVec.getLsbD_setWidth, hin, decide_true, Bool.true_and]

/-- The bytes of a word that is shifted down by whole bytes. -/
theorem byteAt_ushiftRight {w : Nat} (x : BitVec w) (k b : Nat) :
    byteAt (x >>> (8 * k)) b = byteAt x (k + b) := by
  apply BitVec.eq_of_getLsbD_eq
  intro j hj
  have hidx : 8 * k + (8 * b + j) = 8 * (k + b) + j := by omega
  simp [getLsbD_byteAt, BitVec.getLsbD_ushiftRight, hidx]

/-- What was stored is read back. -/
theorem load_store {n : Nat} {off : Nat} (w : BitVec (8 * n)) (h : off + n ≤ buf.length) :
    load n (store n buf off w) off = w := by
  apply eq_of_byteAt_eq
  intro b hb
  have hsub : off + b - off = b := by omega
  rw [byteAt_load _ _ _ hb, byteOf_store n buf off w (off + b) (by omega), if_pos (by omega), hsub]

/-- A word that agrees with the buffer outside of a window of `m` bytes is a store of that
window. -/
theorem store_eq_store_window {n m k off : Nat} {w : BitVec (8 * n)} {v : BitVec (8 * m)}
    (hkm : k + m ≤ n) (hin : ∀ b < m, byteAt w (k + b) = byteAt v b)
    (hout : ∀ b < n, b < k ∨ k + m ≤ b → byteAt w b = byteOf buf (off + b)) :
    store n buf off w = store m buf (off + k) v := by
  refine eq_of_byteOf_eq (by simp) fun j hj => ?_
  rw [length_store] at hj
  rw [byteOf_store n buf off w j hj, byteOf_store m buf (off + k) v j hj]
  by_cases hwin : off + k ≤ j ∧ j < off + k + m
  · have hidx : k + (j - (off + k)) = j - off := by omega
    rw [if_pos hwin, if_pos (by omega), ← hin _ (by omega), hidx]
  · rw [if_neg hwin]
    by_cases hword : off ≤ j ∧ j < off + n
    · have hidx : off + (j - off) = j := by omega
      rw [if_pos hword, hout (j - off) (by omega) (by omega), hidx]
    · rw [if_neg hword]

/-! ### Byte order -/

/-- The word with its bytes reversed. -/
def byteSwap {n : Nat} (x : BitVec (8 * n)) : BitVec (8 * n) :=
  load n ((List.range n).map fun b => byteAt x (n - 1 - b)) 0

theorem byteAt_byteSwap {n : Nat} (x : BitVec (8 * n)) {b : Nat} (hb : b < n) :
    byteAt (byteSwap x) b = byteAt x (n - 1 - b) := by
  rw [byteSwap, byteAt_load _ _ _ hb]
  simp [byteOf, hb]

@[simp] theorem byteSwap_byteSwap {n : Nat} (x : BitVec (8 * n)) : byteSwap (byteSwap x) = x := by
  apply eq_of_byteAt_eq
  intro b hb
  have hidx : n - 1 - (n - 1 - b) = b := by omega
  rw [byteAt_byteSwap _ hb, byteAt_byteSwap _ (by omega), hidx]

/-- The order of the bytes of an integer in memory. -/
inductive ByteOrder
  | little
  | big
deriving DecidableEq

namespace ByteOrder

/-- The integer that a memory word stands for, and back. -/
def word (o : ByteOrder) {n : Nat} (x : BitVec (8 * n)) : BitVec (8 * n) :=
  match o with
  | .little => x
  | .big => byteSwap x

@[simp] theorem word_word (o : ByteOrder) {n : Nat} (x : BitVec (8 * n)) :
    o.word (o.word x) = x := by
  cases o with
  | little => rfl
  | big => exact byteSwap_byteSwap x

/-- Where byte `b` of an integer, counted from the least significant one, lies in memory. -/
def position (o : ByteOrder) (n b : Nat) : Nat :=
  match o with
  | .little => b
  | .big => n - 1 - b

theorem byteAt_word (o : ByteOrder) {n : Nat} (x : BitVec (8 * n)) {b : Nat} (hb : b < n) :
    byteAt (o.word x) b = byteAt x (o.position n b) := by
  cases o with
  | little => rfl
  | big => exact byteAt_byteSwap x hb

/-- Where the low `m` bytes of an `n`-byte integer begin in memory. -/
def lowOffset (o : ByteOrder) (n m : Nat) : Nat :=
  match o with
  | .little => 0
  | .big => n - m

/-- The low bytes of an integer are an integer of the same byte order. -/
theorem setWidth_word_load (o : ByteOrder) {n m : Nat} (hmn : m ≤ n) (buf : List (BitVec 8))
    (off : Nat) :
    (o.word (load n buf off)).setWidth (8 * m) =
      o.word (load m buf (off + o.lowOffset n m)) := by
  apply eq_of_byteAt_eq
  intro b hb
  rw [byteAt_setWidth _ hb, byteAt_word o _ (by omega), byteAt_word o _ hb]
  cases o with
  | little => simp only [position, lowOffset, byteAt_load _ _ _ hb,
      byteAt_load buf off b (Nat.lt_of_lt_of_le hb hmn), Nat.add_zero]
  | big =>
    have hidx : off + (n - 1 - b) = off + (n - m) + (m - 1 - b) := by omega
    simp only [position, lowOffset]
    rw [byteAt_load buf off _ (by omega), byteAt_load buf _ _ (by omega), hidx]

end ByteOrder

/-- Write the integer `x` at `off`. -/
def writeInt (o : ByteOrder) (n : Nat) (buf : List (BitVec 8)) (off : Nat) (x : BitVec (8 * n)) :
    List (BitVec 8) :=
  store n buf off (o.word x)

/-- Add `j` to the integer at `off`. -/
def addAt (o : ByteOrder) (n : Nat) (buf : List (BitVec 8)) (off j : Nat) : List (BitVec 8) :=
  writeInt o n buf off (o.word (load n buf off) + BitVec.ofNat (8 * n) j)

/-- Subtract `j` from the integer at `off`. -/
def subAt (o : ByteOrder) (n : Nat) (buf : List (BitVec 8)) (off j : Nat) : List (BitVec 8) :=
  writeInt o n buf off (o.word (load n buf off) - BitVec.ofNat (8 * n) j)

/-! ### Arithmetic without a carry -/

/-- The high bytes of two words that agree above their low `m` bytes. -/
theorem byteAt_eq_of_div_eq {w : Nat} {x y : BitVec w} {m b : Nat}
    (h : x.toNat / 2 ^ (8 * m) = y.toNat / 2 ^ (8 * m)) (hb : m ≤ b) : byteAt x b = byteAt y b := by
  apply BitVec.eq_of_getLsbD_eq
  intro j hj
  have hidx : 8 * m + (8 * b + j - 8 * m) = 8 * b + j := by omega
  have hbit := congrArg (fun z => Nat.testBit z (8 * b + j - 8 * m)) h
  simp only [Nat.testBit_div_two_pow] at hbit
  rw [Nat.add_comm, hidx] at hbit
  rw [getLsbD_byteAt, getLsbD_byteAt, ← BitVec.testBit_toNat, ← BitVec.testBit_toNat, hbit]

/-- Writing an integer whose high bytes are those in the buffer is writing its low bytes. -/
theorem writeInt_eq_narrow (o : ByteOrder) {n m : Nat} (hmn : m ≤ n) {off : Nat}
    {x : BitVec (8 * n)}
    (hhigh : ∀ b < n, m ≤ b → byteAt x b = byteAt (o.word (load n buf off)) b) :
    writeInt o n buf off x = writeInt o m buf (off + o.lowOffset n m) (x.setWidth (8 * m)) := by
  -- Byte by byte, as the memory has them.
  have hkeep : ∀ b < n, (∀ c, b = o.position n c → c < n → m ≤ c) →
      byteAt (o.word x) b = byteOf buf (off + b) := by
    intro b hb hc
    have hpos : o.position n (o.position n b) = b := by
      cases o with
      | little => rfl
      | big => simp only [ByteOrder.position]; omega
    have hlt : o.position n b < n := by
      cases o with
      | little => exact hb
      | big => simp only [ByteOrder.position]; omega
    rw [o.byteAt_word x hb, hhigh _ hlt (hc _ hpos.symm hlt), o.byteAt_word _ hlt, hpos,
      byteAt_load buf off b hb]
  apply store_eq_store_window
  · cases o with
    | little => simp only [ByteOrder.lowOffset]; omega
    | big => simp only [ByteOrder.lowOffset]; omega
  · intro b hb
    rw [o.byteAt_word _ hb]
    cases o with
    | little =>
      simp only [ByteOrder.lowOffset, ByteOrder.position, Nat.zero_add, ByteOrder.word]
      exact (byteAt_setWidth x hb).symm
    | big =>
      have hidx : n - 1 - (n - m + b) = m - 1 - b := by omega
      simp only [ByteOrder.lowOffset, ByteOrder.position]
      rw [ByteOrder.byteAt_word .big x (by omega), byteAt_setWidth x (by omega),
        ByteOrder.position, hidx]
  · intro b hb hout
    refine hkeep b hb fun c hc hcn => ?_
    cases o with
    | little => simp only [ByteOrder.lowOffset, ByteOrder.position] at hout hc; omega
    | big => simp only [ByteOrder.lowOffset, ByteOrder.position] at hout hc; omega

/-- An addition without a carry out of the low bytes. -/
theorem addAt_eq_narrow (o : ByteOrder) {n m : Nat} (hmn : m ≤ n) {off j : Nat}
    (h : ((o.word (load n buf off)).setWidth (8 * m)).toNat + j < 2 ^ (8 * m)) :
    addAt o n buf off j = addAt o m buf (off + o.lowOffset n m) j := by
  have hpow : 2 ^ (8 * m) ≤ 2 ^ (8 * n) := Nat.pow_le_pow_right (by decide) (by omega)
  rw [addAt, writeInt_eq_narrow o hmn, addAt, BitVec.setWidth_add _ _ (by omega),
    o.setWidth_word_load hmn, BitVec.setWidth_ofNat_of_le (by omega)]
  intro b hb hle
  refine byteAt_eq_of_div_eq ?_ hle
  rw [BitVec.toNat_setWidth] at h
  generalize o.word (load n buf off) = x at h ⊢
  have hx := x.isLt
  -- The quotient by the low part does not change, so the sum does not wrap around either.
  have hdiv := Nat.div_add_mod x.toNat (2 ^ (8 * m))
  have hfit : 2 ^ (8 * m) * (x.toNat / 2 ^ (8 * m)) + 2 ^ (8 * m) ≤ 2 ^ (8 * n) := by
    have hquot : x.toNat / 2 ^ (8 * m) < 2 ^ (8 * n - 8 * m) := by
      rw [Nat.div_lt_iff_lt_mul (Nat.two_pow_pos _), ← Nat.pow_add]
      have hexp : 8 * n - 8 * m + 8 * m = 8 * n := by omega
      rwa [hexp]
    calc 2 ^ (8 * m) * (x.toNat / 2 ^ (8 * m)) + 2 ^ (8 * m)
        = 2 ^ (8 * m) * (x.toNat / 2 ^ (8 * m) + 1) := by rw [Nat.mul_add, Nat.mul_one]
      _ ≤ 2 ^ (8 * m) * 2 ^ (8 * n - 8 * m) := Nat.mul_le_mul_left _ hquot
      _ = 2 ^ (8 * n) := by
          rw [← Nat.pow_add]
          congr 1
          omega
  have hj : j < 2 ^ (8 * n) := by omega
  rw [BitVec.toNat_add, BitVec.toNat_ofNat, Nat.mod_eq_of_lt hj, Nat.mod_eq_of_lt (by omega)]
  rw [← hdiv, Nat.add_assoc, Nat.mul_add_div (Nat.two_pow_pos _), Nat.div_eq_of_lt h,
    Nat.mul_add_div (Nat.two_pow_pos _), Nat.div_eq_of_lt (Nat.mod_lt _ (Nat.two_pow_pos _))]

/-- A subtraction without a borrow from the high bytes. -/
theorem subAt_eq_narrow (o : ByteOrder) {n m : Nat} (hmn : m ≤ n) {off j : Nat}
    (h : j ≤ ((o.word (load n buf off)).setWidth (8 * m)).toNat) :
    subAt o n buf off j = subAt o m buf (off + o.lowOffset n m) j := by
  have hpow : 2 ^ (8 * m) ≤ 2 ^ (8 * n) := Nat.pow_le_pow_right (by decide) (by omega)
  have hle : 8 * m ≤ 8 * n := by omega
  rw [subAt, writeInt_eq_narrow o hmn, subAt, BitVec.sub_eq_add_neg, BitVec.setWidth_add _ _ hle,
    BitVec.setWidth_neg_of_le hle, o.setWidth_word_load hmn, BitVec.setWidth_ofNat_of_le hle,
    ← BitVec.sub_eq_add_neg]
  intro b hb hle
  refine byteAt_eq_of_div_eq ?_ hle
  rw [BitVec.toNat_setWidth] at h
  generalize o.word (load n buf off) = x at h ⊢
  have hx := x.isLt
  have hdiv := Nat.div_add_mod x.toNat (2 ^ (8 * m))
  have hmod := Nat.mod_lt x.toNat (Nat.two_pow_pos (8 * m))
  have hj : j < 2 ^ (8 * n) := by omega
  have hsub : (x - BitVec.ofNat (8 * n) j).toNat = x.toNat - j := by
    rw [BitVec.toNat_sub, BitVec.toNat_ofNat, Nat.mod_eq_of_lt hj]
    have hle' : j ≤ x.toNat := h.trans (Nat.mod_le _ _)
    have hsum : 2 ^ (8 * n) - j + x.toNat = 2 ^ (8 * n) + (x.toNat - j) := by omega
    rw [hsum, Nat.add_mod_left, Nat.mod_eq_of_lt (by omega)]
  have hlow : x.toNat - j = 2 ^ (8 * m) * (x.toNat / 2 ^ (8 * m)) +
      (x.toNat % 2 ^ (8 * m) - j) := by omega
  have hquot : (x.toNat % 2 ^ (8 * m) - j) / 2 ^ (8 * m) = 0 := Nat.div_eq_of_lt (by omega)
  rw [hsub, hlow, Nat.mul_add_div (Nat.two_pow_pos _), hquot, Nat.add_zero]

end TriforceAFL.Lib
