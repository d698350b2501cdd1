import Mathlib.Data.List.Basic
import Mathlib.Data.Nat.Bitwise
import Mathlib.Tactic.Common

/-!
# `TriforceAFL.Lib.Words`: little-endian words inside a byte buffer

C code reads and writes a byte buffer through wider pointers: `*(u64*)(buf + off)` loads eight
bytes as one word, least significant byte first. This module gives the two accesses for a word
of any number of bytes `n`:

* `load n buf off` is the word at offset `off`;
* `store n buf off w` is the buffer after the word `w` is written there.

`byteAt x i` names byte `i` of a word, and `byteOf buf j` byte `j` of a buffer. The lemmas say
what each access does to one byte (`byteAt_load`, `byteOf_store`) and how the bitwise operators act
on one byte (`byteAt_and`, `byteAt_not`). A word is determined by its bytes
(`eq_of_byteAt_eq`), so a statement about words becomes a statement about bytes. The byte masks
`byteMask n b` are the `0xff << (b << 3)` constants that word-wise loops test single bytes with.

Some loops compute with all bytes of a word at once. The last lemmas say when a shift, a sum or a
difference of words is one of their bytes.
-/

set_option autoImplicit false

namespace TriforceAFL.Lib

variable {n : Nat}

/-- Byte `i` of a word, counted from the least significant byte. -/
def byteAt {w : Nat} (x : BitVec w) (i : Nat) : BitVec 8 := x.extractLsb' (8 * i) 8

/-- Byte `j` of a buffer. Past the end the value is zero; no caller relies on that. -/
def byteOf (buf : List (BitVec 8)) (j : Nat) : BitVec 8 := buf.getD j 0

/-- The number that a list of bytes spells, least significant byte first. -/
def bytesValue : List (BitVec 8) → Nat
  | [] => 0
  | b :: bs => 2 ^ 8 * bytesValue bs + b.toNat

/-- The `n`-byte little-endian word at offset `off`. -/
def load (n : Nat) (buf : List (BitVec 8)) (off : Nat) : BitVec (8 * n) :=
  BitVec.ofNat (8 * n) (bytesValue ((List.range n).map fun i => byteOf buf (off + i)))

/-- The buffer after the `n`-byte word `w` is written at offset `off`, least significant byte
first. The length does not change. -/
def store (n : Nat) (buf : List (BitVec 8)) (off : Nat) (w : BitVec (8 * n)) : List (BitVec 8) :=
  buf.mapIdx fun j b => if off ≤ j ∧ j < off + n then byteAt w (j - off) else b

/-- The mask of byte `b` in an `n`-byte word. -/
def byteMask (n b : Nat) : BitVec (8 * n) := 0xff#(8 * n) <<< (b <<< 3)

/-! ### Bytes of a word -/

/-- A bit of a byte is a bit of the word. -/
theorem getLsbD_byteAt {w : Nat} (x : BitVec w) (i j : Nat) :
    (byteAt x i).getLsbD j = (decide (j < 8) && x.getLsbD (8 * i + j)) := by
  unfold byteAt
  rw [BitVec.getLsbD_extractLsb']

/-- Two `n`-byte words with the same bytes are equal. -/
theorem eq_of_byteAt_eq {x y : BitVec (8 * n)} (h : ∀ i < n, byteAt x i = byteAt y i) : x = y := by
  apply BitVec.eq_of_getLsbD_eq
  intro k hk
  have hbyte := congrArg (fun z => BitVec.getLsbD z (k % 8)) (h (k / 8) (by omega))
  have hmod : k % 8 < 8 := Nat.mod_lt _ (by decide)
  have hidx : 8 * (k / 8) + k % 8 = k := by omega
  simpa only [getLsbD_byteAt, hmod, hidx, decide_true, Bool.true_and] using hbyte

/-- The bytes of a bitwise and. -/
@[simp] theorem byteAt_and {w : Nat} (x y : BitVec w) (i : Nat) :
    byteAt (x &&& y) i = byteAt x i &&& byteAt y i := by
  unfold byteAt
  rw [BitVec.extractLsb'_and]

/-- The bytes of a complement, for a byte inside the word. -/
theorem byteAt_not (x : BitVec (8 * n)) (i : Nat) (hi : i < n) :
    byteAt (~~~x) i = ~~~byteAt x i := by
  apply BitVec.eq_of_getLsbD_eq
  intro j hj
  have hin : 8 * i + j < 8 * n := by omega
  simp only [getLsbD_byteAt, BitVec.getLsbD_not, hj, hin, decide_true, Bool.true_and]

/-- The bytes of the zero word. -/
@[simp] theorem byteAt_zero (w i : Nat) : byteAt 0#w i = 0 := by
  apply BitVec.eq_of_getLsbD_eq
  intro j _
  simp [getLsbD_byteAt]

/-- A word is zero exactly when all its bytes are. -/
theorem eq_zero_iff_byteAt (x : BitVec (8 * n)) :
    x = 0#(8 * n) ↔ ∀ i < n, byteAt x i = 0 := by
  constructor
  · intro h i _
    rw [h, byteAt_zero]
  · intro h
    exact eq_of_byteAt_eq fun i hi => by rw [h i hi, byteAt_zero]

/-! ### Byte masks -/

/-- The bytes of a mask: all ones at its own byte, zero elsewhere. -/
theorem byteAt_byteMask (b i : Nat) (hi : i < n) :
    byteAt (byteMask n b) i = if i = b then 0xff#8 else 0 := by
  apply BitVec.eq_of_getLsbD_eq
  intro j hj
  have hin : 8 * i + j < 8 * n := by omega
  have hones : ∀ k : Nat, Nat.testBit 255 k = decide (k < 8) :=
    fun k => Nat.testBit_two_pow_sub_one 8 k
  have hshift : b <<< 3 = 8 * b := by rw [Nat.shiftLeft_eq]; omega
  simp only [getLsbD_byteAt, byteMask, BitVec.getLsbD_shiftLeft, hshift, hj, hin,
    BitVec.getLsbD_ofNat, hones, decide_true, Bool.true_and]
  by_cases hib : i = b
  · subst hib
    have hself : 8 * i + j - 8 * i = j := by omega
    have hge : ¬ 8 * i + j < 8 * i := by omega
    have hjn : j < 8 * n := by omega
    rw [if_pos rfl, hself, BitVec.getLsbD_ofNat, hones]
    simp [hge, hj, hjn]
  · rw [if_neg hib]
    by_cases hlt : 8 * i + j < 8 * b
    · simp [hlt]
    · have hbig : ¬ 8 * i + j - 8 * b < 8 := by omega
      simp [hbig]

/-- The all-ones byte is neutral for the bitwise and. -/
theorem and_ff (b : BitVec 8) : b &&& 0xff#8 = b := BitVec.and_allOnes

/-- Clearing bits that are not set changes nothing. -/
theorem and_not_of_and_eq_zero {x y : BitVec 8} (h : x &&& y = 0#8) : y &&& ~~~x = y := by
  apply BitVec.eq_of_getLsbD_eq
  intro j hj
  have hbit := congrArg (fun z => BitVec.getLsbD z j) h
  simp only [BitVec.getLsbD_and, BitVec.getLsbD_zero, BitVec.getLsbD_not, hj, decide_true,
    Bool.true_and] at hbit ⊢
  revert hbit
  cases x.getLsbD j <;> cases y.getLsbD j <;> decide

/-- Masking keeps one byte: the masked word is nonzero exactly when that byte is. -/
theorem and_byteMask_ne_zero_iff (x : BitVec (8 * n)) (b : Nat) (hb : b < n) :
    x &&& byteMask n b ≠ 0 ↔ byteAt x b ≠ 0 := by
  rw [not_iff_not]
  rw [show (0 : BitVec (8 * n)) = 0#(8 * n) from rfl, eq_zero_iff_byteAt]
  constructor
  · intro h
    have hbyte := h b hb
    rwa [byteAt_and, byteAt_byteMask b b hb, if_pos rfl, and_ff] at hbyte
  · intro h i hi
    rw [byteAt_and, byteAt_byteMask b i hi]
    by_cases hib : i = b
    · subst hib
      rw [h]
      simp
    · simp [hib]

/-- The masked word equals the mask exactly when the byte is all ones. -/
theorem and_byteMask_eq_iff (x : BitVec (8 * n)) (b : Nat) (hb : b < n) :
    x &&& byteMask n b = byteMask n b ↔ byteAt x b = 0xff#8 := by
  constructor
  · intro h
    have hbyte := congrArg (fun z => byteAt z b) h
    simpa only [byteAt_and, byteAt_byteMask b b hb, if_pos, and_ff] using hbyte
  · intro h
    apply eq_of_byteAt_eq
    intro i hi
    rw [byteAt_and, byteAt_byteMask b i hi]
    by_cases hib : i = b
    · subst hib
      rw [h]
      simp
    · simp [hib]

/-! ### Loads and stores -/

/-- A bit of the number spelled by a list of bytes is a bit of one byte. -/
theorem testBit_bytesValue (bs : List (BitVec 8)) (k : Nat) :
    (bytesValue bs).testBit k = (byteOf bs (k / 8)).getLsbD (k % 8) := by
  induction bs generalizing k with
  | nil => simp [bytesValue, byteOf]
  | cons b bs ih =>
    rw [bytesValue, Nat.testBit_two_pow_mul_add _ b.isLt]
    by_cases hk : k < 8
    · have hdiv : k / 8 = 0 := by omega
      have hmod : k % 8 = k := by omega
      simp [hk, hdiv, hmod, BitVec.getLsbD, byteOf]
    · have hdiv : k / 8 = (k - 8) / 8 + 1 := by omega
      have hmod : k % 8 = (k - 8) % 8 := by omega
      rw [if_neg hk, ih, hdiv, hmod]
      simp [byteOf]

/-- Byte `i` of a loaded word is the buffer's byte at `off + i`. -/
theorem byteAt_load (buf : List (BitVec 8)) (off i : Nat) (hi : i < n) :
    byteAt (load n buf off) i = byteOf buf (off + i) := by
  apply BitVec.eq_of_getLsbD_eq
  intro j hj
  have hin : 8 * i + j < 8 * n := by omega
  have hdiv : (8 * i + j) / 8 = i := by omega
  have hmod : (8 * i + j) % 8 = j := by omega
  have hget : byteOf ((List.range n).map fun i => byteOf buf (off + i)) i
      = byteOf buf (off + i) := by
    simp [byteOf, hi]
  rw [getLsbD_byteAt, load, BitVec.getLsbD_ofNat, testBit_bytesValue, hdiv, hmod, hget]
  simp [hj, hin]

@[simp] theorem length_store (n : Nat) (buf : List (BitVec 8)) (off : Nat)
    (w : BitVec (8 * n)) : (store n buf off w).length = buf.length := by
  simp [store]

/-- A byte past the end reads as zero. -/
theorem byteOf_of_length_le {buf : List (BitVec 8)} {j : Nat} (h : buf.length ≤ j) :
    byteOf buf j = 0 := by
  unfold byteOf
  exact List.getD_eq_default _ _ h

/-- The bytes of the buffer after a store. -/
theorem byteOf_store (n : Nat) (buf : List (BitVec 8)) (off : Nat) (w : BitVec (8 * n))
    (j : Nat) (hj : j < buf.length) :
    byteOf (store n buf off w) j
      = if off ≤ j ∧ j < off + n then byteAt w (j - off) else byteOf buf j := by
  simp [store, byteOf, List.getElem?_eq_getElem hj]

/-- A store leaves every byte outside its window alone. -/
theorem byteOf_store_of_not_mem (n : Nat) (buf : List (BitVec 8)) (off : Nat)
    (w : BitVec (8 * n)) (j : Nat) (hj : ¬ (off ≤ j ∧ j < off + n)) :
    byteOf (store n buf off w) j = byteOf buf j := by
  by_cases hlt : j < buf.length
  · rw [byteOf_store n buf off w j hlt, if_neg hj]
  · rw [byteOf_of_length_le (by rw [length_store]; omega), byteOf_of_length_le (by omega)]

/-- Two buffers of one length with the same bytes are equal. -/
theorem eq_of_byteOf_eq {xs ys : List (BitVec 8)} (hlen : xs.length = ys.length)
    (h : ∀ j < xs.length, byteOf xs j = byteOf ys j) : xs = ys := by
  apply List.ext_getElem hlen
  intro j hx hy
  have hj := h j hx
  simpa [byteOf, List.getElem?_eq_getElem hx, List.getElem?_eq_getElem hy] using hj

/-- Writing one byte of a buffer. -/
theorem byteOf_set (buf : List (BitVec 8)) (j : Nat) (v : BitVec 8) (b : Nat)
    (hj : j < buf.length) :
    byteOf (buf.set j v) b = if b = j then v else byteOf buf b := by
  show (buf.set j v).getD b 0 = _
  by_cases hb : b = j
  · subst hb
    simp [hj]
  · rw [if_neg hb]
    simp [byteOf, List.getElem?_set_ne (Ne.symm hb)]

/-- The second of two stores to one place wins. -/
@[simp] theorem store_store (n : Nat) (buf : List (BitVec 8)) (off : Nat) (v w : BitVec (8 * n)) :
    store n (store n buf off v) off w = store n buf off w := by
  refine eq_of_byteOf_eq (by simp) fun j hj => ?_
  rw [length_store, length_store] at hj
  rw [byteOf_store n _ off w j (by rwa [length_store]), byteOf_store n buf off w j hj]
  by_cases hwin : off ≤ j ∧ j < off + n
  · rw [if_pos hwin, if_pos hwin]
  · rw [if_neg hwin, if_neg hwin, byteOf_store_of_not_mem n buf off v j hwin]

/-- Writing back what was read changes nothing. -/
@[simp] theorem store_load (n : Nat) (buf : List (BitVec 8)) (off : Nat) :
    store n buf off (load n buf off) = buf := by
  refine eq_of_byteOf_eq (by simp) fun j hj => ?_
  rw [length_store] at hj
  rw [byteOf_store n buf off _ j hj]
  by_cases hwin : off ≤ j ∧ j < off + n
  · rw [if_pos hwin, byteAt_load buf off (j - off) (by omega)]
    congr 1
    omega
  · rw [if_neg hwin]

/-! ### All bytes of a word at once -/

theorem bytesValue_lt (bs : List (BitVec 8)) : bytesValue bs < 2 ^ (8 * bs.length) := by
  induction bs with
  | nil => exact Nat.one_pos
  | cons b bs ih =>
    have hb := b.isLt
    have hpow : 2 ^ (8 * (bs.length + 1)) = 2 ^ 8 * 2 ^ (8 * bs.length) := by
      rw [Nat.mul_succ, Nat.pow_add, Nat.mul_comm]
    rw [bytesValue, List.length_cons, hpow]
    omega

/-- A loaded word as a number. -/
theorem toNat_load (n : Nat) (buf : List (BitVec 8)) (off : Nat) :
    (load n buf off).toNat = bytesValue ((List.range n).map fun i => byteOf buf (off + i)) := by
  have hlt := bytesValue_lt ((List.range n).map fun i => byteOf buf (off + i))
  rw [List.length_map, List.length_range] at hlt
  rw [load, BitVec.toNat_ofNat, Nat.mod_eq_of_lt hlt]

/-- A byte of a buffer that is mapped, also past the end. -/
theorem byteOf_map {f : BitVec 8 → BitVec 8} (hf : f 0 = 0) (bs : List (BitVec 8)) (j : Nat) :
    byteOf (bs.map f) j = f (byteOf bs j) := by
  unfold byteOf
  rw [List.getD_eq_getElem?_getD, List.getD_eq_getElem?_getD, List.getElem?_map]
  cases bs[j]? with
  | none => exact hf.symm
  | some b => rfl

/-- A shift followed by a mask that has the same byte everywhere, and no bit that the shift has
brought in from the next byte. -/
theorem shiftRight_and_bytesValue (bs : List (BitVec 8)) (c : BitVec 8) (s : Nat)
    (hc : ∀ j < 8, c.getLsbD j = true → j + s < 8) :
    (bytesValue bs >>> s) &&& bytesValue (List.replicate bs.length c)
      = bytesValue (bs.map fun b : BitVec 8 => (b >>> s) &&& c) := by
  apply Nat.eq_of_testBit_eq
  intro k
  have hmod : k % 8 < 8 := Nat.mod_lt _ (by decide)
  have hzero : ((0 : BitVec 8) >>> s) &&& c = 0 := by simp
  rw [Nat.testBit_and, Nat.testBit_shiftRight, testBit_bytesValue, testBit_bytesValue,
    testBit_bytesValue, byteOf_map hzero, BitVec.getLsbD_and, BitVec.getLsbD_ushiftRight]
  by_cases hk : k / 8 < bs.length
  · have hmask : byteOf (List.replicate bs.length c) (k / 8) = c := by
      simp [byteOf, hk]
    rw [hmask]
    cases hbit : c.getLsbD (k % 8) with
    | false => rw [Bool.and_false, Bool.and_false]
    | true =>
      have hroom := hc (k % 8) hmod hbit
      have hdiv : (s + k) / 8 = k / 8 := by omega
      have hrem : (s + k) % 8 = s + k % 8 := by omega
      rw [hdiv, hrem]
  · have hpast : byteOf bs (k / 8) = 0 := byteOf_of_length_le (by omega)
    have hmask : byteOf (List.replicate bs.length c) (k / 8) = 0 :=
      byteOf_of_length_le (by rw [List.length_replicate]; omega)
    rw [hpast, hmask]
    simp

/-- A difference without a borrow between the bytes. -/
theorem bytesValue_map_sub {f g : BitVec 8 → BitVec 8} (h : ∀ b, g b ≤ f b)
    (bs : List (BitVec 8)) :
    bytesValue (bs.map f) - bytesValue (bs.map g) = bytesValue (bs.map fun b => f b - g b) ∧
      bytesValue (bs.map g) ≤ bytesValue (bs.map f) := by
  induction bs with
  | nil => exact ⟨rfl, Nat.le_refl 0⟩
  | cons b bs ih =>
    have hle : (g b).toNat ≤ (f b).toNat := h b
    have hsub : (f b - g b).toNat = (f b).toNat - (g b).toNat := BitVec.toNat_sub_of_le (h b)
    simp only [List.map_cons, bytesValue, hsub]
    omega

/-- A sum without a carry between the bytes. -/
theorem bytesValue_map_add {f g : BitVec 8 → BitVec 8}
    (h : ∀ b, (f b).toNat + (g b).toNat < 2 ^ 8) (bs : List (BitVec 8)) :
    bytesValue (bs.map f) + bytesValue (bs.map g) = bytesValue (bs.map fun b => f b + g b) := by
  induction bs with
  | nil => rfl
  | cons b bs ih =>
    have hadd : (f b + g b).toNat = (f b).toNat + (g b).toNat := by
      rw [BitVec.toNat_add, Nat.mod_eq_of_lt (h b)]
    simp only [List.map_cons, bytesValue, hadd]
    omega

end TriforceAFL.Lib
