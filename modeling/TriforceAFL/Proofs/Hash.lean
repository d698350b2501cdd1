import TriforceAFL.Spec.Hash

/-!
# `TriforceAFL.Proofs.Hash`: a change of one word changes the hash

Every step of `hash32` is injective: its factors are odd, so each has an inverse modulo a power of
two (`HashVariant.Invertible`). The loop is therefore a lossless one, and the final mixing steps
keep the difference (`HashVariant.Invertible.mix_ne`). The 64-bit variant loses half of its state
only when it returns (`hash32_detects_word`).
-/

set_option autoImplicit false

namespace TriforceAFL.Proofs

open Function Lib Spec

/-- The factors have inverses, and the rotations and shifts are proper ones. -/
structure HashVariant.Invertible {n : Nat} (v : HashVariant n) : Prop where
  mul1 : ∃ d, v.mul1 * d = 1
  rot1 : v.rot1 ≤ 8 * n
  mul2 : ∃ d, v.mul2 * d = 1
  rot2 : v.rot2 ≤ 8 * n
  five : ∃ d : BitVec (8 * n), 5 * d = 1
  shift1 : 0 < v.shift1
  final1 : ∃ d, v.final1 * d = 1
  shift2 : 0 < v.shift2
  final2 : ∃ d, v.final2 * d = 1
  shift3 : 0 < v.shift3

section Variant
variable {n : Nat} {v : HashVariant n}

theorem HashVariant.Invertible.scramble (h : HashVariant.Invertible v) :
    Injective v.scramble := by
  obtain ⟨d₁, hd₁⟩ := h.mul1
  obtain ⟨d₂, hd₂⟩ := h.mul2
  exact (injective_mul hd₂).comp ((injective_rol h.rot1).comp (injective_mul hd₁))

/-- The state and the word meet in an exclusive or, and both come out of it. -/
theorem HashVariant.Invertible.absorb (h : HashVariant.Invertible v) : Lossless v.absorb := by
  obtain ⟨d, hd⟩ := h.five
  have hafter : Injective fun x => rol x v.rot2 * 5 + v.add := by
    intro x y hxy
    exact injective_rol h.rot2 (injective_mul hd (BitVec.add_left_inj v.add |>.mp hxy))
  constructor
  · intro k h₁ h₂ heq
    exact (BitVec.xor_left_inj _).mp (hafter heq)
  · intro h₁ k₁ k₂ heq
    exact h.scramble ((BitVec.xor_right_inj _).mp (hafter heq))

theorem HashVariant.Invertible.finish (h : HashVariant.Invertible v) : Injective v.finish := by
  obtain ⟨d₁, hd₁⟩ := h.final1
  obtain ⟨d₂, hd₂⟩ := h.final2
  exact (injective_xorShift h.shift3).comp ((injective_mul hd₂).comp
    ((injective_xorShift h.shift2).comp ((injective_mul hd₁).comp (injective_xorShift h.shift1))))

/-- The two buffers differ in word `i` of `count`, and in no other one. -/
structure OneWordDiffers (n : Nat) (a b : List U8) (count i : Nat) : Prop where
  inside : i < count
  differs : load n a (n * i) ≠ load n b (n * i)
  same : ∀ j < count, j ≠ i → load n a (n * j) = load n b (n * j)

theorem HashVariant.Invertible.mix_ne (h : HashVariant.Invertible v) {a b : List U8}
    {count i : Nat} (hab : OneWordDiffers n a b count i) (h₁ : BitVec (8 * n)) :
    v.mix a count h₁ ≠ v.mix b count h₁ := by
  intro heq
  exact h.absorb.foldl_ne hab.inside hab.differs hab.same h₁ (h.finish heq)

end Variant

/-- The inverses of the constants. -/
theorem invertible_wideHash : HashVariant.Invertible wideHash where
  mul1 := ⟨0xa98409e882ce4d7d#64, by decide⟩
  rot1 := by decide
  mul2 := ⟨0xa81e14edd9de2c7f#64, by decide⟩
  rot2 := by decide
  five := ⟨0xcccccccccccccccd#64, by decide⟩
  shift1 := by decide
  final1 := ⟨0x4f74430c22a54005#64, by decide⟩
  shift2 := by decide
  final2 := ⟨0x9cb4b2f8129337db#64, by decide⟩
  shift3 := by decide

@[inherit_doc invertible_wideHash]
theorem invertible_narrowHash : HashVariant.Invertible narrowHash where
  mul1 := ⟨0xdee13bb1#32, by decide⟩
  rot1 := by decide
  mul2 := ⟨0x56ed309b#32, by decide⟩
  rot2 := by decide
  five := ⟨0xcccccccd#32, by decide⟩
  shift1 := by decide
  final1 := ⟨0xa5cb9243#32, by decide⟩
  shift2 := by decide
  final2 := ⟨0x7ed1b41d#32, by decide⟩
  shift3 := by decide

/-- A buffer of `len` bytes has `len / 8` words of 64 bits, and `len / 4` words of 32 bits. -/
theorem toNat_shiftRight_len (len : U32) (k : Nat) : (len >>> k).toNat = len.toNat / 2 ^ k := by
  rw [BitVec.toNat_ushiftRight, Nat.shiftRight_eq_div_pow]

/-- Two buffers of `len` bytes that differ in exactly one word: the 64-bit variant leaves its loop
and its final mixing steps with different states, and the 32-bit variant returns different hashes.
The length need not be divisible by 8; the bytes behind the last whole word are not read. -/
theorem hash32_detects_word (seed len : U32) (a b : List U8) (i : Nat) :
    (OneWordDiffers 8 a b (len.toNat / 8) i →
      hashState64 a len seed ≠ hashState64 b len seed) ∧
    (OneWordDiffers 4 a b (len.toNat / 4) i →
      hash32Narrow a len seed ≠ hash32Narrow b len seed) := by
  constructor
  · intro hab
    exact invertible_wideHash.mix_ne (toNat_shiftRight_len len 3 ▸ hab) _
  · intro hab
    exact invertible_narrowHash.mix_ne (toNat_shiftRight_len len 2 ▸ hab) _

/-- One bit of eight bytes, which is in the first word of either size. -/
theorem hash32_detects_word_bit :
    hashState64 [1, 0, 0, 0, 0, 0, 0, 0] 8 0 ≠ hashState64 [0, 0, 0, 0, 0, 0, 0, 0] 8 0 ∧
      hash32Narrow [1, 0, 0, 0, 0, 0, 0, 0] 8 0 ≠ hash32Narrow [0, 0, 0, 0, 0, 0, 0, 0] 8 0 :=
  ⟨(hash32_detects_word 0 8 _ _ 0).1 ⟨by decide, by decide, by decide⟩,
    (hash32_detects_word 0 8 _ _ 0).2 ⟨by decide, by decide, by decide⟩⟩

/-- So in a 32-bit build, traces that differ in one word have different checksums. -/
theorem buildEnv_cksum_ne {mapSize : Nat} {t t' : TraceMap mapSize} {i : Nat}
    (hsize : mapSize < 2 ^ 32) (h : OneWordDiffers 4 t.bytes t'.bytes (mapSize / 4) i) :
    (buildEnv false mapSize).hash32 t ≠ (buildEnv false mapSize).hash32 t' := by
  have hlen : (BitVec.ofNat 32 mapSize >>> 2).toNat = mapSize / 4 := by
    rw [toNat_shiftRight_len, BitVec.toNat_ofNat, Nat.mod_eq_of_lt hsize]
    rfl
  show narrowHash.mix t.bytes _ _ ≠ narrowHash.mix t'.bytes _ _
  rw [hlen]
  exact invertible_narrowHash.mix_ne h _

end TriforceAFL.Proofs
