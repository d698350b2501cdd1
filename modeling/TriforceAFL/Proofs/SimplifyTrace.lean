import TriforceAFL.Proofs.HasNewBits

/-!
# `TriforceAFL.Proofs.SimplifyTrace`: what `simplify_trace` leaves in a map

`simplifyTrace_byte`: both flavours map a zero byte to `0x01` and every other byte to `0x80`. The
words with a hit go through the lookup table byte by byte; the words without one are overwritten
in one store, which is the same thing because all their bytes are zero.
-/

set_option autoImplicit false

namespace TriforceAFL.Proofs

open Lib Spec

/-- The byte that stands for a tuple after `simplify_trace`. -/
def simplifyByte (v : U8) : U8 := if v = 0#8 then 1#8 else 128#8

theorem simplifyByte_zero : simplifyByte 0#8 = 1#8 := rfl

theorem simplifyByte_of_ne {v : U8} (h : v ≠ 0#8) : simplifyByte v = 128#8 := if_neg h

/-- The lookup table holds 1 at index 0 and 128 everywhere else. -/
theorem byteOf_simplifyLookup (v : U8) : byteOf simplifyLookup v.toNat = simplifyByte v := by
  have htable : simplifyLookup = 1#8 :: List.replicate 255 128#8 := by
    show 1#8 :: List.replicate 3 (128 : U8) ++ _ ++ _ ++ _ ++ _ ++ _ ++ _ = _
    simp only [List.cons_append, List.replicate_append_replicate]
    rfl
  rw [htable]
  cases hv : v.toNat with
  | zero =>
    have hzero : v = 0#8 := BitVec.eq_of_toNat_eq hv
    rw [hzero]
    rfl
  | succ k =>
    have hlt : k < 255 := by
      have := v.isLt
      omega
    have hne : v ≠ 0#8 := by
      intro h
      rw [h] at hv
      exact absurd hv (by simp)
    rw [simplifyByte_of_ne hne]
    show (List.replicate 255 128#8).getD k 0 = 128#8
    rw [List.getD_eq_getElem?_getD, List.getElem?_replicate, if_pos hlt]
    rfl

/-- What is established after the first `k` bytes: they are mapped by `f`, the rest is untouched. -/
structure MapInv (f : U8 → U8) (mem : List U8) (k : Nat) (m : List U8) : Prop where
  length : m.length = mem.length
  done : ∀ b < k, byteOf m b = f (byteOf mem b)
  rest : ∀ b, k ≤ b → byteOf m b = byteOf mem b

section Step
variable {n i : Nat} {ones : BitVec (8 * n)} {mem m : List U8}

/-- The byte-by-byte branch of a turn, through a lookup table. -/
theorem lookupBytes_inv {f : U8 → U8} {table : List U8} (htable : ∀ v, byteOf table v.toNat = f v)
    (hlen : n * i + n ≤ mem.length) (h : MapInv f mem (n * i) m) :
    MapInv f mem (n * i + n) ((List.range n).foldl
      (fun mem j => mem.set (n * i + j) (byteOf table (byteOf mem (n * i + j)).toNat)) m) := by
  refine foldl_range_induct (P := fun j s => MapInv f mem (n * i + j) s) h ?_
  intro j hj s hs
  have hin : n * i + j < s.length := by
    rw [hs.length]
    omega
  refine ⟨?_, ?_, ?_⟩
  · rw [List.length_set, hs.length]
  · intro b hb
    rw [byteOf_set _ _ _ _ hin, htable, hs.rest _ (le_refl _)]
    split
    · rename_i heq
      rw [heq]
    · exact hs.done b (by omega)
  · intro b hb
    rw [byteOf_set _ _ _ _ hin, if_neg (by omega)]
    exact hs.rest b (by omega)

/-- A word that is zero has only zero bytes. -/
theorem MapInv.zero_of_word {f : U8 → U8} (h : MapInv f mem (n * i) m)
    (hword : ¬ load n m (n * i) ≠ 0) {b : Nat} (hb : n * i ≤ b) (hb' : b < n * i + n) :
    byteOf mem b = 0#8 := by
  have hbyte := (eq_zero_iff_byteAt _).mp (not_not.mp hword) (b - n * i) (by omega)
  rw [byteAt_load m _ _ (by omega), show n * i + (b - n * i) = b by omega, h.rest b hb] at hbyte
  exact hbyte

/-- A turn of the loop simplifies the `n` bytes of its word. -/
theorem simplifyStep_inv (hones : ∀ j < n, byteAt ones j = 1#8)
    (hlen : n * i + n ≤ mem.length) (h : MapInv simplifyByte mem (n * i) m) :
    MapInv simplifyByte mem (n * (i + 1)) (simplifyStep n ones m i) := by
  rw [Nat.mul_succ]
  show MapInv simplifyByte mem (n * i + n) (if load n m (n * i) ≠ 0 then _ else _)
  split
  · exact lookupBytes_inv byteOf_simplifyLookup hlen h
  · -- The whole word is zero, so every byte of it becomes `0x01`.
    rename_i hword
    refine ⟨?_, ?_, ?_⟩
    · rw [length_store, h.length]
    · intro b hb
      rw [byteOf_store n m _ _ b (by rw [h.length]; omega)]
      split
      · rename_i hin
        rw [hones _ (by omega), h.zero_of_word hword hin.1 hin.2, simplifyByte_zero]
      · exact h.done b (by omega)
    · intro b hb
      rw [byteOf_store_of_not_mem n m _ _ b (by omega)]
      exact h.rest b (by omega)

end Step

/-- A loop over the words of a map, for a word size that divides the map size: if a turn maps the
bytes of its word, then the loop maps all bytes. -/
theorem wordLoop_inv {f : U8 → U8} {step : List U8 → Nat → List U8} {n k : Nat} {mem : List U8}
    (hlen : mem.length = n * k) (hn : 0 < n)
    (hstep : ∀ i m, n * i + n ≤ mem.length → MapInv f mem (n * i) m →
      MapInv f mem (n * (i + 1)) (step m i)) :
    MapInv f mem (n * k) ((List.range (n * k / n)).foldl step mem) := by
  rw [Nat.mul_div_cancel_left k hn]
  refine foldl_range_induct (P := fun i m => MapInv f mem (n * i) m) ?_ ?_
  · exact ⟨rfl, fun b hb => absurd hb (by omega), fun b _ => rfl⟩
  · intro i hi m h
    have hle : n * (i + 1) ≤ n * k := Nat.mul_le_mul_left n hi
    rw [Nat.mul_succ] at hle
    exact hstep i m (by omega) h

/-- The loop of `simplify_trace`. -/
theorem simplifyLoop_inv (n k : Nat) (ones : BitVec (8 * n)) (mem : List U8)
    (hlen : mem.length = n * k) (hn : 0 < n) (hones : ∀ j < n, byteAt ones j = 1#8) :
    MapInv simplifyByte mem (n * k) (simplifyLoop n ones (n * k) mem) :=
  wordLoop_inv hlen hn fun _ _ hin h => simplifyStep_inv hones hin h

/-- `simplify_trace`, byte by byte: a zero byte becomes `0x01`, any other byte `0x80`. -/
theorem simplifyTrace_byte (x86_64 : Bool) {k : Nat} (mem : TraceMap (8 * k)) (b : Nat)
    (hb : b < 8 * k) : (simplifyTrace x86_64 mem).byte b = simplifyByte (mem.byte b) := by
  cases x86_64 with
  | true =>
    exact (simplifyLoop_inv 8 k 0x0101010101010101#64 mem.bytes mem.length_eq (by decide)
      (by decide)).done b hb
  | false =>
    have h48 : 8 * k = 4 * (2 * k) := by omega
    have h := (simplifyLoop_inv 4 (2 * k) 0x01010101#32 mem.bytes (mem.length_eq.trans h48)
      (by decide) (by decide)).done b (h48 ▸ hb)
    rw [← h48] at h
    exact h

end TriforceAFL.Proofs
