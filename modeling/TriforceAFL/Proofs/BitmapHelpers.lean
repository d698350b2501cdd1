import TriforceAFL.Proofs.SimplifyTrace

/-!
# `TriforceAFL.Proofs.BitmapHelpers`: the word-wise helpers, byte by byte

`count_bits`, `count_bytes`, `count_non_255_bytes`, `simplify_trace` and `classify_counts` walk the
map in words and have shortcuts for the words that occur most. Each of them does what it would do
byte by byte (`bitmap_helpers_bytewise`).

The counting loops add up a number for each word. `byteSum f` is the sum that they are to compute,
and it grows by the four bytes of a word (`byteSum_word`). The parallel bit count of a word is
proved lane by lane: no step carries or borrows from one byte to the next (`toNat_bitsOfWord`).
-/

set_option autoImplicit false

namespace TriforceAFL.Proofs

open Lib Spec

/-! ### Sums over the bytes of a map -/

/-- The number of bits that are set in a byte. -/
def bitCount (v : U8) : Nat := (List.range 8).countP fun i => v.getLsbD i

section Sums
variable {mapSize : Nat} (f : U8 → Nat) (m : TraceMap mapSize)

/-- The sum of `f` over the first `n` bytes of a map. -/
def byteSum (n : Nat) : Nat := ((List.range n).map fun b => f (m.byte b)).sum

/-- The part of the word with index `i`. -/
def wordSum (i : Nat) : Nat := ((List.range 4).map fun j => f (m.byte (4 * i + j))).sum

theorem byteSum_word (i : Nat) :
    byteSum f m (4 * (i + 1)) = byteSum f m (4 * i) + wordSum f m i := by
  unfold byteSum wordSum
  rw [Nat.mul_succ, List.range_add, List.map_append, List.sum_append, List.map_map]
  rfl

/-- A sum of zeros and ones is a count. -/
theorem byteSum_indicator (p : U8 → Bool) (n : Nat) :
    byteSum (fun v => (p v).toNat) m n = (List.range n).countP fun b => p (m.byte b) := by
  unfold byteSum
  induction n with
  | zero => rfl
  | succ n ih =>
    rw [List.range_succ, List.map_append, List.sum_append, ih, List.countP_append]
    cases hp : p (m.byte n) with
    | false => simp [hp]
    | true => simp [hp]

end Sums

/-! ### The counting loops -/

section Counts
variable {k : Nat} (m : TraceMap (8 * k))

/-- The map in words of four bytes. -/
theorem words_eq : 8 * k / 4 = 2 * k := by omega

/-- A loop that adds up the words. -/
theorem countLoop_eq {f : U8 → Nat} {step : Nat → Nat → Nat}
    (hstep : ∀ ret i, step ret i = ret + wordSum f m i) :
    (List.range (8 * k / 4)).foldl step 0 = byteSum f m (8 * k) := by
  have hloop : (List.range (2 * k)).foldl step 0 = byteSum f m (4 * (2 * k)) := by
    refine foldl_range_induct (P := fun i ret => ret = byteSum f m (4 * i)) rfl ?_
    intro i _ ret hret
    rw [hstep, hret, byteSum_word]
  rw [words_eq, hloop]
  congr 1
  omega

/-- The bytes of a word that a mask finds. -/
theorem foldl_masks {p : U8 → Bool} {q : Nat → Prop} [DecidablePred q] (i ret : Nat)
    (hq : ∀ b < 4, q b ↔ p (m.byte (4 * i + b)) = true) :
    (List.range 4).foldl (fun ret b => if q b then ret + 1 else ret) ret
      = ret + wordSum (fun v => (p v).toNat) m i := by
  have hmask : ∀ b < 4, ∀ ret : Nat,
      (if q b then ret + 1 else ret) = ret + (p (m.byte (4 * i + b))).toNat := by
    intro b hb ret
    by_cases hp : p (m.byte (4 * i + b)) = true
    · rw [if_pos ((hq b hb).mpr hp), hp]
      rfl
    · rw [if_neg fun h => hp ((hq b hb).mp h), (Bool.not_eq_true _).mp hp]
      rfl
  have hloop : (List.range 4).foldl (fun ret b => if q b then ret + 1 else ret) ret
      = (List.range 4).foldl (fun ret b => ret + (p (m.byte (4 * i + b))).toNat) ret := by
    apply List.foldl_ext
    intro ret b hb
    exact hmask b (List.mem_range.mp hb) ret
  rw [hloop]
  show ret + _ + _ + _ + _ = ret + (_ + (_ + (_ + (_ + 0))))
  dsimp only
  omega

/-- `count_bytes`. -/
theorem countBytes_eq :
    countBytes m = (List.range (8 * k)).countP fun b => m.byte b != 0 := by
  rw [← byteSum_indicator m (· != 0)]
  apply countLoop_eq
  intro ret i
  have hbyte : ∀ b < 4, byteAt (load 4 m.bytes (4 * i)) b = m.byte (4 * i + b) :=
    fun b hb => byteAt_load m.bytes (4 * i) b hb
  have hmasks := foldl_masks m (p := (· != 0)) i ret
    (q := fun b => load 4 m.bytes (4 * i) &&& byteMask 4 b ≠ 0) fun b hb => by
      rw [and_byteMask_ne_zero_iff _ b hb, hbyte b hb, bne_iff_ne]
  dsimp only
  split
  · -- A word without a hit is left out, and its masks find nothing.
    rename_i hzero
    rw [← hmasks, hzero]
    rfl
  · exact hmasks

/-- `count_non_255_bytes`. -/
theorem countNon255Bytes_eq :
    countNon255Bytes m = (List.range (8 * k)).countP fun b => m.byte b != 0xff := by
  rw [← byteSum_indicator m (· != 0xff)]
  apply countLoop_eq
  intro ret i
  have hbyte : ∀ b < 4, byteAt (load 4 m.bytes (4 * i)) b = m.byte (4 * i + b) :=
    fun b hb => byteAt_load m.bytes (4 * i) b hb
  have hmasks := foldl_masks m (p := (· != 0xff)) i ret
    (q := fun b => load 4 m.bytes (4 * i) &&& byteMask 4 b ≠ byteMask 4 b) fun b hb => by
      rw [ne_eq, and_byteMask_eq_iff _ b hb, hbyte b hb, bne_iff_ne]
      rfl
  dsimp only
  split
  · rename_i hones
    rw [← hmasks, hones]
    rfl
  · exact hmasks

end Counts

/-! ### The parallel bit count -/

/-- The counts of the four two-bit fields of a byte. -/
def pairCounts (b : U8) : U8 := b - ((b >>> 1) &&& 0x55#8)

/-- The counts of the two halves of a byte. -/
def halfCounts (b : U8) : U8 := (pairCounts b &&& 0x33#8) + ((pairCounts b >>> 2) &&& 0x33#8)

/-- The two counts of a byte add up to its bit count, and neither exceeds four. -/
theorem halfCounts_spec : ∀ b : U8,
    (halfCounts b).toNat / 16 + (halfCounts b).toNat % 16 = bitCount b ∧
      (halfCounts b).toNat / 16 ≤ 4 ∧ (halfCounts b).toNat % 16 ≤ 4 := by
  decide +kernel

/-- The first two steps work on each byte of the word by itself. -/
theorem halfCounts_word (v : U32) {bs : List U8} (hlen : bs.length = 4)
    (hv : v.toNat = bytesValue bs) :
    let v := v - ((v >>> 1) &&& 0x55555555#32)
    ((v &&& 0x33333333#32) + ((v >>> 2) &&& 0x33333333#32)).toNat
      = bytesValue (bs.map halfCounts) := by
  have h55 : (0x55555555#32).toNat = bytesValue (List.replicate bs.length 0x55#8) := by
    rw [hlen]
    rfl
  have h33 : ∀ cs : List U8, cs.length = 4 →
      (0x33333333#32).toNat = bytesValue (List.replicate cs.length 0x33#8) := by
    intro cs hcs
    rw [hcs]
    rfl
  have hpairs : (v - ((v >>> 1) &&& 0x55555555#32)).toNat = bytesValue (bs.map pairCounts) := by
    have hshift : ((v >>> 1) &&& 0x55555555#32).toNat
        = bytesValue (bs.map fun b : U8 => (b >>> 1) &&& 0x55#8) := by
      rw [BitVec.toNat_and, BitVec.toNat_ushiftRight, hv, h55]
      exact shiftRight_and_bytesValue bs 0x55#8 1 (by decide)
    obtain ⟨hsub, hle⟩ := bytesValue_map_sub (f := id) (g := fun b : U8 => (b >>> 1) &&& 0x55#8)
      (by decide) bs
    rw [List.map_id] at hsub hle
    rw [BitVec.toNat_sub_of_le, hv, hshift, hsub]
    · rfl
    · show _ ≤ v.toNat
      rw [hshift, hv]
      exact hle
  intro v'
  have hlen' : (bs.map pairCounts).length = 4 := by rw [List.length_map, hlen]
  have hlow : (v' &&& 0x33333333#32).toNat
      = bytesValue ((bs.map pairCounts).map fun b : U8 => (b >>> 0) &&& 0x33#8) := by
    rw [BitVec.toNat_and, hpairs, h33 _ hlen', ← shiftRight_and_bytesValue _ 0x33#8 0 (by decide),
      Nat.shiftRight_zero]
  have hhigh : ((v' >>> 2) &&& 0x33333333#32).toNat
      = bytesValue ((bs.map pairCounts).map fun b : U8 => (b >>> 2) &&& 0x33#8) := by
    rw [BitVec.toNat_and, BitVec.toNat_ushiftRight, hpairs, h33 _ hlen',
      ← shiftRight_and_bytesValue _ 0x33#8 2 (by decide)]
  have hadd := bytesValue_map_add (f := fun b : U8 => (b >>> 0) &&& 0x33#8)
    (g := fun b : U8 => (b >>> 2) &&& 0x33#8) (by decide) (bs.map pairCounts)
  have hmap : ((bs.map pairCounts).map fun b : U8 =>
      ((b >>> 0) &&& 0x33#8) + ((b >>> 2) &&& 0x33#8))
      = bs.map halfCounts := by
    rw [List.map_map]
    rfl
  have hlt := bytesValue_lt (bs.map halfCounts)
  rw [List.length_map, hlen] at hlt
  rw [BitVec.toNat_add, hlow, hhigh, hadd, hmap]
  exact Nat.mod_eq_of_lt hlt

/-- The multiplication by `0x01010101` adds the four bytes of a word up in its highest byte. -/
theorem mul_ones_div {a b c d : Nat} (ha : a ≤ 8) (hb : b ≤ 8) (hc : c ≤ 8) (hd : d ≤ 8) :
    (2 ^ 8 * (2 ^ 8 * (2 ^ 8 * (2 ^ 8 * 0 + d) + c) + b) + a) * (0x01010101#32).toNat % 2 ^ 32
      / 2 ^ 24 = a + b + c + d := by
  have hones : (0x01010101#32).toNat = 2 ^ 24 + 2 ^ 16 + 2 ^ 8 + 1 := rfl
  -- What is added above the highest byte is lost in the word.
  have hproduct : (2 ^ 8 * (2 ^ 8 * (2 ^ 8 * (2 ^ 8 * 0 + d) + c) + b) + a)
      * (2 ^ 24 + 2 ^ 16 + 2 ^ 8 + 1)
      = (2 ^ 24 * (a + b + c + d) + 2 ^ 16 * (a + b + c) + 2 ^ 8 * (a + b) + a)
        + 2 ^ 32 * ((b + c + d) + 2 ^ 8 * (c + d) + 2 ^ 16 * d) := by
    omega
  rw [hones, hproduct, Nat.add_mul_mod_self_left, Nat.mod_eq_of_lt (by omega)]
  omega

/-- The last two steps: the halves of each byte are added, and the multiplication sums the bytes up
in the highest one. -/
theorem sum_of_halves (v : U32) {d₀ d₁ d₂ d₃ : U8} (hv : v.toNat = bytesValue [d₀, d₁, d₂, d₃])
    (hd : ∀ d ∈ [d₀, d₁, d₂, d₃], d.toNat / 16 ≤ 4 ∧ d.toNat % 16 ≤ 4) :
    ((((v + (v >>> 4)) &&& 0xF0F0F0F#32) * 0x01010101#32) >>> 24).toNat
      = (d₀.toNat / 16 + d₀.toNat % 16) + (d₁.toNat / 16 + d₁.toNat % 16) +
        (d₂.toNat / 16 + d₂.toNat % 16) + (d₃.toNat / 16 + d₃.toNat % 16) := by
  obtain ⟨h₀, h₁, h₂, h₃⟩ := by simpa only [List.forall_mem_cons, List.not_mem_nil,
    false_implies, implies_true, and_true] using hd
  have hbytes : v.toNat = 256 * (256 * (256 * d₃.toNat + d₂.toNat) + d₁.toNat) + d₀.toNat := by
    rw [hv]
    simp only [bytesValue]
    omega
  -- A byte of the sum: its halves in the lower part, and a mixture with the next byte above.
  let sum (d next : Nat) : U8 := BitVec.ofNat 8 (d / 16 + d % 16 + 16 * (d / 16 + next % 16))
  have hsum : ∀ d next : Nat, d / 16 ≤ 4 → d % 16 ≤ 4 → next % 16 ≤ 4 →
      (sum d next).toNat = d / 16 + d % 16 + 16 * (d / 16 + next % 16) := by
    intro d next hhigh hlow hnext
    show (BitVec.ofNat 8 _).toNat = _
    rw [BitVec.toNat_ofNat, Nat.mod_eq_of_lt (by omega)]
  have hadd : (v + (v >>> 4)).toNat = bytesValue
      [sum d₀.toNat d₁.toNat, sum d₁.toNat d₂.toNat, sum d₂.toNat d₃.toNat, sum d₃.toNat 0] := by
    simp only [bytesValue]
    rw [hsum _ _ h₀.1 h₀.2 h₁.2, hsum _ _ h₁.1 h₁.2 h₂.2, hsum _ _ h₂.1 h₂.2 h₃.2,
      hsum _ _ h₃.1 h₃.2 (by decide), BitVec.toNat_add, BitVec.toNat_ushiftRight,
      Nat.shiftRight_eq_div_pow, hbytes]
    omega
  have hmask : ((v + (v >>> 4)) &&& 0xF0F0F0F#32).toNat = bytesValue
      ([sum d₀.toNat d₁.toNat, sum d₁.toNat d₂.toNat, sum d₂.toNat d₃.toNat, sum d₃.toNat 0].map
        fun b : U8 => (b >>> 0) &&& 0xF#8) := by
    rw [BitVec.toNat_and, hadd, ← shiftRight_and_bytesValue _ 0xF#8 0 (by decide),
      Nat.shiftRight_zero]
    have hones : (0xF0F0F0F#32).toNat = bytesValue (List.replicate 4 0xF#8) := rfl
    rw [hones]
    rfl
  have hlow : ∀ b : U8, ((b >>> 0) &&& 0xF#8).toNat = b.toNat % 16 := by decide +kernel
  rw [BitVec.toNat_ushiftRight, BitVec.toNat_mul, hmask, Nat.shiftRight_eq_div_pow]
  simp only [List.map_cons, List.map_nil, bytesValue, hlow]
  rw [hsum _ _ h₀.1 h₀.2 h₁.2, hsum _ _ h₁.1 h₁.2 h₂.2, hsum _ _ h₂.1 h₂.2 h₃.2,
    hsum _ _ h₃.1 h₃.2 (by decide)]
  -- Only the halves' sums are left by the mask.
  have hmod : ∀ d next : Nat, d / 16 ≤ 4 → d % 16 ≤ 4 →
      (d / 16 + d % 16 + 16 * (d / 16 + next % 16)) % 16 = d / 16 + d % 16 := by
    intro d next hhigh hlow
    omega
  rw [hmod _ _ h₀.1 h₀.2, hmod _ _ h₁.1 h₁.2, hmod _ _ h₂.1 h₂.2, hmod _ _ h₃.1 h₃.2]
  exact mul_ones_div (by omega) (by omega) (by omega) (by omega)

/-- The parallel bit count of a word. -/
theorem toNat_bitsOfWord (mem : List U8) (off : Nat) :
    (bitsOfWord (load 4 mem off)).toNat
      = ((List.range 4).map fun j => bitCount (byteOf mem (off + j))).sum := by
  have hload := toNat_load 4 mem off
  have hhalves := halfCounts_word (load 4 mem off) (List.length_map _) hload
  have hd : ∀ d ∈ ((List.range 4).map fun i => byteOf mem (off + i)).map halfCounts,
      d.toNat / 16 ≤ 4 ∧ d.toNat % 16 ≤ 4 := by
    intro d hmem
    obtain ⟨b, _, rfl⟩ := List.mem_map.mp hmem
    exact (halfCounts_spec b).2
  have hsum := sum_of_halves _ hhalves hd
  simp only [(halfCounts_spec _).1] at hsum
  unfold bitsOfWord
  dsimp only
  rw [hsum]
  show _ = _ + (_ + (_ + (_ + 0)))
  dsimp only
  omega

/-- `count_bits`, as the 32-bit number that it returns. -/
theorem countBits_eq {k : Nat} (m : TraceMap (8 * k)) :
    countBits m = BitVec.ofNat 32 (byteSum bitCount m (8 * k)) := by
  have hloop : ∀ n, (List.range n).foldl (fun ret i =>
      let v := load 4 m.bytes (4 * i)
      if v = 0xffffffff then ret + 32 else ret + bitsOfWord v) 0
      = BitVec.ofNat 32 (byteSum bitCount m (4 * n)) := by
    intro n
    refine foldl_range_induct (P := fun i ret => ret = BitVec.ofNat 32 (byteSum bitCount m (4 * i)))
      rfl ?_
    intro i _ ret hret
    have hword : bitsOfWord (load 4 m.bytes (4 * i)) = BitVec.ofNat 32 (wordSum bitCount m i) := by
      apply BitVec.eq_of_toNat_eq
      have hbits := toNat_bitsOfWord m.bytes (4 * i)
      have hlt := (bitsOfWord (load 4 m.bytes (4 * i))).isLt
      rw [BitVec.toNat_ofNat]
      rw [hbits] at hlt ⊢
      exact (Nat.mod_eq_of_lt hlt).symm
    dsimp only
    rw [byteSum_word, BitVec.ofNat_add, ← hret, ← hword]
    split
    · -- The parallel count gives 32 for a word of ones as well.
      rename_i hones
      rw [hones]
      rfl
    · rfl
  have hsize : 4 * (8 * k / 4) = 8 * k := by omega
  show (List.range (8 * k / 4)).foldl _ 0 = _
  rw [hloop, hsize]

/-! ### The classification of hit counts -/

/-- The lookup tables of the three programs are the same one. -/
theorem countClassLookups_eq : tminCountClassLookup = fuzzCountClassLookup ∧
    analyzeCountClassLookup = fuzzCountClassLookup :=
  ⟨rfl, rfl⟩

/-- The loop of `classify_counts`. A word without a hit is left as it is, and the table maps zero to
zero. -/
theorem classifyLoop_inv (n k : Nat) (mem : List U8) (hlen : mem.length = n * k) (hn : 0 < n) :
    MapInv (fun v => byteOf fuzzCountClassLookup v.toNat) mem (n * k)
      (classifyLoop n (n * k) mem) := by
  refine wordLoop_inv hlen hn ?_
  intro i m hin h
  rw [Nat.mul_succ]
  show MapInv _ mem (n * i + n) (if load n m (n * i) ≠ 0 then _ else _)
  split
  · exact lookupBytes_inv (fun _ => rfl) hin h
  · rename_i hword
    refine ⟨h.length, ?_, fun b hb => h.rest b (by omega)⟩
    intro b hb
    by_cases hdone : b < n * i
    · exact h.done b hdone
    · rw [h.rest b (by omega), h.zero_of_word hword (by omega) hb]
      rfl

theorem fuzzClassifyCounts_byte (x86_64 : Bool) {k : Nat} (mem : TraceMap (8 * k)) (b : Nat)
    (hb : b < 8 * k) :
    (fuzzClassifyCounts x86_64 mem).byte b = byteOf fuzzCountClassLookup (mem.byte b).toNat := by
  cases x86_64 with
  | true => exact (classifyLoop_inv 8 k mem.bytes mem.length_eq (by decide)).done b hb
  | false =>
    have h48 : 8 * k = 4 * (2 * k) := by omega
    have h := (classifyLoop_inv 4 (2 * k) mem.bytes (mem.length_eq.trans h48)
      (by decide)).done b (h48 ▸ hb)
    rw [← h48] at h
    exact h

/-- The byte-wise `classify_counts` looks each byte up. -/
theorem classifyBytes_byte {mapSize : Nat} (lookup : List U8) (hzero : byteOf lookup 0 = 0)
    (mem : TraceMap mapSize) (b : Nat) :
    (classifyBytes lookup false mem).byte b = byteOf lookup (mem.byte b).toNat :=
  byteOf_map (f := fun v => byteOf lookup v.toNat) hzero mem.bytes b

theorem fuzzClassifyCounts_eq (x86_64 : Bool) {k : Nat} (mem : TraceMap (8 * k)) :
    fuzzClassifyCounts x86_64 mem = classifyBytes fuzzCountClassLookup false mem := by
  apply TraceMap.ext_byte
  intro b hb
  rw [fuzzClassifyCounts_byte x86_64 mem b hb, classifyBytes_byte _ rfl]

/-! ### The helpers together -/

theorem bitCount_le (v : U8) : bitCount v ≤ 8 := List.countP_le_length

theorem byteSum_bitCount_le {mapSize : Nat} (m : TraceMap mapSize) (n : Nat) :
    byteSum bitCount m n ≤ 8 * n := by
  unfold byteSum
  induction n with
  | zero => exact le_refl 0
  | succ n ih =>
    have hlast := bitCount_le (m.byte n)
    rw [List.range_succ, List.map_append, List.sum_append, List.map_singleton,
      List.sum_singleton]
    omega

/-- The word-wise helpers are their byte-wise definitions, for a map of any size that is a multiple
of eight. `count_bits` adds up in 32 bits, so its result is the number of bits that are set as far
as a `u32` holds it; that is the number itself if the map is smaller than half a gigabyte, as every
map of `MAP_SIZE` bytes is. -/
theorem bitmap_helpers_bytewise {k : Nat} (m : TraceMap (8 * k)) :
    (countBits m = BitVec.ofNat 32 ((List.range (8 * k)).map fun b => bitCount (m.byte b)).sum ∧
      (8 * (8 * k) < 2 ^ 32 →
        (countBits m).toNat = ((List.range (8 * k)).map fun b => bitCount (m.byte b)).sum)) ∧
    countBytes m = (List.range (8 * k)).countP (fun b => m.byte b != 0) ∧
    countNon255Bytes m = (List.range (8 * k)).countP (fun b => m.byte b != 0xff) ∧
    (∀ x86_64, ∀ b < 8 * k,
      (simplifyTrace x86_64 m).byte b = if m.byte b = 0 then 1 else 128) ∧
    ∀ x86_64, fuzzClassifyCounts x86_64 m = tminClassifyCounts false m ∧
      fuzzClassifyCounts x86_64 m = analyzeClassifyCounts false m := by
  have hbits := countBits_eq m
  refine ⟨⟨hbits, ?_⟩, countBytes_eq m, countNon255Bytes_eq m, ?_, ?_⟩
  · intro hsize
    have hle := byteSum_bitCount_le m (8 * k)
    rw [hbits, BitVec.toNat_ofNat, Nat.mod_eq_of_lt (by omega)]
    rfl
  · intro x86_64 b hb
    exact simplifyTrace_byte x86_64 m b hb
  · intro x86_64
    obtain ⟨htmin, hanalyze⟩ := countClassLookups_eq
    unfold tminClassifyCounts analyzeClassifyCounts
    rw [htmin, hanalyze]
    exact ⟨fuzzClassifyCounts_eq x86_64 m, fuzzClassifyCounts_eq x86_64 m⟩

/-- On a map of the program's own size, the result of `count_bits` is the number of set bits. -/
theorem bitmap_helpers_bytewise_mapSize :
    8 * (8 * 262144) < 2 ^ 32 ∧ 8 * 262144 = MAP_SIZE ∧
    (countBits (TraceMap.fill (8 * 262144) 0xff)).toNat
      = ((List.range (8 * 262144)).map fun b =>
          bitCount ((TraceMap.fill (8 * 262144) 0xff).byte b)).sum :=
  ⟨by decide, by decide,
    (bitmap_helpers_bytewise (k := 262144) (TraceMap.fill _ 0xff)).1.2 (by decide)⟩

end TriforceAFL.Proofs
