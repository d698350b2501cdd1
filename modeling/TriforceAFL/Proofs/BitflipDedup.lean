import TriforceAFL.Proofs.DeterministicPlan
import TriforceAFL.Proofs.Effector

/-!
# `TriforceAFL.Proofs.BitflipDedup`: candidates skipped as possible bitflips

`could_be_bitflip` lets the arithmetic and interesting-value stages skip a candidate when the
bitflip stages have executed it already. It accepts 1-, 2- and 4-bit patterns of the xored word at
any shift. The bitflip stages number the bits of each byte from the most significant one, while the
word is little-endian. So a run of bits that crosses a byte boundary in the word is no run for the
bitflip stages.

`skipped_covered_iff` gives the exact condition: a candidate that is skipped as a possible bitflip
is the input itself or one of the buffers that the bitflip stages executed, if and only if its
pattern does not cross a byte boundary (`Straddles`). `skipped_uncovered` is an input on which a
candidate is lost.

* `couldBeBitflip_cases` reads the patterns off the code.
* `flipRun_of_mem` and `mem_of_flipRun`: the buffers that the bitflip stages execute are the input
  with a run of bits flipped (`FlipRun`).
* `flipsTo_iff_not_straddles` is the comparison of the two bit orders.
-/

set_option autoImplicit false

namespace TriforceAFL.Proofs

open Lib Spec

variable {x : U32}

/-! ### The patterns that `could_be_bitflip` accepts -/

/-- The word is a run of `k` set bits, starting at bit `sh`. -/
def IsRun (x : U32) (k sh : Nat) : Prop := ∀ q, x.getLsbD q = true ↔ sh ≤ q ∧ q < sh + k

/-- The bits of `(2 ^ k - 1) * 2 ^ sh`. -/
theorem isRun_of_toNat {k sh : Nat} (h : x.toNat = (2 ^ k - 1) * 2 ^ sh) :
    IsRun x k sh := by
  intro q
  rw [← BitVec.testBit_toNat, h, Nat.testBit_mul_two_pow, Nat.testBit_two_pow_sub_one]
  simp only [Bool.and_eq_true, decide_eq_true_eq]
  omega

/-- The loop finds the first set bit: it shifts out zeros only, and stops at an odd value. -/
theorem shiftToFirstBit_spec (fuel : Nat) :
    ∀ (sh : Nat) (x : U32), x ≠ 0 → x.toNat < 2 ^ fuel →
      ∃ d y, shiftToFirstBit fuel sh x = (sh + d, y) ∧ x.toNat = y.toNat * 2 ^ d := by
  -- Each turn halves the value, so the fuel covers its width.
  induction fuel with
  | zero =>
    intro sh x hx hlt
    exact absurd (BitVec.eq_of_toNat_eq (by simpa using hlt)) hx
  | succ fuel ih =>
    intro sh x hx hlt
    rw [shiftToFirstBit]
    split
    · rename_i heven
      have hmod : x.toNat % 2 = 0 := by
        have h := congrArg BitVec.toNat heven
        simpa [Nat.and_one_is_mod] using h
      have hhalf : (x >>> 1).toNat = x.toNat / 2 := by
        rw [BitVec.toNat_ushiftRight, Nat.shiftRight_eq_div_pow, Nat.pow_one]
      have hpos : x.toNat ≠ 0 := fun h0 => hx (BitVec.eq_of_toNat_eq h0)
      have hne : x >>> 1 ≠ 0 := by
        intro h0
        have h := congrArg BitVec.toNat h0
        rw [hhalf] at h
        change x.toNat / 2 = 0 at h
        omega
      obtain ⟨d, y, heq, hval⟩ := ih (sh + 1) (x >>> 1) hne (by rw [hhalf]; omega)
      refine ⟨d + 1, y, by rw [heq, Nat.add_assoc, Nat.add_comm 1 d], ?_⟩
      rw [hhalf] at hval
      calc x.toNat = 2 * (x.toNat / 2) := by omega
        _ = 2 * (y.toNat * 2 ^ d) := by rw [hval]
        _ = y.toNat * 2 ^ (d + 1) := by rw [Nat.pow_succ]; ac_rfl
    · exact ⟨0, x, rfl, by simp⟩

/-- A value that `could_be_bitflip` accepts is zero, a run of 1, 2 or 4 bits, or a run of 8, 16 or
32 bits at a multiple of 8. -/
theorem couldBeBitflip_cases (h : couldBeBitflip x = true) :
    x = 0 ∨ ∃ k sh, x.toNat = (2 ^ k - 1) * 2 ^ sh ∧
      (k = 1 ∨ k = 2 ∨ k = 4 ∨ (k = 8 ∨ k = 16 ∨ k = 32) ∧ sh % 8 = 0) := by
  unfold couldBeBitflip at h
  split at h
  · exact Or.inl ‹_›
  · rename_i hne
    obtain ⟨d, y, heq, hval⟩ := shiftToFirstBit_spec 32 0 x hne x.isLt
    rw [heq, Nat.zero_add] at h
    dsimp only at h
    have hrun : ∀ k, y.toNat = 2 ^ k - 1 → x.toNat = (2 ^ k - 1) * 2 ^ d :=
      fun k hk => by rw [hval, hk]
    refine Or.inr ?_
    split at h
    · rename_i hsmall
      rcases hsmall with hy | hy | hy
      · exact ⟨1, d, hrun 1 (by rw [hy]; rfl), Or.inl rfl⟩
      · exact ⟨2, d, hrun 2 (by rw [hy]; rfl), Or.inr (Or.inl rfl)⟩
      · exact ⟨4, d, hrun 4 (by rw [hy]; rfl), Or.inr (Or.inr (Or.inl rfl))⟩
    · split at h
      · cases h
      · rename_i hmod
        have hmod : d % 8 = 0 := not_not.mp hmod
        rcases of_decide_eq_true h with hy | hy | hy
        · exact ⟨8, d, hrun 8 (by rw [hy]; rfl), by simp [hmod]⟩
        · exact ⟨16, d, hrun 16 (by rw [hy]; rfl), by simp [hmod]⟩
        · exact ⟨32, d, hrun 32 (by rw [hy]; rfl), by simp [hmod]⟩

/-! ### Runs in the two bit orders -/

/-- The xored word is a run of 2 or 4 bits that crosses a byte boundary. -/
def Straddles (x : U32) : Prop :=
  ∃ sh, x.toNat = 3 * 2 ^ sh ∧ sh % 8 = 7 ∨ x.toNat = 15 * 2 ^ sh ∧ 4 < sh % 8

/-- A run is determined by its bits. -/
theorem IsRun.unique {k sh k' sh' : Nat} (h : IsRun x k sh) (h' : IsRun x k' sh') (hk : 0 < k)
    (hk' : 0 < k') : k = k' ∧ sh = sh' := by
  have hfirst := (h' sh).mp ((h sh).mpr ⟨Nat.le_refl _, by omega⟩)
  have hfirst' := (h sh').mp ((h' sh').mpr ⟨Nat.le_refl _, by omega⟩)
  have hlast := (h' (sh + k - 1)).mp ((h (sh + k - 1)).mpr ⟨by omega, by omega⟩)
  have hlast' := (h (sh' + k' - 1)).mp ((h' (sh' + k' - 1)).mpr ⟨by omega, by omega⟩)
  omega

theorem straddles_iff {k sh : Nat} (hval : x.toNat = (2 ^ k - 1) * 2 ^ sh) (hk : 0 < k) :
    Straddles x ↔ k = 2 ∧ sh % 8 = 7 ∨ k = 4 ∧ 4 < sh % 8 := by
  have h := isRun_of_toNat hval
  constructor
  · rintro ⟨sh', hx | hx⟩
    · obtain ⟨rfl, rfl⟩ := h.unique (isRun_of_toNat (k := 2) hx.1) hk (by decide)
      exact Or.inl ⟨rfl, hx.2⟩
    · obtain ⟨rfl, rfl⟩ := h.unique (isRun_of_toNat (k := 4) hx.1) hk (by decide)
      exact Or.inr ⟨rfl, hx.2⟩
  · rintro (⟨rfl, hmod⟩ | ⟨rfl, hmod⟩)
    · exact ⟨sh, Or.inl ⟨hval, hmod⟩⟩
    · exact ⟨sh, Or.inr ⟨hval, hmod⟩⟩

/-- The runs of bits that the bitflip stages flip in a buffer of `len` bytes: `m` bits from `b` on,
counted from the most significant bit of each byte. -/
def FlipRun (len b m : Nat) : Prop :=
  b + m ≤ 8 * len ∧ (m = 1 ∨ m = 2 ∨ m = 4 ∨ (m = 8 ∨ m = 16 ∨ m = 32) ∧ b % 8 = 0)

/-- A candidate that differs from the input by the pattern `x` in the `n`-byte word at `i`. -/
structure Candidate (inBuf c : List U8) (n i : Nat) (x : U32) : Prop where
  width : n ≤ 4
  inside : i + n ≤ inBuf.length
  length_eq : c.length = inBuf.length
  bits : ∀ p < 8 * inBuf.length, bitAt c p =
    (bitAt inBuf p ^^ (decide (i ≤ p / 8 ∧ p / 8 < i + n) &&
      x.getLsbD (8 * (p / 8 - i) + (7 - p % 8))))
  fits : ∀ q, x.getLsbD q = true → q < 8 * n

/-- A candidate is made by writing a word. -/
theorem candidate_store (inBuf : List U8) (n i : Nat) (new : BitVec (8 * n)) (hn : n ≤ 4)
    (hi : i + n ≤ inBuf.length) :
    Candidate inBuf (store n inBuf i new) n i ((load n inBuf i ^^^ new).setWidth 32) := by
  have hnew : new = load n inBuf i ^^^ (load n inBuf i ^^^ new) := by
    rw [← BitVec.xor_assoc, BitVec.xor_self, BitVec.zero_xor]
  refine ⟨hn, hi, length_store _ _ _ _, fun p hp => ?_, fun q hq => ?_⟩
  · rw [BitVec.getLsbD_setWidth]
    conv_lhs => rw [hnew]
    rw [bitAt_store_xor n inBuf i _ p hp]
    by_cases hwin : i ≤ p / 8 ∧ p / 8 < i + n
    · have hlt : 8 * (p / 8 - i) + (7 - p % 8) < 32 := by omega
      simp only [hlt, decide_true, Bool.true_and]
    · simp only [hwin, decide_false, Bool.false_and]
  · rw [BitVec.getLsbD_setWidth, Bool.and_eq_true] at hq
    exact BitVec.lt_of_getLsbD hq.2

section Windows
variable {n i k sh : Nat}

/-- The word stages count bits from the least significant one of each byte, the bitflip stages from
the most significant one. A run of bits that stays inside a byte, in both orders. -/
theorem window_inByte (hk : 0 < k) (hbyte : sh % 8 + k ≤ 8) (hfits : sh + k ≤ 8 * n) (p : Nat) :
    ((i ≤ p / 8 ∧ p / 8 < i + n) ∧ sh ≤ 8 * (p / 8 - i) + (7 - p % 8) ∧
        8 * (p / 8 - i) + (7 - p % 8) < sh + k) ↔
      8 * (i + sh / 8) + (8 - k - sh % 8) ≤ p ∧ p < 8 * (i + sh / 8) + (8 - k - sh % 8) + k := by
  constructor
  · rintro ⟨⟨_, _⟩, _, _⟩
    omega
  · rintro ⟨_, _⟩
    have hsame : p / 8 = i + sh / 8 := by omega
    rw [hsame]
    omega

/-- A run of whole bytes. -/
theorem window_bytes (hsh : sh % 8 = 0) (hk : k % 8 = 0) (hfits : sh + k ≤ 8 * n) (p : Nat) :
    ((i ≤ p / 8 ∧ p / 8 < i + n) ∧ sh ≤ 8 * (p / 8 - i) + (7 - p % 8) ∧
        8 * (p / 8 - i) + (7 - p % 8) < sh + k) ↔ 8 * i + sh ≤ p ∧ p < 8 * i + sh + k := by
  constructor
  · rintro ⟨⟨_, _⟩, _, _⟩
    omega
  · rintro ⟨_, _⟩
    omega

end Windows

/-- A run of bits of the word that stays inside a byte, or fills whole bytes, is a run for the
bitflip stages. -/
theorem flipsTo_of_not_straddles {inBuf c : List U8} {n i k sh : Nat} (hc : Candidate inBuf c n i x)
    (hrun : IsRun x k sh) (hk : k = 1 ∨ k = 2 ∨ k = 4 ∨ (k = 8 ∨ k = 16 ∨ k = 32) ∧ sh % 8 = 0)
    (hnot : ¬ (k = 2 ∧ sh % 8 = 7 ∨ k = 4 ∧ 4 < sh % 8)) :
    ∃ b m, FlipRun inBuf.length b m ∧ FlipsTo inBuf c b m := by
  have hlast := hc.fits (sh + k - 1) ((hrun _).mpr ⟨by omega, by omega⟩)
  have hinside := hc.inside
  -- The first flipped bit, in the order of the bitflip stages.
  have hb : ∃ b, b + k ≤ 8 * inBuf.length ∧ (8 ≤ k → b % 8 = 0) ∧ ∀ p,
      ((i ≤ p / 8 ∧ p / 8 < i + n) ∧ sh ≤ 8 * (p / 8 - i) + (7 - p % 8) ∧
        8 * (p / 8 - i) + (7 - p % 8) < sh + k) ↔ b ≤ p ∧ p < b + k := by
    by_cases hsmall : k ≤ 4
    · exact ⟨8 * (i + sh / 8) + (8 - k - sh % 8), by omega, by omega,
        window_inByte (by omega) (by omega) (by omega)⟩
    · exact ⟨8 * i + sh, by omega, by omega, window_bytes (by omega) (by omega) (by omega)⟩
  obtain ⟨b, hin, hmod, hiff⟩ := hb
  refine ⟨b, k, ⟨hin, hk.imp_right (Or.imp_right (Or.imp_right ?_))⟩, hc.length_eq,
    fun p hp => ?_⟩
  · rintro ⟨hwide, _⟩
    exact ⟨hwide, hmod (by omega)⟩
  rw [hc.bits p hp]
  congr 1
  rw [Bool.eq_iff_iff, Bool.and_eq_true, decide_eq_true_iff, decide_eq_true_iff, hrun]
  exact hiff p

/-- A run of bits that crosses a byte boundary of the word is none. -/
theorem not_flipsTo_of_straddles {inBuf c : List U8} {n i k sh : Nat} (hc : Candidate inBuf c n i x)
    (hrun : IsRun x k sh) (hstraddle : k = 2 ∧ sh % 8 = 7 ∨ k = 4 ∧ 4 < sh % 8) :
    c ≠ inBuf ∧ ∀ b m, FlipRun inBuf.length b m → ¬ FlipsTo inBuf c b m := by
  have hlast := hc.fits (sh + k - 1) ((hrun _).mpr ⟨by omega, by omega⟩)
  have hinside := hc.inside
  -- Which bits of the two bytes at the boundary differ from the input.
  have hbit : ∀ p, 8 * (i + sh / 8) ≤ p → p < 8 * (i + sh / 8) + 16 →
      bitAt c p = (bitAt inBuf p ^^ decide (sh ≤ 8 * (p / 8 - i) + (7 - p % 8) ∧
        8 * (p / 8 - i) + (7 - p % 8) < sh + k)) := by
    intro p hlo hhi
    have hwin : i ≤ p / 8 ∧ p / 8 < i + n := by omega
    rw [hc.bits p (by omega), decide_eq_true hwin, Bool.true_and]
    congr 1
    rw [Bool.eq_iff_iff, decide_eq_true_iff]
    exact hrun _
  -- The run covers the top bit of the first byte and the bottom bit of the second.
  have hflip : ∀ p, p = 8 * (i + sh / 8) ∨ p = 8 * (i + sh / 8) + 15 →
      bitAt c p = !bitAt inBuf p := by
    intro p hp
    have hset : sh ≤ 8 * (p / 8 - i) + (7 - p % 8) ∧
        8 * (p / 8 - i) + (7 - p % 8) < sh + k := by omega
    rw [hbit p (by omega) (by omega), decide_eq_true hset, Bool.xor_true]
  refine ⟨fun heq => ?_, fun b m hshape hflips => ?_⟩
  · have h := hflip _ (Or.inl rfl)
    rw [heq] at h
    exact absurd h (by simp)
  · -- A run of the bitflip stages that covers both also covers all bits between them.
    have hcover : ∀ p, p = 8 * (i + sh / 8) ∨ p = 8 * (i + sh / 8) + 15 → b ≤ p ∧ p < b + m := by
      intro p hp
      have h := hflips.2 p (by omega)
      rw [hflip p hp] at h
      by_contra hout
      rw [decide_eq_false hout, Bool.xor_false] at h
      exact absurd h (by simp)
    have hlo := hcover _ (Or.inl rfl)
    have hhi := hcover _ (Or.inr rfl)
    -- But the bottom bit of the first byte is not flipped.
    have hmid := hflips.2 (8 * (i + sh / 8) + 7) (by omega)
    have hin : b ≤ 8 * (i + sh / 8) + 7 ∧ 8 * (i + sh / 8) + 7 < b + m := by omega
    have hnot : ¬ (sh ≤ 8 * ((8 * (i + sh / 8) + 7) / 8 - i) + (7 - (8 * (i + sh / 8) + 7) % 8) ∧
        8 * ((8 * (i + sh / 8) + 7) / 8 - i) + (7 - (8 * (i + sh / 8) + 7) % 8) < sh + k) := by
      omega
    rw [hbit _ (by omega) (by omega), decide_eq_false hnot, decide_eq_true hin] at hmid
    simp at hmid

/-- A candidate with an accepted pattern is the input or a product of the bitflip stages, if and
only if the pattern does not cross a byte boundary. -/
theorem flipsTo_iff_not_straddles {inBuf c : List U8} {n i : Nat} (hc : Candidate inBuf c n i x)
    (hx : couldBeBitflip x = true) :
    (c = inBuf ∨ ∃ b m, FlipRun inBuf.length b m ∧ FlipsTo inBuf c b m) ↔ ¬ Straddles x := by
  rcases couldBeBitflip_cases hx with rfl | ⟨k, sh, hval, hk⟩
  · -- No difference at all.
    have hsame : c = inBuf := by
      refine eq_of_bitAt_eq hc.length_eq fun p hp => ?_
      rw [hc.length_eq] at hp
      rw [hc.bits p hp]
      simp
    have hnot : ¬ Straddles 0 := by
      rintro ⟨sh, ⟨h, _⟩ | ⟨h, _⟩⟩
      · have hpos := Nat.two_pow_pos sh
        change 0 = 3 * 2 ^ sh at h
        omega
      · have hpos := Nat.two_pow_pos sh
        change 0 = 15 * 2 ^ sh at h
        omega
    exact ⟨fun _ => hnot, fun _ => Or.inl hsame⟩
  · have hrun := isRun_of_toNat hval
    rw [straddles_iff hval (by omega)]
    constructor
    · intro hcovered hstraddle
      obtain ⟨hne, hnone⟩ := not_flipsTo_of_straddles hc hrun hstraddle
      rcases hcovered with heq | ⟨b, m, hshape, hflips⟩
      · exact hne heq
      · exact hnone b m hshape hflips
    · exact fun hnot => Or.inr (flipsTo_of_not_straddles hc hrun hk hnot)

/-! ### The events of the plan -/

/-- Is the stage one of the bitflip stages? -/
def isBitflip : Stage → Bool
  | .flip1 | .flip2 | .flip4 | .flip8 | .flip16 | .flip32 => true
  | _ => false

section Events
variable {inBuf : List U8} {eff : List Bool} {e : Event} {stage : Stage} {val : Int} {n i : Nat}

theorem mem_wordsPlan {n : Nat} {events : Nat → List Event} (hn : 0 < n)
    (h : e ∈ wordsPlan inBuf eff n events) : ∃ i, i + n ≤ inBuf.length ∧ e ∈ events i := by
  unfold wordsPlan at h
  obtain ⟨i, hi, he⟩ := List.mem_flatMap.mp h
  rw [List.mem_range] at hi
  split at he
  · cases he
  · exact ⟨i, by omega, he⟩

theorem mem_ifLongEnough {n : Nat} {plan : List Event} :
    e ∈ ifLongEnough inBuf n plan ↔ n ≤ inBuf.length ∧ e ∈ plan := by
  unfold ifLongEnough
  split
  · rename_i hlt
    exact ⟨fun h => (by cases h), fun h => absurd h.1 (Nat.not_le.mpr hlt)⟩
  · rename_i hge
    exact ⟨fun h => ⟨Nat.le_of_not_lt hge, h⟩, fun h => h.2⟩

/-- What an event of a word stage says: an execution belongs to that stage, and a skip as a
possible bitflip is about a word of the input. -/
def WordEvent (inBuf : List U8) (e : Event) : Prop :=
  (∀ stage pos valType val c, e = .exec stage pos valType val c → isBitflip stage = false) ∧
    ∀ stage x c, e = .skip stage (.bitflip x) c →
      couldBeBitflip x = true ∧ ∃ n i, Candidate inBuf c n i x

theorem wordEvent_arithEvent {carry : Bool} {new : BitVec (8 * n)} {valType : StageValType}
    (hstage : isBitflip stage = false) (hn : n ≤ 4) (hi : i + n ≤ inBuf.length) :
    WordEvent inBuf (arithEvent inBuf stage n i carry new valType val) := by
  unfold arithEvent
  dsimp only
  split
  · exact ⟨fun _ _ _ _ _ h => (by cases h), fun _ _ _ h => (by cases h)⟩
  · split
    · rename_i hflip
      refine ⟨fun _ _ _ _ _ h => (by cases h), fun _ _ _ h => ?_⟩
      cases h
      exact ⟨hflip, n, i, candidate_store inBuf n i new hn hi⟩
    · refine ⟨fun _ _ _ _ _ h => ?_, fun _ _ _ h => (by cases h)⟩
      cases h
      exact hstage

theorem wordEvent_interestEvent {new : BitVec (8 * n)} {skip : Option SkipReason}
    {valType : StageValType} (hstage : isBitflip stage = false) (hn : n ≤ 4)
    (hi : i + n ≤ inBuf.length) (hskip : ∀ x, skip = some (.bitflip x) →
      couldBeBitflip x = true ∧ x = (load n inBuf i ^^^ new).setWidth 32) :
    WordEvent inBuf (interestEvent inBuf stage n i new skip valType val) := by
  cases skip with
  | none =>
    refine ⟨fun _ _ _ _ _ h => ?_, fun _ _ _ h => (by cases h)⟩
    cases h
    exact hstage
  | some reason =>
    refine ⟨fun _ _ _ _ _ h => (by cases h), fun _ x _ h => ?_⟩
    cases h
    obtain ⟨hflip, hx⟩ := hskip x rfl
    refine ⟨hflip, n, i, ?_⟩
    rw [hx]
    exact candidate_store inBuf n i new hn hi

/-- When `interestSkip` blames a bitflip, it is for the xor of the two words. -/
theorem interestSkip_bitflip {n : Nat} {old new : BitVec (8 * n)} {checkLe : Bool}
    (h : interestSkip n old new checkLe = some (.bitflip x)) :
    couldBeBitflip x = true ∧ x = (old ^^^ new).setWidth 32 := by
  unfold interestSkip at h
  dsimp only at h
  split at h
  · rename_i hflip
    cases h
    exact ⟨hflip, BitVec.setWidth_xor.symm⟩
  · split at h
    · cases h
    · split at h <;> cases h

/-- The arithmetic stages list their candidates by offset, then by `j`. -/
theorem arithEvent_of_mem (h : e ∈ arithsPlan inBuf eff) :
    ∃ stage n i carry new valType val, isBitflip stage = false ∧ n ≤ 4 ∧ i + n ≤ inBuf.length ∧
      e = arithEvent inBuf stage n i carry new valType val := by
  have hplan : ∀ {n : Nat} {events : Nat → Nat → List Event}, 0 < n →
      e ∈ arithPlan inBuf eff n events → ∃ i j, i + n ≤ inBuf.length ∧ e ∈ events i j := by
    intro n events hn hmem
    obtain ⟨i, hi, he⟩ := mem_wordsPlan hn hmem
    obtain ⟨j, _, hj⟩ := List.mem_flatMap.mp he
    exact ⟨i, j, hi, hj⟩
  unfold arithsPlan at h
  rw [List.mem_append, mem_ifLongEnough, List.mem_append, mem_ifLongEnough] at h
  rcases h with h | ⟨_, h | ⟨_, h⟩⟩ <;> obtain ⟨i, j, hi, he⟩ := hplan (by decide) h
  · simp only [arith8Events, List.mem_cons, List.not_mem_nil, or_false] at he
    rcases he with rfl | rfl <;> exact ⟨_, _, i, _, _, _, _, rfl, by decide, hi, rfl⟩
  all_goals
    simp only [arith16Events, arith32Events, wideEvents, List.mem_cons, List.not_mem_nil,
      or_false] at he
    rcases he with rfl | rfl | rfl | rfl <;>
      exact ⟨_, _, i, _, _, _, _, rfl, by decide, hi, rfl⟩

/-- The two candidates of a wide insertion. -/
theorem wordEvent_of_mem_intEvents {swap : BitVec (8 * n) → BitVec (8 * n)} {v : Int}
    (hstage : isBitflip stage = false) (hn : n ≤ 4) (hi : i + n ≤ inBuf.length)
    (he : e ∈ intEvents inBuf stage n swap i v) :
    WordEvent inBuf e := by
  simp only [intEvents, List.mem_cons, List.not_mem_nil, or_false] at he
  rcases he with rfl | rfl
  · exact wordEvent_interestEvent hstage hn hi fun x hx => interestSkip_bitflip hx
  · refine wordEvent_interestEvent hstage hn hi fun x hx => ?_
    split at hx
    · cases hx
    · exact interestSkip_bitflip hx

/-- The stages with interesting values list their candidates by offset, then by table value. -/
theorem mem_interestsPlan (h : e ∈ interestsPlan inBuf eff) :
    (∃ i, ∃ v ∈ interesting8, i + 1 ≤ inBuf.length ∧ e ∈ int8Events inBuf i v) ∨
      (∃ i, ∃ v ∈ interesting16, i + 2 ≤ inBuf.length ∧
        e ∈ intEvents inBuf .int16 2 swap16 i v) ∨
      ∃ i, ∃ v ∈ interesting32, i + 4 ≤ inBuf.length ∧ e ∈ intEvents inBuf .int32 4 swap32 i v := by
  have hplan : ∀ {n : Nat} {table : List Int} {events : Nat → Int → List Event}, 0 < n →
      e ∈ intPlan inBuf eff n table events →
        ∃ i, ∃ v ∈ table, i + n ≤ inBuf.length ∧ e ∈ events i v := by
    intro n table events hn hmem
    obtain ⟨i, hi, he⟩ := mem_wordsPlan hn hmem
    obtain ⟨v, hv, he⟩ := List.mem_flatMap.mp he
    exact ⟨i, v, hv, hi, he⟩
  unfold interestsPlan at h
  rw [List.mem_append, mem_ifLongEnough, List.mem_append, mem_ifLongEnough] at h
  rcases h with h | ⟨_, h | ⟨_, h⟩⟩
  · exact Or.inl (hplan (by decide) h)
  · exact Or.inr (Or.inl (hplan (by decide) h))
  · exact Or.inr (Or.inr (hplan (by decide) h))

theorem wordEvent_of_mem_interestsPlan (h : e ∈ interestsPlan inBuf eff) :
    WordEvent inBuf e := by
  rcases mem_interestsPlan h with ⟨i, v, _, hi, he⟩ | ⟨i, v, _, hi, he⟩ | ⟨i, v, _, hi, he⟩
  · simp only [int8Events, List.mem_cons, List.not_mem_nil, or_false] at he
    subst he
    exact wordEvent_interestEvent rfl (by decide) hi fun x hx => interestSkip_bitflip hx
  · exact wordEvent_of_mem_intEvents rfl (by decide) hi he
  · exact wordEvent_of_mem_intEvents rfl (by decide) hi he

/-- An event of a bitflip stage: the input with one of the runs flipped is executed. -/
def FlipEvent (inBuf : List U8) (e : Event) : Prop :=
  ∃ stage pos valType val c, e = .exec stage pos valType val c ∧ isBitflip stage = true ∧
    ∃ b m, FlipRun inBuf.length b m ∧ FlipsTo inBuf c b m

/-- The plan of all bitflip stages. -/
def bitflipsPlan (inBuf : List U8) (eff : List Bool) (val : Int) : List Event :=
  bitsPlan inBuf .flip1 1 val ++ (walkingFlipsPlan inBuf val ++ wideFlipsPlan inBuf eff val)

/-- The three parts of the plan. -/
theorem mem_deterministicPlan {passedDet : Bool}
    (h : e ∈ deterministicPlan inBuf passedDet eff val) :
    e ∈ bitflipsPlan inBuf eff val ∨ e ∈ arithsPlan inBuf eff ∨ e ∈ interestsPlan inBuf eff := by
  unfold deterministicPlan at h
  unfold bitflipsPlan
  split at h
  · simp only [List.append_nil] at h
    exact Or.inl (List.mem_append_left _ h)
  · simpa only [List.mem_append, or_assoc] using h

theorem flipEvent_of_mem_bitsPlan {k : Nat} (hstage : isBitflip stage = true)
    (hk : k = 1 ∨ k = 2 ∨ k = 4) (h : e ∈ bitsPlan inBuf stage k val) : FlipEvent inBuf e := by
  unfold bitsPlan at h
  obtain ⟨b, hb, rfl⟩ := List.mem_map.mp h
  rw [List.mem_range] at hb
  exact ⟨_, _, _, _, _, rfl, hstage, b, k, ⟨by omega, by omega⟩, flipsTo_flipBits k b inBuf⟩

theorem flipEvent_of_flipWord {n i pos : Nat} {valType : StageValType}
    (hstage : isBitflip stage = true) (hn : n = 1 ∨ n = 2 ∨ n = 4) (hi : i + n ≤ inBuf.length) :
    FlipEvent inBuf (.exec stage pos valType val (flipWord n i inBuf)) :=
  ⟨_, _, _, _, _, rfl, hstage, 8 * i, 8 * n, ⟨by omega, by omega⟩, flipsTo_flipWord n i inBuf⟩

/-- Every buffer that the bitflip stages execute is the input with one of the runs flipped. -/
theorem flipRun_of_mem (h : e ∈ bitflipsPlan inBuf eff val) :
    FlipEvent inBuf e := by
  unfold bitflipsPlan walkingFlipsPlan wideFlipsPlan at h
  simp only [List.mem_append, mem_ifLongEnough] at h
  rcases h with h | (h | h | h) | ⟨_, h | ⟨_, h⟩⟩
  · exact flipEvent_of_mem_bitsPlan rfl (by decide) h
  · exact flipEvent_of_mem_bitsPlan rfl (by decide) h
  · exact flipEvent_of_mem_bitsPlan rfl (by decide) h
  · unfold flip8Plan at h
    obtain ⟨i, hi, rfl⟩ := List.mem_map.mp h
    rw [List.mem_range] at hi
    exact flipEvent_of_flipWord rfl (by decide) hi
  · obtain ⟨i, hi, he⟩ := mem_wordsPlan (by decide) h
    rw [List.mem_singleton] at he
    subst he
    exact flipEvent_of_flipWord rfl (by decide) hi
  · obtain ⟨i, hi, he⟩ := mem_wordsPlan (by decide) h
    rw [List.mem_singleton] at he
    subst he
    exact flipEvent_of_flipWord rfl (by decide) hi

/-- With every byte effective, a word stage visits every offset. -/
theorem mem_wordsPlan_of_effective {events : Nat → List Event}
    (heff : ∀ p < inBuf.length, effAt eff p = true) (hn : 0 < n) (hi : i + n ≤ inBuf.length)
    (he : e ∈ events i) : e ∈ wordsPlan inBuf eff n events := by
  unfold wordsPlan
  refine List.mem_flatMap.mpr ⟨i, List.mem_range.mpr (by omega), ?_⟩
  rw [if_neg]
  · exact he
  · intro hall
    have h := List.all_eq_true.mp hall 0 (List.mem_range.mpr hn)
    rw [heff (i + 0) (by omega)] at h
    cases h

/-- With every byte effective, each of the runs is flipped by some bitflip stage. -/
theorem mem_of_flipRun (val : Int) {b m : Nat} (heff : ∀ p < inBuf.length, effAt eff p = true)
    (hrun : FlipRun inBuf.length b m) :
    ∃ stage pos valType c, isBitflip stage = true ∧ FlipsTo inBuf c b m ∧
      .exec stage pos valType val c ∈ bitflipsPlan inBuf eff val := by
  obtain ⟨hin, hm⟩ := hrun
  unfold bitflipsPlan walkingFlipsPlan wideFlipsPlan
  simp only [List.mem_append, mem_ifLongEnough]
  have hbits : ∀ stage k, b + k ≤ 8 * inBuf.length → 0 < k →
      .exec stage (b >>> 3) .none val (flipBits k b inBuf) ∈ bitsPlan inBuf stage k val := by
    intro stage k hk hpos
    exact List.mem_map.mpr ⟨b, List.mem_range.mpr (by omega), rfl⟩
  have hwords : ∀ stage n, b / 8 + n ≤ inBuf.length → 0 < n →
      .exec stage (b / 8) .none val (flipWord n (b / 8) inBuf) ∈
        flipWordsPlan inBuf eff stage n val := by
    intro stage n hn hpos
    exact mem_wordsPlan_of_effective heff hpos hn List.mem_cons_self
  have hflips : ∀ n, m = 8 * n → b % 8 = 0 → FlipsTo inBuf (flipWord n (b / 8) inBuf) b m := by
    intro n hn hmod
    have h := flipsTo_flipWord n (b / 8) inBuf
    have hb : 8 * (b / 8) = b := by omega
    rwa [hb, ← hn] at h
  rcases hm with rfl | rfl | rfl | ⟨rfl | rfl | rfl, hmod⟩
  · exact ⟨.flip1, _, _, _, rfl, flipsTo_flipBits 1 b inBuf, Or.inl (hbits _ 1 hin (by decide))⟩
  · exact ⟨.flip2, _, _, _, rfl, flipsTo_flipBits 2 b inBuf,
      Or.inr (Or.inl (Or.inl (hbits _ 2 hin (by decide))))⟩
  · exact ⟨.flip4, _, _, _, rfl, flipsTo_flipBits 4 b inBuf,
      Or.inr (Or.inl (Or.inr (Or.inl (hbits _ 4 hin (by decide)))))⟩
  · refine ⟨.flip8, b / 8, .none, _, rfl, hflips 1 rfl hmod, Or.inr (Or.inl (Or.inr (Or.inr ?_)))⟩
    exact List.mem_map.mpr ⟨b / 8, List.mem_range.mpr (by omega), rfl⟩
  · exact ⟨.flip16, _, _, _, rfl, hflips 2 rfl hmod,
      Or.inr (Or.inr ⟨by omega, Or.inl (hwords _ 2 (by omega) (by decide))⟩)⟩
  · exact ⟨.flip32, _, _, _, rfl, hflips 4 rfl hmod,
      Or.inr (Or.inr ⟨by omega, Or.inr ⟨by omega, hwords _ 4 (by omega) (by decide)⟩⟩)⟩

end Events

/-! ### Runs of the stages -/

/-- Every byte of the input is effective in the stages after "bitflip 8/8". -/
def AllEffective (env : DetEnv) (inBuf : List U8) (s : DetState) : Prop :=
  ∀ s₁ s₈, flip1 env inBuf.length s = .ok s₁ → walkingFlips env inBuf.length s₁ = .ok s₈ →
    ∀ p < inBuf.length, s₈.effective p = true

/-- The candidate is the input, or it was executed by a bitflip stage. -/
def Covered (inBuf : List U8) (log : List Event) (c : List U8) : Prop :=
  c = inBuf ∨ ∃ stage pos valType val, isBitflip stage = true ∧
    .exec stage pos valType val c ∈ log

/-- Inputs shorter than `EFF_MIN_LEN` bytes are effective as a whole. -/
theorem allEffective_of_short (env : DetEnv) (inBuf : List U8) (s : DetState)
    (hshort : inBuf.length < EFF_MIN_LEN) : AllEffective env inBuf s := by
  intro s₁ s₈ _ hok
  unfold walkingFlips at hok
  cases h2 : flip2 env inBuf.length s₁ with
  | error e => rw [h2] at hok; cases hok
  | ok s₂ =>
    rw [h2] at hok
    change (flip4 env inBuf.length s₂ >>= fun s => flip8 env inBuf.length s) = .ok s₈ at hok
    cases h4 : flip4 env inBuf.length s₂ with
    | error e => rw [h4] at hok; cases hok
    | ok s₄ =>
      rw [h4] at hok
      exact effective_of_short env hshort hok

/-- The effector map of the whole run. When the stages that fill it are abandoned, no later stage
consults it, and the map that is given stands for it. -/
theorem exists_effMap_or (env : DetEnv) (inBuf : List U8) (s : DetState) (default : List Bool) :
    ∃ eff, (eff = default ∨ ∃ s₁ s₈, flip1 env inBuf.length s = .ok s₁ ∧
        walkingFlips env inBuf.length s₁ = .ok s₈ ∧ s₈.effMap = eff) ∧
      ∀ s₁ s₈, flip1 env inBuf.length s = .ok s₁ →
        walkingFlips env inBuf.length s₁ = .ok s₈ → s₈.effMap = eff := by
  by_cases hdone : ∃ s₁ s₈, flip1 env inBuf.length s = .ok s₁ ∧
      walkingFlips env inBuf.length s₁ = .ok s₈
  · obtain ⟨s₁, s₈, h₁, h₈⟩ := hdone
    refine ⟨s₈.effMap, Or.inr ⟨s₁, s₈, h₁, h₈, rfl⟩, fun t₁ t₈ ht₁ ht₈ => ?_⟩
    rw [h₁] at ht₁
    cases ht₁
    rw [h₈] at ht₈
    cases ht₈
    rfl
  · exact ⟨default, Or.inl rfl, fun s₁ s₈ h₁ h₈ => absurd ⟨s₁, s₈, h₁, h₈⟩ hdone⟩

/-- With every byte effective, so is every byte of the map. -/
theorem exists_effMap {env : DetEnv} {inBuf : List U8} {s : DetState}
    (h : AllEffective env inBuf s) :
    ∃ eff, (∀ p < inBuf.length, effAt eff p = true) ∧
      ∀ s₁ s₈, flip1 env inBuf.length s = .ok s₁ →
        walkingFlips env inBuf.length s₁ = .ok s₈ → s₈.effMap = eff := by
  obtain ⟨eff, hcases, hmap⟩ :=
    exists_effMap_or env inBuf s (List.replicate (effAlen inBuf.length) true)
  refine ⟨eff, fun p hp => ?_, hmap⟩
  rcases hcases with rfl | ⟨s₁, s₈, h₁, h₈, rfl⟩
  · simp [effAt, List.getD_eq_getElem?_getD, effApos_lt_effAlen hp]
  · exact h s₁ s₈ h₁ h₈ p hp

/-- For every input with all bytes effective: a candidate that is skipped as a possible bitflip is
the input or was executed by a bitflip stage, if and only if the change does not cross a byte
boundary. -/
theorem skipped_covered_iff (env : DetEnv) (inBuf : List U8) (s : DetState)
    (hbuf : s.outBuf = inBuf) (hlog : s.log = []) (heff : AllEffective env inBuf s)
    (stage : Stage) (x : U32) (c : List U8)
    (hskip : .skip stage (.bitflip x) c ∈
      (finalState (deterministic env inBuf.length s)).log) :
    Covered inBuf (finalState (deterministic env inBuf.length s)).log c ↔ ¬ Straddles x := by
  obtain ⟨eff, hall, hmap⟩ := exists_effMap heff
  obtain ⟨done, hdone, hfinal⟩ := (deterministic_logs env s hbuf hmap).finalState_log
  rw [hlog, List.nil_append] at hfinal
  rw [hfinal] at hskip ⊢
  -- A skip is no event of a bitflip stage.
  have hnot : ∀ e ∈ bitflipsPlan inBuf eff s.stageCurVal, e ≠ .skip stage (.bitflip x) c := by
    intro e he heq
    obtain ⟨_, _, _, _, _, hexec, _⟩ := flipRun_of_mem he
    rw [heq] at hexec
    cases hexec
  unfold deterministicPlan at hdone
  cases hpassed : env.passedDet with
  | true =>
    rw [hpassed, if_pos rfl, List.append_nil] at hdone
    exact absurd rfl (hnot _ (List.mem_append_left _ (hdone.subset hskip)))
  | false =>
    rw [hpassed, if_neg (by decide), ← List.append_assoc (walkingFlipsPlan _ _),
      ← List.append_assoc] at hdone
    change done <+: bitflipsPlan inBuf eff s.stageCurVal ++ _ at hdone
    -- So the bitflip stages were completed before.
    have hflips : bitflipsPlan inBuf eff s.stageCurVal <+: done :=
      prefix_of_mem_of_notMem hdone hskip fun hmem => hnot _ hmem rfl
    have hword : ∀ e ∈ arithsPlan inBuf eff ++ interestsPlan inBuf eff, WordEvent inBuf e := by
      intro e he
      rcases List.mem_append.mp he with he | he
      · obtain ⟨_, _, _, _, _, _, _, hstage, hn, hi, rfl⟩ := arithEvent_of_mem he
        exact wordEvent_arithEvent hstage hn hi
      · exact wordEvent_of_mem_interestsPlan he
    have hcand : couldBeBitflip x = true ∧ ∃ n i, Candidate inBuf c n i x := by
      rcases List.mem_append.mp (hdone.subset hskip) with he | he
      · exact absurd rfl (hnot _ he)
      · exact (hword _ he).2 stage x c rfl
    obtain ⟨hx, n, i, hc⟩ := hcand
    rw [← flipsTo_iff_not_straddles hc hx]
    refine or_congr_right ⟨?_, ?_⟩
    · rintro ⟨stage', pos, valType, val, hstage, hmem⟩
      rcases List.mem_append.mp (hdone.subset hmem) with he | he
      · obtain ⟨_, _, _, _, _, hexec, _, hrun⟩ := flipRun_of_mem he
        cases hexec
        exact hrun
      · rw [(hword _ he).1 stage' pos valType val c rfl] at hstage
        cases hstage
    · rintro ⟨b, m, hrun, hflip⟩
      obtain ⟨stage', pos, valType, c', hstage, hflip', hmem⟩ :=
        mem_of_flipRun s.stageCurVal hall hrun
      rw [hflip.unique hflip']
      exact ⟨stage', pos, valType, _, hstage, hflips.subset hmem⟩

/-- Adding 1 to the word 0x7fff is skipped, and stage "bitflip 16/8" has executed the result. -/
theorem skipped_covered_iff_word :
    .skip .arith16 (.bitflip 0xffff) [0, 0x80] ∈
        (finalState (deterministic {} 2 { outBuf := [0xff, 0x7f] })).log ∧
      (Covered [0xff, 0x7f] (finalState (deterministic {} 2 { outBuf := [0xff, 0x7f] })).log
        [0, 0x80] ↔ ¬ Straddles 0xffff) :=
  have hskip : .skip .arith16 (.bitflip 0xffff) [0, 0x80] ∈
      (finalState (deterministic {} 2 { outBuf := [0xff, 0x7f] })).log := by decide +kernel
  ⟨hskip, skipped_covered_iff {} _ { outBuf := [0xff, 0x7f] } rfl rfl
    (allEffective_of_short _ _ _ (by decide)) .arith16 0xffff _ hskip⟩

/-- On the input `e0 00`, stage "arith 16/8" skips the addition of 32, which gives `00 01`. The
xored word is `0x01e0`, a run of four bits across the byte boundary, and no bitflip stage has
executed `00 01`. -/
theorem skipped_uncovered :
    ¬ ∀ (env : DetEnv) (inBuf : List U8) (s : DetState), s.outBuf = inBuf → s.log = [] →
      AllEffective env inBuf s → ∀ (stage : Stage) (x : U32) (c : List U8),
        .skip stage (.bitflip x) c ∈ (finalState (deterministic env inBuf.length s)).log →
          Covered inBuf (finalState (deterministic env inBuf.length s)).log c := by
  intro h
  -- One evaluation of the run for both facts.
  have hrun : ((finalState (deterministic {} 2 { outBuf := [0xe0, 0x00] })).log.all (fun e =>
      match e with
      | .exec stage _ _ _ c => !(isBitflip stage && c == [0x00, 0x01])
      | .skip .. => true) &&
      (finalState (deterministic {} 2 { outBuf := [0xe0, 0x00] })).log.contains
        (.skip .arith16 (.bitflip 0x01e0) [0x00, 0x01])) = true := by decide +kernel
  obtain ⟨hnone, hskip⟩ := (Bool.and_eq_true _ _).mp hrun
  have hcovered := h {} [0xe0, 0x00] { outBuf := [0xe0, 0x00] } rfl rfl
    (allEffective_of_short _ _ _ (by decide)) .arith16 0x01e0 [0x00, 0x01]
    (List.contains_iff_mem.mp hskip)
  rcases hcovered with heq | ⟨stage, pos, valType, val, hstage, hmem⟩
  · exact absurd heq (by decide)
  · have hexec := List.all_eq_true.mp hnone _ hmem
    dsimp only at hexec
    rw [hstage] at hexec
    simp at hexec

end TriforceAFL.Proofs
