import Mathlib.Tactic.IntervalCases
import TriforceAFL.Lib.ByteOrder
import TriforceAFL.Proofs.BitflipDedup

/-!
# `TriforceAFL.Proofs.ArithGuards`: the carry guards of the arithmetic stages

The wider arithmetic stages execute a candidate only if the operation carries out of the low byte
or the low word, or borrows into them, in the byte order of the candidate. `arith_not_lost` says
that no candidate is lost that way: what one of the operations makes of the input is executed by one
of the three stages, unless `could_be_bitflip` returns 1 for it where the narrowest of the stages
makes it.

An operation whose guard fails is an operation on the low bytes alone (`arithAt_eq_narrow`), so it
is a candidate of a narrower stage, in big-endian order at another offset (`attempt_wide`). So the
guard of the narrowest stage never fails.
-/

set_option autoImplicit false

namespace TriforceAFL.Proofs

open Lib Spec

/-! ### The candidates -/

/-- The two operations. -/
inductive ArithOp
  | add
  | sub
deriving DecidableEq

/-- The buffer after the `w`-byte integer at `i` is changed by `j`. -/
def arithAt (op : ArithOp) (o : ByteOrder) (w : Nat) (buf : List U8) (i j : Nat) : List U8 :=
  match op with
  | .add => addAt o w buf i j
  | .sub => subAt o w buf i j

/-- One of the operations, on the `w`-byte integer at `i`, makes `c` of the input. -/
def ArithCandidate (inBuf : List U8) (w i : Nat) (c : List U8) : Prop :=
  (w = 1 ∨ w = 2 ∨ w = 4) ∧ i + w ≤ inBuf.length ∧
    ∃ op o j, 1 ≤ j ∧ j ≤ ARITH_MAX ∧ c = arithAt op o w inBuf i j

/-- The width and the offset of the narrowest operation that makes `c` of the input. -/
def NarrowestArith (inBuf c : List U8) (w i : Nat) : Prop :=
  ArithCandidate inBuf w i c ∧ ∀ w' i', ArithCandidate inBuf w' i' c → w ≤ w'

/-- The xor of the two little-endian words at an offset. -/
def xorAt (inBuf c : List U8) (w i : Nat) : U32 := (load w inBuf i ^^^ load w c i).setWidth 32

/-- Is the stage one of the arithmetic stages? -/
def isArith : Stage → Bool
  | .arith8 | .arith16 | .arith32 => true
  | _ => false

/-- The buffer was executed by an arithmetic stage. -/
def ArithExecuted (log : List Event) (c : List U8) : Prop :=
  ∃ stage pos valType val, isArith stage = true ∧ .exec stage pos valType val c ∈ log

/-! ### The byte swaps of the code -/

theorem swap16_eq (x : U16) : swap16 x = byteSwap (n := 2) x := by
  refine eq_of_byteAt_eq (n := 2) fun b hb => ?_
  rw [byteAt_byteSwap _ hb, swap16]
  have hb' : b = 0 ∨ b = 1 := by omega
  rcases hb' with rfl | rfl <;>
    (apply BitVec.eq_of_getLsbD_eq
     intro j hj
     rw [getLsbD_byteAt, getLsbD_byteAt]
     interval_cases j <;> simp)

theorem swap32_eq (x : U32) : swap32 x = byteSwap (n := 4) x := by
  refine eq_of_byteAt_eq (n := 4) fun b hb => ?_
  rw [byteAt_byteSwap _ hb, swap32]
  have hb' : b = 0 ∨ b = 1 ∨ b = 2 ∨ b = 3 := by omega
  rcases hb' with rfl | rfl | rfl | rfl <;>
    (apply BitVec.eq_of_getLsbD_eq
     intro j hj
     rw [getLsbD_byteAt, getLsbD_byteAt]
     interval_cases j <;> simp)

/-! ### The guards -/

/-- The low byte of a little-endian word, as the guard of "arith 16/8" computes it. -/
theorem low_little16 (x : U16) :
    (x &&& 0xff).toNat = ((ByteOrder.little.word (n := 2) x).setWidth (8 * 1)).toNat := by
  rw [BitVec.toNat_and, BitVec.toNat_setWidth]
  exact Nat.and_two_pow_sub_one_eq_mod x.toNat 8

/-- The low byte of a big-endian word lies in the upper half of the memory word. -/
theorem low_big16 (x : U16) :
    (x >>> 8).toNat = ((ByteOrder.big.word (n := 2) x).setWidth (8 * 1)).toNat := by
  have hbyte : (ByteOrder.big.word (n := 2) x).setWidth (8 * 1) = (x >>> 8).setWidth (8 * 1) := by
    refine eq_of_byteAt_eq (n := 1) fun b hb => ?_
    rw [byteAt_setWidth _ hb, byteAt_setWidth _ hb,
      ByteOrder.byteAt_word .big (n := 2) x (by omega)]
    have hb' : b = 0 := by omega
    subst hb'
    exact (byteAt_ushiftRight x 1 0).symm
  have hlt := x.isLt
  rw [hbyte, BitVec.toNat_setWidth, BitVec.toNat_ushiftRight, Nat.shiftRight_eq_div_pow,
    Nat.mod_eq_of_lt (by omega)]

theorem low_little32 (x : U32) :
    (x &&& 0xffff).toNat = ((ByteOrder.little.word (n := 4) x).setWidth (8 * 2)).toNat := by
  rw [BitVec.toNat_and, BitVec.toNat_setWidth]
  exact Nat.and_two_pow_sub_one_eq_mod x.toNat 16

section Guards
variable {inBuf : List U8} {n m i j : Nat} {op : ArithOp} {o : ByteOrder}

/-- The guard of the `n`-byte stage: does the operation leave the low `m` bytes? -/
def leavesLow (op : ArithOp) (o : ByteOrder) (n m : Nat) (buf : List U8) (i j : Nat) : Bool :=
  let low := ((o.word (load n buf i)).setWidth (8 * m)).toNat
  match op with
  | .add => low + j > 2 ^ (8 * m) - 1
  | .sub => low < j

/-- The memory word that the operation writes. -/
def arithWord (op : ArithOp) (o : ByteOrder) (n : Nat) (buf : List U8) (i j : Nat) :
    BitVec (8 * n) :=
  match op with
  | .add => o.word (o.word (load n buf i) + BitVec.ofNat (8 * n) j)
  | .sub => o.word (o.word (load n buf i) - BitVec.ofNat (8 * n) j)

theorem arithAt_eq_store :
    arithAt op o n inBuf i j = store n inBuf i (arithWord op o n inBuf i j) := by
  cases op <;> rfl

/-- An operation that stays within the low bytes is an operation on those bytes. -/
theorem arithAt_eq_narrow (hmn : m ≤ n) (h : leavesLow op o n m inBuf i j = false) :
    arithAt op o n inBuf i j = arithAt op o m inBuf (i + o.lowOffset n m) j := by
  have hpos := Nat.two_pow_pos (8 * m)
  cases op with
  | add =>
    have hguard := of_decide_eq_false h
    exact addAt_eq_narrow o hmn (by omega)
  | sub =>
    have hguard := of_decide_eq_false h
    exact subAt_eq_narrow o hmn (by omega)

theorem add_lowOffset_le (hmn : m ≤ n) : o.lowOffset n m + m ≤ n := by
  cases o with
  | little => simp only [ByteOrder.lowOffset]; omega
  | big => simp only [ByteOrder.lowOffset]; omega

end Guards

/-! ### From candidates to events -/

section Events
variable {inBuf : List U8} {eff : List Bool}

/-- An event of an arithmetic stage that makes `c`: if its guard fails, then a narrower operation
makes `c` as well. -/
def ArithAttempt (inBuf : List U8) (w i : Nat) (c : List U8) (e : Event) : Prop :=
  ∃ stage carry new valType val, isArith stage = true ∧ c = store w inBuf i new ∧
    e = arithEvent inBuf stage w i carry new valType val ∧
      (carry = false → ∃ w' i', w' < w ∧ ArithCandidate inBuf w' i' c)

/-- The attempts of a wide stage, which guards its operations by their low `m` bytes. -/
theorem attempt_wide {stage : Stage} {n m i j : Nat} {op : ArithOp} {o : ByteOrder}
    {valType : StageValType} {val : Int} (hstage : isArith stage = true) (hm : m = 1 ∨ m = 2)
    (hmn : m < n) (hi : i + n ≤ inBuf.length) (hj : 1 ≤ j) (hmax : j ≤ ARITH_MAX) :
    ArithAttempt inBuf n i (arithAt op o n inBuf i j)
      (arithEvent inBuf stage n i (leavesLow op o n m inBuf i j) (arithWord op o n inBuf i j)
        valType val) := by
  refine ⟨stage, _, _, valType, val, hstage, arithAt_eq_store, rfl, fun h => ?_⟩
  have hlow := add_lowOffset_le (o := o) hmn.le
  exact ⟨m, i + o.lowOffset n m, hmn, by omega, by omega, op, o, j, hj, hmax,
    arithAt_eq_narrow hmn.le h⟩

theorem byteSwap_byte (x : U8) : byteSwap (n := 1) x = x := by
  refine eq_of_byteAt_eq (n := 1) fun b hb => ?_
  have hidx : 1 - 1 - b = b := by omega
  rw [byteAt_byteSwap _ hb, hidx]

/-- Stage "arith 8/8" has no guard, and one byte has no order. -/
theorem attempt_arith8 (inBuf : List U8) (i j : Nat) (op : ArithOp) (o : ByteOrder) :
    ∃ e ∈ arith8Events inBuf i j, ArithAttempt inBuf 1 i (arithAt op o 1 inBuf i j) e := by
  have hword : ∀ x : U8, o.word (n := 1) x = x := by
    intro x
    cases o with
    | little => rfl
    | big => exact byteSwap_byte x
  have hnone : ∀ c, true = false → ∃ w' i', w' < 1 ∧ ArithCandidate inBuf w' i' c :=
    fun c h => by cases h
  rw [arithAt_eq_store]
  cases op with
  | add =>
    refine ⟨_, List.mem_cons_self, .arith8, true, _, .le, _, rfl, ?_, rfl, hnone _⟩
    simp only [arithWord, hword]
  | sub =>
    refine ⟨_, List.mem_cons_of_mem _ List.mem_cons_self, .arith8, true, _, .le, _, rfl, ?_, rfl,
      hnone _⟩
    simp only [arithWord, hword]

/-- The four candidates of a wide stage. -/
theorem attempt_wideEvents {stage : Stage} {n m i j : Nat} {swap : BitVec (8 * n) → BitVec (8 * n)}
    (hstage : isArith stage = true) (hm : m = 1 ∨ m = 2) (hmn : m < n)
    (hswap : ∀ x, swap x = byteSwap x) (hi : i + n ≤ inBuf.length) (hj : 1 ≤ j)
    (hmax : j ≤ ARITH_MAX) (op : ArithOp) (o : ByteOrder) :
    ∃ e ∈ wideEvents inBuf stage n i j (2 ^ (8 * m) - 1)
        ((ByteOrder.little.word (load n inBuf i)).setWidth (8 * m)).toNat
        ((ByteOrder.big.word (load n inBuf i)).setWidth (8 * m)).toNat swap,
      ArithAttempt inBuf n i (arithAt op o n inBuf i j) e := by
  simp only [wideEvents, hswap]
  cases op with
  | add =>
    cases o with
    | little => exact ⟨_, List.mem_cons_self, attempt_wide hstage hm hmn hi hj hmax⟩
    | big => exact ⟨_, List.mem_of_getElem? (i := 2) rfl, attempt_wide hstage hm hmn hi hj hmax⟩
  | sub =>
    cases o with
    | little => exact ⟨_, List.mem_of_getElem? (i := 1) rfl, attempt_wide hstage hm hmn hi hj hmax⟩
    | big => exact ⟨_, List.mem_of_getElem? (i := 3) rfl, attempt_wide hstage hm hmn hi hj hmax⟩

theorem attempt_arith16 {i j : Nat} (hi : i + 2 ≤ inBuf.length) (hj : 1 ≤ j) (hmax : j ≤ ARITH_MAX)
    (op : ArithOp) (o : ByteOrder) :
    ∃ e ∈ arith16Events inBuf i j, ArithAttempt inBuf 2 i (arithAt op o 2 inBuf i j) e := by
  simp only [arith16Events, low_little16, low_big16]
  exact attempt_wideEvents rfl (Or.inl rfl) (by decide) swap16_eq hi hj hmax op o

theorem attempt_arith32 {i j : Nat} (hi : i + 4 ≤ inBuf.length) (hj : 1 ≤ j) (hmax : j ≤ ARITH_MAX)
    (op : ArithOp) (o : ByteOrder) :
    ∃ e ∈ arith32Events inBuf i j, ArithAttempt inBuf 4 i (arithAt op o 4 inBuf i j) e := by
  simp only [arith32Events, low_little32, swap32_eq (load 4 inBuf i)]
  exact attempt_wideEvents rfl (Or.inr rfl) (by decide) swap32_eq hi hj hmax op o

/-- With every byte effective, each candidate is attempted at each place that makes it. -/
theorem exists_attempt {w i : Nat} {c : List U8} (heff : ∀ p < inBuf.length, effAt eff p = true)
    (h : ArithCandidate inBuf w i c) :
    ∃ e ∈ arithsPlan inBuf eff, ArithAttempt inBuf w i c e := by
  obtain ⟨hw, hi, op, o, j, hj, hmax, rfl⟩ := h
  -- A stage lists its events by offset, then by `j`.
  have hplan : ∀ {events : Nat → Nat → List Event} {e : Event}, 0 < w → e ∈ events i j →
      e ∈ arithPlan inBuf eff w events := by
    intro events e hpos he
    refine mem_wordsPlan_of_effective heff hpos hi (List.mem_flatMap.mpr ⟨j, ?_, he⟩)
    rw [List.mem_range']
    exact ⟨j - 1, by omega, by omega⟩
  simp only [arithsPlan, List.mem_append, mem_ifLongEnough]
  rcases hw with rfl | rfl | rfl
  · obtain ⟨e, he, hattempt⟩ := attempt_arith8 inBuf i j op o
    exact ⟨e, Or.inl (hplan (by decide) he), hattempt⟩
  · obtain ⟨e, he, hattempt⟩ := attempt_arith16 hi hj hmax op o
    exact ⟨e, Or.inr ⟨by omega, Or.inl (hplan (by decide) he)⟩, hattempt⟩
  · obtain ⟨e, he, hattempt⟩ := attempt_arith32 hi hj hmax op o
    exact ⟨e, Or.inr ⟨by omega, Or.inr ⟨by omega, hplan (by decide) he⟩⟩, hattempt⟩

/-- The guard of the narrowest attempt does not fail. -/
theorem executed_or_bitflip {w i : Nat} {c : List U8}
    (heff : ∀ p < inBuf.length, effAt eff p = true) (h : NarrowestArith inBuf c w i) :
    ArithExecuted (arithsPlan inBuf eff) c ∨ couldBeBitflip (xorAt inBuf c w i) = true := by
  obtain ⟨e, hmem, stage, carry, new, valType, val, hstage, hc, he, hguard⟩ :=
    exists_attempt heff h.1
  have hcarry : carry = true := by
    cases hcase : carry with
    | true => rfl
    | false =>
      obtain ⟨w', i', hlt, hcand⟩ := hguard hcase
      exact absurd (h.2 w' i' hcand) (by omega)
  have hload : load w c i = new := by
    rw [hc]
    exact load_store new h.1.2.1
  by_cases hflip : couldBeBitflip (xorAt inBuf c w i) = true
  · exact Or.inr hflip
  · have hexec : e = .exec stage i valType val c := by
      rw [xorAt, hload] at hflip
      rw [he, arithEvent, hcarry, if_neg (by decide), if_neg hflip, ← hc]
    exact Or.inl ⟨stage, i, valType, val, hstage, hexec ▸ hmem⟩

end Events

/-- Among the operations that make a buffer there is a narrowest one. -/
theorem exists_narrowest {inBuf c : List U8} {w i : Nat} (h : ArithCandidate inBuf w i c) :
    ∃ w' i', NarrowestArith inBuf c w' i' := by
  classical
  have hex : ∃ w, ∃ i, ArithCandidate inBuf w i c := ⟨w, i, h⟩
  obtain ⟨i', hi'⟩ := Nat.find_spec hex
  exact ⟨Nat.find hex, i', hi', fun w' i'' h' => Nat.find_min' hex ⟨i'', h'⟩⟩

/-- For every input with all bytes effective: the buffer that an arithmetic operation makes of it is
executed by an arithmetic stage, or `could_be_bitflip` accepts the change at the width and the
offset of the narrowest stage that makes it. -/
theorem arith_not_lost (env : DetEnv) (inBuf : List U8) (s s' : DetState)
    (hbuf : s.outBuf = inBuf) (hlog : s.log = []) (heff : AllEffective env inBuf s)
    (hpassed : env.passedDet = false) (hok : deterministic env inBuf.length s = .ok s')
    (w i : Nat) (c : List U8) (hc : ArithCandidate inBuf w i c) :
    ArithExecuted s'.log c ∨
      ((∃ w' i', NarrowestArith inBuf c w' i') ∧
        ∀ w' i', NarrowestArith inBuf c w' i' → couldBeBitflip (xorAt inBuf c w' i') = true) := by
  obtain ⟨eff, hall, hmap⟩ := exists_effMap heff
  have hlogs := deterministic_logs env s hbuf hmap
  rw [hok] at hlogs
  -- The stages were completed, so the whole plan is in the log.
  have hsub : ∀ e ∈ arithsPlan inBuf eff, e ∈ s'.log := by
    intro e he
    rw [hlogs.1, hlog, List.nil_append, deterministicPlan, hpassed, if_neg (by decide)]
    simp only [List.mem_append]
    exact Or.inr (Or.inr (Or.inr (Or.inl he)))
  by_cases hexec : ArithExecuted (arithsPlan inBuf eff) c
  · obtain ⟨stage, pos, valType, val, hstage, hmem⟩ := hexec
    exact Or.inl ⟨stage, pos, valType, val, hstage, hsub _ hmem⟩
  · refine Or.inr ⟨exists_narrowest hc, fun w' i' h' => ?_⟩
    exact (executed_or_bitflip hall h').resolve_left hexec

/-- Adding 35 to the word 240 changes two bytes. -/
theorem arith_not_lost_word :
    ∃ s', deterministic {} 2 { outBuf := [240, 0] } = .ok s' ∧
      ArithCandidate [240, 0] 2 0 [19, 1] ∧
      (ArithExecuted s'.log [19, 1] ∨
        ((∃ w' i', NarrowestArith [240, 0] [19, 1] w' i') ∧
          ∀ w' i', NarrowestArith [240, 0] [19, 1] w' i' →
            couldBeBitflip (xorAt [240, 0] [19, 1] w' i') = true)) := by
  have hcand : ArithCandidate [240, 0] 2 0 [19, 1] :=
    ⟨by decide, by decide, .add, .little, 35, by decide, by decide, by decide⟩
  have hdone : (deterministic {} 2 { outBuf := [240, 0] }).toOption.isSome = true := by
    decide +kernel
  cases hrun : deterministic {} 2 { outBuf := [240, 0] } with
  | error e =>
    rw [hrun] at hdone
    cases hdone
  | ok s' =>
    exact ⟨s', rfl, hcand, arith_not_lost {} _ { outBuf := [240, 0] } s' rfl rfl
      (allEffective_of_short _ _ _ (by decide)) rfl hrun 2 0 _ hcand⟩

end TriforceAFL.Proofs
