import TriforceAFL.Lib.BitOrder
import TriforceAFL.Lib.Logged
import TriforceAFL.Spec.Deterministic

/-!
# `TriforceAFL.Proofs.DeterministicPlan`: what the deterministic stages do to every candidate

The stages mutate one buffer in place and restore it, and an execution can abandon the entry at
any point. The plan of a stage is what it does to its candidates when nothing interferes: a plain
list of events, written in terms of the unmodified input. `deterministic_logs` relates the two: the
log of the stages is the plan, or an initial part of it when the entry is abandoned. So each
candidate is made from the unmodified input, and properties of the stages are properties of a list.

The plan takes the effector map as an argument, since the map depends on the executions. Inside a
stage the invariant is `Window`: the buffer is the input, up to the word that is being worked on.
-/

set_option autoImplicit false

namespace TriforceAFL.Proofs

open Lib Spec

/-! ### The bits that a flip changes -/

/-- A bit of the buffer after `FLIP_BIT`. -/
theorem bitAt_flipBit (buf : List U8) (b n : Nat) (hn : n < 8 * buf.length) :
    bitAt (flipBit buf b) n = (bitAt buf n ^^ decide (n = b)) := by
  have hlt : n / 8 < buf.length := by omega
  have hbit : ∀ i < 8, ∀ j < 8, (128#8 >>> i).getLsbD (7 - j) = decide (j = i) := by decide
  have hbyte : byteOf (flipBit buf b) (n / 8) =
      if b / 8 = n / 8 then byteOf buf (n / 8) ^^^ 128#8 >>> (b % 8) else byteOf buf (n / 8) := by
    rw [flipBit, Nat.shiftRight_eq_div_pow]
    simp only [byteOf, List.getD_eq_getElem?_getD, List.getElem?_modify,
      List.getElem?_eq_getElem hlt, Option.map_eq_map, Option.map_some, Option.getD_some]
  rw [bitAt, hbyte, bitAt]
  by_cases h : b / 8 = n / 8
  · rw [if_pos h, BitVec.getLsbD_xor, hbit (b % 8) (by omega) (n % 8) (by omega)]
    congr 1
    rw [decide_eq_decide]
    omega
  · have hne : n ≠ b := fun heq => h (by rw [heq])
    rw [if_neg h, decide_eq_false hne, Bool.xor_false]

theorem length_flipBit (buf : List U8) (b : Nat) : (flipBit buf b).length = buf.length := by
  simp [flipBit]

/-- `FLIP_BIT` of `k` consecutive bits flips that run of bits. -/
theorem flipsTo_flipBits (k b : Nat) (buf : List U8) : FlipsTo buf (flipBits k b buf) b k := by
  induction k with
  | zero =>
    refine ⟨rfl, fun n _ => ?_⟩
    have hnone : ¬ (b ≤ n ∧ n < b + 0) := by omega
    rw [decide_eq_false hnone, Bool.xor_false]
    rfl
  | succ k ih =>
    obtain ⟨hlen, hbits⟩ := ih
    have hsucc : flipBits (k + 1) b buf = flipBit (flipBits k b buf) (b + k) := by
      rw [flipBits, List.range_succ, List.foldl_append]
      rfl
    refine ⟨by rw [hsucc, length_flipBit, hlen], fun n hn => ?_⟩
    rw [hsucc, bitAt_flipBit _ _ n (by rwa [hlen]), hbits n hn, Bool.xor_assoc]
    congr 1
    -- The run grows by the bit that is flipped last.
    by_cases hlast : n = b + k
    · subst hlast
      simp
    · have hiff : (b ≤ n ∧ n < b + k) ↔ (b ≤ n ∧ n < b + (k + 1)) := by omega
      rw [decide_eq_false hlast, Bool.xor_false, decide_eq_decide]
      exact hiff

/-- Flipping all bits of a word flips a run of whole bytes. -/
theorem flipsTo_flipWord (n i : Nat) (buf : List U8) :
    FlipsTo buf (flipWord n i buf) (8 * i) (8 * n) := by
  refine ⟨length_store _ _ _ _, fun m hm => ?_⟩
  rw [flipWord, bitAt_store_xor n buf i _ m hm, BitVec.getLsbD_allOnes, ← Bool.decide_and]
  congr 1
  rw [decide_eq_decide]
  omega

theorem flipBits_flipBits (k b : Nat) (buf : List U8) :
    flipBits k b (flipBits k b buf) = buf :=
  (flipsTo_flipBits k b buf).involutive (flipsTo_flipBits k b _)

theorem flipWord_flipWord (n i : Nat) (buf : List U8) :
    flipWord n i (flipWord n i buf) = buf :=
  (flipsTo_flipWord n i buf).involutive (flipsTo_flipWord n i _)

/-! ### The plans -/

section Plan
variable (inBuf : List U8)

/-- Plan of a stage that walks over runs of `k` bits. `val` is the left-over `stage_cur_val`. -/
def bitsPlan (stage : Stage) (k : Nat) (val : Int) : List Event :=
  (List.range ((inBuf.length <<< 3) - (k - 1))).map fun b =>
    .exec stage (b >>> 3) .none val (flipBits k b inBuf)

/-- Plan of stage "bitflip 8/8". -/
def flip8Plan (val : Int) : List Event :=
  (List.range inBuf.length).map fun i => .exec .flip8 i .none val (flipWord 1 i inBuf)

/-- `eff_map[EFF_APOS(p)]` for a given map. -/
def effAt (eff : List Bool) (p : Nat) : Bool := eff.getD (effApos p) false

/-- Plan of a stage that walks over the `n`-byte words with an effective byte. -/
def wordsPlan (eff : List Bool) (n : Nat) (events : Nat → List Event) : List Event :=
  (List.range (inBuf.length - (n - 1))).flatMap fun i =>
    if (List.range n).all fun t => !effAt eff (i + t) then [] else events i

/-- Plan of the stages "bitflip 16/8" and "bitflip 32/8". -/
def flipWordsPlan (eff : List Bool) (stage : Stage) (n : Nat) (val : Int) : List Event :=
  wordsPlan inBuf eff n fun i => [.exec stage i .none val (flipWord n i inBuf)]

/-- What happens to an arithmetic candidate. -/
def arithEvent (stage : Stage) (n i : Nat) (carry : Bool) (new : BitVec (8 * n))
    (valType : StageValType) (val : Int) : Event :=
  let xorVal : U32 := (load n inBuf i ^^^ new).setWidth 32
  if !carry then .skip stage .carry (store n inBuf i new)
  else if couldBeBitflip xorVal then .skip stage (.bitflip xorVal) (store n inBuf i new)
  else .exec stage i valType val (store n inBuf i new)

/-- The candidates of "arith 8/8" at offset `i` for one `j`. -/
def arith8Events (i j : Nat) : List Event :=
  let orig : U8 := load 1 inBuf i
  let d : U8 := BitVec.ofNat 8 j
  [arithEvent inBuf .arith8 1 i true (orig + d) .le j,
    arithEvent inBuf .arith8 1 i true (orig - d) .le (-j)]

/-- The candidates of a wide arithmetic stage at offset `i` for one `j`. The guards look at the low
part of the word in either byte order. -/
def wideEvents (stage : Stage) (n i j max low lowSwapped : Nat)
    (swap : BitVec (8 * n) → BitVec (8 * n)) : List Event :=
  let orig := load n inBuf i
  let d := BitVec.ofNat (8 * n) j
  [arithEvent inBuf stage n i (low + j > max) (orig + d) .le j,
    arithEvent inBuf stage n i (low < j) (orig - d) .le (-j),
    arithEvent inBuf stage n i (lowSwapped + j > max) (swap (swap orig + d)) .be j,
    arithEvent inBuf stage n i (lowSwapped < j) (swap (swap orig - d)) .be (-j)]

/-- The candidates of "arith 16/8". -/
def arith16Events (i j : Nat) : List Event :=
  let orig : U16 := load 2 inBuf i
  wideEvents inBuf .arith16 2 i j 0xff (orig &&& 0xff).toNat (orig >>> 8).toNat swap16

/-- The candidates of "arith 32/8". -/
def arith32Events (i j : Nat) : List Event :=
  let orig : U32 := load 4 inBuf i
  wideEvents inBuf .arith32 4 i j 0xffff (orig &&& 0xffff).toNat
    (swap32 orig &&& 0xffff).toNat swap32

/-- Plan of an arithmetic stage. -/
def arithPlan (eff : List Bool) (n : Nat) (events : Nat → Nat → List Event) : List Event :=
  wordsPlan inBuf eff n fun i => (List.range' 1 ARITH_MAX).flatMap (events i)

/-- What happens to an insertion. -/
def interestEvent (stage : Stage) (n i : Nat) (new : BitVec (8 * n)) (skip : Option SkipReason)
    (valType : StageValType) (val : Int) : Event :=
  match skip with
  | some reason => .skip stage reason (store n inBuf i new)
  | none => .exec stage i valType val (store n inBuf i new)

/-- The candidate of "interest 8/8" at offset `i` for one table value. -/
def int8Events (i : Nat) (v : Int) : List Event :=
  let new : U8 := BitVec.ofInt 8 v
  [interestEvent inBuf .int8 1 i new (interestSkip 1 (load 1 inBuf i) new false) .le v]

/-- The two candidates of the wider stages. -/
def intEvents (stage : Stage) (n : Nat) (swap : BitVec (8 * n) → BitVec (8 * n)) (i : Nat)
    (v : Int) : List Event :=
  let new := BitVec.ofInt (8 * n) v
  [interestEvent inBuf stage n i new (interestSkip n (load n inBuf i) new false) .le v,
    interestEvent inBuf stage n i (swap new)
      (if new = swap new then some .palindrome
        else interestSkip n (load n inBuf i) (swap new) true) .be v]

/-- Plan of a stage with interesting values. -/
def intPlan (eff : List Bool) (n : Nat) (table : List Int) (events : Nat → Int → List Event) :
    List Event :=
  wordsPlan inBuf eff n fun i => table.flatMap (events i)

/-- Keep the plan of a stage that needs at least `n` bytes. -/
def ifLongEnough (n : Nat) (plan : List Event) : List Event :=
  if inBuf.length < n then [] else plan

/-- The stages from "bitflip 2/1" to "bitflip 8/8". -/
def walkingFlipsPlan (val : Int) : List Event :=
  bitsPlan inBuf .flip2 2 val ++ (bitsPlan inBuf .flip4 4 val ++ flip8Plan inBuf val)

/-- The stages "bitflip 16/8" and "bitflip 32/8". -/
def wideFlipsPlan (eff : List Bool) (val : Int) : List Event :=
  ifLongEnough inBuf 2 (flipWordsPlan inBuf eff .flip16 2 val ++
    ifLongEnough inBuf 4 (flipWordsPlan inBuf eff .flip32 4 val))

/-- The arithmetic stages. -/
def arithsPlan (eff : List Bool) : List Event :=
  arithPlan inBuf eff 1 (arith8Events inBuf) ++
    ifLongEnough inBuf 2 (arithPlan inBuf eff 2 (arith16Events inBuf) ++
      ifLongEnough inBuf 4 (arithPlan inBuf eff 4 (arith32Events inBuf)))

/-- The stages with interesting values. -/
def interestsPlan (eff : List Bool) : List Event :=
  intPlan inBuf eff 1 interesting8 (int8Events inBuf) ++
    ifLongEnough inBuf 2 (intPlan inBuf eff 2 interesting16 (intEvents inBuf .int16 2 swap16) ++
      ifLongEnough inBuf 4 (intPlan inBuf eff 4 interesting32 (intEvents inBuf .int32 4 swap32)))

/-- All deterministic stages. -/
def deterministicPlan (passedDet : Bool) (eff : List Bool) (val : Int) : List Event :=
  bitsPlan inBuf .flip1 1 val ++ if passedDet then [] else
    walkingFlipsPlan inBuf val ++ (wideFlipsPlan inBuf eff val ++
      (arithsPlan inBuf eff ++ interestsPlan inBuf eff))

end Plan

/-! ### The bitflip stages follow their plans -/

section Flips
variable (env : DetEnv) {inBuf : List U8} {val : Int}

/-- Between two turns of a bitflip stage the buffer is the input. -/
structure FlipInv (inBuf : List U8) (val : Int) (s : DetState) : Prop where
  buf : s.outBuf = inBuf
  valType : s.stageValType = .none
  curVal : s.stageCurVal = val

/-- One execution. -/
theorem commonFuzzStuff_logs (stage : Stage) (s : DetState) {e : Event}
    (he : e = .exec stage s.stageCurByte s.stageValType s.stageCurVal s.outBuf) :
    Logs DetState.log (commonFuzzStuff env stage s) s [e]
      (fun s' => s' = { s with log := s.log ++ [e] }) := by
  subst he
  unfold commonFuzzStuff
  dsimp only
  split
  · exact ⟨_, List.prefix_refl _, rfl⟩
  · exact ⟨rfl, rfl⟩

theorem walkBitsTurn_logs (stage : Stage) (k : Nat) (s : DetState) (b : Nat)
    (hs : FlipInv inBuf val s) :
    Logs DetState.log (walkBitsTurn env stage k s b) s
      [.exec stage (b >>> 3) .none val (flipBits k b inBuf)] (FlipInv inBuf val) := by
  obtain ⟨hbuf, htype, hval⟩ := hs
  refine Logs.map ((commonFuzzStuff_logs env stage _ ?_).of_log_eq rfl) ?_
  · rw [hbuf, htype, hval]
  · intro s' hs'
    subst hs'
    refine ⟨rfl, ?_, htype, hval⟩
    -- The stage flips the same bits once more after the execution.
    show flipBits k b (flipBits k b s.outBuf) = inBuf
    rw [flipBits_flipBits, hbuf]

/-- Collecting tokens touches only the token. -/
theorem collectTokens_frame (stageMax : Nat) (s : DetState) (stageCur : Nat)
    (hs : FlipInv inBuf val s) :
    (collectTokens env stageMax s stageCur).log = s.log ∧
      FlipInv inBuf val (collectTokens env stageMax s stageCur) := by
  have hflush : ∀ t : DetState, FlipInv inBuf val t →
      (flushToken t).log = t.log ∧ FlipInv inBuf val (flushToken t) := by
    intro t ht
    unfold flushToken
    split
    · exact ⟨rfl, ht.1, ht.2, ht.3⟩
    · exact ⟨rfl, ht⟩
  have hcollect : ∀ (t : DetState) (pos : Nat), FlipInv inBuf val t →
      FlipInv inBuf val (collectByte t pos) := fun t pos ht => ⟨ht.1, ht.2, ht.3⟩
  -- The three outcomes of the comparison with the previous checksum.
  have hcompare : ∀ (c : U32) (t : DetState), t = (if stageCur = stageMax - 1 && c = s.prevCksum
      then flushToken (collectByte s (stageCur >>> 3))
      else if c ≠ s.prevCksum then { flushToken s with aLen := 0, prevCksum := c } else s) →
      t.log = s.log ∧ FlipInv inBuf val t := by
    intro c t ht
    subst ht
    split
    · exact hflush _ (hcollect s _ hs)
    · split
      · obtain ⟨hlog, h'⟩ := hflush s hs
        exact ⟨hlog, h'.1, h'.2, h'.3⟩
      · exact ⟨rfl, hs⟩
  unfold collectTokens
  split
  · dsimp only
    obtain ⟨hlog, h'⟩ := hcompare (env.cksum s.log) _ rfl
    split
    · exact ⟨hlog, hcollect _ _ h'⟩
    · exact ⟨hlog, h'⟩
  · exact ⟨rfl, hs⟩

/-- A loop over single events is a map. -/
theorem flatMap_singleton_eq_map {α : Type} (l : List α) (f : α → Event) :
    (l.flatMap fun a => [f a]) = l.map f := by
  rw [← List.flatMap_pure_eq_map]
  rfl

theorem flip1_logs (s : DetState) (hbuf : s.outBuf = inBuf) (hval : s.stageCurVal = val) :
    Logs DetState.log (flip1 env inBuf.length s) s (bitsPlan inBuf .flip1 1 val)
      (FlipInv inBuf val) := by
  unfold flip1 flip1Loop bitsPlan
  rw [← flatMap_singleton_eq_map]
  refine Logs.map (P := FlipInv inBuf val) ((Logs.foldlM _ ?_ _ ⟨hbuf, rfl, hval⟩).of_log_eq rfl)
    fun s' hs' => ⟨rfl, hs'.1, hs'.2, hs'.3⟩
  intro b _ t ht
  refine Logs.map (walkBitsTurn_logs env .flip1 1 t b ht) fun s' hs' => ?_
  exact collectTokens_frame env _ s' b hs'

theorem walkBits_logs (stage : Stage) (k : Nat) (s : DetState) (hs : FlipInv inBuf val s) :
    Logs DetState.log (walkBits env stage k inBuf.length s) s (bitsPlan inBuf stage k val)
      (FlipInv inBuf val) := by
  unfold walkBits bitsPlan
  rw [← flatMap_singleton_eq_map]
  refine Logs.map (P := FlipInv inBuf val) ((Logs.foldlM _ ?_ _ ⟨hs.1, hs.2, hs.3⟩).of_log_eq rfl)
    fun s' hs' => ⟨rfl, hs'.1, hs'.2, hs'.3⟩
  exact fun b _ t ht => walkBitsTurn_logs env stage k t b ht

theorem flagEffector_frame (len : Nat) (s : DetState) (stageCur : Nat) :
    (flagEffector env len s stageCur).log = s.log ∧
      (flagEffector env len s stageCur).outBuf = s.outBuf ∧
      (flagEffector env len s stageCur).stageValType = s.stageValType ∧
      (flagEffector env len s stageCur).stageCurVal = s.stageCurVal := by
  unfold flagEffector
  split
  · dsimp only
    split <;> split <;> exact ⟨rfl, rfl, rfl, rfl⟩
  · exact ⟨rfl, rfl, rfl, rfl⟩

theorem initEffMap_frame (len : Nat) (s : DetState) (hs : FlipInv inBuf val s) :
    (initEffMap len s).log = s.log ∧ FlipInv inBuf val (initEffMap len s) := by
  unfold initEffMap
  dsimp only
  split
  · exact ⟨rfl, hs.1, hs.2, hs.3⟩
  · exact ⟨rfl, hs.1, hs.2, hs.3⟩

theorem closeEffMap_frame (len : Nat) (s : DetState) (hs : FlipInv inBuf val s) :
    (closeEffMap len s).log = s.log ∧ FlipInv inBuf val (closeEffMap len s) := by
  unfold closeEffMap
  dsimp only
  split
  · exact ⟨rfl, hs.1, hs.2, hs.3⟩
  · exact ⟨rfl, hs.1, hs.2, hs.3⟩

theorem flip8_logs (s : DetState) (hs : FlipInv inBuf val s) :
    Logs DetState.log (flip8 env inBuf.length s) s (flip8Plan inBuf val) (FlipInv inBuf val) := by
  obtain ⟨hlog₀, hs₀⟩ := initEffMap_frame inBuf.length s hs
  unfold flip8 flip8Plan
  rw [← flatMap_singleton_eq_map]
  refine Logs.map (P := FlipInv inBuf val)
    ((Logs.foldlM _ ?_ (beginStage _ (initEffMap inBuf.length s)) ⟨hs₀.1, hs₀.2, hs₀.3⟩).of_log_eq
      hlog₀) fun s' hs' => ?_
  · intro i _ t ht
    obtain ⟨hbuf, htype, hval⟩ := ht
    refine Logs.map ((commonFuzzStuff_logs env .flip8 _ ?_).of_log_eq rfl) fun s' hs' => ?_
    · rw [hbuf, htype, hval]
    · subst hs'
      obtain ⟨hlog, hout, htype', hval'⟩ := flagEffector_frame env inBuf.length
        { t with
          stageCurByte := i, outBuf := flipWord 1 i t.outBuf
          log := t.log ++ [Event.exec .flip8 i .none val (flipWord 1 i inBuf)] } i
      refine ⟨hlog, ?_, htype'.trans htype, hval'.trans hval⟩
      -- `flag_effector` looks at the checksum, the buffer is flipped back.
      show flipWord 1 i (flagEffector env inBuf.length _ i).outBuf = inBuf
      rw [hout, flipWord_flipWord, hbuf]
  · -- After the loop only the effector map is adjusted.
    obtain ⟨hlog, hclose⟩ := closeEffMap_frame inBuf.length s' hs'
    exact ⟨hlog, hclose.1, hclose.2, hclose.3⟩

/-- A walk over words, for a body that works at an offset inside the buffer. -/
theorem walkWords_logs {eff : List Bool} {n : Nat} (cost : Nat) (hn : 0 < n)
    {body : DetState → Nat → StageM DetState} {events : Nat → List Event} {Inv : DetState → Prop}
    (heff : ∀ s, Inv s → s.effMap = eff)
    (hmax : ∀ s max, Inv s → Inv { s with stageMax := max })
    (hbody : ∀ i, i + n ≤ inBuf.length → ∀ s, Inv s →
      Logs DetState.log (body { s with stageCurByte := i } i) s (events i) Inv)
    (s : DetState) (hs : Inv s) :
    Logs DetState.log (walkWords inBuf.length n cost body s) s (wordsPlan inBuf eff n events)
      Inv := by
  unfold walkWords wordsPlan
  refine Logs.foldlM _ ?_ s hs
  intro i hi t ht
  have hin : i + n ≤ inBuf.length := by
    rw [List.mem_range] at hi
    omega
  -- The test for an effective byte reads the map that is fixed by now.
  have hcond : ((List.range n).all fun p => !t.effective (i + p)) =
      (List.range n).all fun p => !effAt eff (i + p) := by
    rw [← heff t ht]
    rfl
  rw [hcond]
  split
  · exact Logs.pure rfl (hmax t _ ht)
  · exact hbody i hin t ht

/-- In the later stages the effector map is fixed. -/
structure FlipEffInv (inBuf : List U8) (val : Int) (eff : List Bool) (s : DetState) : Prop
    extends FlipInv inBuf val s where
  effMap : s.effMap = eff

theorem flipWords_logs {eff : List Bool} (stage : Stage) (n : Nat) (hn : 0 < n) (s : DetState)
    (hs : FlipEffInv inBuf val eff s) :
    Logs DetState.log (flipWords env stage n inBuf.length s) s
      (flipWordsPlan inBuf eff stage n val) (FlipEffInv inBuf val eff) := by
  unfold flipWords flipWordsPlan
  refine Logs.map (P := FlipEffInv inBuf val eff)
    ((walkWords_logs 1 hn (fun s h => h.effMap) (fun s _ h => ⟨⟨h.1.1, h.1.2, h.1.3⟩, h.2⟩) ?_ _
      ⟨⟨hs.1.1, hs.1.2, hs.1.3⟩, hs.2⟩).of_log_eq rfl)
    fun s' hs' => ⟨rfl, ⟨hs'.1.1, hs'.1.2, hs'.1.3⟩, hs'.2⟩
  intro i _ t ht
  obtain ⟨⟨hbuf, htype, hval⟩, heff⟩ := ht
  refine Logs.map ((commonFuzzStuff_logs env stage _ ?_).of_log_eq rfl) fun s' hs' => ?_
  · rw [hbuf, htype, hval]
  · subst hs'
    refine ⟨rfl, ⟨?_, htype, hval⟩, heff⟩
    show flipWord n i (flipWord n i t.outBuf) = inBuf
    rw [flipWord_flipWord, hbuf]

end Flips

/-! ### The arithmetic and interesting-value stages follow their plans -/

section Words
variable (env : DetEnv) {inBuf : List U8} {eff : List Bool} {s : DetState} {n i : Nat}

/-- While the stage works at offset `i`, the buffer is the input up to the `n`-byte word there. -/
structure Window (inBuf : List U8) (eff : List Bool) (n i : Nat) (s : DetState) : Prop where
  buf : ∃ v, s.outBuf = store n inBuf i v
  effMap : s.effMap = eff
  curByte : s.stageCurByte = i

/-- A word written over the window gives the candidate made from the input. -/
theorem Window.store_eq (h : Window inBuf eff n i s) (new : BitVec (8 * n)) :
    store n s.outBuf i new = store n inBuf i new := by
  obtain ⟨v, hv⟩ := h.buf
  rw [hv, store_store]

/-- Writing the original word ends the work at the offset. -/
theorem Window.restore (h : Window inBuf eff n i s) :
    store n s.outBuf i (load n inBuf i) = inBuf := by
  rw [h.store_eq, store_load]

/-- Executing a candidate. -/
theorem execWord_logs (stage : Stage) (n i : Nat) (new : BitVec (8 * n)) {valType : StageValType}
    {val : Int} (s : DetState) (hs : Window inBuf eff n i s) (htype : s.stageValType = valType)
    (hval : s.stageCurVal = val) :
    Logs DetState.log (execWord env stage n i new s) s
      [.exec stage i valType val (store n inBuf i new)]
      (fun s' => Window inBuf eff n i s' ∧ s'.stageValType = valType ∧ s'.stageCurVal = val) := by
  refine Logs.mono ((commonFuzzStuff_logs env stage _ ?_).of_log_eq rfl) ?_
  · rw [hs.store_eq, hs.curByte, htype, hval]
  · intro s' hs'
    subst hs'
    exact ⟨⟨⟨new, hs.store_eq new⟩, hs.effMap, hs.curByte⟩, htype, hval⟩

/-- Skipping a candidate. -/
theorem skipWord_logs (stage : Stage) (n i : Nat) (new : BitVec (8 * n)) (reason : SkipReason)
    (s : DetState) (hs : Window inBuf eff n i s) :
    Logs DetState.log (pure (skipWord stage n i new reason s)) s
      [.skip stage reason (store n inBuf i new)]
      (fun s' => Window inBuf eff n i s' ∧ s'.stageValType = s.stageValType ∧
        s'.stageCurVal = s.stageCurVal ∧ s'.outBuf = s.outBuf) := by
  refine ⟨?_, ⟨hs.buf, hs.effMap, hs.curByte⟩, rfl, rfl, rfl⟩
  show s.log ++ [Event.skip stage reason (store n s.outBuf i new)] = _
  rw [hs.store_eq]

theorem tryArith_logs (stage : Stage) (n i : Nat) (carry : Bool) (new : BitVec (8 * n))
    (valType : StageValType) (val : Int) (s : DetState)
    (hs : Window inBuf eff n i s ∧ s.stageValType = valType) :
    Logs DetState.log (tryArith env stage n i carry (load n inBuf i) new val s) s
      [arithEvent inBuf stage n i carry new valType val]
      (fun s' => Window inBuf eff n i s' ∧ s'.stageValType = valType) := by
  obtain ⟨hwin, htype⟩ := hs
  unfold tryArith arithEvent
  dsimp only
  split
  · exact (skipWord_logs stage n i new _ s hwin).mono fun s' h => ⟨h.1, h.2.1.trans htype⟩
  · split
    · exact (skipWord_logs stage n i new _ s hwin).mono fun s' h => ⟨h.1, h.2.1.trans htype⟩
    · have hwin' : Window inBuf eff n i { s with stageCurVal := val } :=
        ⟨hwin.buf, hwin.effMap, hwin.curByte⟩
      exact ((execWord_logs env stage n i new _ hwin' htype rfl).of_log_eq rfl).mono
        fun s' h => ⟨h.1, h.2.1⟩

theorem tryInterest_logs (stage : Stage) (n i : Nat) (valType : StageValType) (new : BitVec (8 * n))
    (skip : Option SkipReason) (val : Int) (s : DetState)
    (hs : Window inBuf eff n i s ∧ s.stageCurVal = val) :
    Logs DetState.log (tryInterest env stage n i valType new skip s) s
      [interestEvent inBuf stage n i new skip valType val]
      (fun s' => Window inBuf eff n i s' ∧ s'.stageCurVal = val) := by
  obtain ⟨hwin, hval⟩ := hs
  cases skip with
  | some reason =>
    exact (skipWord_logs stage n i new reason s hwin).mono
      fun s' h => ⟨h.1, h.2.2.1.trans hval⟩
  | none =>
    have hwin' : Window inBuf eff n i { s with stageValType := valType } :=
      ⟨hwin.buf, hwin.effMap, hwin.curByte⟩
    exact ((execWord_logs env stage n i new _ hwin' rfl hval).of_log_eq rfl).mono
      fun s' h => ⟨h.1, h.2.2⟩

/-- Between two candidates at offset `i` of a stage that restores the buffer each time, and with
`stage_val_type` fixed if the stage fixes it. -/
structure AtOffset (inBuf : List U8) (eff : List Bool) (i : Nat) (fixed : Option StageValType)
    (s : DetState) : Prop where
  buf : s.outBuf = inBuf
  effMap : s.effMap = eff
  curByte : s.stageCurByte = i
  valType : ∀ valType ∈ fixed, s.stageValType = valType

/-- Between two offsets. -/
structure WordInv (inBuf : List U8) (eff : List Bool) (fixed : Option StageValType)
    (s : DetState) : Prop where
  buf : s.outBuf = inBuf
  effMap : s.effMap = eff
  valType : ∀ valType ∈ fixed, s.stageValType = valType

theorem WordInv.begin (h : WordInv inBuf eff none s) (max : Nat) :
    WordInv inBuf eff none (beginStage max s) :=
  ⟨h.buf, h.effMap, by simp⟩

theorem WordInv.begin_le (h : WordInv inBuf eff none s) (max : Nat) :
    WordInv inBuf eff (some .le) (beginStage max { s with stageValType := .le }) := by
  refine ⟨h.buf, h.effMap, fun valType hfixed => ?_⟩
  cases hfixed
  rfl

theorem WordInv.finish {fixed : Option StageValType} (h : WordInv inBuf eff fixed s)
    (stage : Stage) : WordInv inBuf eff none (endStage stage s) :=
  ⟨h.buf, h.effMap, by simp⟩

/-- The original word is in place, so the window is open for any width. -/
theorem AtOffset.window {i : Nat} {fixed : Option StageValType} (h : AtOffset inBuf eff i fixed s)
    (n : Nat) : Window inBuf eff n i s :=
  ⟨⟨load n inBuf i, h.buf.trans (store_load n inBuf i).symm⟩, h.effMap, h.curByte⟩

/-- Writing the original word back closes the window. -/
theorem Window.atOffset {fixed : Option StageValType} (h : Window inBuf eff n i s)
    (htype : ∀ valType ∈ fixed, s.stageValType = valType) :
    AtOffset inBuf eff i fixed { s with outBuf := store n s.outBuf i (load n inBuf i) } :=
  ⟨h.restore, h.effMap, h.curByte, htype⟩

/-- A state at an offset with another value type, in a stage that does not fix it. -/
theorem Window.setValType (h : Window inBuf eff n i s) (valType : StageValType) :
    Window inBuf eff n i { s with stageValType := valType } ∧
      { s with stageValType := valType }.stageValType = valType :=
  ⟨⟨h.buf, h.effMap, h.curByte⟩, rfl⟩

theorem arith8Turn_logs (i : Nat) (s : DetState) (j : Nat)
    (hs : AtOffset inBuf eff i (some .le) s) :
    Logs DetState.log (arith8Turn env i (load 1 inBuf i) s j) s (arith8Events inBuf i j)
      (AtOffset inBuf eff i (some .le)) := by
  have h₀ : Window inBuf eff 1 i s ∧ s.stageValType = .le := ⟨hs.window 1, hs.valType .le rfl⟩
  refine Logs.cons (tryArith_logs env .arith8 1 i true _ .le j s h₀) fun s₁ h₁ => ?_
  refine Logs.map (tryArith_logs env .arith8 1 i true _ .le (-j) s₁ h₁) fun s₂ h₂ => ?_
  refine ⟨rfl, h₂.1.atOffset fun valType hfixed => ?_⟩
  cases hfixed
  exact h₂.2

/-- The four candidates of a wider stage: sum and difference, first little-endian, then
big-endian. -/
theorem bothOrders_logs (stage : Stage) (n i j : Nat) (c₁ c₂ c₃ c₄ : Bool)
    (x₁ x₂ x₃ x₄ : BitVec (8 * n)) (s : DetState) (hs : AtOffset inBuf eff i none s) :
    Logs DetState.log (do
        let s ← tryArith env stage n i c₁ (load n inBuf i) x₁ j { s with stageValType := .le }
        let s ← tryArith env stage n i c₂ (load n inBuf i) x₂ (-j) s
        let s ← tryArith env stage n i c₃ (load n inBuf i) x₃ j { s with stageValType := .be }
        let s ← tryArith env stage n i c₄ (load n inBuf i) x₄ (-j) s
        pure { s with outBuf := store n s.outBuf i (load n inBuf i) }) s
      [arithEvent inBuf stage n i c₁ x₁ .le j, arithEvent inBuf stage n i c₂ x₂ .le (-j),
        arithEvent inBuf stage n i c₃ x₃ .be j, arithEvent inBuf stage n i c₄ x₄ .be (-j)]
      (AtOffset inBuf eff i none) := by
  refine Logs.cons ((tryArith_logs env stage n i c₁ x₁ .le j _
    ((hs.window n).setValType .le)).of_log_eq rfl) fun s₁ h₁ => ?_
  refine Logs.cons (tryArith_logs env stage n i c₂ x₂ .le (-j) s₁ h₁) fun s₂ h₂ => ?_
  refine Logs.cons ((tryArith_logs env stage n i c₃ x₃ .be j _
    (h₂.1.setValType .be)).of_log_eq rfl) fun s₃ h₃ => ?_
  refine Logs.map (tryArith_logs env stage n i c₄ x₄ .be (-j) s₃ h₃) fun s₄ h₄ => ?_
  -- The original word is written back only now.
  exact ⟨rfl, h₄.1.atOffset fun _ hfixed => by cases hfixed⟩

theorem arith16Turn_logs (i : Nat) (s : DetState) (j : Nat) (hs : AtOffset inBuf eff i none s) :
    Logs DetState.log (arith16Turn env i (load 2 inBuf i) s j) s (arith16Events inBuf i j)
      (AtOffset inBuf eff i none) :=
  bothOrders_logs env .arith16 2 i j _ _ _ _ _ _ _ _ s hs

theorem arith32Turn_logs (i : Nat) (s : DetState) (j : Nat) (hs : AtOffset inBuf eff i none s) :
    Logs DetState.log (arith32Turn env i (load 4 inBuf i) s j) s (arith32Events inBuf i j)
      (AtOffset inBuf eff i none) :=
  bothOrders_logs env .arith32 4 i j _ _ _ _ _ _ _ _ s hs

theorem int8Turn_logs (i : Nat) (s : DetState) (v : Int) (hs : AtOffset inBuf eff i (some .le) s) :
    Logs DetState.log (int8Turn env i (load 1 inBuf i) s v) s (int8Events inBuf i v)
      (AtOffset inBuf eff i (some .le)) := by
  have hwin := hs.window 1
  have htype := hs.valType .le rfl
  unfold int8Turn int8Events
  dsimp only
  cases interestSkip 1 (load 1 inBuf i) (BitVec.ofInt 8 v) false with
  | some reason =>
    -- A skipped value leaves the buffer alone, so there is nothing to restore.
    refine (skipWord_logs .int8 1 i _ reason s hwin).mono fun s' h => ?_
    obtain ⟨hwin', htype', _, hbuf⟩ := h
    refine ⟨hbuf.trans hs.buf, hwin'.effMap, hwin'.curByte, fun valType hfixed => ?_⟩
    cases hfixed
    exact htype'.trans htype
  | none =>
    have hwin' : Window inBuf eff 1 i { s with stageCurVal := v } :=
      ⟨hwin.buf, hwin.effMap, hwin.curByte⟩
    refine Logs.map ((execWord_logs env .int8 1 i _ _ hwin' htype rfl).of_log_eq rfl)
      fun s' h => ⟨rfl, h.1.atOffset fun valType hfixed => ?_⟩
    cases hfixed
    exact h.2.1

theorem intTurn_logs (stage : Stage) (n : Nat) (swap : BitVec (8 * n) → BitVec (8 * n)) (i : Nat)
    (s : DetState) (v : Int) (hs : Window inBuf eff n i s) :
    Logs DetState.log (intTurn env stage n swap i (load n inBuf i) s v) s
      (intEvents inBuf stage n swap i v) (Window inBuf eff n i) := by
  have hwin : Window inBuf eff n i { s with stageCurVal := v } ∧
      { s with stageCurVal := v }.stageCurVal = v := ⟨⟨hs.buf, hs.effMap, hs.curByte⟩, rfl⟩
  refine Logs.cons ((tryInterest_logs env stage n i .le _ _ v _ hwin).of_log_eq rfl)
    fun s₁ h₁ => ?_
  exact (tryInterest_logs env stage n i .be _ _ v s₁ h₁).mono fun s' h => h.1

/-- A walk over words that starts and ends with the input in the buffer. -/
theorem walkWords_wordInv_logs {n : Nat} (cost : Nat) (hn : 0 < n) (fixed : Option StageValType)
    {body : DetState → Nat → StageM DetState} {events : Nat → List Event}
    (hbody : ∀ i s, AtOffset inBuf eff i fixed s →
      Logs DetState.log (body s i) s (events i) (WordInv inBuf eff fixed))
    (s : DetState) (hs : WordInv inBuf eff fixed s) :
    Logs DetState.log (walkWords inBuf.length n cost body s) s (wordsPlan inBuf eff n events)
      (WordInv inBuf eff fixed) := by
  refine walkWords_logs cost hn (fun s h => h.effMap) (fun s _ h => ⟨h.1, h.2, h.3⟩) ?_ s hs
  intro i _ t ht
  have hat : AtOffset inBuf eff i fixed { t with stageCurByte := i } :=
    ⟨ht.buf, ht.effMap, rfl, ht.valType⟩
  exact (hbody i _ hat).of_log_eq rfl

/-- The three arithmetic stages. -/
theorem arith_logs {n : Nat} (cost : Nat) (hn : 0 < n) (fixed : Option StageValType)
    {turn : Nat → BitVec (8 * n) → DetState → Nat → StageM DetState}
    {events : Nat → Nat → List Event}
    (hturn : ∀ i s j, AtOffset inBuf eff i fixed s →
      Logs DetState.log (turn i (load n inBuf i) s j) s (events i j) (AtOffset inBuf eff i fixed))
    (s : DetState) (hs : WordInv inBuf eff fixed s) :
    Logs DetState.log (walkWords inBuf.length n cost
        (fun s i => (List.range' 1 ARITH_MAX).foldlM (turn i (load n s.outBuf i)) s) s) s
      (arithPlan inBuf eff n events) (WordInv inBuf eff fixed) := by
  refine walkWords_wordInv_logs cost hn fixed (fun i t ht => ?_) s hs
  rw [ht.buf]
  exact (Logs.foldlM _ (fun j _ u hu => hturn i u j hu) t ht).mono fun s' h => ⟨h.1, h.2, h.4⟩

theorem arith8_logs (s : DetState) (hs : WordInv inBuf eff none s) :
    Logs DetState.log (arith8 env inBuf.length s) s (arithPlan inBuf eff 1 (arith8Events inBuf))
      (WordInv inBuf eff none) :=
  Logs.map ((arith_logs _ (by decide) (some .le) (fun i t j => arith8Turn_logs env i t j) _
    (hs.begin_le (2 * inBuf.length * ARITH_MAX))).of_log_eq rfl) fun _ h => ⟨rfl, h.finish .arith8⟩

theorem arith16_logs (s : DetState) (hs : WordInv inBuf eff none s) :
    Logs DetState.log (arith16 env inBuf.length s) s (arithPlan inBuf eff 2 (arith16Events inBuf))
      (WordInv inBuf eff none) :=
  Logs.map ((arith_logs _ (by decide) none (fun i t j => arith16Turn_logs env i t j) _
    (hs.begin (4 * (inBuf.length - 1) * ARITH_MAX))).of_log_eq rfl)
    fun _ h => ⟨rfl, h.finish .arith16⟩

theorem arith32_logs (s : DetState) (hs : WordInv inBuf eff none s) :
    Logs DetState.log (arith32 env inBuf.length s) s (arithPlan inBuf eff 4 (arith32Events inBuf))
      (WordInv inBuf eff none) :=
  Logs.map ((arith_logs _ (by decide) none (fun i t j => arith32Turn_logs env i t j) _
    (hs.begin (4 * (inBuf.length - 3) * ARITH_MAX))).of_log_eq rfl)
    fun _ h => ⟨rfl, h.finish .arith32⟩

theorem int8_logs (s : DetState) (hs : WordInv inBuf eff none s) :
    Logs DetState.log (int8 env inBuf.length s) s
      (intPlan inBuf eff 1 interesting8 (int8Events inBuf)) (WordInv inBuf eff none) := by
  refine Logs.map ((walkWords_wordInv_logs _ (by decide) (some .le) (fun i t ht => ?_) _
    (hs.begin_le (inBuf.length * interesting8.length))).of_log_eq rfl)
    fun _ h => ⟨rfl, h.finish .int8⟩
  rw [ht.buf]
  exact (Logs.foldlM _ (fun v _ u hu => int8Turn_logs env i u v hu) t ht).mono
    fun s' h => ⟨h.1, h.2, h.4⟩

theorem intWords_logs (stage : Stage) {n : Nat} (hn : 0 < n)
    (swap : BitVec (8 * n) → BitVec (8 * n)) (table : List Int) (s : DetState)
    (hs : WordInv inBuf eff none s) :
    Logs DetState.log (intWords env stage n swap table inBuf.length s) s
      (intPlan inBuf eff n table (intEvents inBuf stage n swap)) (WordInv inBuf eff none) := by
  refine Logs.map ((walkWords_wordInv_logs _ hn none (fun i t ht => ?_) _
    (hs.begin (2 * (inBuf.length - (n - 1)) * table.length))).of_log_eq rfl)
    fun _ h => ⟨rfl, h.finish stage⟩
  dsimp only
  rw [ht.buf]
  -- The turns leave the last value in the buffer; it is restored after the table.
  refine Logs.map (Logs.foldlM _ (fun v _ u hu => intTurn_logs env stage n swap i u v hu) t
    (ht.window n)) fun s' h => ?_
  exact ⟨rfl, h.restore, h.effMap, by simp⟩

theorem int16_logs (s : DetState) (hs : WordInv inBuf eff none s) :
    Logs DetState.log (int16 env inBuf.length s) s
      (intPlan inBuf eff 2 interesting16 (intEvents inBuf .int16 2 swap16))
      (WordInv inBuf eff none) :=
  intWords_logs (n := 2) env .int16 (by decide) swap16 interesting16 s hs

theorem int32_logs (s : DetState) (hs : WordInv inBuf eff none s) :
    Logs DetState.log (int32 env inBuf.length s) s
      (intPlan inBuf eff 4 interesting32 (intEvents inBuf .int32 4 swap32))
      (WordInv inBuf eff none) :=
  intWords_logs (n := 4) env .int32 (by decide) swap32 interesting32 s hs

end Words

/-! ### All stages -/

section All
variable (env : DetEnv) {inBuf : List U8} {eff : List Bool}

/-- A family of stages: one always, a second for two bytes, a third for four. -/
theorem family_logs {Inv : DetState → Prop} {f g h : Nat → DetState → StageM DetState}
    {pf pg ph : List Event}
    (hf : ∀ s, Inv s → Logs DetState.log (f inBuf.length s) s pf Inv)
    (hg : ∀ s, Inv s → Logs DetState.log (g inBuf.length s) s pg Inv)
    (hh : ∀ s, Inv s → Logs DetState.log (h inBuf.length s) s ph Inv)
    (s : DetState) (hs : Inv s) :
    Logs DetState.log (do
        let s ← f inBuf.length s
        if inBuf.length < 2 then pure s
        else
          let s ← g inBuf.length s
          if inBuf.length < 4 then pure s else h inBuf.length s) s
      (pf ++ ifLongEnough inBuf 2 (pg ++ ifLongEnough inBuf 4 ph)) Inv := by
  -- An input that is too short for a stage is too short for the wider ones.
  refine Logs.bind (hf s hs) fun s₁ _ h₁ => ?_
  unfold ifLongEnough
  split
  · exact Logs.pure rfl h₁
  · refine Logs.bind (hg s₁ h₁) fun s₂ _ h₂ => ?_
    split
    · exact Logs.pure rfl h₂
    · exact hh s₂ h₂

theorem ariths_logs (s : DetState) (hs : WordInv inBuf eff none s) :
    Logs DetState.log (ariths env inBuf.length s) s (arithsPlan inBuf eff)
      (WordInv inBuf eff none) :=
  family_logs (f := arith8 env) (g := arith16 env) (h := arith32 env) (arith8_logs env)
    (arith16_logs env) (arith32_logs env) s hs

theorem interests_logs (s : DetState) (hs : WordInv inBuf eff none s) :
    Logs DetState.log (interests env inBuf.length s) s (interestsPlan inBuf eff)
      (WordInv inBuf eff none) :=
  family_logs (f := int8 env) (g := int16 env) (h := int32 env) (int8_logs env) (int16_logs env)
    (int32_logs env) s hs

theorem walkingFlips_logs {val : Int} (s : DetState) (hs : FlipInv inBuf val s) :
    Logs DetState.log (walkingFlips env inBuf.length s) s (walkingFlipsPlan inBuf val)
      (FlipInv inBuf val) := by
  refine Logs.bind (walkBits_logs env .flip2 2 s hs) fun s₁ _ h₁ => ?_
  refine Logs.bind (walkBits_logs env .flip4 4 s₁ h₁) fun s₂ _ h₂ => ?_
  exact flip8_logs env s₂ h₂

theorem wideFlips_logs {val : Int} (s : DetState) (hs : FlipEffInv inBuf val eff s) :
    Logs DetState.log (wideFlips env inBuf.length s) s (wideFlipsPlan inBuf eff val)
      (FlipEffInv inBuf val eff) := by
  unfold wideFlips wideFlipsPlan ifLongEnough
  split
  · exact Logs.pure rfl hs
  · refine Logs.bind (flipWords_logs env .flip16 2 (by decide) s hs) fun s₁ _ h₁ => ?_
    split
    · exact Logs.pure rfl h₁
    · exact flipWords_logs env .flip32 4 (by decide) s₁ h₁

/-- The deterministic stages follow their plan, for the effector map that stage "bitflip 8/8"
leaves, and they leave the input in the buffer. -/
theorem deterministic_logs (s : DetState) (hbuf : s.outBuf = inBuf)
    (heff : ∀ s₁ s₈, flip1 env inBuf.length s = .ok s₁ →
      walkingFlips env inBuf.length s₁ = .ok s₈ → s₈.effMap = eff) :
    Logs DetState.log (deterministic env inBuf.length s) s
      (deterministicPlan inBuf env.passedDet eff s.stageCurVal)
      (fun s' => s'.outBuf = inBuf) := by
  unfold deterministic deterministicPlan
  refine Logs.bind (flip1_logs env s hbuf rfl) fun s₁ hok₁ h₁ => ?_
  split
  · exact Logs.pure rfl h₁.buf
  · refine Logs.bind (walkingFlips_logs env s₁ h₁) fun s₈ hok₈ h₈ => ?_
    -- From here on the plan depends on the effector map that "bitflip 8/8" has left.
    have hwide : FlipEffInv inBuf s.stageCurVal eff s₈ := ⟨h₈, heff s₁ s₈ hok₁ hok₈⟩
    refine Logs.bind (wideFlips_logs env s₈ hwide) fun s₂ _ h₂ => ?_
    have hwords : WordInv inBuf eff none s₂ := ⟨h₂.buf, h₂.effMap, fun _ hfixed => by cases hfixed⟩
    refine Logs.bind (ariths_logs env s₂ hwords) fun s₃ _ h₃ => ?_
    exact (interests_logs env s₃ h₃).mono fun s' h => h.buf

end All

end TriforceAFL.Proofs
