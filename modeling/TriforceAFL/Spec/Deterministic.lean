import TriforceAFL.Spec.Redundant
import TriforceAFL.Spec.State

/-!
# `TriforceAFL.Spec.Deterministic`: the deterministic stages of `fuzz_one`

The bitflip, arithmetic and interesting-value stages, from the label-free start of the
deterministic part up to `skip_interest`. Every stage mutates `out_buf` in place, hands it to
`common_fuzz_stuff` and restores it.

`DetState` holds the locals and globals that the stages write. `log` records what happens to every
candidate: it is executed, or it is skipped for a reason. What the executions report is an input of
the model: `DetEnv.abandon` says whether `common_fuzz_stuff` asks to abandon the entry, and
`DetEnv.cksum` is the checksum of `trace_bits`, both as functions of what was executed so far. A
stage returns `.error` when it jumps to `abandon_entry`.

`stage_cur`, the stage names and the finds per stage are shown on the screen only and are left
out.
-/

set_option autoImplicit false

namespace TriforceAFL.Spec

open Lib

/-- The deterministic stages, by their `stage_short` names. -/
inductive Stage
  | flip1
  | flip2
  | flip4
  | flip8
  | flip16
  | flip32
  | arith8
  | arith16
  | arith32
  | int8
  | int16
  | int32
deriving DecidableEq

/-- Why a candidate is skipped. -/
inductive SkipReason
  /-- The operation affects no byte beyond those of the narrower stage. -/
  | carry
  /-- `could_be_bitflip` returned 1 for this change. -/
  | bitflip (xorVal : U32)
  /-- `could_be_arith` returned 1. -/
  | arith
  /-- `could_be_interest` returned 1. -/
  | interest
  /-- The value equals its own byte swap. -/
  | palindrome
deriving DecidableEq

/-- What happens to a candidate buffer. -/
inductive Event
  | exec (stage : Stage) (curByte : Nat) (valType : StageValType) (curVal : Int) (buf : List U8)
  | skip (stage : Stage) (reason : SkipReason) (buf : List U8)
deriving DecidableEq

/-- What is fixed while an entry is fuzzed, and what the executions report. -/
structure DetEnv where
  dumbMode : Bool := false
  passedDet : Bool := false
  /-- `queue_cur->exec_cksum`. -/
  execCksum : U32 := 0
  abandon : List Event → Bool := fun _ => false
  cksum : List Event → U32 := fun _ => 0

/-- The state of the deterministic stages. -/
structure DetState where
  outBuf : List U8
  stageMax : U32 := 0
  stageCurByte : Nat := 0
  stageValType : StageValType := .none
  stageCurVal : Int := 0
  /-- Blocks of the input that are worth fuzzing. -/
  effMap : List Bool := []
  effCnt : Nat := 1
  blocksEffSelect : Nat := 0
  blocksEffTotal : Nat := 0
  /-- The token that is being collected, and the checksum for which it is. -/
  aCollect : List U8 := List.replicate MAX_AUTO_EXTRA 0
  aLen : Nat := 0
  prevCksum : U32 := 0
  /-- The tokens given to `maybe_add_auto`. -/
  autoTokens : List (List U8) := []
  /-- What each completed stage adds to `stage_cycles`. -/
  stageCycles : List (Stage × U32) := []
  log : List Event := []

/-- A stage ends normally, or by a jump to `abandon_entry`. -/
abbrev StageM := Except DetState

/-- Write the test case, run it and process the outcome. -/
def commonFuzzStuff (env : DetEnv) (stage : Stage) (s : DetState) : StageM DetState :=
  let s := { s with
    log := s.log ++ [.exec stage s.stageCurByte s.stageValType s.stageCurVal s.outBuf] }
  if env.abandon s.log then .error s else .ok s

/-- Start a stage of at most `max` executions. -/
def beginStage (max : Nat) (s : DetState) : DetState := { s with stageMax := BitVec.ofNat 32 max }

/-- Account for a completed stage. -/
def endStage (stage : Stage) (s : DetState) : DetState :=
  { s with stageCycles := s.stageCycles ++ [(stage, s.stageMax)] }

/-! ### Walking bits -/

/-- `FLIP_BIT`: bits are numbered from the most significant one of each byte. -/
def flipBit (buf : List U8) (b : Nat) : List U8 := buf.modify (b >>> 3) (· ^^^ 128#8 >>> (b % 8))

/-- `FLIP_BIT` of `k` consecutive bits, starting at `b`. -/
def flipBits (k b : Nat) (buf : List U8) : List U8 :=
  (List.range k).foldl (fun buf t => flipBit buf (b + t)) buf

/-- One turn of a walking-bits stage: flip, execute, flip back. -/
def walkBitsTurn (env : DetEnv) (stage : Stage) (k : Nat) (s : DetState) (stageCur : Nat) :
    StageM DetState := do
  let s := { s with stageCurByte := stageCur >>> 3, outBuf := flipBits k stageCur s.outBuf }
  let s ← commonFuzzStuff env stage s
  pure { s with outBuf := flipBits k stageCur s.outBuf }

/-- Append a byte to the token, as far as there is room. -/
def collectByte (s : DetState) (pos : Nat) : DetState :=
  { s with
    aCollect := if s.aLen < MAX_AUTO_EXTRA then s.aCollect.set s.aLen (byteOf s.outBuf pos)
      else s.aCollect
    aLen := s.aLen + 1 }

/-- Give the token to `maybe_add_auto` if its length is right. -/
def flushToken (s : DetState) : DetState :=
  if MIN_AUTO_EXTRA ≤ s.aLen ∧ s.aLen ≤ MAX_AUTO_EXTRA then
    { s with autoTokens := s.autoTokens ++ [s.aCollect.take s.aLen] }
  else s

/-- Detect syntax tokens while the least significant bit of every byte is flipped. -/
def collectTokens (env : DetEnv) (stageMax : Nat) (s : DetState) (stageCur : Nat) : DetState :=
  if !env.dumbMode && stageCur % 8 = 7 then
    let cksum := env.cksum s.log
    let s := if stageCur = stageMax - 1 && cksum = s.prevCksum then
        -- At the end of the file, grab the final character and force output.
        flushToken (collectByte s (stageCur >>> 3))
      else if cksum ≠ s.prevCksum then { flushToken s with aLen := 0, prevCksum := cksum }
      else s
    if cksum ≠ env.execCksum then collectByte s (stageCur >>> 3) else s
  else s

/-- Stage "bitflip 1/1" with the loop body `turn`. -/
def flip1Loop {ε : Type} (turn : DetState → Nat → Except ε DetState) (env : DetEnv) (len : Nat)
    (s : DetState) : Except ε DetState := do
  let s := beginStage (len <<< 3) { s with stageValType := .none, prevCksum := env.execCksum }
  let s ← (List.range (len <<< 3)).foldlM turn s
  pure (endStage .flip1 s)

/-- Stage "bitflip 1/1", with the dictionary construction. -/
def flip1 (env : DetEnv) (len : Nat) : DetState → StageM DetState :=
  flip1Loop (fun s stageCur => do
    let s ← walkBitsTurn env .flip1 1 s stageCur
    pure (collectTokens env (len <<< 3) s stageCur)) env len

/-! ### The token buffer as a block of memory

The same stage, with writes to `a_collect` that fail outside of the block. -/

/-- `block[i] = v`. -/
def storeAt (block : List U8) (i : Nat) (v : U8) : Option (List U8) :=
  if i < block.length then some (block.set i v) else none

/-- `collectByte` with a checked write. -/
def collectByteChecked (s : DetState) (pos : Nat) : Option DetState := do
  let aCollect ← if s.aLen < MAX_AUTO_EXTRA then storeAt s.aCollect s.aLen (byteOf s.outBuf pos)
    else some s.aCollect
  some { s with aCollect, aLen := s.aLen + 1 }

/-- `collectTokens` with checked writes. -/
def collectTokensChecked (env : DetEnv) (stageMax : Nat) (s : DetState) (stageCur : Nat) :
    Option DetState :=
  if !env.dumbMode && stageCur % 8 = 7 then do
    let cksum := env.cksum s.log
    let s ← if stageCur = stageMax - 1 && cksum = s.prevCksum then
        (collectByteChecked s (stageCur >>> 3)).map flushToken
      else if cksum ≠ s.prevCksum then some { flushToken s with aLen := 0, prevCksum := cksum }
      else some s
    if cksum ≠ env.execCksum then collectByteChecked s (stageCur >>> 3) else some s
  else some s

/-- `flip1` with checked writes. The error `none` is a write outside of `a_collect`. -/
def flip1Checked (env : DetEnv) (len : Nat) : DetState → Except (Option DetState) DetState :=
  flip1Loop (fun s stageCur => do
    let s ← (walkBitsTurn env .flip1 1 s stageCur).mapError some
    match collectTokensChecked env (len <<< 3) s stageCur with
    | some s => pure s
    | none => .error none) env len

/-- Stages "bitflip 2/1" and "bitflip 4/1". -/
def walkBits (env : DetEnv) (stage : Stage) (k len : Nat) (s : DetState) : StageM DetState := do
  let s ← (List.range ((len <<< 3) - (k - 1))).foldlM (walkBitsTurn env stage k)
    (beginStage ((len <<< 3) - (k - 1)) s)
  pure (endStage stage s)

/-- Stage "bitflip 2/1". -/
def flip2 (env : DetEnv) (len : Nat) (s : DetState) : StageM DetState := walkBits env .flip2 2 len s

/-- Stage "bitflip 4/1". -/
def flip4 (env : DetEnv) (len : Nat) (s : DetState) : StageM DetState := walkBits env .flip4 4 len s

/-! ### The effector map and walking bytes -/

/-- `EFF_APOS`: the position of a file offset in the effector map. -/
def effApos (p : Nat) : Nat := p >>> EFF_MAP_SCALE2

/-- `EFF_ALEN`: the length of the effector map for an input. -/
def effAlen (l : Nat) : Nat := effApos l + if l % 2 ^ EFF_MAP_SCALE2 ≠ 0 then 1 else 0

/-- `eff_map[EFF_APOS(p)]`. -/
def DetState.effective (s : DetState) (p : Nat) : Bool := s.effMap.getD (effApos p) false

/-- Allocate the effector map; the first and the last byte are always flagged. -/
def initEffMap (len : Nat) (s : DetState) : DetState :=
  let s := { s with effMap := (List.replicate (effAlen len) false).set 0 true }
  if effApos (len - 1) ≠ 0 then
    { s with effMap := s.effMap.set (effApos (len - 1)) true, effCnt := s.effCnt + 1 }
  else s

/-- Flag the block of a byte if flipping the byte changed the checksum. Dumb mode and very short
files flag everything. -/
def flagEffector (env : DetEnv) (len : Nat) (s : DetState) (stageCur : Nat) : DetState :=
  if !s.effective stageCur then
    let cksum := if !env.dumbMode && len ≥ EFF_MIN_LEN then env.cksum s.log else ~~~env.execCksum
    if cksum ≠ env.execCksum then
      { s with effMap := s.effMap.set (effApos stageCur) true, effCnt := s.effCnt + 1 }
    else s
  else s

/-- A dense effector map is flagged as a whole. -/
def closeEffMap (len : Nat) (s : DetState) : DetState :=
  let s := if s.effCnt ≠ effAlen len ∧ s.effCnt * 100 / effAlen len > EFF_MAX_PERC then
      { s with
        effMap := List.replicate (effAlen len) true
        blocksEffSelect := s.blocksEffSelect + effAlen len }
    else { s with blocksEffSelect := s.blocksEffSelect + s.effCnt }
  { s with blocksEffTotal := s.blocksEffTotal + effAlen len }

/-- Flip all bits of the `n`-byte word at `i`. -/
def flipWord (n i : Nat) (buf : List U8) : List U8 :=
  store n buf i (load n buf i ^^^ BitVec.allOnes (8 * n))

/-- Stage "bitflip 8/8", which fills the effector map. -/
def flip8 (env : DetEnv) (len : Nat) (s : DetState) : StageM DetState := do
  let s ← (List.range len).foldlM (fun s stageCur => do
    let s := { s with stageCurByte := stageCur, outBuf := flipWord 1 stageCur s.outBuf }
    let s ← commonFuzzStuff env .flip8 s
    let s := flagEffector env len s stageCur
    pure { s with outBuf := flipWord 1 stageCur s.outBuf }) (beginStage len (initEffMap len s))
  pure (endStage .flip8 (closeEffMap len s))

/-- Walk over the `n`-byte words of the buffer. A word without an effective byte is passed over,
and its `cost` is taken off `stage_max`. -/
def walkWords (len n cost : Nat) (body : DetState → Nat → StageM DetState) (s : DetState) :
    StageM DetState :=
  (List.range (len - (n - 1))).foldlM (fun s i =>
    if (List.range n).all fun t => !s.effective (i + t) then
      pure { s with stageMax := s.stageMax - BitVec.ofNat 32 cost }
    else body { s with stageCurByte := i } i) s

/-- Stages "bitflip 16/8" and "bitflip 32/8". -/
def flipWords (env : DetEnv) (stage : Stage) (n len : Nat) (s : DetState) : StageM DetState := do
  let s ← walkWords len n 1 (fun s i => do
    let s ← commonFuzzStuff env stage { s with outBuf := flipWord n i s.outBuf }
    pure { s with outBuf := flipWord n i s.outBuf }) (beginStage (len - (n - 1)) s)
  pure (endStage stage s)

/-- Stage "bitflip 16/8". -/
def flip16 (env : DetEnv) (len : Nat) (s : DetState) : StageM DetState :=
  flipWords env .flip16 2 len s

/-- Stage "bitflip 32/8". -/
def flip32 (env : DetEnv) (len : Nat) (s : DetState) : StageM DetState :=
  flipWords env .flip32 4 len s

/-! ### Arithmetic -/

/-- Write the `n`-byte word at `i` and execute the result. -/
def execWord (env : DetEnv) (stage : Stage) (n i : Nat) (new : BitVec (8 * n)) (s : DetState) :
    StageM DetState :=
  commonFuzzStuff env stage { s with outBuf := store n s.outBuf i new }

/-- Skip the candidate with the `n`-byte word at `i` replaced (`stage_max--`). -/
def skipWord (stage : Stage) (n i : Nat) (new : BitVec (8 * n)) (reason : SkipReason)
    (s : DetState) : DetState :=
  { s with
    stageMax := s.stageMax - 1
    log := s.log ++ [.skip stage reason (store n s.outBuf i new)] }

/-- Execute an arithmetic candidate, unless the guard `carry` fails or the change could be a
bitflip. -/
def tryArith (env : DetEnv) (stage : Stage) (n i : Nat) (carry : Bool) (old new : BitVec (8 * n))
    (val : Int) (s : DetState) : StageM DetState :=
  let xorVal : U32 := (old ^^^ new).setWidth 32
  if !carry then pure (skipWord stage n i new .carry s)
  else if couldBeBitflip xorVal then pure (skipWord stage n i new (.bitflip xorVal) s)
  else execWord env stage n i new { s with stageCurVal := val }

/-- One value of `j` in stage "arith 8/8". -/
def arith8Turn (env : DetEnv) (i : Nat) (orig : U8) (s : DetState) (j : Nat) :
    StageM DetState := do
  let d : U8 := BitVec.ofNat 8 j
  let s ← tryArith env .arith8 1 i true orig (orig + d) j s
  let s ← tryArith env .arith8 1 i true orig (orig - d) (-j) s
  pure { s with outBuf := store 1 s.outBuf i orig }

/-- One value of `j` in stage "arith 16/8". The guards are those of a carry or borrow out of the
low byte, in each byte order. -/
def arith16Turn (env : DetEnv) (i : Nat) (orig : U16) (s : DetState) (j : Nat) :
    StageM DetState := do
  let d : U16 := BitVec.ofNat 16 j
  let s := { s with stageValType := .le }
  let s ← tryArith env .arith16 2 i ((orig &&& 0xff).toNat + j > 0xff) orig (orig + d) j s
  let s ← tryArith env .arith16 2 i ((orig &&& 0xff).toNat < j) orig (orig - d) (-j) s
  let s := { s with stageValType := .be }
  let s ← tryArith env .arith16 2 i ((orig >>> 8).toNat + j > 0xff) orig
    (swap16 (swap16 orig + d)) j s
  let s ← tryArith env .arith16 2 i ((orig >>> 8).toNat < j) orig
    (swap16 (swap16 orig - d)) (-j) s
  pure { s with outBuf := store 2 s.outBuf i orig }

/-- One value of `j` in stage "arith 32/8", with guards on the low half. -/
def arith32Turn (env : DetEnv) (i : Nat) (orig : U32) (s : DetState) (j : Nat) :
    StageM DetState := do
  let d : U32 := BitVec.ofNat 32 j
  let s := { s with stageValType := .le }
  let s ← tryArith env .arith32 4 i ((orig &&& 0xffff).toNat + j > 0xffff) orig (orig + d) j s
  let s ← tryArith env .arith32 4 i ((orig &&& 0xffff).toNat < j) orig (orig - d) (-j) s
  let s := { s with stageValType := .be }
  let s ← tryArith env .arith32 4 i ((swap32 orig &&& 0xffff).toNat + j > 0xffff) orig
    (swap32 (swap32 orig + d)) j s
  let s ← tryArith env .arith32 4 i ((swap32 orig &&& 0xffff).toNat < j) orig
    (swap32 (swap32 orig - d)) (-j) s
  pure { s with outBuf := store 4 s.outBuf i orig }

/-- Stage "arith 8/8". -/
def arith8 (env : DetEnv) (len : Nat) (s : DetState) : StageM DetState := do
  let s ← walkWords len 1 (2 * ARITH_MAX)
    (fun s i => (List.range' 1 ARITH_MAX).foldlM (arith8Turn env i (load 1 s.outBuf i)) s)
    (beginStage (2 * len * ARITH_MAX) { s with stageValType := .le })
  pure (endStage .arith8 s)

/-- Stage "arith 16/8". -/
def arith16 (env : DetEnv) (len : Nat) (s : DetState) : StageM DetState := do
  let s ← walkWords len 2 (4 * ARITH_MAX)
    (fun s i => (List.range' 1 ARITH_MAX).foldlM (arith16Turn env i (load 2 s.outBuf i)) s)
    (beginStage (4 * (len - 1) * ARITH_MAX) s)
  pure (endStage .arith16 s)

/-- Stage "arith 32/8". -/
def arith32 (env : DetEnv) (len : Nat) (s : DetState) : StageM DetState := do
  let s ← walkWords len 4 (4 * ARITH_MAX)
    (fun s i => (List.range' 1 ARITH_MAX).foldlM (arith32Turn env i (load 4 s.outBuf i)) s)
    (beginStage (4 * (len - 3) * ARITH_MAX) s)
  pure (endStage .arith32 s)

/-! ### Interesting values -/

/-- The first of the three helpers that calls the insertion redundant, in the order of the source.
The one-byte stage does not ask `could_be_interest`. -/
def interestSkip (n : Nat) (old new : BitVec (8 * n)) (checkLe : Bool) : Option SkipReason :=
  let oldVal : U32 := old.setWidth 32
  let newVal : U32 := new.setWidth 32
  if couldBeBitflip (oldVal ^^^ newVal) then some (.bitflip (oldVal ^^^ newVal))
  else if couldBeArith oldVal newVal n then some .arith
  else if n ≠ 1 && couldBeInterest oldVal newVal n checkLe then some .interest
  else none

/-- Execute an insertion, or skip it for the given reason. -/
def tryInterest (env : DetEnv) (stage : Stage) (n i : Nat) (valType : StageValType)
    (new : BitVec (8 * n)) (skip : Option SkipReason) (s : DetState) : StageM DetState :=
  match skip with
  | some reason => pure (skipWord stage n i new reason s)
  | none => execWord env stage n i new { s with stageValType := valType }

/-- One table value in stage "interest 8/8". -/
def int8Turn (env : DetEnv) (i : Nat) (orig : U8) (s : DetState) (v : Int) :
    StageM DetState :=
  let new : U8 := BitVec.ofInt 8 v
  match interestSkip 1 orig new false with
  | some reason => pure (skipWord .int8 1 i new reason s)
  | none => do
      let s ← execWord env .int8 1 i new { s with stageCurVal := v }
      pure { s with outBuf := store 1 s.outBuf i orig }

/-- One table value in the wider stages: little endian first, then big endian unless the value is
its own byte swap. -/
def intTurn (env : DetEnv) (stage : Stage) (n : Nat) (swap : BitVec (8 * n) → BitVec (8 * n))
    (i : Nat) (orig : BitVec (8 * n)) (s : DetState) (v : Int) : StageM DetState := do
  let new := BitVec.ofInt (8 * n) v
  let s := { s with stageCurVal := v }
  let s ← tryInterest env stage n i .le new (interestSkip n orig new false) s
  tryInterest env stage n i .be (swap new)
    (if new = swap new then some .palindrome else interestSkip n orig (swap new) true) s

/-- Stage "interest 8/8". -/
def int8 (env : DetEnv) (len : Nat) (s : DetState) : StageM DetState := do
  let s ← walkWords len 1 interesting8.length
    (fun s i => interesting8.foldlM (int8Turn env i (load 1 s.outBuf i)) s)
    (beginStage (len * interesting8.length) { s with stageValType := .le })
  pure (endStage .int8 s)

/-- Stages "interest 16/8" and "interest 32/8". The buffer is restored once per offset. A word costs
two candidates per table value: `sizeof(interesting_16)` with 2 bytes per value, and
`sizeof(interesting_32) >> 1` with 4. -/
def intWords (env : DetEnv) (stage : Stage) (n : Nat) (swap : BitVec (8 * n) → BitVec (8 * n))
    (table : List Int) (len : Nat) (s : DetState) : StageM DetState := do
  let s ← walkWords len n (2 * table.length)
    (fun s i => do
      let orig := load n s.outBuf i
      let s ← table.foldlM (intTurn env stage n swap i orig) s
      pure { s with outBuf := store n s.outBuf i orig })
    (beginStage (2 * (len - (n - 1)) * table.length) s)
  pure (endStage stage s)

/-- Stage "interest 16/8". -/
def int16 (env : DetEnv) (len : Nat) (s : DetState) : StageM DetState :=
  intWords env .int16 2 swap16 interesting16 len s

/-- Stage "interest 32/8". -/
def int32 (env : DetEnv) (len : Nat) (s : DetState) : StageM DetState :=
  intWords env .int32 4 swap32 interesting32 len s

/-! ### All stages -/

/-- The bitflip stages from "bitflip 2/1" to "bitflip 8/8". The last one leaves the effector map
that all later stages consult. -/
def walkingFlips (env : DetEnv) (len : Nat) (s : DetState) : StageM DetState := do
  let s ← flip2 env len s
  let s ← flip4 env len s
  flip8 env len s

/-- The stages "bitflip 16/8" and "bitflip 32/8", on inputs that are long enough. -/
def wideFlips (env : DetEnv) (len : Nat) (s : DetState) : StageM DetState :=
  if len < 2 then pure s
  else do
    let s ← flip16 env len s
    if len < 4 then pure s else flip32 env len s

/-- The arithmetic stages. -/
def ariths (env : DetEnv) (len : Nat) (s : DetState) : StageM DetState := do
  let s ← arith8 env len s
  if len < 2 then pure s
  else
    let s ← arith16 env len s
    if len < 4 then pure s else arith32 env len s

/-- The stages with interesting values. -/
def interests (env : DetEnv) (len : Nat) (s : DetState) : StageM DetState := do
  let s ← int8 env len s
  if len < 2 then pure s
  else
    let s ← int16 env len s
    if len < 4 then pure s else int32 env len s

/-- The deterministic stages, from "bitflip 1/1" up to the label `skip_interest`. An entry that
has passed them before leaves for `havoc_stage` after the first one. -/
def deterministic (env : DetEnv) (len : Nat) (s : DetState) : StageM DetState := do
  let s ← flip1 env len s
  if env.passedDet then pure s
  else
    let s ← walkingFlips env len s
    let s ← wideFlips env len s
    let s ← ariths env len s
    interests env len s

end TriforceAFL.Spec
