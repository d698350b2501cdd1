import TriforceAFL.Lib.Budget
import TriforceAFL.Spec.ForkServer

/-!
# `TriforceAFL.Spec.Tmin`: the minimizer of `afl-tmin.c`

`minimize` shrinks `in_data` while the target goes on to show the same behavior: it overwrites
blocks with zero digits once, and then repeats a pass of block deletion, alphabet minimization and
character minimization. The verdict of `run_target` is a function `f` of the candidate; for a
deterministic target it is `tminVerdict` of what the target does (`verdictOf`).

`in_data[0..in_len)` is the list `inData`. Every call of `run_target` is recorded in `tests`, with
the contents of `in_data` after the step that made the call. The loops run on a budget
(`Lib.repeatStep`). Of the counters that `minimize` prints, only those of the alphabet stage are
modelled (`minimizeAlphabetStats`).
-/

set_option autoImplicit false

namespace TriforceAFL.Spec

open Lib

/-! ### The input and the verdict -/

/-- An input file that afl-tmin takes. -/
structure TminInput where
  data : List U8
  nonempty : 1 ≤ data.length
  small : data.length < TMIN_MAX_FILE

/-- Why `read_initial_file` gives up. -/
inductive TminFatal
  | zeroSized
  | tooLarge
deriving DecidableEq

/-- Read the input file. -/
def readInitialFile (file : List U8) : Except TminFatal TminInput :=
  if hzero : file.length = 0 then .error .zeroSized
  else if hlarge : file.length ≥ TMIN_MAX_FILE then .error .tooLarge
  else .ok ⟨file, Nat.one_le_iff_ne_zero.mpr hzero, Nat.lt_of_not_le hlarge⟩

/-- What a run of the target leaves: the record of `run_target`, and the classified trace. -/
structure TminOutcome (mapSize : Nat) where
  record : RunRecord
  trace : TraceMap mapSize

/-- The verdict of `run_target` with `first_run = 0`. -/
def tminVerdict {mapSize : Nat} (o : VerdictFlags) (hash32 : TraceMap mapSize → U32)
    (crashMode : Bool) (origCksum : U32) (r : TminOutcome mapSize) : Bool :=
  -- Inputs that time out are always discarded.
  if r.record.timedOut then false
  else if tminCrashed o r.record then crashMode
  else if crashMode then false
  else origCksum == hash32 r.trace

/-- The verdict on candidates for a deterministic target, after the dry run with `first_run = 1`
has set `crash_mode` and `orig_cksum`. -/
def verdictOf {mapSize : Nat} (o : VerdictFlags) (hash32 : TraceMap mapSize → U32)
    (target : List U8 → TminOutcome mapSize) (input : List U8) (candidate : List U8) : Bool :=
  let first := target input
  tminVerdict o hash32 (tminCrashed o first.record) (hash32 first.trace) (target candidate)

/-! ### The state -/

/-- The stages of `minimize`. -/
inductive TminStage
  | normalize
  | delete
  | alphabet
  | character
deriving DecidableEq

/-- A call of `run_target`, and `in_data` after the step that made it. -/
structure TminTest where
  stage : TminStage
  tested : List U8
  accepted : Bool
  inData : List U8
deriving DecidableEq

/-- The globals and locals that the stages of `minimize` share. -/
structure TminState where
  inData : List U8
  changedAny : Bool := false
  /-- `static u32 alpha_map[256]` -/
  alphaMap : List U32 := List.replicate 256 0
  tests : List TminTest := []
deriving DecidableEq

/-- The digit that replaces everything else. -/
def zeroDigit : U8 := 0x30

/-- Let the target decide about `tmp_buf`; if it accepts, `in_data` becomes `accepted`. -/
def TminState.test (f : List U8 → Bool) (stage : TminStage) (tmpBuf accepted : List U8)
    (s : TminState) : Bool × TminState :=
  let res := f tmpBuf
  let inData := if res then accepted else s.inData
  (res, { s with
    inData
    changedAny := s.changedAny || res
    tests := s.tests ++ [⟨stage, tmpBuf, res, inData⟩] })

/-- `n` bytes of a buffer from `pos` on. -/
def block (buf : List U8) (pos n : Nat) : List U8 := (buf.drop pos).take n

/-- `memset(buf + pos, v, n)`. -/
def memset (buf : List U8) (pos : Nat) (v : U8) (n : Nat) : List U8 :=
  buf.take pos ++ List.replicate n v ++ buf.drop (pos + n)

/-! ### Block normalization -/

/-- One turn of the normalization loop. The state is that of `minimize`, and `set_pos`. -/
def normalizeStep (f : List U8 → Bool) (setLen : Nat) (t : TminState × Nat) :
    (TminState × Nat) ⊕ TminState :=
  let inData := t.1.inData
  if t.2 < inData.length then
    let useLen := min setLen (inData.length - t.2)
    let s := if (block inData t.2 useLen).all (· == zeroDigit) then t.1
      else
        let tmpBuf := memset inData t.2 zeroDigit useLen
        (t.1.test f .normalize tmpBuf (memset inData t.2 zeroDigit useLen)).2
    .inl (s, t.2 + setLen)
  else .inr t.1

/-- Stage 0: one-time block normalization. -/
def normalizeBlocks (f : List U8 → Bool) (budget : Nat) (s : TminState) : Option TminState :=
  let setLen := max (nextP2 (s.inData.length / TMIN_SET_STEPS)) TMIN_SET_MIN_SIZE
  repeatStep (fun t => some (normalizeStep f setLen t)) budget (s, 0)

/-! ### Block deletion -/

/-- The state of the deletion loop for one block length. -/
structure DelState where
  s : TminState
  delPos : Nat
  prevDel : Bool

/-- One turn of the deletion loop. -/
def delStep (f : List U8 → Bool) (delLen : Nat) (d : DelState) : DelState ⊕ TminState :=
  let inData := d.s.inData
  if d.delPos < inData.length then
    -- Cut off at zero, as the signed `tail_len` is.
    let tailLen := inData.length - d.delPos - delLen
    if !d.prevDel && tailLen != 0 &&
        block inData (d.delPos - delLen) delLen == block inData d.delPos delLen then
      .inl { d with delPos := d.delPos + delLen }
    else
      let tmpBuf := inData.take d.delPos ++ block inData (d.delPos + delLen) tailLen
      let (res, s) := d.s.test f .delete tmpBuf tmpBuf
      if res then .inl ⟨s, d.delPos, true⟩ else .inl ⟨s, d.delPos + delLen, false⟩
  else .inr d.s

/-- The deletion loop for one block length. -/
def deleteRound (f : List U8 → Bool) (delLen budget : Nat) (s : TminState) : Option TminState :=
  repeatStep (fun d => some (delStep f delLen d)) budget ⟨s, 0, true⟩

/-- From `next_del_blksize` to the jump back to it. The state is `del_len` and that of
`minimize`. -/
def deleteStep (f : List U8 → Bool) (budget : Nat) (t : Nat × TminState) :
    Option ((Nat × TminState) ⊕ TminState) := do
  let delLen := if t.1 = 0 then 1 else t.1
  let s ← deleteRound f delLen budget t.2
  if delLen > 1 ∧ s.inData.length ≥ 1 then return .inl (delLen / 2, s) else return .inr s

/-- Stage 1: removing blocks of data. -/
def deleteBlocks (f : List U8 → Bool) (budget : Nat) (s : TminState) : Option TminState :=
  repeatStep (deleteStep f budget) budget (nextP2 (s.inData.length / TRIM_START_STEPS), s)

/-! ### Alphabet and character minimization -/

/-- The counters of stage 2. `tried` and `replaced` are not in the code: the symbols that were
tried, and the number of bytes of `in_data` that the stage has changed. -/
structure AlphaStats where
  alphaSize : U32
  symsRemoved : U32 := 0
  alphaDel1 : U32 := 0
  tried : List Nat := []
  replaced : Nat := 0
deriving DecidableEq

/-- One turn of the counting loop, with `alpha_size`. -/
def countStep (t : List U32 × U32) (b : U8) : List U32 × U32 :=
  (t.1.modify b.toNat (· + 1), if t.1.getD b.toNat 0 = 0 then t.2 + 1 else t.2)

/-- The number of positions where two buffers of one length differ. -/
def changedBytes (buf buf' : List U8) : Nat := (buf.zip buf').countP fun p => p.1 != p.2

/-- One turn of the symbol loop. -/
def alphabetStep (f : List U8 → Bool) (t : TminState × AlphaStats) (i : Nat) :
    TminState × AlphaStats :=
  if i = zeroDigit.toNat ∨ t.1.alphaMap.getD i 0 = 0 then t
  else
    let tmpBuf := t.1.inData.map fun b => if b.toNat = i then zeroDigit else b
    let (res, s) := t.1.test f .alphabet tmpBuf tmpBuf
    let stats := { t.2 with
      tried := t.2.tried ++ [i]
      replaced := t.2.replaced + changedBytes t.1.inData s.inData }
    (s, if res then { stats with
      symsRemoved := stats.symsRemoved + 1
      alphaDel1 := stats.alphaDel1 + t.1.alphaMap.getD i 0 } else stats)

/-- Stage 2: minimizing symbols, with the counters. `memset(alpha_map, 0, 256)` clears 256 bytes,
that is, 64 entries of the table; the others still hold the counts of the earlier passes. -/
def minimizeAlphabetStats (f : List U8 → Bool) (s : TminState) : TminState × AlphaStats :=
  let (alphaMap, alphaSize) :=
    s.inData.foldl countStep (List.replicate 64 0 ++ s.alphaMap.drop 64, 0)
  (List.range 256).foldl (alphabetStep f) ({ s with alphaMap }, { alphaSize })

/-- Stage 2, as the later stages see it. -/
def minimizeAlphabet (f : List U8 → Bool) (s : TminState) : TminState :=
  (minimizeAlphabetStats f s).1

/-- One turn of the character loop. The state is that of `minimize`, and `tmp_buf`. -/
def characterStep (f : List U8 → Bool) (t : TminState × List U8) (i : Nat) :
    TminState × List U8 :=
  let orig := byteOf t.2 i
  if orig = zeroDigit then t
  else
    let tmpBuf := t.2.set i zeroDigit
    let (res, s) := t.1.test f .character tmpBuf (t.1.inData.set i zeroDigit)
    (s, if res then tmpBuf else tmpBuf.set i orig)

/-- Stage 3: character minimization. -/
def minimizeCharacters (f : List U8 → Bool) (s : TminState) : TminState :=
  ((List.range s.inData.length).foldl (characterStep f) (s, s.inData)).1

/-! ### All stages -/

/-- One pass. The state is `cur_pass` and that of `minimize`. -/
def tminPass (f : List U8 → Bool) (budget : Nat) (t : Nat × TminState) :
    Option ((Nat × TminState) ⊕ TminState) := do
  let curPass := t.1 + 1
  let s ← deleteBlocks f budget { t.2 with changedAny := false }
  if curPass > 1 ∧ s.changedAny = false then return .inr s
  else
    let s := minimizeCharacters f (minimizeAlphabet f s)
    if s.changedAny then return .inl (curPass, s) else return .inr s

/-- Actually minimize. -/
def minimize (f : List U8 → Bool) (input : TminInput) (budget : Nat) : Option TminState := do
  let s ← normalizeBlocks f budget { inData := input.data }
  repeatStep (tminPass f budget) budget (0, s)

end TriforceAFL.Spec
