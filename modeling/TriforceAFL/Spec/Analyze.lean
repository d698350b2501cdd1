import TriforceAFL.Lib.Asks
import TriforceAFL.Lib.Budget
import TriforceAFL.Spec.Redundant

/-!
# `TriforceAFL.Spec.Analyze`: `analyze` and `dump_hex` of `afl-analyze.c`

`analyze` changes each byte of the input in four ways, runs the target on every changed input, and
notes in `b_data` how the four checksums compare with that of the input. A byte of `b_data` has a
class in its low bits, and in its top bit a mark that flips where a new segment begins. `dump_hex`
reads the segments back, looks closer at those of class `RESP_FIXED`, and prints them.

The checksum of a run may depend on all buffers that have been run so far, which the state keeps in
`execs`. Of the output, the model has the segments and what is printed of each: where it lies and
its type.
-/

set_option autoImplicit false

namespace TriforceAFL.Spec

open Lib

/-! ### Classes of bytes -/

def RESP_NONE : U8 := 0x00

def RESP_MINOR : U8 := 0x01

def RESP_VARIABLE : U8 := 0x02

def RESP_FIXED : U8 := 0x03

def RESP_LEN : U8 := 0x04

def RESP_CKSUM : U8 := 0x05

def RESP_SUSPECT : U8 := 0x06

/-- The checksums of the four runs for one byte. -/
structure Checksums where
  xorFf : U32 := 0
  xor01 : U32 := 0
  sub10 : U32 := 0
  add10 : U32 := 0
  deriving DecidableEq, Repr

/-- The class of a byte, where `orig` is the checksum of the unchanged input. -/
def classifyByte (orig : U32) (c : Checksums) : U8 :=
  if c.xorFf = orig ∧ c.xor01 = orig ∧ c.sub10 = orig ∧ c.add10 = orig then RESP_NONE
  else if c.xorFf = orig ∨ c.xor01 = orig ∨ c.sub10 = orig ∨ c.add10 = orig then RESP_MINOR
  else if c.xorFf = c.xor01 ∧ c.xorFf = c.sub10 ∧ c.xorFf = c.add10 then RESP_FIXED
  else RESP_VARIABLE

/-- All four checksums are others than before. -/
def AllChange (prev c : Checksums) : Prop :=
  prev.xorFf ≠ c.xorFf ∧ prev.xor01 ≠ c.xor01 ∧ prev.sub10 ≠ c.sub10 ∧ prev.add10 ≠ c.add10

instance (prev c : Checksums) : Decidable (AllChange prev c) :=
  inferInstanceAs (Decidable (_ ∧ _ ∧ _ ∧ _))

/-! ### `analyze` -/

structure AnalyzeState where
  inData : List U8
  bData : List U8
  seqByte : U8 := 0
  boringLen : Nat := 0
  prev : Checksums := {}
  execs : List (List U8) := []
  deriving DecidableEq, Repr

/-- An assignment to `in_data[i]`, of a value that is computed from the old one. -/
def AnalyzeState.assign (s : AnalyzeState) (i : Nat) (f : U8 → U8) : AnalyzeState :=
  { s with inData := s.inData.set i (f (byteOf s.inData i)) }

/-- A run of the target on `in_data`. -/
def AnalyzeState.runTarget (cksum : List (List U8) → U32) (s : AnalyzeState) :
    U32 × AnalyzeState :=
  let execs := s.execs ++ [s.inData]
  (cksum execs, { s with execs })

/-- The four adjustments of byte `i`, each made to what the one before has left. -/
def AnalyzeState.walkByte (cksum : List (List U8) → U32) (s : AnalyzeState) (i : Nat) :
    Checksums × AnalyzeState :=
  let s := s.assign i (· ^^^ 0xff)
  let (xorFf, s) := s.runTarget cksum
  let s := s.assign i (· ^^^ 0xfe)
  let (xor01, s) := s.runTarget cksum
  let s := s.assign i fun b => (b ^^^ 0x01) - 0x10
  let (sub10, s) := s.runTarget cksum
  let s := s.assign i (· + 0x20)
  let (add10, s) := s.runTarget cksum
  let s := s.assign i (· - 0x10)
  (⟨xorFf, xor01, sub10, add10⟩, s)

/-- One turn of the loop over the input. -/
def analyzeByte (cksum : List (List U8) → U32) (orig : U32) (s : AnalyzeState) (i : Nat) :
    AnalyzeState :=
  let (c, s) := s.walkByte cksum i
  let resp := classifyByte orig c
  let seqByte := if AllChange s.prev c then s.seqByte ^^^ 0x80 else s.seqByte
  { s with
    bData := s.bData.set i (resp ||| seqByte)
    seqByte
    boringLen := if resp = RESP_NONE ∨ resp = RESP_MINOR then s.boringLen + 1 else s.boringLen
    prev := c }

/-- The loop of `analyze`. `b_data` is zeroed, up to its terminator. -/
def analyzeLoop (cksum : List (List U8) → U32) (orig : U32) (inData : List U8) : AnalyzeState :=
  (List.range inData.length).foldl (analyzeByte cksum orig)
    { inData, bData := List.replicate inData.length 0 ++ [0xff] }

/-! ### `dump_hex` -/

/-- Code that reads bytes of `in_data`, by their offsets. -/
abbrev Reading := Asks Nat fun _ => U8

/-- The case of two bytes: small integers may be length fields, and uniform integers may be
checksums. -/
def classifyTwo (inLen i : Nat) : Reading U8 := do
  let b0 ← Asks.query i
  let b1 ← Asks.query (i + 1)
  let val : U16 := b1 ++ b0
  if val ≠ 0 ∧ (val.toNat ≤ inLen ∨ (swap16 val).toNat ≤ inLen) then return RESP_LEN
  else if val ≠ 0 then
    let x ← Asks.query i
    let y ← Asks.query (i + 1)
    return if (x.toNat - y.toNat : Int).natAbs > 32 then RESP_CKSUM else RESP_FIXED
  else return RESP_FIXED

/-- The comparison `in_data[i] >> 7 != in_data[j] >> 7`. -/
def topBitsDiffer (i j : Nat) : Reading Bool := do
  let x ← Asks.query i
  let y ← Asks.query j
  return x >>> 7 != y >>> 7

@[inherit_doc classifyTwo]
def classifyFour (inLen i : Nat) : Reading U8 := do
  let b0 ← Asks.query i
  let b1 ← Asks.query (i + 1)
  let b2 ← Asks.query (i + 2)
  let b3 ← Asks.query (i + 3)
  let val : U32 := b3 ++ b2 ++ b1 ++ b0
  if val ≠ 0 ∧ (val.toNat ≤ inLen ∨ (swap32 val).toNat ≤ inLen) then return RESP_LEN
  else if val ≠ 0 then
    let first ← topBitsDiffer i (i + 1)
    if first then return RESP_CKSUM
    else
      let second ← topBitsDiffer i (i + 2)
      if second then return RESP_CKSUM
      else
        let third ← topBitsDiffer i (i + 3)
        return if third then RESP_CKSUM else RESP_FIXED
  else return RESP_FIXED

/-- Further classification of a run, based on its length and value. -/
def classifyRun (inLen i rlen : Nat) (rtype : U8) : Reading U8 :=
  if rtype = RESP_FIXED then
    if rlen = 2 then classifyTwo inLen i
    else if rlen = 4 then classifyFour inLen i
    else if rlen = 1 ∨ rlen = 3 ∨ (5 ≤ rlen ∧ rlen ≤ MAX_AUTO_EXTRA - 1) then return rtype
    else return RESP_SUSPECT
  else return rtype

/-- A run of bytes that is printed. `base` is the type before the further classification. -/
structure Segment where
  offset : Nat
  rlen : Nat
  base : U8
  rtype : U8
  deriving DecidableEq, Repr

/-- One turn of the loop that looks ahead for the length of the run at `i`. -/
def lookAheadTurn (bData : List U8) (len i : Nat) :
    Nat × U8 → Option ((Nat × U8) ⊕ (Nat × U8))
  | (rlen, rtype) =>
    if i + rlen < len ∧ byteOf bData i >>> 7 = byteOf bData (i + rlen) >>> 7 then
      let next := byteOf bData (i + rlen) &&& 0x0f
      some (.inl (rlen + 1, if rtype < next then next else rtype))
    else some (.inr (rlen, rtype))

/-- One turn of the outer loop, with the segments printed so far. -/
def dumpTurn (inData bData : List U8) (budget : Nat) :
    Nat × List Segment → Option ((Nat × List Segment) ⊕ List Segment)
  | (i, printed) =>
    if i < inData.length then do
      let (rlen, base) ← repeatStep (lookAheadTurn bData inData.length i) budget
        (1, byteOf bData i &&& 0x0f)
      let rtype := Asks.interp (m := Id) (byteOf inData) (classifyRun inData.length i rlen base)
      -- `i += rlen - 1`, and the increment of the loop.
      some (.inl (i + (rlen - 1) + 1, printed ++ [⟨i, rlen, base, rtype⟩]))
    else some (.inr printed)

def dumpHex (inData bData : List U8) (budget : Nat) : Option (List Segment) :=
  repeatStep (dumpTurn inData bData budget) budget (0, [])

/-- The state after the runs, and the segments that are printed. -/
def analyze (cksum : List (List U8) → U32) (orig : U32) (inData : List U8) (budget : Nat) :
    Option (AnalyzeState × List Segment) := do
  let s := analyzeLoop cksum orig inData
  let printed ← dumpHex s.inData s.bData budget
  return (s, printed)

end TriforceAFL.Spec
