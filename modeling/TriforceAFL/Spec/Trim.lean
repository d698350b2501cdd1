import TriforceAFL.Lib.Budget
import TriforceAFL.Spec.Havoc

/-!
# `TriforceAFL.Spec.Trim`: `trim_case` with its buffer, its files and its target

`Session.trimCase` has the trimming stage as part of a session, where the outcome of an execution
depends on the time alone. Here the target is a function of the test case that `write_with_gap`
leaves for it, so the three copies of the test case are told apart: the first `q->len` bytes of
`in_buf`, the file that the target reads, and the file of the queue.

`next_p2` and the two loops run on a step budget (`Lib.repeatStep`), and so does `trimCase`. The
statistics and the screen are left out.
-/

set_option autoImplicit false

namespace TriforceAFL.Spec.Trim

open Lib

/-! ### Helpers -/

/-- One turn of the loop of `next_p2`. The shift of a `u32` drops the highest bit. -/
def nextP2Turn (val ret : Nat) : Nat ⊕ Nat :=
  if val > ret then .inl ((ret <<< 1) % 2 ^ 32) else .inr ret

/-- Find first power of two greater or equal to `val`. -/
def nextP2 (val budget : Nat) : Option Nat :=
  repeatStep (fun ret => some (nextP2Turn val ret)) budget 1

/-- `ftruncate`: a file that is too short is filled up with zeros. -/
def ftruncate (file : List U8) (len : Nat) : List U8 :=
  file.take len ++ List.replicate (len - file.length) 0

/-- The test case that the target reads after `write_with_gap`. With an `out_file`, the file is
created anew; otherwise `old` is what `out_fd` held, and its beginning is written over. -/
def writeWithGap (outFile : Bool) (old mem : List U8) (len skipAt skipLen : Nat) : List U8 :=
  let tailLen := len - skipAt - skipLen
  let file := if outFile then [] else old
  let file :=
    if skipAt ≠ 0 then Session.overwrite file 0 (Session.slice mem 0 skipAt) else file
  let file :=
    if tailLen ≠ 0 then
      Session.overwrite file skipAt (Session.slice mem (skipAt + skipLen) tailLen)
    else file
  if outFile then file else ftruncate file (len - skipLen)

/-! ### `trim_case` -/

variable {mapSize : Nat}

/-- What `trim_case` depends on, besides the entry. -/
structure Env (mapSize : Nat) where
  /-- What a deterministic target does with a test case. -/
  run : List U8 → Fault × TraceMap mapSize
  hash32 : TraceMap mapSize → U32
  /-- `stop_soon`, after so many executions. -/
  stopSoon : Nat → Bool := fun _ => false
  outFile : Bool := false
  /-- Can the file of the entry be created? -/
  canCreate : Bool := true

/-- The checksum of the trace of a test case. -/
def Env.cksum (env : Env mapSize) (mem : List U8) : U32 := env.hash32 (env.run mem).2

/-- A turn of the inner loop: the test case in `in_buf` before it, the one given to the target, the
checksum of its trace, and the test case in `in_buf` after the turn. -/
structure Turn where
  before : List U8
  candidate : List U8
  cksum : U32
  after : List U8

/-- The variables of `trim_case`. -/
structure State (mapSize : Nat) where
  /-- The buffer behind `in_buf`, which keeps its size. -/
  inBuf : List U8
  /-- `q->len` -/
  len : Nat
  lenP2 : Nat
  removeLen : Nat
  removePos : Nat := 0
  /-- `clean_trace`, if `needs_write` is set. -/
  cleanTrace : Option (TraceMap mapSize) := none
  fault : Fault := .none
  trimExecs : Nat := 0
  /-- The file that the target reads. -/
  target : List U8
  /-- The turns that did not end the loop. -/
  turns : List Turn := []

/-- The test case in `in_buf`. -/
def State.content (t : State mapSize) : List U8 := t.inBuf.take t.len

/-- The deletion had no impact on the trace, so it is made permanent. -/
def remove (t : State mapSize) (trimAvail : Nat) (trace : TraceMap mapSize) (budget : Nat) :
    Option (State mapSize) := do
  let moveTail := t.len - t.removePos - trimAvail
  let len := t.len - trimAvail
  let lenP2 ← nextP2 len budget
  return { t with
    len
    lenP2
    inBuf := Session.overwrite t.inBuf t.removePos
      (Session.slice t.inBuf (t.removePos + trimAvail) moveTail)
    cleanTrace := t.cleanTrace.or (some trace) }

/-- One turn of the inner loop. The flag is set on a jump to `abort_trimming`. -/
def trimTurn (env : Env mapSize) (execCksum : U32) (budget : Nat) (t : State mapSize) :
    Option (State mapSize ⊕ (Bool × State mapSize)) :=
  if t.removePos < t.len then do
    let trimAvail := min t.removeLen (t.len - t.removePos)
    let candidate := writeWithGap env.outFile t.target t.inBuf t.len t.removePos trimAvail
    let (fault, trace) := env.run candidate
    let t' := { t with target := candidate, fault, trimExecs := t.trimExecs + 1 }
    if env.stopSoon t'.trimExecs || decide (fault = .error) then return .inr (true, t')
    else
      let cksum := env.hash32 trace
      -- After a deletion the same position is tried again, with the bytes that moved there.
      let t'' ←
        if cksum = execCksum then remove t' trimAvail trace budget
        else some { t' with removePos := (t'.removePos + t'.removeLen) % 2 ^ 32 }
      return .inl { t'' with
        turns := t''.turns ++ [{ before := t.content, candidate, cksum, after := t''.content }] }
  else some (.inr (false, t))

/-- The inner loop. -/
def trimRound (env : Env mapSize) (execCksum : U32) (budget : Nat) (t : State mapSize) :
    Option (Bool × State mapSize) :=
  repeatStep (trimTurn env execCksum budget) budget { t with removePos := t.removeLen }

/-- One turn of the outer loop. -/
def trimStep (env : Env mapSize) (execCksum : U32) (budget : Nat) (t : State mapSize) :
    Option (State mapSize ⊕ (Bool × State mapSize)) :=
  if t.removeLen ≥ max (t.lenP2 / TRIM_END_STEPS) TRIM_MIN_BYTES then do
    let (abort, t) ← trimRound env execCksum budget t
    if abort then return .inr (true, t)
    else return .inl { t with removeLen := t.removeLen >>> 1 }
  else some (.inr (false, t))

/-- How `trim_case` ends. -/
inductive Result (mapSize : Nat)
  /-- At `abort_trimming`, because of `stop_soon` or `FAULT_ERROR`. -/
  | aborted (t : State mapSize)
  /-- With `PFATAL`. -/
  | unableToCreate
  /-- With the file of the entry, and the trace that `update_bitmap_score` gets. -/
  | trimmed (t : State mapSize) (file : List U8) (scored : Option (TraceMap mapSize))

/-- Update the on-disk version of the test case. -/
def finish (env : Env mapSize) (file : List U8) (t : State mapSize) : Result mapSize :=
  match t.cleanTrace with
  | none => .trimmed t file none
  | some trace => if env.canCreate then .trimmed t t.content (some trace) else .unableToCreate

/-- Trim an entry with the content `inBuf`. Its file holds `file`, and the target was given `target`
before. -/
def trimCase (env : Env mapSize) (execCksum : U32) (inBuf file target : List U8) (budget : Nat) :
    Option (Result mapSize) :=
  let len := inBuf.length
  if len < 5 then
    some (.trimmed { inBuf, len, lenP2 := 0, removeLen := 0, target } file none)
  else do
    let lenP2 ← nextP2 len budget
    let removeLen := max (lenP2 / TRIM_START_STEPS) TRIM_MIN_BYTES
    let (abort, t) ← repeatStep (trimStep env execCksum budget) budget
      { inBuf, len, lenP2, removeLen, target }
    return if abort then .aborted t else finish env file t

end TriforceAFL.Spec.Trim
