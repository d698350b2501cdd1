import TriforceAFL.Lib.Text
import TriforceAFL.Spec.Bitmap

/-!
# `TriforceAFL.Spec.State`: queue entries and the globals of `afl-fuzz.c`

`QueueEntry` is `struct queue_entry`. A pointer to an entry is its index in the allocation order
(`Ptr`), so `entries` is the heap of queue entries, and `next`, `next_100`, `queue`, `queue_top`,
`q_prev100` and `top_rated[]` hold indices.

`FuzzState` collects the globals that the modelled functions read or write. Two counters,
`pending_favored` and `pending_not_fuzzed`, are decremented by the code and are therefore 32-bit
words, so that an underflow would show. The other counters only grow and are natural numbers.
Files are kept as a list of path and content for each of the three output directories.
-/

set_option autoImplicit false

namespace TriforceAFL.Spec

/-- A C string. -/
abbrev Text := List Char

/-- `CASE_PREFIX`, with which the file name of a test case starts. -/
def casePrefix : Text := "id:".toList

/-- A pointer to a queue entry. -/
abbrev Ptr := Nat

/-- The outcome of an execution (`FAULT_*`). -/
inductive Fault
  | none
  | hang
  | crash
  | error
  | noInst
  | noBits
deriving DecidableEq, Repr

/-- Value type of a stage operation (`STAGE_VAL_*`). -/
inductive StageValType
  | none
  | le
  | be
deriving DecidableEq

/-- `struct queue_entry`. -/
structure QueueEntry where
  /-- File name for the test case. -/
  fname : Text
  /-- Input length. -/
  len : Nat
  /-- Number of failed calibrations. -/
  calFailed : Nat := 0
  wasFuzzed : Bool := false
  passedDet : Bool := false
  hasNewCov : Bool := false
  varBehavior : Bool := false
  favored : Bool := false
  fsRedundant : Bool := false
  /-- Number of bytes set in the bitmap. -/
  bitmapSize : Nat := 0
  /-- Checksum of the execution trace. -/
  execCksum : U32 := 0
  /-- Execution time in microseconds. -/
  execUs : Nat := 0
  /-- Number of queue cycles behind. -/
  handicap : Nat := 0
  /-- Path depth. -/
  depth : Nat := 0
  /-- Compacted trace bytes, if kept. -/
  traceMini : Option (List U8) := .none
  /-- Number of `top_rated[]` slots that rely on `trace_mini`. -/
  tcRef : Nat := 0
  next : Option Ptr := .none
  next100 : Option Ptr := .none
deriving DecidableEq, Inhabited

/-- The globals of `afl-fuzz.c`. -/
structure FuzzState (mapSize : Nat) where
  dumbMode : Bool := false
  /-- The fault that counts as a normal outcome: `FAULT_CRASH` with `-C`, else `FAULT_NONE`. -/
  crashMode : Fault := .none
  noVarCheck : Bool := false
  /-- Map of the last execution. -/
  traceBits : TraceMap mapSize := TraceMap.fill mapSize 0
  /-- Regions yet untouched by fuzzing. -/
  virginBits : TraceMap mapSize := TraceMap.fill mapSize 0xff
  /-- Bits not seen in hangs. -/
  virginHang : TraceMap mapSize := TraceMap.fill mapSize 0xff
  /-- Bits not seen in crashes. -/
  virginCrash : TraceMap mapSize := TraceMap.fill mapSize 0xff
  bitmapChanged : Bool := true
  /-- The heap of queue entries, in allocation order. -/
  entries : List QueueEntry := []
  queue : Option Ptr := .none
  queueTop : Option Ptr := .none
  qPrev100 : Option Ptr := .none
  /-- Top entry for each bitmap byte. -/
  topRated : List (Option Ptr) := List.replicate mapSize .none
  scoreChanged : Bool := false
  queuedPaths : Nat := 0
  queuedVariable : Nat := 0
  queuedFavored : Nat := 0
  queuedWithCov : Nat := 0
  pendingNotFuzzed : U32 := 0
  pendingFavored : U32 := 0
  curDepth : Nat := 0
  maxDepth : Nat := 0
  queueCycle : Nat := 0
  cyclesWoFinds : Nat := 0
  totalCrashes : Nat := 0
  uniqueCrashes : Nat := 0
  totalHangs : Nat := 0
  uniqueHangs : Nat := 0
  totalCalUs : Nat := 0
  totalCalCycles : Nat := 0
  totalBitmapSize : Nat := 0
  totalBitmapEntries : Nat := 0
  killSignal : Nat := 0
  outDir : Text := []
  /-- Files of `queue/`, `hangs/` and `crashes/`, in the order of their creation. -/
  queueFiles : List (Text × List U8) := []
  hangFiles : List (Text × List U8) := []
  crashFiles : List (Text × List U8) := []

namespace FuzzState

variable {mapSize : Nat}

/-- The entry behind a pointer. -/
def entry (s : FuzzState mapSize) (p : Ptr) : QueueEntry := s.entries.getD p default

/-- Write through a pointer to an entry. -/
def updateEntry (s : FuzzState mapSize) (p : Ptr) (f : QueueEntry → QueueEntry) :
    FuzzState mapSize :=
  { s with entries := s.entries.modify p f }

end FuzzState

end TriforceAFL.Spec
