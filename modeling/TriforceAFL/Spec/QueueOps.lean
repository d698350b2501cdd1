import TriforceAFL.Spec.Queue

/-!
# `TriforceAFL.Spec.QueueOps`: the calls that change the favored set

The functions of `Spec.Queue` are called from many places: `save_if_interesting` and
`read_testcases` add entries, `calibrate_case` and `trim_case` measure an entry and score it with
the trace of its last execution, the main loop culls the queue, and `fuzz_one` completes an entry.
A `QueueOp` is one of these calls with its inputs, and a run of the fuzzer is any sequence of them.
-/

set_option autoImplicit false

namespace TriforceAFL.Spec

/-- A call that works on the queue. -/
inductive QueueOp (mapSize : Nat)
  /-- `add_to_queue(fname, len, passed_det)`. -/
  | add (fname : Text) (len : Nat) (passedDet : Bool)
  /-- `calibrate_case` or `trim_case` writes new measurements into an entry. -/
  | measure (q : Ptr) (execUs len calFailed : Nat)
  /-- `update_bitmap_score(q)` with the given trace in `trace_bits`. -/
  | score (q : Ptr) (trace : TraceMap mapSize)
  /-- `cull_queue()`. -/
  | cull
  /-- `fuzz_one` reaches `abandon_entry` with `queue_cur = q`. -/
  | finish (q : Ptr) (stopSoon : Bool)

namespace QueueOp

variable {mapSize : Nat}

/-- Pointers that are passed point to an entry. -/
def Valid (s : FuzzState mapSize) : QueueOp mapSize → Prop
  | .measure q _ _ _ | .score q _ | .finish q _ => q < s.entries.length
  | .add _ _ _ | .cull => True

/-- The globals after the call. -/
def apply (s : FuzzState mapSize) : QueueOp mapSize → FuzzState mapSize
  | .add fname len passedDet => addToQueue s fname len passedDet
  | .measure q execUs len calFailed =>
    s.updateEntry q fun e => { e with execUs, len, calFailed }
  | .score q trace => updateBitmapScore { s with traceBits := trace } q
  | .cull => cullQueue s
  | .finish q stopSoon => abandonEntry s q stopSoon

end QueueOp

/-- The globals before the first entry is added. -/
def QueueStart {mapSize : Nat} (s : FuzzState mapSize) : Prop := ∃ dumbMode, s = { dumbMode }

/-- One call in a run of the fuzzer. -/
def QueueStep {mapSize : Nat} (s s' : FuzzState mapSize) : Prop :=
  ∃ op : QueueOp mapSize, op.Valid s ∧ op.apply s = s'

/-- Number of queue entries with `favored = 1`. -/
def favoredCount {mapSize : Nat} (s : FuzzState mapSize) : Nat := s.entries.countP (·.favored)

/-- Number of queue entries with `favored = 1` and `was_fuzzed = 0`. -/
def pendingFavoredCount {mapSize : Nat} (s : FuzzState mapSize) : Nat :=
  s.entries.countP fun e => e.favored && !e.wasFuzzed

end TriforceAFL.Spec
