import TriforceAFL.Lib.Process
import TriforceAFL.Spec.Deterministic
import TriforceAFL.Spec.Dictionary
import TriforceAFL.Spec.RedundantEdges
import TriforceAFL.Spec.Resume
import TriforceAFL.Spec.Save
import TriforceAFL.Spec.Sync

/-!
# `TriforceAFL.Spec.Session`: the state of a fuzzing session and its elementary steps

A session is one run of `afl-fuzz`. `Session` holds the globals of `Spec.State` and those that only
the main loop and `fuzz_one` use. `World` is everything from outside: the options, the input
directory, what each execution of the target reports, the random numbers, the signals and the files
of the peers. What comes from outside during the run is a function of `clock`, which counts the
questions asked so far, so every sequence of outcomes is a `World`.

`stop_soon` is set by a signal handler. It is looked at where the code reads it (`checkStop`) and
after an execution; once set it stays set.

A run can exit: by `FATAL` or `PFATAL`, by a division by zero, by a null pointer, when it is
stopped, or because a loop without a bound of its own has used up `World.budget`.

The comparisons of `calculate_score` with the factors 0.1 and 0.3 are made on rounded `double`
values and are inputs of the model; the other factors are exact. The marker files below
`queue/.state`, the statistics, and what is shown on the screen are left out. No postprocessor is
loaded.
-/

set_option autoImplicit false

namespace TriforceAFL.Spec

open Lib

/-- A fault that `run_target` can return. -/
def Fault.Reported (f : Fault) : Prop := f ≠ .noInst ∧ f ≠ .noBits

/-- Does one of the executions report a stop? -/
def Calibration.stops {mapSize : Nat} (cal : Calibration mapSize) : Bool :=
  (List.range CAL_CYCLES_LONG).any fun i => (cal.runs i).stopSoon

/-- The command line and the environment. -/
structure Options where
  /-- `-n`. -/
  dumbMode : Bool := false
  /-- `-C`. -/
  crashMode : Bool := false
  /-- `AFL_NO_VAR_CHECK`. -/
  noVarCheck : Bool := false
  /-- `-d`, or `-S`. Both also set `use_splicing`. -/
  skipDeterministic : Bool := false
  /-- `AFL_SKIP_CRASHES`. -/
  skipCrashes : Bool := false
  /-- 1 with `-t`, 2 with `-t nn+`. -/
  timeoutGiven : Nat := 0
  /-- `AFL_BENCH_JUST_ONE`. -/
  exit1 : Bool := false
  /-- `AFL_IMPORT_FIRST`. -/
  importFirst : Bool := false
  /-- `-M` or `-S`. -/
  syncId : Option Text := none
  inDir : Text := "in".toList
  outDir : Text := "out".toList
  /-- `-x`. -/
  extrasDir : Option Text := none

/-- A regular file of the input directory. -/
structure InputFile where
  name : Text
  content : List U8
  /-- Is there a file for it in `.state/deterministic_done`? -/
  passedDet : Bool := false

/-- The queue of a peer, in the order of `readdir`. -/
structure PeerQueue where
  party : Text
  files : List (Text × List U8)

/-- What a session meets. -/
structure World (mapSize : Nat) where
  env : Env mapSize
  dictEnv : DictEnv
  options : Options := {}
  /-- The input files, sorted by name or shuffled. -/
  inputs : List InputFile := []
  /-- The bitmap given with `-B`. -/
  inBitmap : Option (TraceMap mapSize) := none
  autoFiles : Nat → AutoFile := fun _ => .missing
  extrasFs : Text → ExtrasSource := fun _ => .unreadable
  /-- `cur_path` in the `fuzzer_stats` of the session that is resumed. -/
  curPath : Option U32 := none
  /-- `exec_timeout` in the same file. -/
  statsTimeout : Option U32 := none
  /-- The numbers in `.synced`. -/
  synced : Text → Nat := fun _ => 0
  /-- `random()`. -/
  random : Nat → Nat := fun _ => 0
  exec : Nat → RunOutcome mapSize
  calibration : Nat → Calibration mapSize
  /-- Has a stop been requested? -/
  stopSignal : Nat → Bool := fun _ => false
  /-- Has a skip been requested (`SIGUSR1`)? -/
  skipSignal : Nat → Bool := fun _ => false
  /-- Does the disk allow to create a file? -/
  canCreate : Nat → Bool := fun _ => true
  /-- `run_over10m`. -/
  over10m : Nat → Bool := fun _ => false
  peers : Nat → List PeerQueue := fun _ => []
  /-- `x * 0.1 > y`. -/
  tenthExceeds : Nat → Nat → Bool := fun _ _ => false
  /-- `x * 0.3 > y`. -/
  threeTenthsExceed : Nat → Nat → Bool := fun _ _ => false
  /-- Bound for the loops that have none. -/
  budget : Nat := 0
  exec_reported : ∀ t, (exec t).fault.Reported
  calibration_reported : ∀ t i, ((calibration t).runs i).fault.Reported
  /-- The files of a directory have different names, and a name has no slash. -/
  inputs_nodup : (inputs.map (·.name)).Nodup := by exact List.nodup_nil
  inputs_plain : ∀ f ∈ inputs, '/' ∉ f.name := by exact fun _ h => absurd h List.not_mem_nil
  peers_plain : ∀ t, ∀ peer ∈ peers t, '/' ∉ peer.party := by
    exact fun _ _ h => absurd h List.not_mem_nil

/-- How a session ends. -/
inductive Exit
  | save (e : Fatal)
  | dict (e : DictFatal)
  | unableToOpen (fn : Text)
  | unableToCreate (fn : Text)
  | shortRead (fn : Text)
  | testCaseTooBig (fn : Text) (size : Nat)
  | noUsableTestCases (dir : Text)
  | doesNotCrash (fn : Text)
  | resultsInHang (fn : Text)
  | resultsInCrash (fn : Text)
  | unableToExecute
  | noInstrumentation
  /-- `All test cases time out`, or, with the flag, `time out or crash`. -/
  | allTimeOut (orCrash : Bool)
  | divisionByZero
  | nullPointer
  | stopped
  | outOfBudget
deriving DecidableEq

/-- The state of a session. -/
structure Session (mapSize : Nat) where
  globals : FuzzState mapSize
  dict : Dictionary := {}
  /-- What `describe_op` reads; `current_entry` and `splicing_with` are among it. -/
  op : OpInfo := {}
  queueCur : Option Ptr := none
  seekTo : Nat := 0
  prevQueued : Nat := 0
  useSplicing : Bool := false
  syncIntervalCnt : Nat := 0
  subseqHangs : Nat := 0
  havocDiv : Nat := 1
  timeoutGiven : Nat := 0
  resumingFuzz : Bool := false
  stopSoon : Bool := false
  /-- The entries with `trim_done = 1`. -/
  trimmed : List Ptr := []
  /-- The numbers in `.synced`. -/
  synced : Text → Nat := fun _ => 0
  clock : Nat := 0
  /-- The buffers handed to `save_if_interesting` so far. -/
  handed : List (List U8) := []

/-- A part of the program. -/
abbrev Fuzz (mapSize : Nat) : Type → Type := Process (Session mapSize) Exit

namespace Session

variable {mapSize : Nat}

/-- One question asked. -/
def tick (s : Session mapSize) : Session mapSize := { s with clock := s.clock + 1 }

/-- Write a global of `Spec.State`. -/
def setGlobals (f : FuzzState mapSize → FuzzState mapSize) : Fuzz mapSize Unit :=
  Process.modify fun s => { s with globals := f s.globals }

/-- Write what `describe_op` reads. -/
def setOp (f : OpInfo → OpInfo) : Fuzz mapSize Unit :=
  Process.modify fun s => { s with op := f s.op }

/-- `UR(limit)`. -/
def ur (w : World mapSize) (limit : Nat) : Fuzz mapSize Nat :=
  Process.step fun s =>
    if limit = 0 then .error .divisionByZero else .ok (w.random s.clock % limit, s.tick)

/-- `UR(100) < percent`. -/
def chance (w : World mapSize) (percent : Nat) : Fuzz mapSize Bool := do
  let r ← ur w 100
  pure (decide (r < percent))

/-- Read `stop_soon`. -/
def checkStop (w : World mapSize) : Fuzz mapSize Bool :=
  Process.step fun s =>
    .ok (s.stopSoon || w.stopSignal s.clock,
      { s.tick with stopSoon := s.stopSoon || w.stopSignal s.clock })

/-- Read and clear `skip_requested`. -/
def checkSkip (w : World mapSize) : Fuzz mapSize Bool :=
  Process.step fun s => .ok (w.skipSignal s.clock, s.tick)

/-- Create a file, or give up with `PFATAL`. -/
def createFile (w : World mapSize) (fn : Text) : Fuzz mapSize Unit :=
  Process.step fun s =>
    if w.canCreate s.clock then .ok ((), s.tick) else .error (.unableToCreate fn)

/-- Read `len` bytes of a file of the queue. -/
def readCase (fn : Text) (len : Nat) : Fuzz mapSize (List U8) :=
  Process.step fun s =>
    match s.globals.queueFiles.lookup fn with
    | none => .error (.unableToOpen fn)
    | some content =>
      if content.length < len then .error (.shortRead fn) else .ok (content.take len, s)

/-- `run_target`, with the trace in `trace_bits` afterwards. -/
def runTarget (w : World mapSize) : Fuzz mapSize Fault :=
  Process.step fun s =>
    .ok ((w.exec s.clock).fault, { s.tick with
      globals := { s.globals with traceBits := (w.exec s.clock).trace }
      stopSoon := s.stopSoon || (w.exec s.clock).stopSoon })

/-- `calibrate_case`. -/
def calibrate (w : World mapSize) (q : Ptr) (handicap : Nat) : Fuzz mapSize Fault :=
  Process.step fun s =>
    let (fault, globals) := calibrateCase w.env s.globals q (w.calibration s.clock) handicap
    .ok (fault, { s.tick with
      globals
      stopSoon := s.stopSoon || (w.calibration s.clock).stops })

/-- The call of `save_if_interesting` in a state. -/
def saveCall (w : World mapSize) (s : Session mapSize) (mem : List U8) (fault : Fault) :
    SaveCall mapSize where
  mem
  fault
  op := s.op
  cal := w.calibration s.clock
  canCreateQueue := w.canCreate s.clock
  canCreateFault := w.canCreate (s.clock + 1)

/-- `save_if_interesting`. -/
def saveCase (w : World mapSize) (mem : List U8) (fault : Fault) : Fuzz mapSize Unit := do
  Process.modify fun s => { s with handed := s.handed ++ [mem] }
  Process.step fun s =>
    match saveIfInteresting w.env s.globals (saveCall w s mem fault) with
    | .error e => .error (.save e)
    | .ok (_, globals) =>
      .ok ((), { s.tick.tick with
        globals
        -- A new entry has been calibrated, and a stop may have been requested meanwhile.
        stopSoon := s.stopSoon ||
          (decide (globals.queuedPaths ≠ s.globals.queuedPaths) &&
            (w.calibration s.clock).stops) })

/-- `subseq_hangs`: are there too many hangs in a row? -/
def countHangs (fault : Fault) : Fuzz mapSize Bool :=
  Process.step fun s =>
    if fault = .hang then
      .ok (decide (s.subseqHangs > HANG_LIMIT), { s with subseqHangs := s.subseqHangs + 1 })
    else .ok (false, { s with subseqHangs := 0 })

/-- Write a modified test case, run the program, process the results. Returns whether it is time to
bail out. -/
def commonFuzzStuff (w : World mapSize) (outBuf : List U8) : Fuzz mapSize Bool := do
  let fault ← runTarget w
  let s ← Process.get
  if s.stopSoon then pure true
  else do
    let hangs ← countHangs fault
    if hangs then pure true
    else do
      let skip ← checkSkip w
      if skip then pure true
      else do
        saveCase w outBuf fault
        pure false

/-! ### The score of an entry -/

/-- The factor for the execution time, in percent. -/
def speedScore (w : World mapSize) (execUs avg : Nat) : Nat :=
  if w.tenthExceeds execUs avg then 10
  else if execUs > avg * 4 then 25
  else if execUs > avg * 2 then 50
  else if execUs * 3 > avg * 4 then 75
  else if execUs * 4 < avg then 300
  else if execUs * 3 < avg then 200
  else if execUs * 2 < avg then 150
  else 100

/-- The score, adjusted for the size of the bitmap. -/
def bitmapScore (w : World mapSize) (size avg score : Nat) : Nat :=
  if w.threeTenthsExceed size avg then score * 3
  else if size > avg * 2 then score * 2
  else if size * 3 > avg * 4 then score * 3 / 2
  else if size * 3 < avg then score / 4
  else if size * 2 < avg then score / 2
  else if size * 3 < avg * 2 then score * 3 / 4
  else score

/-- The factor for the depth of the input. -/
def depthFactor (depth : Nat) : Nat :=
  if depth ≤ 3 then 1
  else if depth ≤ 7 then 2
  else if depth ≤ 13 then 4
  else if depth ≤ 25 then 6
  else 8

/-- The score of an entry, for given averages. -/
def scoreOf (w : World mapSize) (e : QueueEntry) (avgUs avgBitmap : Nat) : Nat :=
  let score := bitmapScore w e.bitmapSize avgBitmap (speedScore w e.execUs avgUs)
  let score := if e.handicap ≥ 4 then score * 4 else if e.handicap ≠ 0 then score * 2 else score
  min (score * depthFactor e.depth) (HAVOC_MAX_MULT * 100)

/-- Calculate case desirability score. -/
def calculateScore (w : World mapSize) (q : Ptr) : Fuzz mapSize Nat :=
  Process.step fun s =>
    let g := s.globals
    if g.totalCalCycles = 0 ∨ g.totalBitmapEntries = 0 then .error .divisionByZero
    else
      .ok (scoreOf w (g.entry q) (g.totalCalUs / g.totalCalCycles % 2 ^ 32)
          (g.totalBitmapSize / g.totalBitmapEntries % 2 ^ 32),
        { s with globals := g.updateEntry q fun e => { e with
            handicap := if e.handicap ≥ 4 then e.handicap - 4 else e.handicap - 1 } })

/-! ### Importing from peers -/

/-- One file of a peer. The result is the new mark, or `none` after a stop. -/
def syncCase (w : World mapSize) (party : Text) (minAccept : Nat) (nextMinAccept : Nat)
    (file : Text × List U8) : Fuzz mapSize (Option Nat) :=
  match SyncState.accepted minAccept file.1 with
  | none => pure (some nextMinAccept)
  | some syncingCase => do
      setOp fun op => { op with syncingCase }
      let next := if syncingCase ≥ nextMinAccept then (syncingCase + 1) % 2 ^ 32 else nextMinAccept
      if SyncState.runnable file.2 then do
        let fault ← runTarget w
        let s ← Process.get
        if s.stopSoon then pure none
        else do
          setOp fun op => { op with syncingParty := some party }
          saveCase w file.2 fault
          setOp fun op => { op with syncingParty := none }
          pure (some next)
      else pure (some next)

/-- One peer. `none` after a stop. -/
def syncPeer (w : World mapSize) (peer : PeerQueue) : Fuzz mapSize (Option Unit) :=
  -- Skip dot files and our own output directory.
  if peer.party.head? = some '.' ∨ some peer.party = w.options.syncId then pure (some ())
  else do
    let s ← Process.get
    let minAccept := s.synced peer.party
    let r ← Process.foldUntil (syncCase w peer.party minAccept) peer.files minAccept
    match r with
    | none => pure none
    | some next => do
        Process.modify fun s => { s with
          synced := fun party => if party = peer.party then next else s.synced party }
        pure (some ())

/-- Grab interesting test cases from other fuzzers. -/
def syncFuzzers (w : World mapSize) : Fuzz mapSize Unit := do
  setGlobals fun g => { g with curDepth := 0 }
  let peers ← Process.step fun s => .ok (w.peers s.clock, s.tick)
  let _ ← Process.foldUntil (fun _ peer => syncPeer w peer) peers ()
  pure ()

end Session

end TriforceAFL.Spec
