import TriforceAFL.Spec.FuzzOne

/-!
# `TriforceAFL.Spec.MainLoop`: a whole session

`startUp` is the part of `main` before the fuzzing loop: reading the test cases, giving them their
names in the output directory, loading the dictionaries, the dry run, and the position to start
from. `mainTurn` is one turn of the loop, and `session n` the start-up followed by `n` turns.
`beginTurn` is the part of a turn before `fuzz_one`.

The files that `pivot_inputs` links are copied into `queue_files`; the deletion of `_resume/` and
the flag files of `deterministic_done` are in `Spec.Resume`.
-/

set_option autoImplicit false

namespace TriforceAFL.Spec

open Lib

namespace Session

variable {mapSize : Nat}

/-- The state before `main` has done anything. -/
def start (w : World mapSize) : Session mapSize where
  globals := {
    dumbMode := w.options.dumbMode
    crashMode := if w.options.crashMode then .crash else .none
    noVarCheck := w.options.noVarCheck
    virginBits := w.inBitmap.getD (TraceMap.fill mapSize 0xff)
    outDir := w.options.outDir }
  useSplicing := w.options.skipDeterministic
  timeoutGiven := w.options.timeoutGiven
  synced := w.synced

/-! ### Reading the test cases -/

/-- The path of an input file. -/
def inPath (w : World mapSize) (name : Text) : Text := w.options.inDir ++ '/' :: name

/-- One file of the input directory. -/
def readTestcase (w : World mapSize) (f : InputFile) : Fuzz mapSize Unit :=
  if !isTestCase f.name f.content then pure ()
  else if f.content.length > MAX_FILE then
    Process.exit (.testCaseTooBig (inPath w f.name) f.content.length)
  else setGlobals fun g => addToQueue g (inPath w f.name) f.content.length f.passedDet

/-- Read all test cases from the input directory, then queue them for testing. -/
def readTestcases (w : World mapSize) : Fuzz mapSize Unit := do
  w.inputs.forM (readTestcase w)
  let s ← Process.get
  if s.globals.queuedPaths = 0 then Process.exit (.noUsableTestCases w.options.inDir) else pure ()

/-- Use a function of `Spec.Dictionary`, which can end the process. -/
def setDict (f : Session mapSize → Except DictFatal Dictionary) : Fuzz mapSize Unit :=
  Process.step fun s =>
    match f s with
    | .error e => .error (.dict e)
    | .ok dict => .ok ((), { s with dict, clock := s.clock + USE_AUTO_EXTRAS })

/-! ### Pivoting -/

/-- The entry `n` places behind `q` (`while (n-- && s) s = s->next`). -/
def entryAt (g : FuzzState mapSize) : Nat → Option Ptr → Option Ptr
  | 0, q => q
  | _ + 1, none => none
  | n + 1, some q => entryAt g n (g.entry q).next

/-- Does the file name carry the id that the entry would get anyway? -/
def keepsName (id : Nat) (name : Text) : Bool :=
  casePrefix.isPrefixOf name && scanUnsigned 6 (name.drop 3) == some id

/-- The number after the next colon of a name with an id. -/
def sourceId (name : Text) : Option Nat :=
  match (name.drop 3).dropWhile (· != ':') with
  | [] => none
  | _ :: rest => scanUnsigned 6 rest

/-- Find the parent of an entry and figure out the appropriate depth. -/
def pivotDepth (g : FuzzState mapSize) (q : Ptr) (name : Text) : FuzzState mapSize :=
  match sourceId name with
  | none => g
  | some src =>
    let g := match entryAt g src g.queue with
      | none => g
      | some s => g.updateEntry q fun e => { e with depth := (g.entry s).depth + 1 }
    { g with maxDepth := if g.maxDepth < (g.entry q).depth then (g.entry q).depth
        else g.maxDepth }

/-- Give the entry its name in the output directory, and its depth if its name is kept. -/
def pivotGlobals (g : FuzzState mapSize) (id : Nat) (q : Ptr) (content : List U8) :
    FuzzState mapSize :=
  let name := fileNameOf (g.entry q).fname
  let nfn := g.outDir ++ "/queue/".toList ++ pivotName id name
  let g := if keepsName id name then pivotDepth g q name else g
  let g := g.updateEntry q fun e => { e with fname := nfn }
  { g with queueFiles := g.queueFiles ++ [(nfn, content)] }

/-- One turn of the loop of `pivot_inputs`. -/
def pivotEntry (w : World mapSize) (id : Nat) (q : Ptr) : Fuzz mapSize Unit := do
  let s ← Process.get
  let e := s.globals.entry q
  let name := fileNameOf e.fname
  match w.inputs.find? fun f => inPath w f.name == e.fname with
  | none => Process.exit (.unableToOpen e.fname)
  | some f => do
      createFile w (s.globals.outDir ++ "/queue/".toList ++ pivotName id name)
      Process.modify fun s => { s with
        globals := pivotGlobals s.globals id q f.content
        resumingFuzz := s.resumingFuzz || keepsName id name }
      -- Make sure that the `passed_det` value carries over, too.
      if e.passedDet then markAsDetDone w q else pure ()

/-- The loop of `pivot_inputs`, from entry `id` on. -/
def pivotFrom (w : World mapSize) : Nat → Nat → Option Ptr → Fuzz mapSize Unit
  | 0, _, _ => pure ()
  | _ + 1, _, none => pure ()
  | fuel + 1, id, some q => do
      pivotEntry w id q
      let s ← Process.get
      pivotFrom w fuel (id + 1) (s.globals.entry q).next

/-- Create hard links for the input test cases in the output directory. -/
def pivotInputs (w : World mapSize) : Fuzz mapSize Unit := do
  let s ← Process.get
  pivotFrom w s.globals.entries.length 0 s.globals.queue

/-! ### The dry run -/

/-- `find_timeout`. -/
def findTimeout (w : World mapSize) : Fuzz mapSize Unit :=
  Process.modify fun s =>
    if s.timeoutGiven = 0 && s.resumingFuzz && w.statsTimeout.any (· > 4) then
      { s with timeoutGiven := 3 }
    else s

/-- Give up on an entry in the dry run. -/
def giveUp (q : Ptr) : Fuzz mapSize Unit :=
  setGlobals fun g => g.updateEntry q fun e => { e with calFailed := CAL_CHANCES }

/-- What the dry run makes of the result of a calibration. Returns whether it counts as a
failure. -/
def judgeDryRun (w : World mapSize) (q : Ptr) (res : Fault) : Fuzz mapSize Bool := do
  let s ← Process.get
  let fn := fileNameOf (s.globals.entry q).fname
  match res with
  | .none =>
    if s.globals.crashMode ≠ .none then Process.exit (.doesNotCrash fn) else pure false
  | .hang =>
    -- The -t nn+ syntax tolerates but skips queue entries that time out.
    if s.timeoutGiven > 1 then do
      giveUp q
      pure true
    else Process.exit (.resultsInHang fn)
  | .crash =>
    if s.globals.crashMode ≠ .none then pure false
    else if w.options.skipCrashes then do
      giveUp q
      pure true
    else Process.exit (.resultsInCrash fn)
  | .error => Process.exit .unableToExecute
  | .noInst => Process.exit .noInstrumentation
  | .noBits => pure false

/-- The loop of `perform_dry_run`. The result is the number of failures, or `none` after a stop. -/
def dryRunFrom (w : World mapSize) : Nat → Option Ptr → Nat → Fuzz mapSize (Option Nat)
  | 0, _, calFailures => pure (some calFailures)
  | _ + 1, none, calFailures => pure (some calFailures)
  | fuel + 1, some q, calFailures => do
      let s ← Process.get
      let e := s.globals.entry q
      let _ ← readCase e.fname e.len
      let res ← calibrate w q 0
      let stop ← checkStop w
      if stop then pure none
      else do
        let failed ← judgeDryRun w q res
        let s ← Process.get
        dryRunFrom w fuel (s.globals.entry q).next (calFailures + failed.toNat)

/-- Perform a dry run of all test cases to confirm that the app is working as expected. -/
def performDryRun (w : World mapSize) : Fuzz mapSize Unit := do
  let s ← Process.get
  let r ← dryRunFrom w s.globals.entries.length s.globals.queue 0
  match r with
  | none => pure ()
  | some calFailures => do
      let s ← Process.get
      if calFailures ≠ 0 ∧ calFailures = s.globals.queuedPaths then
        Process.exit (.allTimeOut w.options.skipCrashes)
      else pure ()

/-! ### The rest of the start-up -/

/-- The settings that `show_init_stats` makes. -/
def showInitStats (s : Session mapSize) : Session mapSize :=
  let g := s.globals
  let avgUs := if g.totalCalCycles ≠ 0 then g.totalCalUs / g.totalCalCycles else 0
  { s with
    havocDiv := if avgUs > 50000 then 10 else if avgUs > 20000 then 5
      else if avgUs > 10000 then 2 else s.havocDiv
    timeoutGiven := if s.timeoutGiven = 0 then 1 else s.timeoutGiven }

/-- The queue position to start from. -/
def findStartPosition (w : World mapSize) (s : Session mapSize) : Nat :=
  match s.resumingFuzz, w.curPath with
  | true, some ret => if ret.toNat ≥ s.globals.queuedPaths then 0 else ret.toNat
  | _, _ => 0

/-- Fill the queue and its directory. -/
def loadQueue (w : World mapSize) : Fuzz mapSize Unit := do
  readTestcases w
  setDict fun s => loadAuto w.dictEnv w.options.inDir w.autoFiles
    (fun i => w.random (s.clock + i)) s.dict
  pivotInputs w

/-- The steps between `pivot_inputs` and the fuzzing loop. -/
def prepare (w : World mapSize) : Fuzz mapSize Unit := do
  setDict fun s => match w.options.extrasDir with
    | none => .ok s.dict
    | some dir => loadExtras w.dictEnv w.extrasFs s.dict dir
  findTimeout w
  performDryRun w
  setGlobals cullQueue
  Process.modify showInitStats
  Process.modify fun s => { s with seekTo := findStartPosition w s }
  let stop ← checkStop w
  if stop then Process.exit .stopped else pure ()

/-- `main` up to the fuzzing loop. -/
def startUp (w : World mapSize) : Fuzz mapSize Unit := do
  loadQueue w
  prepare w

/-! ### The fuzzing loop -/

/-- `while (seek_to)`: move the current entry forward. -/
def seek : Nat → Fuzz mapSize Unit
  | 0 => pure ()
  | n + 1 => do
      Process.step fun s =>
        match s.queueCur with
        | none => .error .nullPointer
        | some q =>
          .ok ((), { s with
            queueCur := (s.globals.entry q).next
            op := { s.op with currentEntry := s.op.currentEntry + 1 }
            seekTo := s.seekTo - 1 })
      seek n

/-- After a full queue cycle with no new finds, try recombination strategies next. -/
def adjustSplicing (s : Session mapSize) : Session mapSize :=
  let s := if s.globals.queuedPaths = s.prevQueued then
      if s.useSplicing then
        { s with globals := { s.globals with cyclesWoFinds := s.globals.cyclesWoFinds + 1 } }
      else { s with useSplicing := true }
    else { s with globals := { s.globals with cyclesWoFinds := 0 } }
  { s with prevQueued := s.globals.queuedPaths }

/-- Start a new cycle through the queue. -/
def startCycle (w : World mapSize) : Fuzz mapSize Unit := do
  Process.modify fun s => { s with
    globals := { s.globals with queueCycle := s.globals.queueCycle + 1 }
    op := { s.op with currentEntry := 0 }
    queueCur := s.globals.queue }
  let s ← Process.get
  seek s.seekTo
  Process.modify adjustSplicing
  let s ← Process.get
  if w.options.syncId.isSome && decide (s.globals.queueCycle = 1) && w.options.importFirst then
    syncFuzzers w
  else pure ()

/-- The part of a turn before `fuzz_one`. -/
def beginTurn (w : World mapSize) : Fuzz mapSize Unit := do
  setGlobals cullQueue
  let s ← Process.get
  if s.queueCur = none then startCycle w else pure ()

/-- Every few fuzzed entries, look at the peers. -/
def maybeSync (w : World mapSize) (skipped : Bool) : Fuzz mapSize Unit := do
  let stop ← checkStop w
  if !stop && w.options.syncId.isSome && !skipped then do
    let s ← Process.get
    Process.modify fun s => { s with syncIntervalCnt := s.syncIntervalCnt + 1 }
    if s.syncIntervalCnt % SYNC_INTERVAL = 0 then syncFuzzers w else pure ()
  else pure ()

/-- Move on to the next entry. -/
def advance : Fuzz mapSize Unit :=
  Process.step fun s =>
    match s.queueCur with
    | none => .error .nullPointer
    | some q =>
      .ok ((), { s with
        queueCur := (s.globals.entry q).next
        op := { s.op with currentEntry := s.op.currentEntry + 1 } })

/-- The part of a turn after `fuzz_one`. -/
def endTurn (w : World mapSize) (skipped : Bool) : Fuzz mapSize Unit := do
  maybeSync w skipped
  let stop ← checkStop w
  if stop || w.options.exit1 then Process.exit .stopped else advance

/-- One turn of the fuzzing loop. -/
def mainTurn (w : World mapSize) : Fuzz mapSize Unit := do
  beginTurn w
  let skipped ← fuzzOne w
  endTurn w skipped

/-- A number of turns. -/
def turns (w : World mapSize) : Nat → Fuzz mapSize Unit
  | 0 => pure ()
  | n + 1 => do
      turns w n
      mainTurn w

/-- The start-up and `n` turns. -/
def session (w : World mapSize) (n : Nat) : Fuzz mapSize Unit := do
  startUp w
  turns w n

end Session

end TriforceAFL.Spec
