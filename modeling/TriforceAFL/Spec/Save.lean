import TriforceAFL.Spec.Queue

/-!
# `TriforceAFL.Spec.Save`: calibration and `save_if_interesting`

`save_if_interesting` looks at the trace of an execution. A normal outcome with new coverage goes
to the queue and is calibrated on the spot. A hang or a crash is saved when its simplified trace
has new bits in the virgin map of its kind. `calibrate_case` runs the new entry several times;
each run overwrites `trace_bits`.

The executions are inputs of the model: a `RunOutcome` is what one call of `run_target` reports
and leaves in `trace_bits` after `classify_counts`. The checksum `hash32` and the flavour of the
word-wise helpers are parameters (`Env`). `PFATAL` and `FATAL` end the process (`Fatal`); whether
`open` can create a file is an input of the call. The README that accompanies the first crash,
the time stamps and the screen updates are left out.
-/

set_option autoImplicit false

namespace TriforceAFL.Spec

open Lib

/-- What is fixed for a run of the fuzzer: the word size of the build and the trace checksum. -/
structure Env (mapSize : Nat) where
  x86_64 : Bool
  hash32 : TraceMap mapSize → U32

/-- One execution of the target: the fault, the classified trace, and whether a stop was requested
meanwhile. -/
structure RunOutcome (mapSize : Nat) where
  fault : Fault
  trace : TraceMap mapSize
  stopSoon : Bool := false

/-- The executions of one calibration, and the time they take altogether. -/
structure Calibration (mapSize : Nat) where
  runs : Nat → RunOutcome mapSize
  elapsedUs : Nat

/-- The map that `has_new_bits` is called with. -/
inductive VirginMap
  | bits
  | hang
  | crash
deriving DecidableEq

variable {mapSize : Nat}

/-- The virgin map of the given kind. -/
def FuzzState.virgin (s : FuzzState mapSize) : VirginMap → TraceMap mapSize
  | .bits => s.virginBits
  | .hang => s.virginHang
  | .crash => s.virginCrash

/-- `has_new_bits(virgin_map)` on the globals. -/
def FuzzState.hasNewBits (env : Env mapSize) (s : FuzzState mapSize) (which : VirginMap) :
    Nat × FuzzState mapSize :=
  let (ret, virgin) := Spec.hasNewBits env.x86_64 s.traceBits (s.virgin which)
  (ret, match which with
    | .bits => { s with
        virginBits := virgin
        bitmapChanged := if ret ≠ 0 then true else s.bitmapChanged }
    | .hang => { s with virginHang := virgin }
    | .crash => { s with virginCrash := virgin })

/-! ### `calibrate_case` -/

/-- The locals of `calibrate_case` that its loop changes, with the globals. -/
structure CalState (mapSize : Nat) where
  globals : FuzzState mapSize
  stageMax : Nat
  newBits : Nat := 0
  varDetected : Bool := false

/-- Compare the checksum of a calibration run with the recorded one. -/
def compareChecksum (env : Env mapSize) (q : Ptr) (c : CalState mapSize) : CalState mapSize :=
  let old := (c.globals.entry q).execCksum
  let cksum := env.hash32 c.globals.traceBits
  if old ≠ cksum then
    let (hnb, s) := c.globals.hasNewBits env .bits
    let newBits := if hnb > c.newBits then hnb else c.newBits
    -- A checksum of zero is the one of an entry that was never run.
    if !s.noVarCheck && old ≠ 0 then
      { c with globals := s, newBits, varDetected := true, stageMax := CAL_CYCLES_LONG }
    else
      { c with globals := s.updateEntry q (fun e => { e with execCksum := cksum }), newBits }
  else c

/-- The calibration loop from turn `stageCur` on. The first component is the fault on a jump to
`abort_calibration`. The bound of the loop can grow to `CAL_CYCLES_LONG`, and so does the fuel. -/
def calibrateLoop (env : Env mapSize) (q : Ptr) (cal : Calibration mapSize) :
    Nat → Nat → CalState mapSize → Option Fault × CalState mapSize
  | 0, _, c => (none, c)
  | fuel + 1, stageCur, c =>
    if stageCur < c.stageMax then
      let run := cal.runs stageCur
      let c := { c with globals := { c.globals with traceBits := run.trace } }
      if run.stopSoon || run.fault ≠ c.globals.crashMode then (some run.fault, c)
      else if !c.globals.dumbMode && stageCur == 0 && countBytes run.trace == 0 then
        (some .noInst, c)
      else calibrateLoop env q cal fuel (stageCur + 1) (compareChecksum env q c)
    else (none, c)

/-- The statistics that a completed calibration loop collects. -/
def finishCalibration (q : Ptr) (handicap elapsedUs : Nat) (c : CalState mapSize) :
    FuzzState mapSize :=
  let s := c.globals
  let size := countBytes s.traceBits
  let s := { s with
    totalCalUs := s.totalCalUs + elapsedUs
    totalCalCycles := s.totalCalCycles + c.stageMax
    totalBitmapSize := s.totalBitmapSize + size
    totalBitmapEntries := s.totalBitmapEntries + 1 }
  updateBitmapScore
    (s.updateEntry q fun e => { e with
      execUs := elapsedUs / c.stageMax
      bitmapSize := size
      handicap
      calFailed := 0 }) q

/-- The code after the label `abort_calibration`: mark new coverage and variable behavior. -/
def markCalibrated (q : Ptr) (newBits : Nat) (varDetected : Bool) (s : FuzzState mapSize) :
    FuzzState mapSize :=
  let s := if newBits == 2 && !(s.entry q).hasNewCov then
      { s.updateEntry q (fun e => { e with hasNewCov := true }) with
        queuedWithCov := s.queuedWithCov + 1 }
    else s
  if varDetected && !(s.entry q).varBehavior then
    { s.updateEntry q (fun e => { e with varBehavior := true }) with
      queuedVariable := s.queuedVariable + 1 }
  else s

/-- The state in which the calibration loop starts. -/
def startCalibration (s : FuzzState mapSize) (q : Ptr) : CalState mapSize where
  globals := s.updateEntry q fun e => { e with calFailed := e.calFailed + 1 }
  stageMax := if s.noVarCheck then CAL_CYCLES_NO_VAR else CAL_CYCLES

/-- Calibrate the test case `q`. The adjustment of the timeout is inside the outcomes. -/
def calibrateCase (env : Env mapSize) (s : FuzzState mapSize) (q : Ptr)
    (cal : Calibration mapSize) (handicap : Nat) : Fault × FuzzState mapSize :=
  let firstRun := (s.entry q).execCksum == 0
  match calibrateLoop env q cal (CAL_CYCLES_LONG + 1) 0 (startCalibration s q) with
  | (some fault, c) => (fault, markCalibrated q c.newBits c.varDetected c.globals)
  | (none, c) =>
    let s := finishCalibration q handicap cal.elapsedUs c
    -- Every run ended with `crash_mode`, so that is the value of `fault` here.
    let fault := if !s.dumbMode && firstRun && s.crashMode == .none && c.newBits == 0
      then .noBits else s.crashMode
    (fault, markCalibrated q c.newBits c.varDetected s)

/-! ### `describe_op` -/

/-- The globals that `describe_op` turns into a file name. -/
structure OpInfo where
  syncingParty : Option Text := none
  syncingCase : Nat := 0
  currentEntry : Nat := 0
  splicingWith : Int := -1
  stageShort : Text := []
  stageCurByte : Int := 0
  stageValType : StageValType := .none
  stageCurVal : Int := 0

/-- `printf("%+d", v)`. -/
def signedDec (v : Int) : Text := (if v < 0 then '-' else '+') :: Nat.toDigits 10 v.natAbs

/-- `printf("%u", v)` for a signed 32-bit `v`. -/
def unsignedDec (v : Int) : Text := Nat.toDigits 10 (v % 2 ^ 32).toNat

/-- Construct the descriptive part of a file name. -/
def describeOp (op : OpInfo) (hnb : Nat) : Text :=
  let ret : Text := match op.syncingParty with
    | some party => "sync:".toList ++ party ++ ",src:".toList ++ padDec 6 op.syncingCase
    | none =>
      "src:".toList ++ padDec 6 op.currentEntry ++
      (if op.splicingWith ≥ 0 then "+".toList ++ padDec 6 op.splicingWith.toNat else []) ++
      ",op:".toList ++ op.stageShort ++
      (if op.stageCurByte ≥ 0 then
        ",pos:".toList ++ unsignedDec op.stageCurByte ++
        (if op.stageValType ≠ .none then
          ",val:".toList ++ (if op.stageValType = .be then "be:".toList else []) ++
            signedDec op.stageCurVal
        else [])
      else ",rep:".toList ++ unsignedDec op.stageCurVal)
  if hnb = 2 then ret ++ ",+cov".toList else ret

/-! ### `save_if_interesting` -/

/-- Why the process ended. -/
inductive Fatal
  | unableToExecute
  | unableToCreate (fn : Text)
deriving DecidableEq

/-- The inputs of a call of `save_if_interesting`. `canCreate` says whether `open` succeeds for
the queue file and for the crash or hang file. -/
structure SaveCall (mapSize : Nat) where
  mem : List U8
  fault : Fault
  op : OpInfo := {}
  cal : Calibration mapSize
  canCreateQueue : Bool := true
  canCreateFault : Bool := true

/-- How the first block of `save_if_interesting` ends: by `return 0`, or by falling through with
the value of `keeping`. -/
inductive QueueOutcome
  | returned
  | fellThrough (keeping : Bool)
deriving DecidableEq

/-- The file name of a new queue entry. -/
def queueFileName (s : FuzzState mapSize) (op : OpInfo) (hnb : Nat) : Text :=
  s.outDir ++ "/queue/id:".toList ++ padDec 6 s.queuedPaths ++ ",".toList ++ describeOp op hnb

/-- Fill in the entry that was just queued: the coverage mark and the checksum of its trace. -/
def markQueued (env : Env mapSize) (s : FuzzState mapSize) (top : Ptr) (hnb : Nat) :
    FuzzState mapSize :=
  let s := if hnb = 2 then
      { s.updateEntry top (fun e => { e with hasNewCov := true }) with
        queuedWithCov := s.queuedWithCov + 1 }
    else s
  s.updateEntry top fun e => { e with execCksum := env.hash32 s.traceBits }

/-- Queue the input and calibrate it inline. -/
def enqueueCase (env : Env mapSize) (s : FuzzState mapSize) (c : SaveCall mapSize) (hnb : Nat) :
    Fault × FuzzState mapSize :=
  let s := addToQueue s (queueFileName s c.op hnb) c.mem.length false
  let top := s.queueTop.getD 0
  -- The handicap is the 32-bit value of `queue_cycle - 1`.
  calibrateCase env (markQueued env s top hnb) top c.cal ((s.queueCycle + (2 ^ 32 - 1)) % 2 ^ 32)

/-- The block under `fault == crash_mode`: keep the input if there are new bits in the map. -/
def saveToQueue (env : Env mapSize) (s : FuzzState mapSize) (c : SaveCall mapSize) :
    Except Fatal (QueueOutcome × FuzzState mapSize) :=
  if c.fault = s.crashMode then
    let (hnb, s) := s.hasNewBits env .bits
    if hnb = 0 then
      .ok (.returned, if s.crashMode ≠ .none then
        { s with totalCrashes := s.totalCrashes + 1 } else s)
    else
      let fn := queueFileName s c.op hnb
      -- The entry is queued and calibrated before its file is created.
      let (res, s) := enqueueCase env s c hnb
      if res = .error then .error .unableToExecute
      else if c.canCreateQueue then
        .ok (.fellThrough true, { s with queueFiles := s.queueFiles ++ [(fn, c.mem)] })
      else .error (.unableToCreate fn)
  else .ok (.fellThrough false, s)

/-- The two cases of the switch that save under a uniqueness test. They differ in the globals and
the file name that they use. -/
inductive FaultKind
  | hang
  | crash
deriving DecidableEq

namespace FaultKind

/-- The fault of the case. -/
def fault : FaultKind → Fault
  | .hang => .hang
  | .crash => .crash

/-- The virgin map of the case. -/
def virginMap : FaultKind → VirginMap
  | .hang => .hang
  | .crash => .crash

/-- The number of unique faults so far. -/
def unique : FaultKind → FuzzState mapSize → Nat
  | .hang, s => s.uniqueHangs
  | .crash, s => s.uniqueCrashes

/-- The limit on unique faults. -/
def keep : FaultKind → Nat
  | .hang => KEEP_UNIQUE_HANG
  | .crash => KEEP_UNIQUE_CRASH

/-- The files saved for the case. -/
def files : FaultKind → FuzzState mapSize → List (Text × List U8)
  | .hang, s => s.hangFiles
  | .crash, s => s.crashFiles

/-- `total_hangs++` or `total_crashes++`. -/
def count : FaultKind → FuzzState mapSize → FuzzState mapSize
  | .hang, s => { s with totalHangs := s.totalHangs + 1 }
  | .crash, s => { s with totalCrashes := s.totalCrashes + 1 }

/-- The name of the next file. Only a crash carries the signal. -/
def fileName : FaultKind → FuzzState mapSize → OpInfo → Text
  | .hang, s, op =>
    s.outDir ++ "/hangs/id:".toList ++ padDec 6 s.uniqueHangs ++ ",".toList ++ describeOp op 0
  | .crash, s, op =>
    s.outDir ++ "/crashes/id:".toList ++ padDec 6 s.uniqueCrashes ++ ",sig:".toList ++
      padDec 2 s.killSignal ++ ",".toList ++ describeOp op 0

/-- Count a unique fault and write its file. -/
def write : FaultKind → FuzzState mapSize → Text → List U8 → FuzzState mapSize
  | .hang, s, fn, mem =>
    { s with uniqueHangs := s.uniqueHangs + 1, hangFiles := s.hangFiles ++ [(fn, mem)] }
  | .crash, s, fn, mem =>
    { s with uniqueCrashes := s.uniqueCrashes + 1, crashFiles := s.crashFiles ++ [(fn, mem)] }

end FaultKind

/-- The uniqueness test of a hang or crash: simplify the trace and look for new bits in the virgin
map of the kind. In dumb mode everything is kept. -/
def isUnique (env : Env mapSize) (s : FuzzState mapSize) (kind : FaultKind) :
    Bool × FuzzState mapSize :=
  if !s.dumbMode then
    -- `trace_bits` itself is simplified, for whoever reads it next.
    let s := { s with traceBits := simplifyTrace env.x86_64 s.traceBits }
    let (ret, s) := s.hasNewBits env kind.virginMap
    (ret ≠ 0, s)
  else (true, s)

/-- The `FAULT_HANG` or `FAULT_CRASH` case, with the file write after the switch. -/
def saveFault (env : Env mapSize) (kind : FaultKind) (s : FuzzState mapSize)
    (c : SaveCall mapSize) : Except Fatal (FuzzState mapSize) :=
  let s := kind.count s
  if kind.unique s ≥ kind.keep then .ok s
  else
    let (unique, s) := isUnique env s kind
    if !unique then .ok s
    else
      let fn := kind.fileName s c.op
      if c.canCreateFault then .ok (kind.write s fn c.mem) else .error (.unableToCreate fn)

/-- Check if the result of an execution is interesting, and save or queue the input if so. The
returned flag is `keeping`. -/
def saveIfInteresting (env : Env mapSize) (s : FuzzState mapSize) (c : SaveCall mapSize) :
    Except Fatal (Bool × FuzzState mapSize) :=
  match saveToQueue env s c with
  | .error e => .error e
  | .ok (.returned, s) => .ok (false, s)
  | .ok (.fellThrough keeping, s) =>
    match c.fault with
    | .hang => (saveFault env .hang s c).map fun s => (keeping, s)
    | .crash => (saveFault env .crash s c).map fun s => (keeping, s)
    | .error => .error .unableToExecute
    | _ => .ok (keeping, s)

end TriforceAFL.Spec
