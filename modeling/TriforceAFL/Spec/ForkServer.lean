import TriforceAFL.Spec.State

/-!
# `TriforceAFL.Spec.ForkServer`: the fork server protocol in persistent mode

Three parties take steps in any order: the client (`run_target` of `afl-fuzz.c` or `afl-tmin.c`,
with its SIGALRM handler), the fork server (`__afl_start_forkserver` with `is_persistent` set), and
the children, which may exit, crash, stop themselves (`__afl_persistent_loop`), or hang by taking
no step. Client and server talk through two pipes.

The handler interrupts the client, so the client takes no step while it runs; the other parties
do. A SIGKILL is sent at once and takes effect at any later time. Pids are not reused.

The fields named `run` are not in the code. They number the calls of `run_target` and record for
which call a child was forked or last resumed.
-/

set_option autoImplicit false

namespace TriforceAFL.Spec

/-- A wait status. -/
inductive WaitStatus
  | exited (code : Nat)
  | signaled (sig : Nat)
  | stopped (sig : Nat)
deriving DecidableEq

namespace WaitStatus

/-- `WIFEXITED` -/
def wifExited : WaitStatus → Bool
  | .exited _ => true
  | _ => false

/-- `WIFSIGNALED` -/
def wifSignaled : WaitStatus → Bool
  | .signaled _ => true
  | _ => false

/-- `WEXITSTATUS`, the second byte of the status word. -/
def wexitStatus : WaitStatus → Nat
  | .exited code => code % 256
  | .signaled _ => 0
  | .stopped sig => sig % 256

/-- `WTERMSIG`, the lowest seven bits of the status word. -/
def wtermSig : WaitStatus → Nat
  | .exited _ => 0
  | .signaled sig => sig % 128
  | .stopped _ => 127

end WaitStatus

/-- SIGKILL and SIGSTOP. -/
def SIGKILL : Nat := 9

@[inherit_doc SIGKILL] def SIGSTOP : Nat := 19

/-! ### The children -/

/-- Where a child is. -/
inductive ProcState
  | running
  /-- Stopped. Has `waitpid` returned the stop? -/
  | stopped (collected : Bool)
  /-- Dead, and not waited for. Was it the client's own SIGKILL? -/
  | zombie (status : WaitStatus) (byClient : Bool)
  | reaped
deriving DecidableEq

/-- A child of the fork server. -/
structure Child where
  state : ProcState
  /-- The client has sent a SIGKILL. -/
  killSent : Bool
  run : Nat
deriving DecidableEq

namespace Child

/-- Neither dead nor waited for. -/
def alive (c : Child) : Bool :=
  match c.state with
  | .running | .stopped _ => true
  | .zombie _ _ | .reaped => false

/-- `kill(pid, SIGKILL)` by the client. -/
def kill (c : Child) : Child := if c.alive then { c with killSent := true } else c

/-- `kill(pid, SIGCONT)` for a run. -/
def cont (c : Child) (run : Nat) : Child :=
  match c.state with
  | .stopped _ => { c with state := .running, run }
  | _ => c

end Child

/-! ### The messages -/

/-- A status word, with the child's `run` and whether the child died by the client's SIGKILL. -/
structure Report where
  status : WaitStatus
  run : Nat
  byClient : Bool
deriving DecidableEq

/-- What the server writes. -/
inductive Msg
  | pid (p : Nat)
  | status (r : Report)
deriving DecidableEq

/-- What a call of `run_target` works with at its end. -/
structure RunRecord where
  run : Nat
  report : Report
  /-- `child_timed_out` -/
  timedOut : Bool
  stopSoon : Bool
deriving DecidableEq

/-! ### The state -/

/-- The two clients. -/
inductive Client
  | fuzz
  | tmin
deriving DecidableEq

/-- The next step of `run_target`. -/
inductive ClientPc
  | start
  /-- `write(fsrv_ctl_fd, &prev_timed_out, 4)` -/
  | request
  /-- `read(fsrv_st_fd, &child_pid, 4)` -/
  | readPid
  /-- `setitimer` -/
  | arm
  /-- `read(fsrv_st_fd, &status, 4)` -/
  | readStatus
  /-- `child_pid = 0` -/
  | clearPid
  /-- `setitimer` with zero -/
  | disarm
  | finish
deriving DecidableEq

/-- The next step of the fork server. -/
inductive ServerPc
  /-- `read(FORKSRV_FD, &was_killed, 4)` -/
  | read
  /-- `waitpid` for a child that was killed after it had stopped -/
  | reap
  /-- `fork`, or SIGCONT -/
  | launch
  /-- `write(FORKSRV_FD + 1, &child_pid, 4)` -/
  | writePid
  /-- `waitpid(child_pid, &status, WUNTRACED)` -/
  | wait
  /-- `write(FORKSRV_FD + 1, &status, 4)` -/
  | relay
  | exited
deriving DecidableEq

/-- The processes and the pipes. -/
structure ForkState where
  cpc : ClientPc := .start
  run : Nat := 0
  prevTimedOut : Bool := false
  childTimedOut : Bool := false
  /-- The client's `child_pid`; `none` is a value that is no pid. That is zero, and in `afl-fuzz` -1
  before the first call. -/
  childPid : Option Nat := none
  timerArmed : Bool := false
  /-- The handler has read `child_pid` and is about to kill it. -/
  handler : Option Nat := none
  /-- The client's `status`. -/
  status : Option Report := none
  log : List RunRecord := []
  /-- The control pipe: `prev_timed_out`, and the run that asks. -/
  ctl : List (Bool × Nat) := []
  /-- The status pipe. -/
  st : List Msg := []
  spc : ServerPc := .read
  childStopped : Bool := false
  /-- The server's `child_pid`. -/
  srvChild : Nat := 0
  srvRun : Nat := 0
  /-- The server's `status`. -/
  srvReport : Option Report := none
  /-- All children, by their pid. -/
  children : List Child := []
deriving DecidableEq

/-- What a client is started with. -/
structure ForkCfg where
  client : Client
  /-- `exec_tmout`; zero stands for no timeout. -/
  execTmout : Nat

namespace ForkState

/-- Change the child `p`. -/
def updateChild (s : ForkState) (p : Nat) (f : Child → Child) : ForkState :=
  { s with children := s.children.modify p f }

/-- A step of `run_target`. `stop_soon` is looked at by the last one. -/
def clientStep (cfg : ForkCfg) (stopSoon : Bool) (s : ForkState) : Option ForkState :=
  if s.handler.isSome then none
  else
    match s.cpc with
    | .start => some { s with
        cpc := .request
        run := s.run + 1
        childTimedOut := match cfg.client with
          | .fuzz => false
          | .tmin => s.childTimedOut }
    | .request => some { s with cpc := .readPid, ctl := s.ctl ++ [(s.prevTimedOut, s.run)] }
    | .readPid =>
      match s.st with
      | .pid p :: st => some { s with cpc := .arm, childPid := some p, st }
      | _ => none
    | .arm => some { s with
        cpc := .readStatus
        childTimedOut := match cfg.client with
          | .fuzz => s.childTimedOut
          | .tmin => if cfg.execTmout ≠ 0 then false else s.childTimedOut
        timerArmed := decide (cfg.execTmout ≠ 0) }
    | .readStatus =>
      match s.st with
      | .status r :: st => some { s with cpc := .clearPid, status := some r, st }
      | _ => none
    | .clearPid => some { s with cpc := .disarm, childPid := none }
    | .disarm => some { s with cpc := .finish, timerArmed := false }
    | .finish =>
      s.status.map fun report => { s with
        cpc := .start
        -- Only `afl-fuzz` has this assignment.
        prevTimedOut := match cfg.client with
          | .fuzz => s.childTimedOut
          | .tmin => s.prevTimedOut
        log := s.log ++ [⟨s.run, report, s.childTimedOut, stopSoon⟩] }

/-- The timer fires, and `handle_timeout` starts. The timer is a one-shot timer. -/
def alarm (s : ForkState) : Option ForkState :=
  if s.timerArmed && s.handler.isNone then
    match s.childPid with
    -- The flag is set first; the kill is a step of its own.
    | some p => some { s with timerArmed := false, childTimedOut := true, handler := some p }
    -- It is zero here: the timer is armed after a pid was read. With -1, during the start of the
    -- fork server, the handler kills the server.
    | none => some { s with timerArmed := false }
  else none

/-- The handler kills the child. -/
def handlerKill (s : ForkState) : Option ForkState :=
  s.handler.map fun p => { s.updateChild p Child.kill with handler := none }

/-- A step of `__afl_start_forkserver`. -/
def serverStep (s : ForkState) : Option ForkState :=
  match s.spc with
  | .read =>
    match s.ctl with
    | (wasKilled, run) :: ctl => some { s with
        ctl
        srvRun := run
        -- The race that the server knows about: a stopped child was killed meanwhile.
        spc := if s.childStopped && wasKilled then .reap else .launch
        childStopped := s.childStopped && !wasKilled }
    | [] => none
  | .reap =>
    match s.children[s.srvChild]? with
    | some c =>
      match c.state with
      | .zombie _ _ =>
        some { s.updateChild s.srvChild (fun c => { c with state := .reaped }) with
          spc := .launch }
      | .reaped => some { s with spc := .exited }
      | .running | .stopped _ => none
    | none => some { s with spc := .exited }
  -- A stopped child gets SIGCONT without a look at whether it is still alive.
  | .launch =>
    if s.childStopped then
      some { s.updateChild s.srvChild (·.cont s.srvRun) with
        childStopped := false
        spc := .writePid }
    else
      some { s with
        children := s.children ++ [⟨.running, false, s.srvRun⟩]
        srvChild := s.children.length
        spc := .writePid }
  | .writePid => some { s with spc := .wait, st := s.st ++ [.pid s.srvChild] }
  | .wait =>
    match s.children[s.srvChild]? with
    | some c =>
      match c.state with
      | .zombie status byClient =>
        some { s.updateChild s.srvChild (fun c => { c with state := .reaped }) with
          spc := .relay
          srvReport := some ⟨status, c.run, byClient⟩ }
      -- `WUNTRACED` makes `waitpid` return a stop, once.
      | .stopped false =>
        some { s.updateChild s.srvChild (fun c => { c with state := .stopped true }) with
          spc := .relay
          childStopped := true
          srvReport := some ⟨.stopped SIGSTOP, c.run, false⟩ }
      | .reaped => some { s with spc := .exited }
      | .running | .stopped true => none
    | none => some { s with spc := .exited }
  | .relay => s.srvReport.map fun r => { s with spc := .read, st := s.st ++ [.status r] }
  | .exited => none

/-- Child `p` moves to another state, if it is in one that allows it. -/
def childStep (s : ForkState) (p : Nat) (next : Child → Option ProcState) : Option ForkState :=
  match s.children[p]? with
  | some c => (next c).map fun state => s.updateChild p fun c => { c with state }
  | none => none

end ForkState

/-- A step of one of the parties. -/
inductive ForkAct
  | client (stopSoon : Bool)
  | alarm
  | handlerKill
  | server
  /-- `exit(code)` -/
  | childExit (p code : Nat)
  /-- The child dies by a signal that is not the client's. -/
  | childCrash (p sig : Nat)
  /-- `raise(SIGSTOP)` -/
  | childStop (p : Nat)
  /-- The client's SIGKILL takes effect. -/
  | childDie (p : Nat)

/-- Where a child goes, for the steps of children. -/
def ForkAct.next (c : Child) : ForkAct → Option ProcState
  | .childExit _ code => if c.state = .running then some (.zombie (.exited code) false) else none
  | .childCrash _ sig => if c.state = .running then some (.zombie (.signaled sig) false) else none
  | .childStop _ => if c.state = .running then some (.stopped false) else none
  | .childDie _ =>
    if c.killSent && c.alive then some (.zombie (.signaled SIGKILL) true) else none
  | _ => none

/-- The state after a step; `none` if it can not be taken. -/
def ForkAct.apply (cfg : ForkCfg) (s : ForkState) : ForkAct → Option ForkState
  | .client stopSoon => s.clientStep cfg stopSoon
  | .alarm => s.alarm
  | .handlerKill => s.handlerKill
  | .server => s.serverStep
  | .childExit p code => s.childStep p fun c => (ForkAct.childExit p code).next c
  | .childCrash p sig => s.childStep p fun c => (ForkAct.childCrash p sig).next c
  | .childStop p => s.childStep p fun c => (ForkAct.childStop p).next c
  | .childDie p => s.childStep p fun c => (ForkAct.childDie p).next c

/-- A step of the system. -/
def ForkStep (cfg : ForkCfg) (s s' : ForkState) : Prop := ∃ act : ForkAct, act.apply cfg s = some s'

/-! ### What the clients make of a run -/

/-- The flags that a verdict depends on. -/
structure VerdictFlags where
  usesAsan : Bool
  qemuMode : Nat
  /-- `exit_crash` of afl-tmin -/
  exitCrash : Bool

/-- How a call of `run_target` of afl-fuzz ends. -/
inductive TargetCall
  /-- `if (stop_soon) return 0`, after a pipe of the fork server has failed. -/
  | abandoned
  /-- The target has ended. `execFailed` is the test for `EXEC_FAIL_SIG` in the trace, which is made
  when there is no fork server. -/
  | ended (r : RunRecord) (execFailed : Bool)

/-- The end of `run_target` of afl-fuzz: what it returns, and the new `kill_signal`. -/
def runTargetEnd (o : VerdictFlags) (killSignal : Nat) : TargetCall → Fault × Nat
  | .abandoned => (.none, killSignal)
  | .ended r execFailed =>
    if r.timedOut then (.hang, killSignal)
    else if r.report.status.wifSignaled && !r.stopSoon then (.crash, r.report.status.wtermSig)
    else if o.usesAsan && r.report.status.wexitStatus == MSAN_ERROR then (.crash, 0)
    -- This exit leaves `kill_signal` alone.
    else if decide (o.qemuMode > 1) && r.report.status.wexitStatus != 0 then (.crash, killSignal)
    else if execFailed then (.error, killSignal)
    else (.none, killSignal)

/-- What `run_target` of afl-fuzz returns for a run of the fork server. -/
def fuzzFault (o : VerdictFlags) (r : RunRecord) : Fault := (runTargetEnd o 0 (.ended r false)).1

/-- `kill_signal` after some calls. It is zero at the start, and no other function sets it. -/
def killSignalAfter (o : VerdictFlags) (calls : List TargetCall) : Nat :=
  calls.foldl (fun killSignal call => (runTargetEnd o killSignal call).2) 0

/-- `crashed` in `run_target` of afl-tmin. -/
def tminCrashed (o : VerdictFlags) (r : RunRecord) : Bool :=
  r.report.status.wifSignaled ||
    (r.report.status.wifExited && r.report.status.wexitStatus == MSAN_ERROR) ||
    (r.report.status.wifExited && r.report.status.wexitStatus != 0 && o.exitCrash) ||
    (decide (o.qemuMode > 1) && r.report.status.wexitStatus != 0)

/-- Does `run_target` of afl-tmin keep the candidate as one that crashes? -/
def tminKeepsCrash (o : VerdictFlags) (crashMode firstRun : Bool) (r : RunRecord) : Bool :=
  !r.timedOut && tminCrashed o r && (firstRun || crashMode)

end TriforceAFL.Spec
