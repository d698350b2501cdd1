import TriforceAFL.Lib.Reachable
import TriforceAFL.Spec.ForkServer

/-!
# `TriforceAFL.Proofs.ForkServer`: a status belongs to the run that reads it

Requests and answers alternate (`Phase`), so what can go wrong is the child: the timer can kill one
that has already stopped itself and whose stop was relayed. The next request then has to tell the
server to write the child off, or else the server resumes a dead child and relays its old death.

* `ClientMove` and `ServerMove` list the steps. The step lemmas go by their cases.
* `ForkInv` is the invariant. Its part about a stopped child (`Marked`) says that a SIGKILL to it is
  on record: in `child_timed_out`, then in `prev_timed_out`, then in the request.
* `fuzz_status_of_run`: afl-fuzz keeps this record, in every run.
* `tmin_status_of_run`: afl-tmin never assigns `prev_timed_out`, so for it the result needs runs in
  which no child is resumed that the SIGKILL has been sent to (`SafeForkAct`).
  `tmin_status_of_earlier_run` is a run in which one is.
-/

set_option autoImplicit false

namespace TriforceAFL.Proofs

open Lib Spec

namespace Fork

variable {ctl : List (Bool × Nat)} {st : List Msg} {p : ServerPc}

/-! ### What a step does -/

/-- A step of the client. Of what sets `afl-tmin` apart only the bits are left open. -/
inductive ClientMove (cfg : ForkCfg) (s : ForkState) : ForkState → Prop
  | start (hpc : s.cpc = .start) {childTimedOut : Bool}
      (hfuzz : cfg.client = .fuzz → childTimedOut = false) :
      ClientMove cfg s { s with cpc := .request, run := s.run + 1, childTimedOut }
  | request (hpc : s.cpc = .request) :
      ClientMove cfg s { s with cpc := .readPid, ctl := s.ctl ++ [(s.prevTimedOut, s.run)] }
  | readPid (hpc : s.cpc = .readPid) {p : Nat} {st : List Msg} (hst : s.st = .pid p :: st) :
      ClientMove cfg s { s with cpc := .arm, childPid := some p, st }
  | arm (hpc : s.cpc = .arm) {childTimedOut : Bool}
      (hfuzz : cfg.client = .fuzz → childTimedOut = s.childTimedOut) :
      ClientMove cfg s
        { s with cpc := .readStatus, childTimedOut, timerArmed := decide (cfg.execTmout ≠ 0) }
  | readStatus (hpc : s.cpc = .readStatus) {r : Report} {st : List Msg}
      (hst : s.st = .status r :: st) :
      ClientMove cfg s { s with cpc := .clearPid, status := some r, st }
  | clearPid (hpc : s.cpc = .clearPid) :
      ClientMove cfg s { s with cpc := .disarm, childPid := none }
  | disarm (hpc : s.cpc = .disarm) :
      ClientMove cfg s { s with cpc := .finish, timerArmed := false }
  | finish (hpc : s.cpc = .finish) {r : Report} (hr : s.status = some r)
      {stopSoon prevTimedOut : Bool} (hfuzz : cfg.client = .fuzz → prevTimedOut = s.childTimedOut) :
      ClientMove cfg s { s with
        cpc := .start
        prevTimedOut
        log := s.log ++ [⟨s.run, r, s.childTimedOut, stopSoon⟩] }

/-- A step of the fork server. -/
inductive ServerMove (s : ForkState) : ForkState → Prop
  | read (hpc : s.spc = .read) {wasKilled : Bool} {run : Nat} {ctl : List (Bool × Nat)}
      (hctl : s.ctl = (wasKilled, run) :: ctl) :
      ServerMove s { s with
        ctl
        srvRun := run
        spc := if s.childStopped && wasKilled then .reap else .launch
        childStopped := s.childStopped && !wasKilled }
  | reap (hpc : s.spc = .reap) {c : Child} (hc : s.children[s.srvChild]? = some c)
      (hdead : c.alive = false) :
      ServerMove s { s.updateChild s.srvChild (fun c => { c with state := .reaped }) with
        spc := .launch }
  | resume (hpc : s.spc = .launch) (hstop : s.childStopped = true) :
      ServerMove s { s.updateChild s.srvChild (·.cont s.srvRun) with
        childStopped := false
        spc := .writePid }
  | fork (hpc : s.spc = .launch) (hstop : s.childStopped = false) :
      ServerMove s { s with
        children := s.children ++ [⟨.running, false, s.srvRun⟩]
        srvChild := s.children.length
        spc := .writePid }
  | writePid (hpc : s.spc = .writePid) :
      ServerMove s { s with spc := .wait, st := s.st ++ [.pid s.srvChild] }
  | waitDeath (hpc : s.spc = .wait) {c : Child} (hc : s.children[s.srvChild]? = some c)
      {status : WaitStatus} {byClient : Bool} (hdead : c.state = .zombie status byClient) :
      ServerMove s { s.updateChild s.srvChild (fun c => { c with state := .reaped }) with
        spc := .relay
        srvReport := some ⟨status, c.run, byClient⟩ }
  | waitStop (hpc : s.spc = .wait) {c : Child} (hc : s.children[s.srvChild]? = some c)
      (hstop : c.state = .stopped false) :
      ServerMove s { s.updateChild s.srvChild (fun c => { c with state := .stopped true }) with
        spc := .relay
        childStopped := true
        srvReport := some ⟨.stopped SIGSTOP, c.run, false⟩ }
  | relay (hpc : s.spc = .relay) {r : Report} (hr : s.srvReport = some r) :
      ServerMove s { s with spc := .read, st := s.st ++ [.status r] }
  | exit (hpc : s.spc = .reap ∨ s.spc = .wait)
      (hgone : ∀ c, s.children[s.srvChild]? = some c → c.state = .reaped) :
      ServerMove s { s with spc := .exited }

section Moves
variable {cfg : ForkCfg} {s s' : ForkState}

/-- While the handler runs, the client takes no step. -/
theorem clientMove_of_step {stopSoon : Bool} (hstep : s.clientStep cfg stopSoon = some s') :
    s.handler = none ∧ ClientMove cfg s s' := by
  unfold ForkState.clientStep at hstep
  split at hstep
  · cases hstep
  · rename_i hhandler
    refine ⟨by simpa using hhandler, ?_⟩
    cases hpc : s.cpc <;> rw [hpc] at hstep
    case readPid =>
      dsimp only at hstep
      split at hstep
      · rename_i hst
        cases hstep
        exact .readPid hpc hst
      · cases hstep
    case readStatus =>
      dsimp only at hstep
      split at hstep
      · rename_i hst
        cases hstep
        exact .readStatus hpc hst
      · cases hstep
    case finish =>
      obtain ⟨r, hr, rfl⟩ := Option.map_eq_some_iff.mp hstep
      exact .finish hpc hr fun hfuzz => by rw [hfuzz]
    all_goals cases hstep
    · exact .start hpc fun hfuzz => by rw [hfuzz]
    · exact .request hpc
    · exact .arm hpc fun hfuzz => by rw [hfuzz]
    · exact .clearPid hpc
    · exact .disarm hpc

theorem serverMove_of_step (hstep : s.serverStep = some s') : ServerMove s s' := by
  unfold ForkState.serverStep at hstep
  cases hpc : s.spc <;> rw [hpc] at hstep <;> dsimp only at hstep
  case read =>
    split at hstep
    · rename_i hctl
      cases hstep
      exact .read hpc hctl
    · cases hstep
  case launch =>
    split at hstep
    · rename_i hstop
      cases hstep
      exact .resume hpc hstop
    · rename_i hstop
      cases hstep
      exact .fork hpc (by simpa using hstop)
  case writePid =>
    cases hstep
    exact .writePid hpc
  case relay =>
    obtain ⟨r, hr, rfl⟩ := Option.map_eq_some_iff.mp hstep
    exact .relay hpc hr
  case exited => cases hstep
  -- Both calls of `waitpid` fail for a child that is gone.
  case reap =>
    split at hstep
    · rename_i c hc
      split at hstep <;> cases hstep
      · rename_i hdead
        exact .reap hpc hc (by simp [Child.alive, hdead])
      · rename_i hgone
        exact .exit (Or.inl hpc) (by simp [hc, hgone])
    · rename_i hc
      cases hstep
      exact .exit (Or.inl hpc) (by simp [hc])
  case wait =>
    split at hstep
    · rename_i c hc
      split at hstep <;> cases hstep
      · rename_i hdead
        exact .waitDeath hpc hc hdead
      · rename_i hstop
        exact .waitStop hpc hc hstop
      · rename_i hgone
        exact .exit (Or.inr hpc) (by simp [hc, hgone])
    · rename_i hc
      cases hstep
      exact .exit (Or.inr hpc) (by simp [hc])

end Moves

/-! ### The order of messages -/

/-- The client waits for no answer. -/
def Idle (c : ClientPc) : Prop :=
  c = .start ∨ c = .request ∨ c = .clearPid ∨ c = .disarm ∨ c = .finish

/-- The client has read the pid and waits for the status. -/
def Waiting (c : ClientPc) : Prop := c = .arm ∨ c = .readStatus

/-- The server has read a request and not yet answered it. -/
def Launching (p : ServerPc) : Prop := p = .reap ∨ p = .launch ∨ p = .writePid

/-- The server has written the pid and not yet the status. -/
def Serving (p : ServerPc) : Prop := p = .wait ∨ p = .relay

/-- Where client and server can be, and what is in the pipes. -/
inductive Phase : ClientPc → ServerPc → List (Bool × Nat) → List Msg → Prop
  | idle {c : ClientPc} : Idle c → Phase c .read [] []
  | requested (m : Bool × Nat) : Phase .readPid .read [m] []
  | launching {p : ServerPc} : Launching p → Phase .readPid p [] []
  | serving {p : ServerPc} (pid : Nat) : Serving p → Phase .readPid p [] [.pid pid]
  | served (pid : Nat) (r : Report) : Phase .readPid .read [] [.pid pid, .status r]
  | waiting {c : ClientPc} {p : ServerPc} : Waiting c → Serving p → Phase c p [] []
  | answered {c : ClientPc} (r : Report) : Waiting c → Phase c .read [] [.status r]

/-- Outside of a request, the server is idle and the pipes are empty. -/
theorem Phase.of_idle {c : ClientPc} (h : Phase c p ctl st) (hc : Idle c) :
    p = .read ∧ ctl = [] ∧ st = [] := by
  cases h with
  | idle _ => exact ⟨rfl, rfl, rfl⟩
  | requested | launching | serving | served => simp [Idle] at hc
  | waiting hw _ => rcases hw with rfl | rfl <;> simp [Idle] at hc
  | answered _ hw => rcases hw with rfl | rfl <;> simp [Idle] at hc

/-- A server that works on a request has taken it out of the pipe. -/
theorem Phase.of_busy {c : ClientPc} (h : Phase c p ctl st) (hp : p ≠ .read) :
    ctl = [] ∧ ((c = .readPid ∧ Launching p ∧ st = []) ∨
      (∃ pid, c = .readPid ∧ Serving p ∧ st = [.pid pid]) ∨ (Waiting c ∧ Serving p ∧ st = [])) := by
  cases h with
  | idle _ => exact absurd rfl hp
  | requested m => exact absurd rfl hp
  | launching hl => exact ⟨rfl, Or.inl ⟨rfl, hl, rfl⟩⟩
  | serving pid hs => exact ⟨rfl, Or.inr (Or.inl ⟨pid, rfl, hs, rfl⟩)⟩
  | served pid r => exact absurd rfl hp
  | waiting hw hs => exact ⟨rfl, Or.inr (Or.inr ⟨hw, hs, rfl⟩)⟩
  | answered r hw => exact absurd rfl hp

/-- Reading the pid. -/
theorem Phase.readPid {pid : Nat} (h : Phase .readPid p ctl (.pid pid :: st)) :
    ctl = [] ∧ Phase .arm p [] st := by
  cases h with
  | serving _ hs => exact ⟨rfl, .waiting (Or.inl rfl) hs⟩
  | served _ r => exact ⟨rfl, .answered r (Or.inl rfl)⟩

/-- Arming the timer. -/
theorem Phase.arm (h : Phase .arm p ctl st) :
    Phase .readStatus p ctl st := by
  cases h with
  | idle hidle => simp [Idle] at hidle
  | waiting _ hs => exact .waiting (Or.inr rfl) hs
  | answered r _ => exact .answered r (Or.inr rfl)

/-- Reading the status. -/
theorem Phase.readStatus {r : Report} (h : Phase .readStatus p ctl (.status r :: st)) :
    p = .read ∧ ctl = [] ∧ st = [] := by
  cases h with
  | answered _ _ => exact ⟨rfl, rfl, rfl⟩

/-! ### The invariant -/

/-- The client is past `setitimer`, and before the end of `run_target`. -/
def PastArm (c : ClientPc) : Prop :=
  c = .readStatus ∨ c = .clearPid ∨ c = .disarm ∨ c = .finish

/-- The timer can be armed. -/
def Armed (c : ClientPc) : Prop := c = .readStatus ∨ c = .clearPid ∨ c = .disarm

/-- The handler has run in this call of `run_target`. -/
def TimedOut (s : ForkState) : Prop := s.childTimedOut = true ∧ PastArm s.cpc

/-- A report of the current run. -/
def ReportOk (s : ForkState) (r : Report) : Prop :=
  r.run = s.run ∧ (r.byClient = true → TimedOut s)

/-- A SIGKILL to a stopped child is on record, and the server will learn of it. -/
def Marked (s : ForkState) : Prop :=
  (s.cpc = .start ∨ s.cpc = .request) ∧ s.prevTimedOut = true ∨
    s.cpc = .readPid ∧ s.ctl ≠ [] ∧ s.prevTimedOut = true ∨ TimedOut s

/-- The child that works on the current run. -/
def ActiveOk (s : ForkState) (c : Child) : Prop :=
  c.run = s.run ∧ c.state ≠ .reaped ∧ (c.killSent = true → TimedOut s)

/-- The child that the server takes for stopped. Only afl-fuzz keeps a record of its SIGKILL. -/
def RestingOk (cfg : ForkCfg) (s : ForkState) (c : Child) : Prop :=
  (c.state = .stopped true ∨ ∃ status, c.state = .zombie status true) ∧
    (cfg.client = .fuzz → c.killSent = true → Marked s)

/-- The server and its child. -/
structure ServerInv (cfg : ForkCfg) (s : ForkState) : Prop where
  srvRun : s.spc ≠ .read → s.srvRun = s.run
  relayed : s.spc = .relay → ∀ r, s.srvReport = some r → ReportOk s r
  active : s.spc = .writePid ∨ s.spc = .wait →
    ∃ c, s.children[s.srvChild]? = some c ∧ ActiveOk s c
  resting : s.childStopped = true → (s.spc = .read ∨ s.spc = .launch ∨ s.spc = .relay) ∧
    ∃ c, s.children[s.srvChild]? = some c ∧ RestingOk cfg s c
  reaping : s.spc = .reap → ∃ c, s.children[s.srvChild]? = some c ∧ c.state ≠ .reaped
  killed : ∀ c ∈ s.children, ∀ status, c.state = .zombie status true → c.killSent = true

/-- The invariant of the protocol. -/
structure ForkInv (cfg : ForkCfg) (s : ForkState) : Prop where
  phase : Phase s.cpc s.spc s.ctl s.st
  request : ∀ m ∈ s.ctl, m = (s.prevTimedOut, s.run)
  pid : ∀ p, .pid p ∈ s.st → p = s.srvChild
  inPipe : ∀ r, .status r ∈ s.st → ReportOk s r
  received : s.cpc = .clearPid ∨ s.cpc = .disarm ∨ s.cpc = .finish →
    ∀ r, s.status = some r → ReportOk s r
  childPid : ∀ p, s.childPid = some p →
    p = s.srvChild ∧ (s.cpc = .arm ∨ s.cpc = .readStatus ∨ s.cpc = .clearPid)
  armed : s.timerArmed = true → Armed s.cpc
  handler : ∀ p, s.handler = some p → p = s.srvChild ∧ TimedOut s
  server : ServerInv cfg s
  record : ∀ r ∈ s.log, r.report.run = r.run ∧ (r.report.byClient = true → r.timedOut = true)

theorem ForkInv.init (cfg : ForkCfg) : ForkInv cfg {} where
  phase := .idle (Or.inl rfl)
  request _ hm := absurd hm List.not_mem_nil
  pid _ hp := absurd hp List.not_mem_nil
  inPipe _ hr := absurd hr List.not_mem_nil
  received hpc := by simp at hpc
  childPid _ hp := by cases hp
  armed h := by cases h
  handler _ hp := by cases hp
  server :=
    { srvRun := fun hne => absurd rfl hne
      relayed := fun hpc => by cases hpc
      active := fun hpc => by simp at hpc
      resting := fun h => by cases h
      reaping := fun hpc => by cases hpc
      killed := fun _ hc => absurd hc List.not_mem_nil }
  record _ hr := absurd hr List.not_mem_nil

/-- The condition on a step: the fork server does not resume a child that the client's SIGKILL has
been sent to. -/
def SafeForkAct (s : ForkState) : ForkAct → Prop
  | .server => s.spc = .launch → s.childStopped = true →
      ∀ c ∈ s.children[s.srvChild]?, c.killSent = false
  | _ => True

instance (s : ForkState) : DecidablePred (SafeForkAct s)
  | .server => inferInstanceAs (Decidable (s.spc = .launch → s.childStopped = true →
      ∀ c ∈ s.children[s.srvChild]?, c.killSent = false))
  | .client _ | .alarm | .handlerKill | .childExit _ _ | .childCrash _ _ | .childStop _
  | .childDie _ => isTrue trivial

/-! ### Steps that leave the server alone -/

section Client
variable {cfg : ForkCfg} {s s' : ForkState}

/-- The server, its child and the request pipe are the same in two states. -/
structure SameServer (s s' : ForkState) : Prop where
  spc : s'.spc = s.spc
  srvRun : s'.srvRun = s.srvRun
  srvReport : s'.srvReport = s.srvReport
  srvChild : s'.srvChild = s.srvChild
  childStopped : s'.childStopped = s.childStopped
  children : s'.children = s.children

/-- What the server knows stays right when the records of a timeout stay. An idle server only has to
know what became of its stopped child. -/
theorem ServerInv.mono (h : ServerInv cfg s) (hsame : SameServer s s')
    (hrun : s.spc ≠ .read → s'.run = s.run) (htimed : s.spc ≠ .read → TimedOut s → TimedOut s')
    (hmarked : cfg.client = .fuzz → Marked s → Marked s') : ServerInv cfg s' := by
  refine ⟨fun hne => ?_, fun hpc r hr => ?_, fun hpc => ?_, fun hstop => ?_, fun hpc => ?_,
    fun c hc => ?_⟩
  · rw [hsame.spc] at hne
    rw [hsame.srvRun, hrun hne, h.srvRun hne]
  · rw [hsame.spc] at hpc
    rw [hsame.srvReport] at hr
    have hne : s.spc ≠ .read := by simp [hpc]
    obtain ⟨hr', htime⟩ := h.relayed hpc r hr
    exact ⟨hr'.trans (hrun hne).symm, fun hby => htimed hne (htime hby)⟩
  · rw [hsame.spc] at hpc
    rw [hsame.children, hsame.srvChild]
    have hne : s.spc ≠ .read := by rcases hpc with hpc | hpc <;> simp [hpc]
    obtain ⟨c, hc, hcrun, halive, hkill⟩ := h.active hpc
    exact ⟨c, hc, hcrun.trans (hrun hne).symm, halive, fun hsent => htimed hne (hkill hsent)⟩
  · rw [hsame.childStopped] at hstop
    rw [hsame.children, hsame.srvChild, hsame.spc]
    obtain ⟨hpc, c, hc, hstate, hkill⟩ := h.resting hstop
    exact ⟨hpc, c, hc, hstate, fun hfuzz hsent => hmarked hfuzz (hkill hfuzz hsent)⟩
  · rw [hsame.spc] at hpc
    rw [hsame.children, hsame.srvChild]
    exact h.reaping hpc
  · rw [hsame.children] at hc
    exact h.killed c hc

/-- A step of the client between two states in which it waits for no answer. -/
theorem ForkInv.idle_step (h : ForkInv cfg s) (hidle : Idle s.cpc) (hidle' : Idle s'.cpc)
    (hsame : SameServer s s') (hctl : s'.ctl = s.ctl) (hst : s'.st = s.st)
    (hmarked : cfg.client = .fuzz → Marked s → Marked s')
    (hreceived : s'.cpc = .clearPid ∨ s'.cpc = .disarm ∨ s'.cpc = .finish →
      ∀ r, s'.status = some r → ReportOk s' r)
    (hpid : s'.childPid = none) (harmed : s'.timerArmed = true → Armed s'.cpc)
    (hhandler : s'.handler = none)
    (hrecord : ∀ r ∈ s'.log,
      r.report.run = r.run ∧ (r.report.byClient = true → r.timedOut = true)) :
    ForkInv cfg s' := by
  obtain ⟨hspc, hctl₀, hst₀⟩ := h.phase.of_idle hidle
  have hctl' : s'.ctl = [] := hctl.trans hctl₀
  have hst' : s'.st = [] := hst.trans hst₀
  refine ⟨?_, fun m hm => ?_, fun p hp => ?_, fun r hr => ?_, hreceived, fun p hp => ?_, harmed,
    fun p hp => ?_, h.server.mono hsame (absurd hspc) (absurd hspc) hmarked, hrecord⟩
  · rw [hsame.spc, hspc, hctl', hst']
    exact .idle hidle'
  · rw [hctl'] at hm
    cases hm
  · rw [hst'] at hp
    cases hp
  · rw [hst'] at hr
    cases hr
  · rw [hpid] at hp
    cases hp
  · rw [hhandler] at hp
    cases hp

/-- The client's `child_pid` is zero outside of the wait for a status. -/
theorem ForkInv.childPid_eq_none (h : ForkInv cfg s)
    (hpc : ¬ (s.cpc = .arm ∨ s.cpc = .readStatus ∨ s.cpc = .clearPid)) : s.childPid = none := by
  cases hp : s.childPid with
  | none => rfl
  | some p => exact absurd (h.childPid p hp).2 hpc

/-- Nothing has to be shown for a handler while none is running. -/
theorem handler_of_none {P : Nat → Prop} (hno : s.handler = none) (p : Nat)
    (hp : s.handler = some p) : P p :=
  absurd (hno.symm.trans hp) (Option.some_ne_none p).symm

/-- Nor for an armed timer where it cannot be armed. -/
theorem ForkInv.armed_elim {P : Prop} (h : ForkInv cfg s) (hpc : ¬Armed s.cpc)
    (harmed : s.timerArmed = true) : P :=
  absurd (h.armed harmed) hpc

/-- From the answer of the server on, only the timeout of this call can be on record. -/
theorem Marked.timedOut (h : Marked s) (hpc : ¬ (s.cpc = .start ∨ s.cpc = .request))
    (hctl : s.cpc = .readPid → s.ctl = []) : TimedOut s := by
  rcases h with ⟨hpc', _⟩ | ⟨hread, hne, _⟩ | htimed
  · exact absurd hpc' hpc
  · exact absurd (hctl hread) hne
  · exact htimed

/-- Before `setitimer` no timeout is on record. -/
theorem not_timedOut (hpc : ¬PastArm s.cpc) : ¬TimedOut s := fun htimed => hpc htimed.2

/-- `run_target` begins. -/
theorem ForkInv.start (h : ForkInv cfg s) (hpc : s.cpc = .start) (hno : s.handler = none)
    (timedOut : Bool) :
    ForkInv cfg { s with cpc := .request, run := s.run + 1, childTimedOut := timedOut } := by
  refine h.idle_step (Or.inl hpc) (Or.inr (Or.inl rfl)) ⟨rfl, rfl, rfl, rfl, rfl, rfl⟩ rfl rfl
    ?_ ?_ ?_ (h.armed_elim (by simp [Armed, hpc])) hno h.record
  · rintro _ (⟨_, hprev⟩ | ⟨hpc', _⟩ | ⟨_, hpast⟩)
    · exact Or.inl ⟨Or.inr rfl, hprev⟩
    · rw [hpc] at hpc'
      cases hpc'
    · simp [PastArm, hpc] at hpast
  · intro hreceived
    simp at hreceived
  · exact h.childPid_eq_none (by simp [hpc])

/-- The request is written. -/
theorem ForkInv.sendRequest (h : ForkInv cfg s) (hpc : s.cpc = .request) (hno : s.handler = none) :
    ForkInv cfg { s with cpc := .readPid, ctl := s.ctl ++ [(s.prevTimedOut, s.run)] } := by
  obtain ⟨hspc, hctl, hst⟩ := h.phase.of_idle (Or.inr (Or.inl hpc))
  refine ⟨?_, fun m hm => ?_, h.pid, fun r hr => ?_, fun hreceived => ?_, fun p hp => ?_,
    h.armed_elim (by simp [Armed, hpc]), handler_of_none hno, ?_, h.record⟩
  · show Phase .readPid s.spc (s.ctl ++ [_]) s.st
    rw [hspc, hctl, hst]
    exact .requested _
  · change m ∈ s.ctl ++ [_] at hm
    rw [hctl, List.nil_append, List.mem_singleton] at hm
    exact hm
  · change .status r ∈ s.st at hr
    rw [hst] at hr
    cases hr
  · simp at hreceived
  · have hnone := h.childPid_eq_none (by simp [hpc])
    rw [show s.childPid = some p from hp] at hnone
    cases hnone
  · refine h.server.mono ⟨rfl, rfl, rfl, rfl, rfl, rfl⟩ (absurd hspc) (absurd hspc) ?_
    rintro _ (⟨_, hprev⟩ | ⟨hpc', _⟩ | ⟨_, hpast⟩)
    · exact Or.inr (Or.inl ⟨rfl, by simp, hprev⟩)
    · rw [hpc] at hpc'
      cases hpc'
    · simp [PastArm, hpc] at hpast

/-- The pid is read. No SIGKILL can be on record then, since the timer was not armed yet. -/
theorem ForkInv.readPid (h : ForkInv cfg s) (hpc : s.cpc = .readPid) (hno : s.handler = none)
    {p : Nat} (hst : s.st = .pid p :: st) :
    ForkInv cfg { s with cpc := .arm, childPid := some p, st } := by
  have hphase := h.phase
  rw [hpc, hst] at hphase
  obtain ⟨hctl, hphase⟩ := hphase.readPid
  have hnot : ¬ TimedOut s := not_timedOut (by simp [PastArm, hpc])
  have hunmarked : ¬ Marked s := fun hm => hnot (hm.timedOut (by simp [hpc]) fun _ => hctl)
  have hreport : ∀ r, ReportOk s r → ReportOk { s with cpc := .arm, childPid := some p, st } r :=
    fun r hr => ⟨hr.1, fun hby => absurd (hr.2 hby) hnot⟩
  refine ⟨?_, h.request, fun q hq => ?_, fun r hr => ?_, fun hreceived => ?_, fun q hq => ?_,
    h.armed_elim (by simp [Armed, hpc]), handler_of_none hno, ?_, h.record⟩
  · show Phase .arm s.spc s.ctl st
    rwa [hctl]
  · exact h.pid q (hst ▸ List.mem_cons_of_mem _ hq)
  · exact hreport r (h.inPipe r (hst ▸ List.mem_cons_of_mem _ hr))
  · simp at hreceived
  · cases hq
    exact ⟨h.pid p (hst ▸ List.mem_cons_self), Or.inl rfl⟩
  · -- The server is not concerned, and no timeout of this call is on record yet.
    exact h.server.mono ⟨rfl, rfl, rfl, rfl, rfl, rfl⟩ (fun _ => rfl) (fun _ ht => absurd ht hnot)
      fun _ hm => absurd hm hunmarked

/-- The timer is armed. -/
theorem ForkInv.arm (h : ForkInv cfg s) (hpc : s.cpc = .arm) (hno : s.handler = none)
    (timedOut armed : Bool) :
    ForkInv cfg { s with cpc := .readStatus, childTimedOut := timedOut, timerArmed := armed } := by
  have hnot : ¬ TimedOut s := not_timedOut (by simp [PastArm, hpc])
  have hunmarked : ¬ Marked s := fun hm => hnot (hm.timedOut (by simp [hpc]) (by simp [hpc]))
  refine ⟨?_, h.request, h.pid, fun r hr => ?_, fun hreceived => ?_, fun p hp => ?_,
    fun _ => Or.inl rfl, handler_of_none hno, ?_, h.record⟩
  · have hphase := h.phase
    rw [hpc] at hphase
    exact hphase.arm
  · exact ⟨(h.inPipe r hr).1, fun hby => absurd ((h.inPipe r hr).2 hby) hnot⟩
  · simp at hreceived
  · exact ⟨(h.childPid p hp).1, Or.inr (Or.inl rfl)⟩
  · exact h.server.mono ⟨rfl, rfl, rfl, rfl, rfl, rfl⟩ (fun _ => rfl) (fun _ ht => absurd ht hnot)
      fun _ hm => absurd hm hunmarked

/-- The status is read. -/
theorem ForkInv.readStatus (h : ForkInv cfg s) (hpc : s.cpc = .readStatus) (hno : s.handler = none)
    {r : Report} (hst : s.st = .status r :: st) :
    ForkInv cfg { s with cpc := .clearPid, status := some r, st } := by
  have hphase := h.phase
  rw [hpc, hst] at hphase
  obtain ⟨hspc, hctl, rfl⟩ := hphase.readStatus
  have htimed : TimedOut s → TimedOut { s with cpc := .clearPid, status := some r, st := [] } :=
    fun ht => ⟨ht.1, Or.inr (Or.inl rfl)⟩
  refine ⟨?_, h.request, fun q hq => absurd hq List.not_mem_nil,
    fun q hq => absurd hq List.not_mem_nil,
    fun _ q hq => ?_, fun p hp => ?_, fun _ => Or.inr (Or.inl rfl), handler_of_none hno, ?_,
    h.record⟩
  · show Phase .clearPid s.spc s.ctl []
    rw [hspc, hctl]
    exact .idle (Or.inr (Or.inr (Or.inl rfl)))
  · cases hq
    obtain ⟨hrun, hby⟩ := h.inPipe r (hst ▸ List.mem_cons_self)
    exact ⟨hrun, fun hb => htimed (hby hb)⟩
  · exact ⟨(h.childPid p hp).1, Or.inr (Or.inr rfl)⟩
  · refine h.server.mono ⟨rfl, rfl, rfl, rfl, rfl, rfl⟩ (fun _ => rfl) (fun _ => htimed) ?_
    intro _ hm
    exact Or.inr (Or.inr (htimed (hm.timedOut (by simp [hpc]) (by simp [hpc]))))

/-- A record of a timeout stays while `run_target` does not return. -/
theorem Marked.of_past {s s' : ForkState} (hpc : PastArm s.cpc) (hpc' : PastArm s'.cpc)
    (htimed : s'.childTimedOut = s.childTimedOut) (h : Marked s) : Marked s' := by
  have hstart : ¬ (s.cpc = .start ∨ s.cpc = .request) := by
    rintro (hstart | hstart) <;> simp [PastArm, hstart] at hpc
  have ht := h.timedOut hstart fun hread => (by simp [PastArm, hread] at hpc)
  exact Or.inr (Or.inr ⟨htimed.trans ht.1, hpc'⟩)

/-- `child_pid = 0` -/
theorem ForkInv.clearPid (h : ForkInv cfg s) (hpc : s.cpc = .clearPid) (hno : s.handler = none) :
    ForkInv cfg { s with cpc := .disarm, childPid := none } := by
  refine h.idle_step (Or.inr (Or.inr (Or.inl hpc))) (Or.inr (Or.inr (Or.inr (Or.inl rfl))))
    ⟨rfl, rfl, rfl, rfl, rfl, rfl⟩ rfl rfl ?_ ?_ rfl (fun _ => Or.inr (Or.inr rfl)) hno
    h.record
  · exact fun _ => Marked.of_past (Or.inr (Or.inl hpc)) (Or.inr (Or.inr (Or.inl rfl))) rfl
  · intro _ r hr
    obtain ⟨hrun, hby⟩ := h.received (Or.inl hpc) r hr
    exact ⟨hrun, fun hb => ⟨(hby hb).1, Or.inr (Or.inr (Or.inl rfl))⟩⟩

/-- The timer is disarmed. -/
theorem ForkInv.disarm (h : ForkInv cfg s) (hpc : s.cpc = .disarm) (hno : s.handler = none) :
    ForkInv cfg { s with cpc := .finish, timerArmed := false } := by
  refine h.idle_step (Or.inr (Or.inr (Or.inr (Or.inl hpc)))) (Or.inr (Or.inr (Or.inr (Or.inr rfl))))
    ⟨rfl, rfl, rfl, rfl, rfl, rfl⟩ rfl rfl ?_ ?_ ?_ (fun harmed => ?_) hno h.record
  · exact fun _ => Marked.of_past (Or.inr (Or.inr (Or.inl hpc))) (Or.inr (Or.inr (Or.inr rfl))) rfl
  · intro _ r hr
    obtain ⟨hrun, hby⟩ := h.received (Or.inr (Or.inl hpc)) r hr
    exact ⟨hrun, fun hb => ⟨(hby hb).1, Or.inr (Or.inr (Or.inr rfl))⟩⟩
  · exact h.childPid_eq_none (by simp [hpc])
  · cases harmed

/-- `run_target` returns. For afl-fuzz, the record of a timeout moves to `prev_timed_out`. -/
theorem ForkInv.finish (h : ForkInv cfg s) (hpc : s.cpc = .finish) (hno : s.handler = none)
    {r : Report} (hr : s.status = some r) (stopSoon prevTimedOut : Bool)
    (hprev : cfg.client = .fuzz → prevTimedOut = s.childTimedOut) :
    ForkInv cfg { s with
      cpc := .start
      prevTimedOut
      log := s.log ++ [⟨s.run, r, s.childTimedOut, stopSoon⟩] } := by
  refine h.idle_step (Or.inr (Or.inr (Or.inr (Or.inr hpc)))) (Or.inl rfl)
    ⟨rfl, rfl, rfl, rfl, rfl, rfl⟩ rfl rfl ?_ ?_ ?_ (h.armed_elim (by simp [Armed, hpc])) hno
    fun q hq => ?_
  · intro hfuzz hm
    have htimed := hm.timedOut (by simp [hpc]) (by simp [hpc])
    exact Or.inl ⟨Or.inl rfl, (hprev hfuzz).trans htimed.1⟩
  · intro hreceived
    simp at hreceived
  · exact h.childPid_eq_none (by simp [hpc])
  · rcases List.mem_append.mp hq with hq | hq
    · exact h.record q hq
    · rw [List.mem_singleton.mp hq]
      obtain ⟨hrun, hby⟩ := h.received (Or.inr (Or.inr hpc)) r hr
      exact ⟨hrun, fun hb => (hby hb).1⟩

theorem ForkInv.client (h : ForkInv cfg s) {stopSoon : Bool}
    (hstep : s.clientStep cfg stopSoon = some s') : ForkInv cfg s' := by
  obtain ⟨hno, hmove⟩ := clientMove_of_step hstep
  cases hmove with
  | start hpc _ => exact h.start hpc hno _
  | request hpc => exact h.sendRequest hpc hno
  | readPid hpc hst => exact h.readPid hpc hno hst
  | arm hpc _ => exact h.arm hpc hno _ _
  | readStatus hpc hst => exact h.readStatus hpc hno hst
  | clearPid hpc => exact h.clearPid hpc hno
  | disarm hpc => exact h.disarm hpc hno
  | finish hpc hr hfuzz => exact h.finish hpc hno hr _ _ hfuzz

/-! ### The handler -/

theorem ForkInv.alarm (h : ForkInv cfg s) (hstep : s.alarm = some s') : ForkInv cfg s' := by
  unfold ForkState.alarm at hstep
  split at hstep
  · rename_i hfire
    rw [Bool.and_eq_true] at hfire
    have hno : s.handler = none := by simpa using hfire.2
    have harm := h.armed hfire.1
    -- A timer that can fire was armed in this call.
    have hpast : PastArm s.cpc := by
      rcases harm with hpc | hpc | hpc
      · exact Or.inl hpc
      · exact Or.inr (Or.inl hpc)
      · exact Or.inr (Or.inr (Or.inl hpc))
    -- Once `child_pid` is cleared the handler does nothing.
    split at hstep
    · rename_i p hp
      cases hstep
      refine ⟨h.phase, h.request, h.pid, fun r hr => ⟨(h.inPipe r hr).1, fun _ => ⟨rfl, hpast⟩⟩,
        fun hpc r hr => ⟨(h.received hpc r hr).1, fun _ => ⟨rfl, hpast⟩⟩, h.childPid,
        fun harmed => (by cases harmed), fun q hq => ?_, ?_, h.record⟩
      · cases hq
        exact ⟨(h.childPid p hp).1, rfl, hpast⟩
      · exact h.server.mono ⟨rfl, rfl, rfl, rfl, rfl, rfl⟩ (fun _ => rfl)
          (fun _ _ => ⟨rfl, hpast⟩) fun _ _ => Or.inr (Or.inr ⟨rfl, hpast⟩)
    · cases hstep
      exact ⟨h.phase, h.request, h.pid, h.inPipe, h.received, h.childPid,
        fun harmed => (by cases harmed), h.handler,
        h.server.mono ⟨rfl, rfl, rfl, rfl, rfl, rfl⟩ (fun _ => rfl) (fun _ ht => ht) fun _ hm => hm,
        h.record⟩
  · cases hstep

end Client

/-! ### Steps that change a child -/

section Children
variable {cfg : ForkCfg} {s s' : ForkState}

/-- The current child after a change of child `p`. -/
theorem getElem?_updateChild (s : ForkState) (p q : Nat) (f : Child → Child) :
    (s.updateChild p f).children[q]? =
      if p = q then (s.children[q]?).map f else s.children[q]? := by
  show (s.children.modify p f)[q]? = _
  rw [List.getElem?_modify]
  split
  · rfl
  · cases s.children[q]? <;> rfl

/-- A child of the changed state is one of before, or the changed one. -/
theorem mem_updateChild {p : Nat} {f : Child → Child} {c : Child}
    (hc : c ∈ (s.updateChild p f).children) :
    c ∈ s.children ∨ ∃ c₀, s.children[p]? = some c₀ ∧ c = f c₀ := by
  obtain ⟨i, hi⟩ := List.getElem?_of_mem hc
  rw [getElem?_updateChild] at hi
  split at hi
  · rename_i heq
    obtain ⟨c₀, hc₀, rfl⟩ := Option.map_eq_some_iff.mp hi
    exact Or.inr ⟨c₀, heq ▸ hc₀, rfl⟩
  · exact Or.inl (List.mem_of_getElem? hi)

/-- A change of a child that the invariant allows. -/
theorem ForkInv.updateChild (h : ForkInv cfg s) (p : Nat) (f : Child → Child)
    (hactive : ∀ c, s.children[p]? = some c → p = s.srvChild → ActiveOk s c → ActiveOk s (f c))
    (hresting : ∀ c, s.children[p]? = some c → p = s.srvChild → RestingOk cfg s c →
      RestingOk cfg s (f c))
    (halive : ∀ c, s.children[p]? = some c → c.state ≠ .reaped → (f c).state ≠ .reaped)
    (hkilled : ∀ c, s.children[p]? = some c →
      (∀ status, c.state = .zombie status true → c.killSent = true) →
        ∀ status, (f c).state = .zombie status true → (f c).killSent = true) :
    ForkInv cfg (s.updateChild p f) := by
  -- What holds of the server's child before holds of it after.
  have hchild : ∀ {Q : Child → Prop},
      (∀ c, s.children[p]? = some c → p = s.srvChild → Q c → Q (f c)) →
      (∃ c, s.children[s.srvChild]? = some c ∧ Q c) →
        ∃ c, (s.updateChild p f).children[s.srvChild]? = some c ∧ Q c := by
    rintro Q hQ ⟨c, hc, hq⟩
    rw [getElem?_updateChild]
    split
    · rename_i heq
      exact ⟨f c, by rw [hc]; rfl, hQ c (heq ▸ hc) heq hq⟩
    · exact ⟨c, hc, hq⟩
  refine ⟨h.phase, h.request, h.pid, h.inPipe, h.received, h.childPid, h.armed, h.handler, ?_,
    h.record⟩
  refine ⟨h.server.srvRun, h.server.relayed, fun hpc => ?_, fun hstop => ?_, fun hpc => ?_,
    fun c hc => ?_⟩
  · exact hchild hactive (h.server.active hpc)
  · exact ⟨(h.server.resting hstop).1, hchild hresting (h.server.resting hstop).2⟩
  · exact hchild (fun c hc _ => halive c hc) (h.server.reaping hpc)
  · rcases mem_updateChild hc with hold | ⟨c₀, hc₀, rfl⟩
    · exact h.server.killed c hold
    · exact hkilled c₀ hc₀ (h.server.killed c₀ (List.mem_of_getElem? hc₀))

/-- The handler kills the child. The timeout is on record by then. -/
theorem ForkInv.handlerKill (h : ForkInv cfg s) (hstep : s.handlerKill = some s') :
    ForkInv cfg s' := by
  obtain ⟨p, hp, rfl⟩ := Option.map_eq_some_iff.mp hstep
  obtain ⟨_, htimed⟩ := h.handler p hp
  -- The kill itself, apart from the return of the handler.
  have hkill : ForkInv cfg (s.updateChild p Child.kill) := by
    refine h.updateChild p Child.kill (fun c hc _ hok => ?_) (fun c hc _ hok => ?_)
      (fun c hc hstate => ?_) fun c hc hkilled status hstate => ?_
    · unfold Child.kill
      split
      · exact ⟨hok.1, hok.2.1, fun _ => htimed⟩
      · exact hok
    · unfold Child.kill
      split
      · exact ⟨hok.1, fun _ _ => Or.inr (Or.inr htimed)⟩
      · exact hok
    · unfold Child.kill
      split <;> exact hstate
    · unfold Child.kill at hstate ⊢
      split at hstate
      · rename_i halive
        rw [if_pos halive]
      · rename_i hdead
        rw [if_neg hdead]
        exact hkilled status hstate
  exact ⟨hkill.phase, hkill.request, hkill.pid, hkill.inPipe, hkill.received, hkill.childPid,
    hkill.armed, fun q hq => (by cases hq),
    hkill.server.mono ⟨rfl, rfl, rfl, rfl, rfl, rfl⟩ (fun _ => rfl) (fun _ ht => ht) fun _ hm => hm,
    hkill.record⟩

/-- A child that runs can exit, crash or stop. -/
theorem ForkInv.childMoves (h : ForkInv cfg s) (p : Nat) (state : ProcState)
    (hreaped : state ≠ .reaped) (hdead : ∀ status, state ≠ .zombie status true)
    {c : Child} (hc : s.children[p]? = some c) (hrun : c.state = .running) :
    ForkInv cfg (s.updateChild p fun c => { c with state }) := by
  refine h.updateChild p _ (fun d _ _ hok => ⟨hok.1, hreaped, hok.2.2⟩) (fun d hd _ hok => ?_)
    (fun _ _ _ => hreaped) fun d _ _ status hstate => absurd hstate (hdead status)
  rw [hc] at hd
  cases hd
  rcases hok.1 with hstop | ⟨status, hzombie⟩
  · rw [hrun] at hstop
    cases hstop
  · rw [hrun] at hzombie
    cases hzombie

/-- A child that was killed dies. -/
theorem ForkInv.childDies (h : ForkInv cfg s) (p : Nat) {c : Child} (hc : s.children[p]? = some c)
    (hsent : c.killSent = true) :
    ForkInv cfg
      (s.updateChild p fun c => { c with state := .zombie (.signaled SIGKILL) true }) := by
  refine h.updateChild p _ (fun d _ _ hok => ⟨hok.1, (by simp), hok.2.2⟩)
    (fun d _ _ hok => ⟨Or.inr ⟨_, rfl⟩, hok.2⟩) (fun _ _ _ => (by simp)) fun d hd _ _ _ => ?_
  rw [hc] at hd
  cases hd
  exact hsent

end Children

/-! ### The fork server -/

section Server
variable {cfg : ForkCfg} {s s' : ForkState} (h : ForkInv cfg s)
include h

/-- A request is taken out of the pipe. A stopped child that was killed is written off. -/
theorem ForkInv.readRequest (hpc : s.spc = .read) {wasKilled : Bool} {run : Nat}
    (hctl : s.ctl = (wasKilled, run) :: ctl) :
    ForkInv cfg { s with
      ctl
      srvRun := run
      spc := if s.childStopped && wasKilled then .reap else .launch
      childStopped := s.childStopped && !wasKilled } := by
  have hphase := h.phase
  rw [hpc, hctl] at hphase
  obtain ⟨hcpc, rfl, hst⟩ : s.cpc = .readPid ∧ ctl = [] ∧ s.st = [] := by
    revert hphase
    generalize s.cpc = c, s.st = st
    intro hphase
    cases hphase
    exact ⟨rfl, rfl, rfl⟩
  obtain ⟨rfl, rfl⟩ := Prod.mk.inj (h.request _ (hctl ▸ List.mem_cons_self))
  have hnot : ¬ TimedOut s := not_timedOut (by simp [PastArm, hcpc])
  refine ⟨?_, fun m hm => absurd hm List.not_mem_nil, h.pid, h.inPipe, h.received, h.childPid,
    h.armed, h.handler, ?_, h.record⟩
  · show Phase s.cpc (if s.childStopped && s.prevTimedOut then .reap else .launch) [] s.st
    rw [hcpc, hst]
    split
    · exact .launching (Or.inl rfl)
    · exact .launching (Or.inr (Or.inl rfl))
  · refine ⟨fun _ => rfl, fun hrelay => ?_, fun hact => ?_, fun hstop => ?_, fun hreap => ?_,
      h.server.killed⟩
    · dsimp only at hrelay
      split at hrelay <;> cases hrelay
    · dsimp only at hact
      split at hact <;> simp at hact
    · -- The child is resumed, so its SIGKILL would be in the request.
      change (s.childStopped && !s.prevTimedOut) = true at hstop
      rw [Bool.and_eq_true, Bool.not_eq_true'] at hstop
      obtain ⟨_, c, hc, hstate, hkill⟩ := h.server.resting hstop.1
      refine ⟨?_, c, hc, hstate, fun hfuzz hsent => ?_⟩
      · dsimp only
        rw [hstop.2, Bool.and_false]
        exact Or.inr (Or.inl rfl)
      · rcases hkill hfuzz hsent with ⟨hcpc', _⟩ | ⟨_, _, hprev⟩ | htimed
        · simp [hcpc] at hcpc'
        · rw [hstop.2] at hprev
          cases hprev
        · exact absurd htimed hnot
    · dsimp only at hreap
      split at hreap
      · rename_i hboth
        rw [Bool.and_eq_true] at hboth
        obtain ⟨_, c, hc, hstate, _⟩ := h.server.resting hboth.1
        refine ⟨c, hc, ?_⟩
        rcases hstate with hstop | ⟨status, hdead⟩
        · rw [hstop]
          simp
        · rw [hdead]
          simp
      · cases hreap

/-- The client has not read the pid while the server prepares the child. -/
theorem ForkInv.of_launching (hpc : Launching s.spc) :
    s.cpc = .readPid ∧ s.ctl = [] ∧ s.st = [] := by
  have hne : s.spc ≠ .read := by
    rcases hpc with hpc | hpc | hpc <;> rw [hpc] <;> simp
  obtain ⟨hctl, ⟨hcpc, _, hst⟩ | ⟨_, _, hserv, _⟩ | ⟨_, hserv, _⟩⟩ := h.phase.of_busy hne
  · exact ⟨hcpc, hctl, hst⟩
  all_goals rcases hpc with hpc | hpc | hpc <;> simp [Serving, hpc] at hserv

/-- A step of the server while it prepares the child. The client has nothing to read yet. -/
theorem ForkInv.launch_step (hpc : Launching s.spc) (hpc' : Launching s'.spc)
    (hcpc : s'.cpc = s.cpc) (hctl : s'.ctl = s.ctl) (hst : s'.st = s.st)
    (hchildPid : s'.childPid = s.childPid) (hhandler : s'.handler = s.handler)
    (hlog : s'.log = s.log) (harmed : s'.timerArmed = s.timerArmed) (hserver : ServerInv cfg s') :
    ForkInv cfg s' := by
  obtain ⟨hcpc₀, hctl₀, hst₀⟩ := h.of_launching hpc
  rw [hcpc₀] at hcpc
  rw [hctl₀] at hctl
  rw [hst₀] at hst
  refine ⟨?_, fun m hm => ?_, fun p hp => ?_, fun r hr => ?_, fun hreceived => ?_, fun p hp => ?_,
    fun harm => ?_, fun p hp => ?_, hserver, fun r hr => ?_⟩
  · rw [hcpc, hctl, hst]
    exact .launching hpc'
  · rw [hctl] at hm
    cases hm
  · rw [hst] at hp
    cases hp
  · rw [hst] at hr
    cases hr
  · simp [hcpc] at hreceived
  · rw [hchildPid] at hp
    have hread := (h.childPid p hp).2
    simp [hcpc₀] at hread
  · rw [harmed] at harm
    have hread := h.armed harm
    simp [Armed, hcpc₀] at hread
  · rw [hhandler] at hp
    have hpast := (h.handler p hp).2.2
    simp [PastArm, hcpc₀] at hpast
  · rw [hlog] at hr
    exact h.record r hr

/-- The child that was written off is reaped. -/
theorem ForkInv.reap (hpc : s.spc = .reap) :
    ForkInv cfg { s.updateChild s.srvChild (fun c => { c with state := .reaped }) with
      spc := .launch } := by
  refine h.launch_step (Or.inl hpc) (Or.inr (Or.inl rfl)) rfl rfl rfl rfl rfl rfl rfl ?_
  refine ⟨fun _ => h.server.srvRun (by simp [hpc]), fun hrelay => (by cases hrelay), fun hact => ?_,
    fun hstop => ?_, fun hreap => (by cases hreap), fun c hc status hstate => ?_⟩
  · simp at hact
  · have hwhere := (h.server.resting hstop).1
    simp [hpc] at hwhere
  · rcases mem_updateChild (s := s) hc with hold | ⟨c₀, _, rfl⟩
    · exact h.server.killed c hold status hstate
    · cases hstate

/-- A stopped child is resumed. It was not killed, so it runs now, for this run. -/
theorem ForkInv.resume (hsafe : cfg.client = .fuzz ∨ SafeForkAct s .server) (hpc : s.spc = .launch)
    (hstop : s.childStopped = true) :
    ForkInv cfg { s.updateChild s.srvChild (·.cont s.srvRun) with
      childStopped := false
      spc := .writePid } := by
  have hlaunch : Launching s.spc := Or.inr (Or.inl hpc)
  obtain ⟨hcpc, hctl, _⟩ := h.of_launching hlaunch
  obtain ⟨_, c, hc, hstate, hkill⟩ := h.server.resting hstop
  have hsent : c.killSent = false := by
    rcases hsafe with hfuzz | hsafe
    · -- A SIGKILL would have been in the request.
      rw [← Bool.not_eq_true]
      intro hsent
      have hpast := ((hkill hfuzz hsent).timedOut (by simp [hcpc]) fun _ => hctl).2
      simp [PastArm, hcpc] at hpast
    · exact hsafe hpc hstop c hc
  -- It is stopped, since only a SIGKILL could have ended a stopped child.
  have hstopped : c.state = .stopped true := by
    rcases hstate with hstopped | ⟨status, hdead⟩
    · exact hstopped
    · rw [h.server.killed c (List.mem_of_getElem? hc) status hdead] at hsent
      cases hsent
  have hcont : c.cont s.srvRun = { c with state := .running, run := s.srvRun } := by
    unfold Child.cont
    rw [hstopped]
  have hrun : s.srvRun = s.run := h.server.srvRun (by simp [hpc])
  refine h.launch_step hlaunch (Or.inr (Or.inr rfl)) rfl rfl rfl rfl rfl rfl rfl ?_
  refine ⟨fun _ => hrun, fun hrelay => (by cases hrelay), fun _ => ?_,
    fun hstop => (by cases hstop),
    fun hreap => (by cases hreap), fun d hd status hdead => ?_⟩
  · refine ⟨c.cont s.srvRun, ?_, ?_⟩
    · show (s.updateChild s.srvChild (·.cont s.srvRun)).children[s.srvChild]? = _
      rw [getElem?_updateChild, if_pos rfl, hc]
      rfl
    · rw [hcont]
      exact ⟨hrun, (by simp), fun hs => (by rw [hsent] at hs; cases hs)⟩
  · rcases mem_updateChild (s := s) hd with hold | ⟨c₀, hc₀, rfl⟩
    · exact h.server.killed d hold status hdead
    · rw [hc] at hc₀
      cases hc₀
      rw [hcont] at hdead
      cases hdead

/-- A new child is forked, for this run. -/
theorem ForkInv.fork (hpc : s.spc = .launch) (hstop : s.childStopped = false) :
    ForkInv cfg { s with
      children := s.children ++ [⟨.running, false, s.srvRun⟩]
      srvChild := s.children.length
      spc := .writePid } := by
  have hrun : s.srvRun = s.run := h.server.srvRun (by simp [hpc])
  refine h.launch_step (Or.inr (Or.inl hpc)) (Or.inr (Or.inr rfl)) rfl rfl rfl rfl rfl rfl rfl ?_
  refine ⟨fun _ => hrun, fun hrelay => (by cases hrelay), fun _ => ?_, fun hstop' => ?_,
    fun hreap => (by cases hreap), fun d hd status hdead => ?_⟩
  · exact ⟨⟨.running, false, s.srvRun⟩, List.getElem?_concat_length, hrun, (by simp),
      fun hsent => (by cases hsent)⟩
  · rw [show s.childStopped = true from hstop'] at hstop
    cases hstop
  · rcases List.mem_append.mp hd with hold | hnew
    · exact h.server.killed d hold status hdead
    · rw [List.mem_singleton.mp hnew] at hdead
      cases hdead

/-- The pid is written. -/
theorem ForkInv.writePid (hpc : s.spc = .writePid) :
    ForkInv cfg { s with spc := .wait, st := s.st ++ [.pid s.srvChild] } := by
  obtain ⟨hcpc, hctl, hst⟩ := h.of_launching (Or.inr (Or.inr hpc))
  refine ⟨?_, h.request, fun p hp => ?_, fun r hr => ?_, h.received, h.childPid, h.armed, h.handler,
    ?_, h.record⟩
  · show Phase s.cpc .wait s.ctl (s.st ++ [_])
    rw [hcpc, hctl, hst]
    exact .serving _ (Or.inl rfl)
  · change .pid p ∈ s.st ++ [.pid s.srvChild] at hp
    rw [hst, List.nil_append, List.mem_singleton] at hp
    cases hp
    rfl
  · change .status r ∈ s.st ++ [.pid s.srvChild] at hr
    rw [hst, List.nil_append, List.mem_singleton] at hr
    cases hr
  · refine ⟨fun _ => h.server.srvRun (by simp [hpc]), fun hrelay => (by cases hrelay),
      fun _ => h.server.active (Or.inl hpc), fun hstop => ?_, fun hreap => (by cases hreap),
      h.server.killed⟩
    have hwhere := (h.server.resting hstop).1
    simp [hpc] at hwhere

/-- `waitpid` returns, and the status is about to be relayed. -/
theorem ForkInv.collect (hpc : s.spc = .wait) (state : ProcState) (stopped : Bool) (r : Report)
    (hr : ReportOk s r) (hdead : ∀ status, state ≠ .zombie status true)
    (hrest : stopped = true → ∃ c, s.children[s.srvChild]? = some c ∧
      RestingOk cfg s { c with state }) :
    ForkInv cfg { s.updateChild s.srvChild (fun c => { c with state }) with
      spc := .relay
      childStopped := stopped
      srvReport := some r } := by
  refine ⟨?_, h.request, h.pid, h.inPipe, h.received, h.childPid, h.armed, h.handler, ?_, h.record⟩
  · show Phase s.cpc .relay s.ctl s.st
    obtain ⟨hctl, ⟨_, hlaunch, _⟩ | ⟨pid, hcpc, _, hst⟩ | ⟨hwait, _, hst⟩⟩ :=
      h.phase.of_busy (by simp [hpc])
    · simp [Launching, hpc] at hlaunch
    · rw [hctl, hcpc, hst]
      exact .serving pid (Or.inr rfl)
    · rw [hctl, hst]
      exact .waiting hwait (Or.inr rfl)
  · refine ⟨fun _ => h.server.srvRun (by simp [hpc]), fun _ q hq => ?_, fun hact => ?_,
      fun hstop => ?_,
      fun hreap => (by cases hreap), fun d hd status hstate => ?_⟩
    · cases hq
      exact hr
    · simp at hact
    · obtain ⟨c, hc, hok⟩ := hrest hstop
      refine ⟨Or.inr (Or.inr rfl), { c with state }, ?_, hok⟩
      show (s.updateChild s.srvChild fun c => { c with state }).children[s.srvChild]? = _
      rw [getElem?_updateChild, if_pos rfl, hc]
      rfl
    · rcases mem_updateChild (s := s) hd with hold | ⟨c₀, _, rfl⟩
      · exact h.server.killed d hold status hstate
      · exact absurd hstate (hdead status)

/-- The status is written. -/
theorem ForkInv.relay (hpc : s.spc = .relay) {r : Report} (hr : s.srvReport = some r) :
    ForkInv cfg { s with spc := .read, st := s.st ++ [.status r] } := by
  refine ⟨?_, h.request, fun p hp => ?_, fun q hq => ?_, h.received, h.childPid, h.armed, h.handler,
    ?_, h.record⟩
  · show Phase s.cpc .read s.ctl (s.st ++ [_])
    obtain ⟨hctl, ⟨_, hlaunch, _⟩ | ⟨pid, hcpc, _, hst⟩ | ⟨hwait, _, hst⟩⟩ :=
      h.phase.of_busy (by simp [hpc])
    · simp [Launching, hpc] at hlaunch
    · rw [hctl, hcpc, hst]
      exact .served pid r
    · rw [hctl, hst]
      exact .answered r hwait
  · rcases List.mem_append.mp hp with hp | hp
    · exact h.pid p hp
    · cases List.mem_singleton.mp hp
  · rcases List.mem_append.mp hq with hq | hq
    · exact h.inPipe q hq
    · cases List.mem_singleton.mp hq
      exact h.server.relayed hpc r hr
  · refine ⟨fun hne => absurd rfl hne, fun hrelay => (by cases hrelay), fun hact => ?_,
      fun hstop => ⟨Or.inl rfl, (h.server.resting hstop).2⟩, fun hreap => (by cases hreap),
      h.server.killed⟩
    simp at hact

/-- While the server waits, it does not take its child for stopped. -/
theorem ForkInv.not_stopped_of_wait (hpc : s.spc = .wait) :
    s.childStopped = false := by
  rw [← Bool.not_eq_true]
  intro hstop
  have hwhere := (h.server.resting hstop).1
  simp [hpc] at hwhere

theorem ForkInv.server_step (hsafe : cfg.client = .fuzz ∨ SafeForkAct s .server)
    (hstep : s.serverStep = some s') :
    ForkInv cfg s' := by
  cases serverMove_of_step hstep with
  | read hpc hctl => exact h.readRequest hpc hctl
  | reap hpc => exact h.reap hpc
  | resume hpc hstop => exact h.resume hsafe hpc hstop
  | fork hpc hstop => exact h.fork hpc hstop
  | writePid hpc => exact h.writePid hpc
  | @waitDeath hpc c hc status byClient hdead =>
    obtain ⟨_, hc', hrun, -, hkill⟩ := h.server.active (Or.inr hpc)
    cases hc.symm.trans hc'
    refine h.collect hpc .reaped s.childStopped _ ⟨hrun, fun hby => ?_⟩ (by simp) fun hstop => ?_
    · cases hby
      exact hkill (h.server.killed c (List.mem_of_getElem? hc) status hdead)
    · rw [h.not_stopped_of_wait hpc] at hstop
      cases hstop
  | @waitStop hpc c hc hstop =>
    obtain ⟨_, hc', hrun, -, hkill⟩ := h.server.active (Or.inr hpc)
    cases hc.symm.trans hc'
    exact h.collect hpc (.stopped true) true _ ⟨hrun, nofun⟩ (by simp)
      fun _ => ⟨c, hc, Or.inl rfl, fun _ hsent => Or.inr (Or.inr (hkill hsent))⟩
  | relay hpc hr => exact h.relay hpc hr
  | exit hpc hgone =>
    -- The child that the server waits for was not collected before.
    rcases hpc with hpc | hpc
    · obtain ⟨c, hc, hstate⟩ := h.server.reaping hpc
      exact absurd (hgone c hc) hstate
    · obtain ⟨c, hc, -, hstate, -⟩ := h.server.active (Or.inr hpc)
      exact absurd (hgone c hc) hstate

end Server

/-! ### All runs -/

section Runs
variable {cfg : ForkCfg} {s s' : ForkState}

/-- Where a child goes, it was allowed to go. -/
theorem childStep_eq_some {p : Nat} {next : Child → Option ProcState}
    (h : s.childStep p next = some s') : ∃ c state, s.children[p]? = some c ∧ next c = some state ∧
      s' = s.updateChild p fun c => { c with state } := by
  unfold ForkState.childStep at h
  split at h
  · rename_i c hc
    obtain ⟨state, hstate, rfl⟩ := Option.map_eq_some_iff.mp h
    exact ⟨c, state, hc, hstate, rfl⟩
  · cases h

/-- A child that runs exits, crashes or stops. -/
theorem ForkInv.childStep_running (h : ForkInv cfg s) {p : Nat} {state : ProcState}
    (hreaped : state ≠ .reaped) (hdead : ∀ status, state ≠ .zombie status true)
    (hstep : s.childStep p (fun c => if c.state = .running then some state else none) = some s') :
    ForkInv cfg s' := by
  obtain ⟨c, next, hc, hnext, rfl⟩ := childStep_eq_some hstep
  obtain ⟨hrun, hstate⟩ := Option.ite_none_right_eq_some.mp hnext
  cases hstate
  exact h.childMoves p state hreaped hdead hc hrun

theorem ForkInv.step (h : ForkInv cfg s) (act : ForkAct)
    (hsafe : cfg.client = .fuzz ∨ SafeForkAct s act) (hstep : act.apply cfg s = some s') :
    ForkInv cfg s' := by
  cases act with
  | client stopSoon => exact h.client hstep
  | alarm => exact h.alarm hstep
  | handlerKill => exact h.handlerKill hstep
  | server => exact h.server_step hsafe hstep
  | childExit p code => exact h.childStep_running (by simp) (by simp) hstep
  | childCrash p sig => exact h.childStep_running (by simp) (by simp) hstep
  | childStop p => exact h.childStep_running (by simp) (by simp) hstep
  | childDie p =>
    obtain ⟨c, state, hc, hnext, rfl⟩ := childStep_eq_some hstep
    obtain ⟨hsent, hstate⟩ := Option.ite_none_right_eq_some.mp hnext
    cases hstate
    exact h.childDies p hc (Bool.and_eq_true _ _ ▸ hsent).1

/-- The state after a list of steps, if each of them can be taken and meets `ok`. -/
def runActs (cfg : ForkCfg) (ok : ForkState → ForkAct → Bool) (s : ForkState) :
    List ForkAct → Option ForkState
  | [] => some s
  | act :: acts =>
    if ok s act then (act.apply cfg s).bind fun s' => runActs cfg ok s' acts else none

theorem reachable_runActs {ok : ForkState → ForkAct → Bool} {Step : ForkState → ForkState → Prop}
    (hok : ∀ t act t', ok t act = true → act.apply cfg t = some t' → Step t t')
    {acts : List ForkAct} (hs : Reachable (· = {}) Step s)
    (hrun : runActs cfg ok s acts = some s') : Reachable (· = {}) Step s' := by
  induction acts generalizing s with
  | nil =>
    cases hrun
    exact hs
  | cons act acts ih =>
    obtain ⟨hact, hrun⟩ := Option.ite_none_right_eq_some.mp hrun
    obtain ⟨t, ht, hrest⟩ := Option.bind_eq_some_iff.mp hrun
    exact ih (.step hs (hok s act t hact ht)) hrest

end Runs

end Fork

open Fork

/-! ### afl-fuzz -/

/-- In every interleaving of afl-fuzz, its timer, the fork server and the children: the status that
`run_target` reads comes from a child that was forked or resumed for that call, and a verdict
`FAULT_CRASH` for a signal is not about afl-fuzz's own SIGKILL. -/
theorem fuzz_status_of_run {execTmout : Nat} {s : ForkState}
    (h : Reachable (· = {}) (ForkStep ⟨.fuzz, execTmout⟩) s) :
    (∀ r, s.cpc = .clearPid → s.status = some r → r.run = s.run) ∧
      ∀ r ∈ s.log, r.report.run = r.run ∧ ∀ o, r.report.status.wifSignaled = true →
        fuzzFault o r = .crash → r.report.byClient = false := by
  -- The invariant holds in every state of the run, for every step.
  have hinv : ForkInv ⟨.fuzz, execTmout⟩ s := by
    refine h.invariant (fun t ht => ht ▸ ForkInv.init _) fun t t' ht hstep => ?_
    obtain ⟨act, hact⟩ := hstep
    exact ht.step act (Or.inl rfl) hact
  refine ⟨fun r hpc hr => (hinv.received (Or.inl hpc) r hr).1, fun r hr => ?_⟩
  obtain ⟨hrun, hby⟩ := hinv.record r hr
  refine ⟨hrun, fun o _ hcrash => ?_⟩
  rw [← Bool.not_eq_true]
  intro hkilled
  -- The handler that killed the child has set `child_timed_out`.
  rw [fuzzFault, runTargetEnd, if_pos (hby hkilled)] at hcrash
  cases hcrash

/-- The first child stops itself and is killed before afl-fuzz has disarmed the timer. The server
reaps it and forks a second one, which exits. -/
def stopThenKill : List ForkAct :=
  [.client false, .client false, .server, .server, .server, .client false, .client false,
    .childStop 0, .server, .server, .alarm, .handlerKill, .childDie 0]

@[inherit_doc stopThenKill] def fuzzRace : List ForkAct :=
  stopThenKill ++ List.replicate 6 (.client false) ++ [.server, .server, .server, .server,
    .client false, .client false, .childExit 1 0, .server, .server] ++
    List.replicate 4 (.client false)

theorem fuzz_status_of_run_race :
    ∃ s, runActs ⟨.fuzz, 1000⟩ (fun _ _ => true) {} fuzzRace = some s ∧
    s.log.map (fun r => (r.run, r.timedOut)) = [(1, true), (2, false)] ∧
    ∀ r ∈ s.log, r.report.run = r.run ∧ ∀ o, r.report.status.wifSignaled = true →
      fuzzFault o r = .crash → r.report.byClient = false := by
  have hlog : (runActs ⟨.fuzz, 1000⟩ (fun _ _ => true) {} fuzzRace).map
      (fun s => s.log.map fun r => (r.run, r.timedOut)) = some [(1, true), (2, false)] := by
    decide +kernel
  obtain ⟨s, hs, hlog⟩ := Option.map_eq_some_iff.mp hlog
  exact ⟨s, hs, hlog, (fuzz_status_of_run
    (reachable_runActs (fun t act t' _ ht => ⟨act, ht⟩) (.init rfl) hs)).2⟩

/-! ### afl-tmin -/

/-- A step that meets the condition. -/
def SafeForkStep (cfg : ForkCfg) (s s' : ForkState) : Prop :=
  ∃ act : ForkAct, SafeForkAct s act ∧ act.apply cfg s = some s'

/-- In every run of afl-tmin in which no child is resumed that was sent its SIGKILL: the status that
is interpreted for a candidate comes from a child that was forked or resumed for it, and no
candidate is kept as crashing because of afl-tmin's own SIGKILL. -/
theorem tmin_status_of_run {execTmout : Nat} {s : ForkState}
    (h : Reachable (· = {}) (SafeForkStep ⟨.tmin, execTmout⟩) s) :
    ∀ r ∈ s.log, r.report.run = r.run ∧ ∀ o crashMode firstRun,
      tminKeepsCrash o crashMode firstRun r = true → r.report.byClient = false := by
  -- The same invariant, but each step has to meet the condition.
  have hinv : ForkInv ⟨.tmin, execTmout⟩ s := by
    refine h.invariant (fun t ht => ht ▸ ForkInv.init _) fun t t' ht hstep => ?_
    obtain ⟨act, hsafe, hact⟩ := hstep
    exact ht.step act (Or.inr hsafe) hact
  intro r hr
  obtain ⟨hrun, hby⟩ := hinv.record r hr
  refine ⟨hrun, fun o crashMode firstRun hkeep => ?_⟩
  rw [← Bool.not_eq_true]
  intro hkilled
  rw [tminKeepsCrash, hby hkilled] at hkeep
  cases hkeep

/-- The first child hangs and is killed, the second one crashes. -/
def hangThenCrash : List ForkAct :=
  [.client false, .client false, .server, .server, .server, .client false, .client false, .alarm,
    .handlerKill, .childDie 0, .server, .server] ++ List.replicate 6 (.client false) ++
    [.server, .server, .server, .client false, .client false, .childCrash 1 11, .server, .server] ++
    List.replicate 4 (.client false)

theorem tmin_status_of_run_hangThenCrash :
    ∃ s, runActs ⟨.tmin, 1000⟩ (fun s act => decide (SafeForkAct s act)) {} hangThenCrash = some s ∧
      s.log = [⟨1, ⟨.signaled SIGKILL, 1, true⟩, true, false⟩,
        ⟨2, ⟨.signaled 11, 2, false⟩, false, false⟩] ∧
      ∀ r ∈ s.log, r.report.run = r.run ∧ ∀ o crashMode firstRun,
        tminKeepsCrash o crashMode firstRun r = true → r.report.byClient = false := by
  have hlog : (runActs ⟨.tmin, 1000⟩ (fun s act => decide (SafeForkAct s act)) {}
      hangThenCrash).map (·.log) = some [⟨1, ⟨.signaled SIGKILL, 1, true⟩, true, false⟩,
        ⟨2, ⟨.signaled 11, 2, false⟩, false, false⟩] := by decide +kernel
  obtain ⟨s, hs, hlog⟩ := Option.map_eq_some_iff.mp hlog
  exact ⟨s, hs, hlog, tmin_status_of_run (reachable_runActs
    (fun t act t' hsafe ht => ⟨act, of_decide_eq_true hsafe, ht⟩) (.init rfl) hs)⟩

/-- The same race under afl-tmin: the server resumes the dead child and relays its death. -/
def tminRace : List ForkAct :=
  stopThenKill ++ List.replicate 6 (.client false) ++ [.server, .server, .server,
    .client false, .client false, .server, .server] ++ List.replicate 4 (.client false)

theorem tminRace_reaches : ∃ s, Reachable (· = {}) (ForkStep ⟨.tmin, 1000⟩) s ∧
    s.log = [⟨1, ⟨.stopped SIGSTOP, 1, false⟩, true, false⟩,
      ⟨2, ⟨.signaled SIGKILL, 1, true⟩, false, false⟩] := by
  have hlog : (runActs ⟨.tmin, 1000⟩ (fun _ _ => true) {} tminRace).map (·.log) = some
      [⟨1, ⟨.stopped SIGSTOP, 1, false⟩, true, false⟩,
        ⟨2, ⟨.signaled SIGKILL, 1, true⟩, false, false⟩] := by decide +kernel
  obtain ⟨s, hs, hlog⟩ := Option.map_eq_some_iff.mp hlog
  exact ⟨s, reachable_runActs (fun t act t' _ ht => ⟨act, ht⟩) (.init rfl) hs, hlog⟩

/-- Not in every run: after a SIGKILL to a stopped child, the next candidate is judged by the death
of that child, and kept as crashing. -/
theorem tmin_status_of_earlier_run :
    (¬ ∀ (execTmout : Nat) (s : ForkState), Reachable (· = {}) (ForkStep ⟨.tmin, execTmout⟩) s →
      ∀ r ∈ s.log, r.timedOut = false → r.report.run = r.run) ∧
    ¬ ∀ (execTmout : Nat) (s : ForkState), Reachable (· = {}) (ForkStep ⟨.tmin, execTmout⟩) s →
      ∀ r ∈ s.log, ∀ o crashMode firstRun,
        tminKeepsCrash o crashMode firstRun r = true → r.report.byClient = false := by
  obtain ⟨s, hs, hlog⟩ := tminRace_reaches
  have hmem : ⟨2, ⟨.signaled SIGKILL, 1, true⟩, false, false⟩ ∈ s.log := by
    rw [hlog]
    exact List.mem_cons_of_mem _ List.mem_cons_self
  constructor
  · intro hall
    cases hall 1000 s hs _ hmem rfl
  · intro hall
    cases hall 1000 s hs _ hmem ⟨false, 0, false⟩ true false rfl

end TriforceAFL.Proofs
