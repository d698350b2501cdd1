import TriforceAFL.Proofs.ForkServer

/-!
# `TriforceAFL.Proofs.ForkReturns`: a call of `run_target` comes to an end

Every step of a call lowers `rank`, so its steps are bounded. They do not stop before it is over
either, though the target may hang: what client and server wait for will come (`WaitInv`), by the
timer if need be, and a child that has to die has been sent a SIGKILL (`Doomed`).
-/

set_option autoImplicit false

namespace TriforceAFL.Proofs

open Lib Spec

namespace Fork

/-! ### The steps of a call are bounded -/

/-- The client steps before `run_target` returns. -/
def clientRank : ClientPc → Nat
  | .start => 0
  | .request => 7
  | .readPid => 6
  | .arm => 5
  | .readStatus => 4
  | .clearPid => 3
  | .disarm => 2
  | .finish => 1

/-- The server steps before the next request is read. -/
def serverRank : ServerPc → Nat
  | .read | .exited => 0
  | .reap => 5
  | .launch => 4
  | .writePid => 3
  | .wait => 2
  | .relay => 1

/-- The steps of a child before it is resumed. -/
def childRank (c : Child) : Nat :=
  match c.state with
  | .running => 2
  | .stopped _ => 1
  | .zombie _ _ | .reaped => 0

/-- A step may add to a later term as long as it takes more from an earlier one. -/
def rank (s : ForkState) : Nat :=
  20 * clientRank s.cpc + 18 * s.ctl.length + 3 * serverRank s.spc +
    (if s.timerArmed then 2 else 0) + (if s.handler.isSome then 1 else 0) +
    (s.children.map childRank).sum

variable {cfg : ForkCfg} {s s' : ForkState}

/-- One child changes, and its rank with it. -/
theorem sum_modify_le {l : List Child} {p j k : Nat} {f : Child → Child}
    (hout : l.length ≤ p → j ≤ k)
    (hf : ∀ c, l[p]? = some c → childRank (f c) + j ≤ childRank c + k) :
    ((l.modify p f).map childRank).sum + j ≤ (l.map childRank).sum + k := by
  induction l generalizing p with
  | nil => simpa using hout
  | cons d l ih =>
    cases p with
    | zero =>
      have hd := hf d rfl
      simp only [List.modify_zero_cons, List.map_cons, List.sum_cons]
      omega
    | succ p =>
      have hrest := ih (fun hle => hout (Nat.succ_le_succ hle)) hf
      simp only [List.modify_succ_cons, List.map_cons, List.sum_cons]
      omega

/-- A request in the pipe counts less than the step that writes it. -/
theorem rank_clientStep (hpc : s.cpc ≠ .start) {stopSoon : Bool}
    (hstep : s.clientStep cfg stopSoon = some s') : rank s' < rank s := by
  obtain ⟨-, hmove⟩ := clientMove_of_step hstep
  cases hmove with
  | start hstart _ => exact absurd hstart hpc
  | request hpc =>
    simp only [rank, clientRank, hpc, List.length_append, List.length_singleton]
    omega
  | arm hpc _ | disarm hpc =>
    simp only [rank, clientRank, hpc]
    grind
  | readPid hpc _ | readStatus hpc _ | clearPid hpc | finish hpc _ _ =>
    simp only [rank, clientRank, hpc]
    omega

/-- What the server does to its child. -/
theorem sum_modify_le_succ {p : Nat} {f : Child → Child}
    (hf : ∀ c, childRank (f c) ≤ childRank c + 1) :
    ((s.children.modify p f).map childRank).sum ≤ (s.children.map childRank).sum + 1 :=
  sum_modify_le (j := 0) (fun _ => Nat.zero_le _) fun c _ => hf c

/-- Only `launch` wakes a child; its own step counts more than that. -/
theorem rank_serverStep (hstep : s.serverStep = some s') : rank s' < rank s := by
  cases serverMove_of_step hstep with
  | @read hpc wasKilled _ _ hctl =>
    have hnext : serverRank (if s.childStopped && wasKilled then .reap else .launch) ≤ 5 := by
      split <;> decide
    simp only [rank, hctl, List.length_cons]
    omega
  | reap hpc _ _ | waitDeath hpc _ _ =>
    have hchild := sum_modify_le_succ (s := s) (p := s.srvChild)
      (f := ({ · with state := .reaped })) fun c => Nat.zero_le _
    simp only [rank, serverRank, hpc, ForkState.updateChild]
    omega
  | waitStop hpc _ _ =>
    have hchild := sum_modify_le_succ (s := s) (p := s.srvChild)
      (f := ({ · with state := .stopped true })) fun c => Nat.le_add_left _ _
    simp only [rank, serverRank, hpc, ForkState.updateChild]
    omega
  | resume hpc _ =>
    have hchild := sum_modify_le_succ (s := s) (p := s.srvChild) (f := (·.cont s.srvRun))
      fun c => by grind [childRank, Child.cont]
    simp only [rank, serverRank, hpc, ForkState.updateChild]
    omega
  | fork hpc _ =>
    -- A new child has two steps before it.
    simp only [rank, serverRank, hpc, List.map_append, List.sum_append, List.map_singleton,
      List.sum_singleton, childRank]
    omega
  | writePid hpc | relay hpc _ =>
    simp only [rank, serverRank, hpc]
    omega
  | exit hpc _ =>
    rcases hpc with hpc | hpc <;> simp only [rank, serverRank, hpc] <;> omega

/-- A child that exits, crashes, stops or dies. -/
theorem rank_childStep {act : ForkAct} {p : Nat}
    (hstep : s.childStep p (fun c => act.next c) = some s') : rank s' < rank s := by
  obtain ⟨c, state, hc, hnext, rfl⟩ := childStep_eq_some hstep
  have hless : childRank { c with state } < childRank c := by
    unfold ForkAct.next at hnext
    grind [childRank, Child.alive]
  have hsum := sum_modify_le (l := s.children) (j := 1) (k := 0) (f := ({ · with state }))
    (p := p) (by grind) (by grind)
  unfold rank ForkState.updateChild
  dsimp only
  omega

/-- Every step of a call lowers the rank. -/
theorem rank_lt (hpc : s.cpc ≠ .start) (act : ForkAct) (hstep : act.apply cfg s = some s') :
    rank s' < rank s := by
  cases act with
  | client stopSoon => exact rank_clientStep hpc hstep
  | alarm =>
    change s.alarm = some s' at hstep
    unfold ForkState.alarm at hstep
    unfold rank
    grind
  | handlerKill =>
    obtain ⟨p, hp, rfl⟩ := Option.map_eq_some_iff.mp hstep
    have hkill := sum_modify_le (l := s.children) (j := 0) (k := 0) (f := Child.kill)
      (p := p) (by simp) (by grind [childRank, Child.kill])
    unfold rank ForkState.updateChild
    grind
  | server => exact rank_serverStep hstep
  | _ => exact rank_childStep hstep

/-- The steps of a call, from `s` on. -/
theorem length_le_rank {acts : List ForkAct}
    (hrun : runActs cfg (fun t _ => t.cpc != .start) s acts = some s') :
    acts.length ≤ rank s := by
  induction acts generalizing s with
  | nil => exact Nat.zero_le _
  | cons act acts ih =>
    obtain ⟨hpc, hrest⟩ := Option.ite_none_right_eq_some.mp hrun
    obtain ⟨t, ht, hrest⟩ := Option.bind_eq_some_iff.mp hrest
    exact Nat.lt_of_le_of_lt (ih hrest) (rank_lt (bne_iff_ne.mp hpc) act ht)

/-! ### Some step is always possible -/

/-- The server's child is dead, or a SIGKILL has been sent to it. -/
@[grind] def Doomed (s : ForkState) : Prop :=
  ∀ c, s.children[s.srvChild]? = some c → c.killSent = true ∨ c.alive = false

/-- What `ForkInv` does not say: whoever waits is waited for. -/
@[grind cases] structure WaitInv (s : ForkState) : Prop where
  pid : s.cpc = .arm ∨ s.cpc = .readStatus → s.childPid.isSome
  received : s.cpc = .clearPid ∨ s.cpc = .disarm ∨ s.cpc = .finish → s.status.isSome
  relayed : s.spc = .relay → s.srvReport.isSome
  active : s.spc = .writePid ∨ s.spc = .wait →
    ∀ c, s.children[s.srvChild]? = some c → c.state ≠ .stopped true
  -- A timeout on record means that the child is killed, until the server has read of it.
  unset : s.cpc = .request ∨ s.cpc = .readPid → s.childTimedOut = false
  watched : s.cpc = .readStatus → s.timerArmed = true ∨ s.childTimedOut = true
  killed : s.childTimedOut = true → s.handler.isSome ∨ Doomed s
  marked : s.prevTimedOut = true → s.cpc = .start ∨ s.cpc = .request ∨ s.ctl ≠ [] → Doomed s
  reaping : s.spc = .reap → Doomed s

section Progress
variable (hinv : ForkInv cfg s) (h : WaitInv s)
include hinv h

omit hinv in
/-- Steps of `run_target`. -/
theorem WaitInv.client (hfuzz : cfg.client = .fuzz) (hexec : cfg.execTmout ≠ 0) {stopSoon : Bool}
    (hstep : s.clientStep cfg stopSoon = some s') : WaitInv s' := by
  obtain ⟨hno, hmove⟩ := clientMove_of_step hstep
  cases hmove with
  | start hpc hunset =>
    exact ⟨by simp, by simp, h.relayed, h.active, fun _ => hunset hfuzz, by simp,
      fun ht => absurd ht (by simp [hunset hfuzz]), fun hp _ => h.marked hp (Or.inl hpc),
      h.reaping⟩
  | request hpc =>
    exact ⟨by simp, by simp, h.relayed, h.active, fun _ => h.unset (Or.inl hpc), by simp,
      h.killed, fun hp _ => h.marked hp (Or.inr (Or.inl hpc)), h.reaping⟩
  | readPid hpc _ =>
    exact ⟨fun _ => rfl, by simp, h.relayed, h.active, by simp, by simp, h.killed,
      fun hp hw => h.marked hp (by simpa [hpc] using hw), h.reaping⟩
  | arm hpc hkept =>
    refine ⟨fun _ => h.pid (Or.inl hpc), by simp, h.relayed, h.active, by simp, ?_, ?_,
      fun hp hw => h.marked hp (by simpa [hpc] using hw), h.reaping⟩
    · exact fun _ => Or.inl (decide_eq_true hexec)
    · exact fun ht => h.killed ((hkept hfuzz).symm.trans ht)
  | readStatus hpc _ =>
    exact ⟨by simp, fun _ => rfl, h.relayed, h.active, by simp, by simp, h.killed,
      fun hp hw => h.marked hp (by simpa [hpc] using hw), h.reaping⟩
  | clearPid hpc =>
    exact ⟨by simp, fun _ => h.received (Or.inl hpc), h.relayed, h.active, by simp, by simp,
      h.killed, fun hp hw => h.marked hp (by simpa [hpc] using hw), h.reaping⟩
  | disarm hpc =>
    exact ⟨by simp, fun _ => h.received (Or.inr (Or.inl hpc)), h.relayed, h.active, by simp,
      by simp, h.killed, fun hp hw => h.marked hp (by simpa [hpc] using hw), h.reaping⟩
  | finish _ _ hprev =>
    -- The timeout moves to `prev_timed_out`, and the handler is done.
    refine ⟨by simp, by simp, h.relayed, h.active, by simp, by simp, h.killed, fun hp _ => ?_,
      h.reaping⟩
    exact (h.killed ((hprev hfuzz).symm.trans hp)).resolve_left (by simp [hno])

omit hinv in
/-- The server collects its child, or resumes it. -/
theorem WaitInv.update {c : Child} (hc : s.children[s.srvChild]? = some c) {f : Child → Child}
    (hkill : (f c).killSent = c.killSent) (halive : (f c).alive = c.alive) {spc : ServerPc}
    {childStopped : Bool} {srvReport : Option Report} (hreport : spc = .relay → srvReport.isSome)
    (hactive : spc = .writePid → (f c).state ≠ .stopped true) (hwait : spc ≠ .wait)
    (hreap : spc ≠ .reap) :
    WaitInv { s.updateChild s.srvChild f with spc, childStopped, srvReport } := by
  have hmoved : (s.children.modify s.srvChild f)[s.srvChild]? = some (f c) := by simp [hc]
  have hkeep : Doomed s → ∀ c', (s.children.modify s.srvChild f)[s.srvChild]? = some c' →
      c'.killSent = true ∨ c'.alive = false := by
    rintro hdoomed _ hc'
    cases hmoved.symm.trans hc'
    rw [hkill, halive]
    exact hdoomed c hc
  refine ⟨h.pid, h.received, hreport, fun hpc c' hc' => ?_, h.unset, h.watched,
    fun ht => (h.killed ht).imp_right hkeep, fun hp hw => hkeep (h.marked hp hw),
    fun hpc => absurd hpc hreap⟩
  cases hmoved.symm.trans hc'
  exact hactive (hpc.resolve_right hwait)

/-- Steps of the fork server. -/
theorem WaitInv.server (hstep : s.serverStep = some s') : WaitInv s' := by
  cases serverMove_of_step hstep with
  | read hpc hctl =>
    obtain ⟨rfl, rfl⟩ := Prod.mk.inj (hinv.request _ (hctl ▸ List.mem_cons_self))
    have hmarked := h.marked
    refine ⟨h.pid, h.received, ?_, ?_, h.unset, h.watched, h.killed, ?_, ?_⟩ <;> grind
  | reap _ hc hdead =>
    exact h.update hc rfl (by rw [hdead]; rfl) (by simp) (by simp) (by simp) (by simp)
  | resume _ hstop =>
    obtain ⟨-, c, hc, hstate, -⟩ := hinv.server.resting hstop
    refine h.update hc ?_ ?_ (by simp) ?_ (by simp) (by simp) <;> grind [Child.cont, Child.alive]
  | fork hpc _ =>
    -- The new child has no timeout on record, for the client waits for its pid.
    obtain ⟨hcpc, hctl, -⟩ := hinv.of_launching (Or.inr (Or.inl hpc))
    have hunset := h.unset (Or.inr hcpc)
    refine ⟨h.pid, h.received, ?_, ?_, h.unset, h.watched, ?_, ?_, ?_⟩ <;> simp_all
  | writePid hpc =>
    exact ⟨h.pid, h.received, by simp, fun _ => h.active (Or.inl hpc), h.unset, h.watched,
      h.killed, h.marked, by simp⟩
  | waitDeath _ hc hs | waitStop _ hc hs =>
    exact h.update hc rfl (by simp [Child.alive, hs]) (fun _ => rfl) (by simp) (by simp)
      (by simp)
  | relay | exit =>
    exact ⟨h.pid, h.received, by simp, by simp, h.unset, h.watched, h.killed, h.marked, by simp⟩

omit hinv in
/-- Steps of a child. -/
theorem WaitInv.child {act : ForkAct} {p : Nat}
    (hstep : s.childStep p (fun c => act.next c) = some s') : WaitInv s' := by
  obtain ⟨c, state, hc, hnext, rfl⟩ := childStep_eq_some hstep
  have hmoved := getElem?_updateChild s p s.srvChild ({ · with state })
  unfold ForkAct.next at hnext
  -- Only a living child moves, so a doomed one has been sent its SIGKILL.
  constructor <;> grind [Child.alive, ForkState.updateChild]

theorem WaitInv.step (hfuzz : cfg.client = .fuzz) (hexec : cfg.execTmout ≠ 0) (act : ForkAct)
    (hstep : act.apply cfg s = some s') : WaitInv s' := by
  cases act with
  | client stopSoon => exact h.client hfuzz hexec hstep
  | alarm =>
    have harmed := hinv.armed
    change s.alarm = _ at hstep
    unfold ForkState.alarm at hstep
    constructor <;> grind [Armed]
  | handlerKill =>
    obtain ⟨p, hp, rfl⟩ := Option.map_eq_some_iff.mp hstep
    obtain ⟨rfl, -⟩ := hinv.handler p hp
    have hkill := getElem?_updateChild s s.srvChild s.srvChild Child.kill
    constructor <;> grind [Child.kill, Child.alive, ForkState.updateChild]
  | server => exact h.server hinv hstep
  | _ => exact h.child hstep

/-- Some step is possible that is not the target's own. -/
def Proceeds (cfg : ForkCfg) (s : ForkState) : Prop :=
  ∃ act : ForkAct, (act.apply cfg s).isSome ∧
    act matches .client _ | .alarm | .handlerKill | .server | .childDie _

omit hinv h in
/-- A child that has been sent a SIGKILL can die. -/
theorem Doomed.moves (h : Doomed s) {c : Child} (hc : s.children[s.srvChild]? = some c)
    (halive : c.alive = true) : Proceeds cfg s := by
  have hsent : c.killSent = true := by simpa [halive] using h c hc
  exact ⟨.childDie s.srvChild, by
    simp [ForkAct.apply, ForkState.childStep, hc, ForkAct.next, hsent, halive], rfl⟩

omit hinv h in
/-- `waitpid` returns for a child that is dead, whatever the server waits for it for. -/
theorem isSome_serverStep_of_dead (hpc : s.spc = .reap ∨ s.spc = .wait) {c : Child}
    (hc : s.children[s.srvChild]? = some c) (hdead : c.alive = false) : s.serverStep.isSome := by
  rcases hpc with hpc | hpc <;> cases hs : c.state <;>
    simp_all [ForkState.serverStep, Child.alive]

/-- A server with a request goes on, unless it waits for a child that is alive. -/
theorem WaitInv.server_moves (hbusy : s.spc ≠ .read) : Proceeds cfg s ∨
    s.spc = .wait ∧ ∃ c, s.children[s.srvChild]? = some c ∧ c.alive = true := by
  have hserver : s.serverStep.isSome → Proceeds cfg s := fun hs => ⟨.server, hs, rfl⟩
  cases hpc : s.spc with
  | read => exact absurd hpc hbusy
  | reap =>
    obtain ⟨c, hc, -⟩ := hinv.server.reaping hpc
    cases halive : c.alive with
    | true => exact Or.inl ((h.reaping hpc).moves hc halive)
    | false => exact Or.inl (hserver (isSome_serverStep_of_dead (Or.inl hpc) hc halive))
  | launch | writePid =>
    exact Or.inl (hserver (by grind [ForkState.serverStep]))
  | wait =>
    obtain ⟨c, hc, -⟩ := hinv.server.active (Or.inr hpc)
    cases halive : c.alive with
    | true => exact Or.inr ⟨rfl, c, hc, halive⟩
    | false => exact Or.inl (hserver (isSome_serverStep_of_dead (Or.inr hpc) hc halive))
  | relay =>
    have hreport := h.relayed hpc
    exact Or.inl (hserver (by simpa [ForkState.serverStep, hpc] using hreport))
  | exited =>
    -- No phase has a server that has exited.
    have hphase := (hinv.phase.of_busy hbusy).2
    simp [hpc, Launching, Serving] at hphase

/-- In each phase it is the turn of one party, or of the timer. -/
theorem WaitInv.moves : Proceeds cfg s := by
  cases hhandler : s.handler with
  | some p => exact ⟨.handlerKill, by simp [ForkAct.apply, ForkState.handlerKill, hhandler], rfl⟩
  | none =>
    have hclient : (s.clientStep cfg false).isSome → Proceeds cfg s :=
      fun hs => ⟨.client _, hs, rfl⟩
    have harm : s.cpc = .arm → Proceeds cfg s :=
      fun hpc => hclient (by simp [ForkState.clientStep, hhandler, hpc])
    have hphase := hinv.phase
    generalize hcpc : s.cpc = cpc, hspc : s.spc = spc, hctl : s.ctl = ctl, hst : s.st = st
      at hphase
    cases hphase with
    | idle hidle =>
      have hreceived := h.received
      refine hclient ?_
      rcases hidle with rfl | rfl | rfl | rfl | rfl <;>
        simp_all [ForkState.clientStep]
    | requested m =>
      exact ⟨.server, by simp [ForkAct.apply, ForkState.serverStep, hspc, hctl], rfl⟩
    | launching hlaunch =>
      subst hspc
      rcases h.server_moves hinv (by grind [Launching]) with hmoves | ⟨hwait, -⟩
      · exact hmoves
      · simp [Launching, hwait] at hlaunch
    | serving | served =>
      exact hclient (by simp [ForkState.clientStep, hhandler, hcpc, hst])
    | waiting hwaiting hserving =>
      subst hspc
      rcases hwaiting with rfl | rfl
      · exact harm hcpc
      · rcases h.server_moves hinv (by grind [Serving]) with hmoves | ⟨-, c, hc, halive⟩
        · exact hmoves
        · -- The child may hang. Then the timer ends the wait, or has done so.
          rcases h.watched hcpc with htimer | htimed
          · exact ⟨.alarm, by grind [ForkAct.apply, ForkState.alarm], rfl⟩
          · exact ((h.killed htimed).resolve_left (by simp [hhandler])).moves hc halive
    | answered r hwaiting =>
      rcases hwaiting with rfl | rfl
      · exact harm hcpc
      · exact hclient (by simp [ForkState.clientStep, hhandler, hcpc, hst])

end Progress

end Fork

open Fork

/-- With a timeout, a call of `run_target` of afl-fuzz returns, whatever the target does or fails to
do. In every interleaving some step is possible that is not the target's own, and there is a bound
on the steps that can be taken before the call is over. -/
theorem fuzz_call_returns {execTmout : Nat} (hexec : execTmout ≠ 0) {s : ForkState}
    (h : Reachable (· = {}) (ForkStep ⟨.fuzz, execTmout⟩) s) :
    Proceeds ⟨.fuzz, execTmout⟩ s ∧ ∃ k, ∀ acts s',
      runActs ⟨.fuzz, execTmout⟩ (fun t _ => t.cpc != .start) s acts = some s' →
        acts.length ≤ k := by
  have hinv : ForkInv ⟨.fuzz, execTmout⟩ s ∧ WaitInv s := by
    refine h.invariant (P := fun t => ForkInv ⟨.fuzz, execTmout⟩ t ∧ WaitInv t) ?_ ?_
    · rintro _ rfl
      exact ⟨ForkInv.init _, by constructor <;> simp⟩
    · rintro t t' ⟨hfork, hwait⟩ ⟨act, hact⟩
      exact ⟨hfork.step act (Or.inl rfl) hact, hwait.step hfork rfl hexec act hact⟩
  exact ⟨hinv.2.moves hinv.1, rank s, fun acts s' hrun => length_le_rank hrun⟩

/-- The child hangs, and afl-fuzz waits for its status. -/
theorem fuzz_call_returns_hang :
    ∃ s : ForkState, Proceeds ⟨.fuzz, 1000⟩ s ∧
      (s.cpc, s.st, s.children) = (.readStatus, [], [⟨.running, false, 1⟩]) :=
  ⟨_, (fuzz_call_returns (by decide)
    (reachable_runActs (fun t act t' _ ht => ⟨act, ht⟩) (.init rfl) (rfl : runActs ⟨.fuzz, 1000⟩
      (fun _ _ => true) {} (stopThenKill.take 7) = some _))).1, rfl⟩

end TriforceAFL.Proofs
