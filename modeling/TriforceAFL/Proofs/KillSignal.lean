import TriforceAFL.Lib.Loop
import TriforceAFL.Spec.ForkServer

/-!
# `TriforceAFL.Proofs.KillSignal`: the signal that is reported for a crash

`run_target` returns `FAULT_CRASH` from three places. The first two set `kill_signal`. The third is
for exit codes of a system test in QEMU, and leaves it alone, so it reports a signal whenever an
earlier run was killed by one and no MSAN report has come since (`kill_signal_iff`).
-/

set_option autoImplicit false

namespace TriforceAFL.Proofs

open Lib Spec

namespace Target

/-- The status of a call that has got one. -/
def status? : TargetCall → Option WaitStatus
  | .abandoned => none
  | .ended r _ => some r.report.status

/-- A status with `WIFSIGNALED` has a signal. -/
def Valid (call : TargetCall) : Prop :=
  ∀ sig, status? call = some (.signaled sig) → 0 < sig ∧ sig < 127

/-- The first exit for crashes: killed by a signal. -/
def SignalCrash : TargetCall → Prop
  | .abandoned => False
  | .ended r _ => r.timedOut = false ∧ r.report.status.wifSignaled = true ∧ r.stopSoon = false

/-- The second: the exit code of MSAN. -/
def MsanCrash (o : VerdictFlags) : TargetCall → Prop
  | .abandoned => False
  | .ended r _ => r.timedOut = false ∧ o.usesAsan = true ∧ r.report.status.wexitStatus = MSAN_ERROR

/-- The third: any other exit code that is not zero, in a system test. -/
def ExitCrash (o : VerdictFlags) (call : TargetCall) : Prop :=
  match call with
  | .abandoned => False
  | .ended r _ => r.timedOut = false ∧ o.qemuMode > 1 ∧ r.report.status.wexitStatus ≠ 0 ∧
      ¬MsanCrash o call

/-- What `kill_signal` should be after a call. -/
def signal : TargetCall → Nat
  | .abandoned => 0
  | .ended r _ => if r.report.status.wifSignaled then r.report.status.wtermSig else 0

end Target

open Target

variable {o : VerdictFlags} {killSignal : Nat} {call : TargetCall}

/-- A status has an exit code or a signal. -/
theorem wexitStatus_of_wifSignaled {status : WaitStatus} (h : status.wifSignaled = true) :
    status.wexitStatus = 0 := by
  cases status with
  | signaled sig => rfl
  | exited code => exact absurd h Bool.false_ne_true
  | stopped sig => exact absurd h Bool.false_ne_true

/-- A status with an exit code has no signal. -/
theorem wifSignaled_of_wexitStatus {status : WaitStatus} (h : status.wexitStatus ≠ 0) :
    status.wifSignaled = false := by
  by_contra hne
  exact h (wexitStatus_of_wifSignaled (Bool.eq_true_of_not_eq_false hne))

/-- The test for MSAN fails. -/
theorem msanTest_of_not_msanCrash {r : RunRecord} {execFailed : Bool} (htime : r.timedOut = false)
    (h : ¬MsanCrash o (.ended r execFailed)) :
    (o.usesAsan && r.report.status.wexitStatus == MSAN_ERROR) = false := by
  by_contra hne
  simp only [Bool.not_eq_false, Bool.and_eq_true, beq_iff_eq] at hne
  exact h ⟨htime, hne⟩

theorem signal_ne_zero (hvalid : Valid call) (h : SignalCrash call) : signal call ≠ 0 := by
  cases call with
  | abandoned => exact h.elim
  | ended r execFailed =>
    obtain ⟨_, hsignaled, _⟩ := h
    cases hstatus : r.report.status with
    | signaled sig =>
      have hsig := hvalid sig (congrArg some hstatus)
      simp only [signal, hstatus, WaitStatus.wifSignaled, WaitStatus.wtermSig, if_true]
      omega
    | exited code => simp [hstatus, WaitStatus.wifSignaled] at hsignaled
    | stopped sig => simp [hstatus, WaitStatus.wifSignaled] at hsignaled

/-! ### One call -/

section Step

theorem runTargetEnd_signalCrash (h : SignalCrash call) :
    runTargetEnd o killSignal call = (.crash, signal call) := by
  cases call with
  | abandoned => exact h.elim
  | ended r execFailed =>
    obtain ⟨htime, hsignaled, hstop⟩ := h
    simp [runTargetEnd, signal, htime, hsignaled, hstop]

theorem runTargetEnd_msanCrash (h : MsanCrash o call) :
    runTargetEnd o killSignal call = (.crash, 0) ∧ signal call = 0 := by
  cases call with
  | abandoned => exact h.elim
  | ended r execFailed =>
    obtain ⟨htime, hasan, hcode⟩ := h
    have hcode' : r.report.status.wexitStatus ≠ 0 := by
      rw [hcode]
      decide
    have hsignaled := wifSignaled_of_wexitStatus hcode'
    simp [runTargetEnd, signal, htime, hsignaled, hasan, hcode]

theorem runTargetEnd_exitCrash (h : ExitCrash o call) :
    runTargetEnd o killSignal call = (.crash, killSignal) ∧ signal call = 0 := by
  cases call with
  | abandoned => exact h.elim
  | ended r execFailed =>
    obtain ⟨htime, hqemu, hcode, hmsan⟩ := h
    have hsignaled := wifSignaled_of_wexitStatus hcode
    have hother := msanTest_of_not_msanCrash htime hmsan
    simp [runTargetEnd, signal, htime, hsignaled, hother, hqemu, hcode]

/-- Without one of the three, there is no crash and `kill_signal` stays. -/
theorem runTargetEnd_noCrash (hsignal : ¬SignalCrash call) (hmsan : ¬MsanCrash o call)
    (hexit : ¬ExitCrash o call) :
    (runTargetEnd o killSignal call).1 ≠ .crash ∧
      (runTargetEnd o killSignal call).2 = killSignal := by
  cases call with
  | abandoned => exact ⟨by simp [runTargetEnd], rfl⟩
  | ended r execFailed =>
    cases htime : r.timedOut with
    | true => simp [runTargetEnd, htime]
    | false =>
      -- Each of the three tests fails.
      have hfirst : (r.report.status.wifSignaled && !r.stopSoon) = false := by
        by_contra hne
        simp only [Bool.not_eq_false, Bool.and_eq_true, Bool.not_eq_true'] at hne
        exact hsignal ⟨htime, hne⟩
      have hsecond := msanTest_of_not_msanCrash htime hmsan
      have hthird : (decide (o.qemuMode > 1) && r.report.status.wexitStatus != 0) = false := by
        by_contra hne
        simp only [Bool.not_eq_false, Bool.and_eq_true, decide_eq_true_eq, bne_iff_ne] at hne
        exact hexit ⟨htime, hne.1, hne.2, hmsan⟩
      cases execFailed with
      | true => simp [runTargetEnd, htime, hfirst, hsecond, hthird]
      | false => simp [runTargetEnd, htime, hfirst, hsecond, hthird]

/-- A crash is reported with its signal exactly if it is not an exit code that comes when
`kill_signal` is set. -/
theorem reported_iff :
    ((runTargetEnd o killSignal call).1 = .crash →
        (runTargetEnd o killSignal call).2 = signal call) ↔
      (ExitCrash o call → killSignal = 0) := by
  by_cases hexit : ExitCrash o call
  · have hend : runTargetEnd o killSignal call = (.crash, killSignal) ∧ signal call = 0 :=
      runTargetEnd_exitCrash hexit
    simp [hend, hexit]
  · refine iff_of_true (fun hcrash => ?_) (fun h => absurd h hexit)
    by_cases hsignal : SignalCrash call
    · rw [runTargetEnd_signalCrash hsignal]
    by_cases hmsan : MsanCrash o call
    · have hend : runTargetEnd o killSignal call = (.crash, 0) ∧ signal call = 0 :=
        runTargetEnd_msanCrash hmsan
      rw [hend.1, hend.2]
    · exact absurd hcrash (runTargetEnd_noCrash hsignal hmsan hexit).1

end Step

/-! ### A sequence of calls -/

/-- `kill_signal` is set if a run was killed by a signal and MSAN has reported nothing since. -/
theorem killSignalAfter_ne_zero_iff {calls : List TargetCall} (hvalid : ∀ c ∈ calls, Valid c) :
    killSignalAfter o calls ≠ 0 ↔ ∃ before c since, calls = before ++ c :: since ∧ SignalCrash c ∧
      ∀ m ∈ since, ¬MsanCrash o m := by
  refine foldl_flag_iff (P := fun killSignal => killSignal ≠ 0) (by simp) ?_ ?_ ?_
  · intro c hc hsignal killSignal
    rw [runTargetEnd_signalCrash hsignal]
    exact signal_ne_zero (hvalid c hc) hsignal
  · intro c _ hmsan killSignal
    simp [(runTargetEnd_msanCrash hmsan).1]
  · intro c _ hsignal hmsan killSignal
    by_cases hexit : ExitCrash o c
    · rw [(runTargetEnd_exitCrash hexit).1]
    · rw [(runTargetEnd_noCrash hsignal hmsan hexit).2]

/-- In a sequence of calls, every crash leaves its own signal in `kill_signal` exactly if between a
run that was killed by a signal and a later exit code there is always a report of MSAN. -/
theorem kill_signal_iff (o : VerdictFlags) (calls : List TargetCall)
    (hvalid : ∀ c ∈ calls, Valid c) :
    (∀ before c after, calls = before ++ c :: after →
        (runTargetEnd o (killSignalAfter o before) c).1 = .crash →
        (runTargetEnd o (killSignalAfter o before) c).2 = signal c) ↔
      ∀ before c since e after, calls = before ++ c :: since ++ e :: after →
        SignalCrash c → ExitCrash o e → ∃ m ∈ since, MsanCrash o m := by
  have hstate : ∀ before after, calls = before ++ after →
      (killSignalAfter o before ≠ 0 ↔ ∃ front c since, before = front ++ c :: since ∧
        SignalCrash c ∧ ∀ m ∈ since, ¬MsanCrash o m) := by
    intro before after heq
    exact killSignalAfter_ne_zero_iff fun c hc => hvalid c (by simp [heq, hc])
  simp only [reported_iff]
  constructor
  · intro h before c since e after heq hsignal hexit
    have hzero := h (before ++ c :: since) e after heq hexit
    by_contra hnone
    refine absurd hzero ((hstate _ _ heq).mpr ⟨before, c, since, rfl, hsignal, ?_⟩)
    exact fun m hm hmsan => hnone ⟨m, hm, hmsan⟩
  · intro h before e after heq hexit
    by_contra hne
    obtain ⟨front, c, since, rfl, hsignal, hnone⟩ := (hstate _ _ heq).mp hne
    obtain ⟨m, hm, hmsan⟩ := h front c since e after heq hsignal hexit
    exact hnone m hm hmsan

/-- A run of a target that ends with a status. -/
def endedWith (status : WaitStatus) : TargetCall :=
  .ended ⟨0, ⟨status, 0, false⟩, false, false⟩ false

/-- Without a system test, a segmentation fault is reported as one. -/
theorem kill_signal_iff_segv :
    (runTargetEnd ⟨true, 0, false⟩ (killSignalAfter ⟨true, 0, false⟩ [endedWith (.exited 1)])
        (endedWith (.signaled 11))).1 = .crash ∧
      (runTargetEnd ⟨true, 0, false⟩ (killSignalAfter ⟨true, 0, false⟩ [endedWith (.exited 1)])
        (endedWith (.signaled 11))).2 = signal (endedWith (.signaled 11)) := by
  have hcrash : (runTargetEnd ⟨true, 0, false⟩
      (killSignalAfter ⟨true, 0, false⟩ [endedWith (.exited 1)])
      (endedWith (.signaled 11))).1 = .crash := by decide
  refine ⟨hcrash, (kill_signal_iff ⟨true, 0, false⟩
    [endedWith (.exited 1), endedWith (.signaled 11)] ?_).mpr ?_ _ _ [] rfl hcrash⟩
  · intro c hc sig hsig
    simp only [List.mem_cons, List.not_mem_nil, or_false] at hc
    rcases hc with rfl | rfl <;> cases hsig
    decide
  · intro before c since e after _ _ hexit
    cases e with
    | abandoned => exact hexit.elim
    | ended r execFailed => exact absurd hexit.2.1 (by decide)

/-- In a system test, an exit code after a segmentation fault is reported with its signal. -/
theorem kill_signal_stale :
    runTargetEnd ⟨false, 2, false⟩ (killSignalAfter ⟨false, 2, false⟩ [endedWith (.signaled 11)])
        (endedWith (.exited 1)) = (.crash, 11) ∧
      signal (endedWith (.exited 1)) = 0 := by
  decide

end TriforceAFL.Proofs
