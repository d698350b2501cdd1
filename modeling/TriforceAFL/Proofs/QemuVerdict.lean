import TriforceAFL.Proofs.QemuTrace

/-!
# `TriforceAFL.Proofs.QemuVerdict`: what a guest reports, and what afl-fuzz sees

A guest ends its test case by `doneWork(val)`. The word `val` becomes the `int` argument of `exit`,
then the low byte of the wait status that the fork server relays, and then a fault. Only the low
byte of the word arrives (`fault_doneWork`), so a word whose low byte is zero is taken for a
success. `doneWork_crash_iff` says when the verdict is right, and `doneWork_lost` gives the smallest
word that is misread.
-/

set_option autoImplicit false

namespace TriforceAFL.Proofs

open Spec

variable {t : Target}

/-! ### `startWork` is never undone -/

/-- An act that returns leaves `aflStart` set. -/
theorem aflStart_act {q q' : Qemu t} {a : GuestAct t} (hstart : q.aflStart = true)
    (hact : q.act a = .ok q') : q'.aflStart = true := by
  by_cases ha : ∃ pc, a = .executed pc
  · obtain ⟨pc, rfl⟩ := ha
    rcases aflMaybeLog_eq hact with rfl | ⟨m, prev, rfl⟩
    · exact hstart
    · exact hstart
  · have hkeeps := keepsMap_act q fun pc hpc => ha ⟨pc, hpc⟩
    rw [hact] at hkeeps
    exact hkeeps.2.2 hstart

/-- The call itself sets it. -/
theorem aflStart_startWork {q q' : Qemu t} {ptr a1 : TargetUlong t}
    (hact : q.act (.aflCall 3 ptr a1) = .ok q') : q'.aflStart = true := by
  have hcode : (3 : TargetUlong t).toNat = 3 := by cases t <;> rfl
  rw [Qemu.act, Qemu.helperAflCall, hcode] at hact
  cases hact
  rfl

/-- A guest that has called `startWork` and goes on is in a test case. -/
theorem aflStart_guest {q q' : Qemu t} {acts : List (GuestAct t)} (hrun : q.guest acts = .ok q')
    (hstart : q.aflStart = true ∨ ∃ ptr a1, .aflCall 3 ptr a1 ∈ acts) : q'.aflStart = true := by
  induction acts generalizing q with
  | nil =>
    cases hrun
    rcases hstart with hstart | ⟨ptr, a1, hmem⟩
    · exact hstart
    · cases hmem
  | cons a acts ih =>
    rw [Qemu.guest, List.foldlM_cons] at hrun
    cases hact : q.act a with
    | error e =>
      rw [hact] at hrun
      cases hrun
    | ok q₁ =>
      rw [hact] at hrun
      apply ih hrun
      rcases hstart with hstart | ⟨ptr, a1, hmem⟩
      · exact Or.inl (aflStart_act hstart hact)
      · rcases List.mem_cons.mp hmem with rfl | hmem
        · exact Or.inl (aflStart_startWork hact)
        · exact Or.inr ⟨ptr, a1, hmem⟩

/-! ### The way of the word -/

/-- The `int` argument, and then the low byte. -/
theorem ofExit_setWidth (val : TargetUlong t) :
    WaitStatus.ofExit (val.setWidth 32) = .exited (val.toNat % 256) := by
  have hmask : (val.setWidth 32 &&& (0xff : BitVec 32)).toNat = val.toNat % 2 ^ 32 % 256 := by
    rw [BitVec.toNat_and, BitVec.toNat_setWidth]
    exact Nat.and_two_pow_sub_one_eq_mod _ 8
  rw [WaitStatus.ofExit, hmask, Nat.mod_mod_of_dvd _ (by decide)]

/-- What `run_target` makes of an exit status. -/
theorem fuzzFault_exited {o : VerdictFlags} (hmode : 1 < o.qemuMode) (run code : Nat)
    (hcode : code < 256) :
    fuzzFault o ⟨run, ⟨.exited code, run, false⟩, false, false⟩ =
      if code = 0 then .none else .crash := by
  unfold fuzzFault runTargetEnd
  simp only [WaitStatus.wifSignaled, WaitStatus.wexitStatus, Nat.mod_eq_of_lt hcode, hmode]
  by_cases hzero : code = 0
  · simp [hzero, MSAN_ERROR]
  · simp [hzero]

/-- `doneWork(val)` in a test case ends the process with the low byte. -/
theorem act_doneWork {q : Qemu t} (hstart : q.aflStart = true) (val a1 : TargetUlong t) :
    q.act (.aflCall 4 val a1) = .error (.gone (.exited (val.toNat % 256)) q) := by
  have hcode : (4 : TargetUlong t).toNat = 4 := by cases t <;> rfl
  rw [Qemu.act, Qemu.helperAflCall, hcode]
  simp only [Qemu.doneWork, Qemu.assert, hstart, if_true, Qemu.exit, ofExit_setWidth]
  rfl

/-- The child of a fork server whose map is attached starts with an empty one. -/
theorem logged_forkChild {server : Qemu t} (hmap : server.area.isSome = true) :
    Logged [] server.clearTrace.forkChild := by
  obtain ⟨m, hm⟩ := Option.isSome_iff_exists.mp hmap
  apply Logged.nil
  · rw [Qemu.forkChild, Qemu.clearTrace, hm]
    rfl
  · rfl

/-- A test case that calls `startWork` and ends by `doneWork(val)`: the low byte decides. -/
theorem fault_doneWork {o : VerdictFlags} (hmode : 1 < o.qemuMode) {server q : Qemu t}
    {acts : List (GuestAct t)} (pid run : Nat) (val a1 : TargetUlong t)
    (hmap : server.area.isSome = true) (hrun : server.clearTrace.forkChild.guest acts = .ok q)
    (hstart : ∃ ptr a1, .aflCall 3 ptr a1 ∈ acts) :
    ∃ m, server.runTarget o pid run false (acts ++ [.aflCall 4 val a1]) =
      some (if val.toNat % 256 = 0 then .none else .crash, m) := by
  -- the map is still attached when the guest ends, so run_target has one to return
  have hlogs := logs_guest (logged_forkChild hmap) acts
  rw [hrun] at hlogs
  obtain ⟨m, hm, -⟩ := hlogs.counts
  have hend : server.clearTrace.forkChild.guest (acts ++ [.aflCall 4 val a1]) =
      .error (.gone (.exited (val.toNat % 256)) q) := by
    rw [Qemu.guest, List.foldlM_append, ← Qemu.guest, hrun]
    have hdone := act_doneWork (aflStart_guest hrun (Or.inr hstart)) val a1
    show List.foldlM Qemu.act q [.aflCall 4 val a1] = _
    rw [List.foldlM_cons, hdone]
    rfl
  refine ⟨m, ?_⟩
  rw [Qemu.runTarget, Qemu.forkserverTurn, hend]
  simp only [hm, fuzzFault_exited hmode run _ (Nat.mod_lt _ (by decide : 0 < 256))]

/-- After `startWork`, `run_target` returns for every word of `doneWork`. That it reports a crash
exactly for the words that are not zero holds for zero and for the words whose low byte is not
zero, and for no others. -/
theorem doneWork_crash_iff {o : VerdictFlags} (hmode : 1 < o.qemuMode) {server q : Qemu t}
    {acts : List (GuestAct t)} (pid run : Nat) (val a1 : TargetUlong t)
    (hmap : server.area.isSome = true) (hrun : server.clearTrace.forkChild.guest acts = .ok q)
    (hstart : ∃ ptr a1, .aflCall 3 ptr a1 ∈ acts) :
    ∃ fault m, server.runTarget o pid run false (acts ++ [.aflCall 4 val a1]) = some (fault, m) ∧
      ((fault = .crash ↔ val ≠ 0) ↔ (val = 0 ∨ val.toNat % 256 ≠ 0)) := by
  obtain ⟨m, hfault⟩ := fault_doneWork hmode pid run val a1 hmap hrun hstart
  refine ⟨_, m, hfault, ?_⟩
  by_cases hlow : val.toNat % 256 = 0
  · rw [if_pos hlow]
    simp [hlow]
  · have hne : val ≠ 0#t.longBits := by
      rintro rfl
      exact hlow (by simp)
    rw [if_neg hlow]
    simp [hlow, hne]

/-- The fork server of a 64-bit guest. -/
def bootedServer : Qemu .bits64 :=
  Qemu.aflSetup ⟨some (TraceMap.fill MAP_SIZE 0), none, false⟩ {}

/-- A test case that calls `startWork`. -/
def shortTest : List (GuestAct .bits64) := [.aflCall 3 0 0]

/-- Full-system mode, without a sanitizer. -/
def systemFlags : VerdictFlags := ⟨false, 2, false⟩

theorem doneWork_crash_iff_one :
    ∃ fault m, bootedServer.runTarget systemFlags 2 1 false (shortTest ++ [.aflCall 4 1 0]) =
        some (fault, m) ∧
      ((fault = .crash ↔ (1 : TargetUlong .bits64) ≠ 0) ↔
        ((1 : TargetUlong .bits64) = 0 ∨ (1 : TargetUlong .bits64).toNat % 256 ≠ 0)) :=
  doneWork_crash_iff (by decide) 2 1 1 0 rfl rfl ⟨0, 0, List.mem_singleton.mpr rfl⟩

/-- The guest reports 256, and no crash is seen. -/
theorem doneWork_lost :
    ∃ m, bootedServer.runTarget systemFlags 2 1 false (shortTest ++ [.aflCall 4 256 0]) =
        some (.none, m) ∧
      (256 : TargetUlong .bits64) ≠ 0 := by
  exact ⟨_, rfl, by decide⟩

end TriforceAFL.Proofs
