import TriforceAFL.Proofs.QueueFields
import TriforceAFL.Proofs.SimplifyTrace
import TriforceAFL.Spec.Save

/-!
# `TriforceAFL.Proofs.CrashDedup`: which crashes and hangs are unique

`save_if_interesting` keeps a crash when the simplified trace has new bits in `virgin_crash`, and
a hang when it has new bits in `virgin_hang`. `unique_iff` states what that means for a whole run
of calls, with outcomes of every kind mixed: the trace that reaches the uniqueness test is saved
exactly when it is the first one, or it hits a tuple that no earlier tested trace hit, or it
misses a tuple that every earlier tested trace hit. This is the definition in section 8 of
`docs/technical_details.txt`.

A `FaultKind` is one of the two cases of the switch; `uniquenessTest` gives the trace with which a
call reaches the test of its kind, and `uniqueTests` collects the tests of a run with their
results. The steps:

* `newCount_simplified_iff` reads the condition off the two values `0x80` and `0x01` that a
  simplified byte can have;
* `faultView_saveToQueue`: queueing and calibrating an input touches nothing that the test reads;
* `saveIfInteresting_tested` and `saveIfInteresting_untested`: one call, with and without a test;
* `uniqueTests_spec`: the induction over the calls, with the virgin map after the earlier tests as
  the invariant.
-/

set_option autoImplicit false

namespace TriforceAFL.Proofs

open Lib Spec

/-! ### The condition on simplified traces -/

section Simplified
variable (x86_64 : Bool) {k : Nat}

/-- The map after one more trace. -/
theorem virginAfter_append (traces : List (TraceMap (8 * k))) (t : TraceMap (8 * k)) :
    virginAfter x86_64 (traces ++ [t]) = (hasNewBits x86_64 t (virginAfter x86_64 traces)).2 := by
  refine TraceMap.ext_byte fun b hb => ?_
  have hunion : unionByte (traces ++ [t]) b = unionByte traces b ||| t.byte b := by
    have hperm : (traces ++ [t]).Perm ([t] ++ traces) := List.perm_append_comm
    have hcongr := unionByte_congr (b := b) fun u => hperm.mem_iff (a := u)
    rw [hcongr]
    show t.byte b ||| unionByte traces b = _
    rw [BitVec.or_comm]
  rw [virginAfter_byte x86_64 _ b hb, hasNewBits_byte, virginAfter_byte x86_64 _ b hb, hunion,
    BitVec.not_or]

/-- The trace hits a tuple that no trace in `earlier` hits, or misses a tuple that all of them
hit. -/
def Distinguished (t : TraceMap (8 * k)) (earlier : List (TraceMap (8 * k))) : Prop :=
  (∃ b < 8 * k, t.byte b ≠ 0#8 ∧ ∀ u ∈ earlier, u.byte b = 0#8) ∨
  (∃ b < 8 * k, t.byte b = 0#8 ∧ ∀ u ∈ earlier, u.byte b ≠ 0#8)

/-- A bit of a simplified byte: bit 7 for a hit, bit 0 for a miss. -/
theorem getLsbD_simplifyByte (v : U8) (j : Nat) (hj : j < 8) :
    (simplifyByte v).getLsbD j = true ↔ (j = 7 ∧ v ≠ 0#8) ∨ (j = 0 ∧ v = 0#8) := by
  by_cases hv : v = 0#8
  · rw [hv, simplifyByte_zero]
    have hbit : ∀ j < 8, (1#8).getLsbD j = true ↔ j = 0 := by decide
    rw [hbit j hj]
    simp
  · rw [simplifyByte_of_ne hv]
    have hbit : ∀ j < 8, (128#8).getLsbD j = true ↔ j = 7 := by decide
    rw [hbit j hj]
    simp [hv]

/-- The simplified trace has new bits exactly when the trace is distinguished from the earlier
ones. -/
theorem newCount_simplified_iff (t : TraceMap (8 * k)) (earlier : List (TraceMap (8 * k))) :
    (hasNewBits x86_64 (simplifyTrace x86_64 t)
      (virginAfter x86_64 (earlier.map (simplifyTrace x86_64)))).1 ≠ 0 ↔
      Distinguished t earlier := by
  rw [hasNewBits_ret, ne_eq, verdict_eq_zero_iff, not_not]
  -- A bit is absent from the earlier simplified traces when each of them lacks it.
  have hnone : ∀ b < 8 * k, ∀ j < 8,
      (∀ u ∈ earlier.map (simplifyTrace x86_64), (u.byte b).getLsbD j = false) ↔
        ∀ u ∈ earlier, ¬ ((j = 7 ∧ u.byte b ≠ 0#8) ∨ (j = 0 ∧ u.byte b = 0#8)) := by
    intro b hb j hj
    rw [List.forall_mem_map]
    refine forall₂_congr fun u _ => ?_
    rw [simplifyTrace_byte x86_64 u b hb, ← getLsbD_simplifyByte _ j hj, Bool.not_eq_true]
  constructor
  · rintro ⟨b, hb, hnew⟩
    obtain ⟨j, hj, hset, habsent⟩ := (newCount_virginAfter_iff x86_64 _ _ b hb).mp hnew
    rw [simplifyTrace_byte x86_64 t b hb, getLsbD_simplifyByte _ j hj] at hset
    rw [hnone b hb j hj] at habsent
    rcases hset with ⟨rfl, ht⟩ | ⟨rfl, ht⟩
    · exact Or.inl ⟨b, hb, ht, fun u hu => by simpa using habsent u hu⟩
    · exact Or.inr ⟨b, hb, ht, fun u hu => by simpa using habsent u hu⟩
  · rintro (⟨b, hb, ht, hu⟩ | ⟨b, hb, ht, hu⟩)
    · refine ⟨b, hb, (newCount_virginAfter_iff x86_64 _ _ b hb).mpr ⟨7, by decide, ?_, ?_⟩⟩
      · rw [simplifyTrace_byte x86_64 t b hb, getLsbD_simplifyByte _ 7 (by decide)]
        exact Or.inl ⟨rfl, ht⟩
      · rw [hnone b hb 7 (by decide)]
        exact fun u hmem => by simpa using hu u hmem
    · refine ⟨b, hb, (newCount_virginAfter_iff x86_64 _ _ b hb).mpr ⟨0, by decide, ?_, ?_⟩⟩
      · rw [simplifyTrace_byte x86_64 t b hb, getLsbD_simplifyByte _ 0 (by decide)]
        exact Or.inr ⟨rfl, ht⟩
      · rw [hnone b hb 0 (by decide)]
        exact fun u hmem => by simpa using hu u hmem

end Simplified

/-! ### What the uniqueness test reads -/

section View
variable {m : Nat}

/-- The globals that the uniqueness tests read and that only they write. -/
structure FaultView (m : Nat) where
  dumbMode : Bool
  virginHang : TraceMap m
  virginCrash : TraceMap m
  uniqueHangs : Nat
  uniqueCrashes : Nat
  hangFiles : List (Text × List U8)
  crashFiles : List (Text × List U8)

/-- The fault-related part of the globals. -/
def faultView (s : FuzzState m) : FaultView m :=
  ⟨s.dumbMode, s.virginHang, s.virginCrash, s.uniqueHangs, s.uniqueCrashes, s.hangFiles,
    s.crashFiles⟩

/-- The view with another virgin map of the kind. -/
def FaultView.setVirgin (v : FaultView m) (kind : FaultKind) (virgin : TraceMap m) :
    FaultView m :=
  match kind with
  | .hang => { v with virginHang := virgin }
  | .crash => { v with virginCrash := virgin }

theorem faultView_addToQueue (s : FuzzState m) (fname : Text) (len : Nat) (passedDet : Bool) :
    faultView (addToQueue s fname len passedDet) = faultView s := by
  obtain ⟨entries, queue, qPrev100, heq⟩ := addToQueue_frame s fname len passedDet
  rw [heq]
  rfl

theorem faultView_updateBitmapScore (s : FuzzState m) (q : Ptr) :
    faultView (updateBitmapScore s q) = faultView s := by
  obtain ⟨entries, topRated, scoreChanged, heq⟩ := updateBitmapScore_frame s q
  rw [heq]
  rfl

theorem faultView_compareChecksum (env : Env m) (q : Ptr) (c : CalState m) :
    faultView (compareChecksum env q c).globals = faultView c.globals := by
  unfold compareChecksum
  dsimp only
  split
  · split <;> rfl
  · rfl

theorem faultView_calibrateLoop (env : Env m) (q : Ptr) (cal : Calibration m) :
    ∀ (fuel stageCur : Nat) (c : CalState m),
      faultView (calibrateLoop env q cal fuel stageCur c).2.globals = faultView c.globals := by
  intro fuel
  induction fuel with
  | zero => intro stageCur c; rfl
  | succ fuel ih =>
    intro stageCur c
    rw [calibrateLoop]
    split
    · dsimp only
      split
      · rfl
      · split
        · rfl
        · rw [ih, faultView_compareChecksum]
          rfl
    · rfl

theorem faultView_markCalibrated (q : Ptr) (newBits : Nat) (var : Bool) (s : FuzzState m) :
    faultView (markCalibrated q newBits var s) = faultView s := by
  unfold markCalibrated
  dsimp only
  split <;> split <;> rfl

theorem faultView_calibrateCase (env : Env m) (s : FuzzState m) (q : Ptr) (cal : Calibration m)
    (handicap : Nat) : faultView (calibrateCase env s q cal handicap).2 = faultView s := by
  have hloop : faultView (calibrateLoop env q cal (CAL_CYCLES_LONG + 1) 0
      (startCalibration s q)).2.globals = faultView s :=
    faultView_calibrateLoop env q cal _ 0 (startCalibration s q)
  unfold calibrateCase
  dsimp only
  split
  · rename_i heq
    rw [heq] at hloop
    exact (faultView_markCalibrated q _ _ _).trans hloop
  · rename_i heq
    rw [heq] at hloop
    refine (faultView_markCalibrated q _ _ _).trans ?_
    exact (faultView_updateBitmapScore _ q).trans hloop

theorem faultView_markQueued (env : Env m) (s : FuzzState m) (top : Ptr) (hnb : Nat) :
    faultView (markQueued env s top hnb) = faultView s := by
  unfold markQueued
  dsimp only
  split <;> rfl

theorem faultView_enqueueCase (env : Env m) (s : FuzzState m) (c : SaveCall m) (hnb : Nat) :
    faultView (enqueueCase env s c hnb).2 = faultView s := by
  refine (faultView_calibrateCase env _ _ _ _).trans ?_
  exact (faultView_markQueued env _ _ _).trans (faultView_addToQueue s _ _ _)

/-- Queueing an input, calibration included, touches nothing that the uniqueness tests read. -/
theorem faultView_saveToQueue (env : Env m) (s s' : FuzzState m) (c : SaveCall m)
    (o : QueueOutcome) (h : saveToQueue env s c = .ok (o, s')) : faultView s' = faultView s := by
  have hcase := faultView_enqueueCase env (s.hasNewBits env .bits).2 c (s.hasNewBits env .bits).1
  unfold saveToQueue at h
  dsimp only at h
  split at h
  · split at h
    · cases h
      split <;> rfl
    · split at h
      · cases h
      · split at h
        · cases h
          exact hcase
        · cases h
  · cases h
    rfl

end View

/-! ### One call -/

section Call
variable {m : Nat}

/-- The trace with which a call reaches the uniqueness test of the kind, if it does: the first
block falls through, the limit on unique faults is not reached, and the fuzzer is not in dumb
mode. -/
def uniquenessTest (kind : FaultKind) (env : Env m) (s : FuzzState m) (c : SaveCall m) :
    Option (TraceMap m) :=
  match saveToQueue env s c with
  | .ok (.fellThrough _, s) =>
    if c.fault = kind.fault ∧ kind.unique s < kind.keep ∧ s.dumbMode = false
    then some s.traceBits else none
  | _ => none

/-- The result of the test, and the virgin map that it leaves. -/
def testResult (kind : FaultKind) (env : Env m) (s : FuzzState m) (t : TraceMap m) :
    Nat × TraceMap m :=
  hasNewBits env.x86_64 (simplifyTrace env.x86_64 t) (s.virgin kind.virginMap)

/-- What a test of the kind does, between the globals `s` and `s'`: the virgin map loses the bits
of the simplified trace, and the input is saved when some of them were new. -/
structure TestStep (kind : FaultKind) (env : Env m) (mem : List U8) (t : TraceMap m)
    (s s' : FuzzState m) : Prop where
  virgin : s'.virgin kind.virginMap = (testResult kind env s t).2
  saved : (testResult kind env s t).1 ≠ 0 → ∃ fn, kind.files s' = kind.files s ++ [(fn, mem)]
  dropped : (testResult kind env s t).1 = 0 → kind.files s' = kind.files s

/-- Nothing happens to the virgin map and the files of the kind. -/
structure Untouched (kind : FaultKind) (s s' : FuzzState m) : Prop where
  virgin : s'.virgin kind.virginMap = s.virgin kind.virginMap
  files : kind.files s' = kind.files s

theorem untouched_of_faultView_eq (kind : FaultKind) {s s' : FuzzState m}
    (h : faultView s' = faultView s) : Untouched kind s s' := by
  injection h with _ hhang hcrash _ _ hhangs hcrashes
  cases kind with
  | hang => exact ⟨hhang, hhangs⟩
  | crash => exact ⟨hcrash, hcrashes⟩

theorem faultView_count (kind : FaultKind) (s : FuzzState m) :
    faultView (kind.count s) = faultView s := by
  cases kind <;> rfl

/-- Outside dumb mode, `isUnique` is the test of its kind, and it changes only the virgin map. -/
theorem isUnique_spec (kind : FaultKind) (env : Env m) (s : FuzzState m)
    (hd : s.dumbMode = false) :
    ((isUnique env s kind).1 = true ↔ (testResult kind env s s.traceBits).1 ≠ 0) ∧
      faultView (isUnique env s kind).2 =
        (faultView s).setVirgin kind (testResult kind env s s.traceBits).2 := by
  have hnot : (!s.dumbMode) = true := by rw [hd]; rfl
  unfold isUnique
  rw [if_pos hnot]
  cases kind <;> exact ⟨decide_eq_true_iff, rfl⟩

/-- A new virgin map for one kind leaves the other kind as it was. -/
theorem untouched_of_setVirgin {kind other : FaultKind} {s s' : FuzzState m} {v : TraceMap m}
    (h : faultView s' = (faultView s).setVirgin kind v) (hne : other ≠ kind) :
    Untouched other s s' := by
  cases kind <;> cases other <;> injection h with _ hhang hcrash _ _ hhangs hcrashes
  · exact absurd rfl hne
  · exact ⟨hcrash, hcrashes⟩
  · exact ⟨hhang, hhangs⟩
  · exact absurd rfl hne

/-- The kind itself gets the new virgin map and keeps its files. -/
theorem virgin_files_of_setVirgin {kind : FaultKind} {s s' : FuzzState m} {v : TraceMap m}
    (h : faultView s' = (faultView s).setVirgin kind v) :
    s'.virgin kind.virginMap = v ∧ kind.files s' = kind.files s := by
  cases kind <;> injection h with _ hhang hcrash _ _ hhangs hcrashes
  · exact ⟨hhang, hhangs⟩
  · exact ⟨hcrash, hcrashes⟩

/-- Outside dumb mode, the case of a kind stops at the limit or makes its test. -/
theorem saveFault_cases (kind : FaultKind) (env : Env m) (s s' : FuzzState m) (c : SaveCall m)
    (hd : s.dumbMode = false) (h : saveFault env kind s c = .ok s') :
    s'.dumbMode = false ∧ (∀ other, other ≠ kind → Untouched other s s') ∧
      (kind.keep ≤ kind.unique s ∧ Untouched kind s s' ∨
        kind.unique s < kind.keep ∧ TestStep kind env c.mem s.traceBits s s') := by
  have hcount := faultView_count kind s
  have hunique : kind.unique (kind.count s) = kind.unique s := by cases kind <;> rfl
  have hresult : testResult kind env (kind.count s) (kind.count s).traceBits =
      testResult kind env s s.traceBits := by
    cases kind <;> rfl
  have hd₀ : (kind.count s).dumbMode = false := (congrArg FaultView.dumbMode hcount).trans hd
  obtain ⟨hret, hview⟩ := isUnique_spec kind env (kind.count s) hd₀
  rw [hresult] at hret
  rw [hresult, hcount] at hview
  unfold saveFault at h
  dsimp only at h
  rw [hunique] at h
  generalize isUnique env _ kind = r at h hret hview
  have hdumb : r.2.dumbMode = false := by
    refine (congrArg FaultView.dumbMode hview).trans ?_
    cases kind <;> exact hd
  split at h
  · rename_i hlimit
    cases h
    exact ⟨hd₀, fun other _ => untouched_of_faultView_eq other hcount,
      Or.inl ⟨hlimit, untouched_of_faultView_eq kind hcount⟩⟩
  · rename_i hlimit
    obtain ⟨hvirgin, hfiles⟩ := virgin_files_of_setVirgin hview
    split at h
    · -- No new bits: only the virgin map has changed.
      rename_i hold
      cases h
      refine ⟨hdumb, fun other hne => untouched_of_setVirgin hview hne,
        Or.inr ⟨Nat.lt_of_not_le hlimit, hvirgin, ?_, fun _ => hfiles⟩⟩
      intro hnew
      rw [hret.mpr hnew] at hold
      cases hold
    · rename_i hnew
      split at h
      · -- The file is written after the test.
        cases h
        have hold : (testResult kind env s s.traceBits).1 ≠ 0 := by
          rw [Bool.not_eq_true, Bool.not_eq_false'] at hnew
          exact hret.mp hnew
        have hfile : ∃ fn, kind.files (kind.write r.2 (kind.fileName r.2 c.op) c.mem) =
            kind.files s ++ [(fn, c.mem)] := by
          rw [← hfiles]
          cases kind <;> exact ⟨_, rfl⟩
        refine ⟨?_, ?_, Or.inr ⟨Nat.lt_of_not_le hlimit, ?_, fun _ => hfile,
          fun hzero => absurd hzero hold⟩⟩
        · cases kind <;> exact hdumb
        · intro other hne
          have hother := untouched_of_setVirgin hview hne
          cases kind <;> cases other <;> first
            | exact absurd rfl hne
            | exact ⟨hother.virgin, hother.files⟩
        · rw [← hvirgin]
          cases kind <;> rfl
      · cases h

/-- How a call of `save_if_interesting` that does not end the process can go. -/
theorem saveIfInteresting_cases (env : Env m) (s s' : FuzzState m) (c : SaveCall m)
    (keeping : Bool) (h : saveIfInteresting env s c = .ok (keeping, s')) :
    saveToQueue env s c = .ok (.returned, s') ∨
      ∃ s₁, saveToQueue env s c = .ok (.fellThrough keeping, s₁) ∧
        ((∃ kind : FaultKind, c.fault = kind.fault ∧ saveFault env kind s₁ c = .ok s') ∨
          (∀ kind : FaultKind, c.fault ≠ kind.fault) ∧ s' = s₁) := by
  unfold saveIfInteresting at h
  split at h
  · cases h
  · rename_i heq
    cases h
    exact Or.inl heq
  · rename_i keeping₁ s₁ heq
    cases hf : c.fault with
    | hang =>
      rw [hf] at h
      cases hsave : saveFault env .hang s₁ c <;> rw [hsave] at h <;> cases h
      exact Or.inr ⟨s₁, heq, Or.inl ⟨.hang, rfl, hsave⟩⟩
    | crash =>
      rw [hf] at h
      cases hsave : saveFault env .crash s₁ c <;> rw [hsave] at h <;> cases h
      exact Or.inr ⟨s₁, heq, Or.inl ⟨.crash, rfl, hsave⟩⟩
    | error => rw [hf] at h; cases h
    | none | noInst | noBits =>
      rw [hf] at h
      cases h
      exact Or.inr ⟨_, heq, Or.inr ⟨fun kind => by cases kind <;> decide, rfl⟩⟩

theorem dumbMode_of_saveToQueue {env : Env m} {s s₁ : FuzzState m} {c : SaveCall m}
    {o : QueueOutcome} (hd : s.dumbMode = false) (h : saveToQueue env s c = .ok (o, s₁)) :
    s₁.dumbMode = false :=
  (congrArg FaultView.dumbMode (faultView_saveToQueue env s s₁ c o h)).trans hd

/-- Being untouched carries over a change that the view does not show. -/
theorem Untouched.of_faultView {kind : FaultKind} {s s₁ s' : FuzzState m}
    (hview : faultView s₁ = faultView s) (h : Untouched kind s₁ s') : Untouched kind s s' :=
  have h₁ := untouched_of_faultView_eq kind hview
  ⟨h.virgin.trans h₁.virgin, h.files.trans h₁.files⟩

/-- So does the step of a test. -/
theorem TestStep.of_faultView {kind : FaultKind} {env : Env m} {mem : List U8} {t : TraceMap m}
    {s s₁ s' : FuzzState m} (hview : faultView s₁ = faultView s)
    (h : TestStep kind env mem t s₁ s') : TestStep kind env mem t s s' := by
  have h₁ := untouched_of_faultView_eq kind hview
  have hresult : testResult kind env s₁ t = testResult kind env s t := by
    unfold testResult
    rw [h₁.virgin]
  obtain ⟨hvirgin, hsaved, hdropped⟩ := h
  rw [hresult] at hvirgin hsaved hdropped
  rw [h₁.files] at hsaved hdropped
  exact ⟨hvirgin, hsaved, hdropped⟩

/-- A call that reaches no test of the kind leaves the kind alone. -/
theorem saveIfInteresting_untested (kind : FaultKind) (env : Env m) (s s' : FuzzState m)
    (c : SaveCall m) (keeping : Bool) (hd : s.dumbMode = false)
    (h : saveIfInteresting env s c = .ok (keeping, s'))
    (hnone : uniquenessTest kind env s c = none) : s'.dumbMode = false ∧ Untouched kind s s' := by
  rcases saveIfInteresting_cases env s s' c keeping h with hq | ⟨s₁, hq, hcase⟩
  · exact ⟨dumbMode_of_saveToQueue hd hq,
      untouched_of_faultView_eq kind (faultView_saveToQueue env s s' c _ hq)⟩
  · have hview := faultView_saveToQueue env s s₁ c _ hq
    have hd₁ := dumbMode_of_saveToQueue hd hq
    unfold uniquenessTest at hnone
    rw [hq] at hnone
    dsimp only at hnone
    rcases hcase with ⟨other, hfault, hsave⟩ | ⟨_, rfl⟩
    · obtain ⟨hd', hothers, hself⟩ := saveFault_cases other env s₁ s' c hd₁ hsave
      refine ⟨hd', Untouched.of_faultView hview ?_⟩
      by_cases hkind : kind = other
      · subst hkind
        rcases hself with ⟨_, huntouched⟩ | ⟨hlt, _⟩
        · exact huntouched
        · rw [if_pos ⟨hfault, hlt, hd₁⟩] at hnone
          cases hnone
      · exact hothers kind hkind
    · exact ⟨hd₁, untouched_of_faultView_eq kind hview⟩

/-- A call that reaches the test of the kind makes its step. -/
theorem saveIfInteresting_tested (kind : FaultKind) (env : Env m) (s s' : FuzzState m)
    (c : SaveCall m) (keeping : Bool) (t : TraceMap m)
    (h : saveIfInteresting env s c = .ok (keeping, s'))
    (hsome : uniquenessTest kind env s c = some t) :
    s'.dumbMode = false ∧ TestStep kind env c.mem t s s' := by
  unfold uniquenessTest at hsome
  rcases saveIfInteresting_cases env s s' c keeping h with hq | ⟨s₁, hq, hcase⟩
  · rw [hq] at hsome
    cases hsome
  · rw [hq] at hsome
    dsimp only at hsome
    split at hsome
    · rename_i hreach
      obtain ⟨hfault, hlt, hd₁⟩ := hreach
      cases hsome
      rcases hcase with ⟨other, hother, hsave⟩ | ⟨hno, _⟩
      · have hkind : other = kind := by
          rw [hfault] at hother
          cases other <;> cases kind <;> first | rfl | cases hother
        subst hkind
        obtain ⟨hd', _, hself⟩ := saveFault_cases other env s₁ s' c hd₁ hsave
        rcases hself with ⟨hle, _⟩ | ⟨_, hstep⟩
        · exact absurd hlt (Nat.not_lt.mpr hle)
        · exact ⟨hd', hstep.of_faultView (faultView_saveToQueue env s s₁ c _ hq)⟩
      · exact absurd hfault (hno kind)
    · cases hsome

end Call

/-! ### Whole runs -/

/-- An execution that arrives at `save_if_interesting`: the trace and the signal it left in the
globals, and the call. -/
structure Arrival (m : Nat) where
  trace : TraceMap m
  killSignal : Nat := 0
  call : SaveCall m

/-- The globals after the execution. -/
def arrive {m : Nat} (s : FuzzState m) (a : Arrival m) : FuzzState m :=
  { s with traceBits := a.trace, killSignal := a.killSignal }

/-- The tests of the kind that a run of calls makes, each with its trace and with whether a file
was saved. The run ends when the process does. -/
def uniqueTests {m : Nat} (kind : FaultKind) (env : Env m) :
    FuzzState m → List (Arrival m) → List (TraceMap m × Bool)
  | _, [] => []
  | s, a :: rest =>
    match saveIfInteresting env (arrive s a) a.call with
    | .error _ => []
    | .ok (_, s') =>
      match uniquenessTest kind env (arrive s a) a.call with
      | some t =>
        (t, decide ((kind.files s).length < (kind.files s').length)) ::
          uniqueTests kind env s' rest
      | none => uniqueTests kind env s' rest

section Run
variable {k : Nat}

/-- What the test of a trace answers after the traces `hist`. -/
theorem testResult_eq {kind : FaultKind} {env : Env (8 * k)} {s : FuzzState (8 * k)}
    {hist : List (TraceMap (8 * k))} (u : TraceMap (8 * k))
    (hvirgin : s.virgin kind.virginMap =
      virginAfter env.x86_64 (hist.map (simplifyTrace env.x86_64))) :
    testResult kind env s u = hasNewBits env.x86_64 (simplifyTrace env.x86_64 u)
      (virginAfter env.x86_64 (hist.map (simplifyTrace env.x86_64))) := by
  unfold testResult
  rw [hvirgin]

/-- A test adds a file exactly when the trace is distinguished from the earlier ones. -/
theorem TestStep.grows_iff {kind : FaultKind} {env : Env (8 * k)} {mem : List U8}
    {u : TraceMap (8 * k)} {s s' : FuzzState (8 * k)} {hist : List (TraceMap (8 * k))}
    (h : TestStep kind env mem u s s')
    (hvirgin : s.virgin kind.virginMap =
      virginAfter env.x86_64 (hist.map (simplifyTrace env.x86_64))) :
    (kind.files s).length < (kind.files s').length ↔ Distinguished u hist := by
  rw [← newCount_simplified_iff env.x86_64, ← testResult_eq u hvirgin]
  constructor
  · intro hlt hzero
    rw [h.dropped hzero] at hlt
    exact absurd hlt (Nat.lt_irrefl _)
  · intro hne
    obtain ⟨fn, hfile⟩ := h.saved hne
    rw [hfile, List.length_append]
    exact Nat.lt_succ_self _

/-- A test adds its trace to those that the virgin map has seen, saved or not. -/
theorem TestStep.virginAfter_append {kind : FaultKind} {env : Env (8 * k)} {mem : List U8}
    {u : TraceMap (8 * k)} {s s' : FuzzState (8 * k)} {hist : List (TraceMap (8 * k))}
    (h : TestStep kind env mem u s s')
    (hvirgin : s.virgin kind.virginMap =
      virginAfter env.x86_64 (hist.map (simplifyTrace env.x86_64))) :
    s'.virgin kind.virginMap =
      virginAfter env.x86_64 ((hist ++ [u]).map (simplifyTrace env.x86_64)) := by
  rw [h.virgin, testResult_eq u hvirgin, List.map_append, List.map_singleton,
    Proofs.virginAfter_append]

/-- The tests of a run, from a state in which the traces `hist` have been tested before. -/
theorem uniqueTests_spec (kind : FaultKind) (env : Env (8 * k))
    (arrivals : List (Arrival (8 * k))) :
    ∀ (s : FuzzState (8 * k)) (hist : List (TraceMap (8 * k))), s.dumbMode = false →
      s.virgin kind.virginMap = virginAfter env.x86_64 (hist.map (simplifyTrace env.x86_64)) →
      ∀ i t saved, (uniqueTests kind env s arrivals)[i]? = some (t, saved) →
        (saved = true ↔
          Distinguished t (hist ++ ((uniqueTests kind env s arrivals).take i).map Prod.fst)) := by
  -- Induction on the calls; the invariant is the virgin map that `hist` leaves.
  induction arrivals with
  | nil =>
    intro s hist _ _ i t saved hi
    cases hi
  | cons a rest ih =>
    intro s hist hd hvirgin i t saved hi
    rw [uniqueTests] at hi ⊢
    cases hsave : saveIfInteresting env (arrive s a) a.call with
    | error e => rw [hsave] at hi; cases hi
    | ok r =>
      obtain ⟨keeping, s'⟩ := r
      have harrive : Untouched kind s (arrive s a) := untouched_of_faultView_eq kind rfl
      rw [hsave] at hi
      cases htest : uniquenessTest kind env (arrive s a) a.call with
      | none =>
        rw [htest] at hi
        dsimp only at hi ⊢
        obtain ⟨hd', hsame⟩ :=
          saveIfInteresting_untested kind env (arrive s a) s' a.call keeping hd hsave htest
        exact ih s' hist hd' ((hsame.virgin.trans harrive.virgin).trans hvirgin) i t saved hi
      | some u =>
        rw [htest] at hi
        dsimp only at hi ⊢
        obtain ⟨hd', hstep⟩ :=
          saveIfInteresting_tested kind env (arrive s a) s' a.call keeping u hsave htest
        have hview : faultView (arrive s a) = faultView s := rfl
        have hstep := hstep.of_faultView hview
        cases i with
        | zero =>
          cases hi
          rw [List.take_zero, List.map_nil, List.append_nil, decide_eq_true_iff]
          exact hstep.grows_iff hvirgin
        | succ i =>
          have hvirgin' := hstep.virginAfter_append hvirgin
          have hih := ih s' (hist ++ [u]) hd' hvirgin' i t saved hi
          rwa [List.append_assoc] at hih

/-- With nothing tested before, every trace is distinguished. -/
theorem distinguished_nil (t : TraceMap (8 * (k + 1))) : Distinguished t [] := by
  by_cases h : t.byte 0 = 0#8
  · exact Or.inr ⟨0, by omega, h, by simp⟩
  · exact Or.inl ⟨0, by omega, h, by simp⟩

/-- A crash or hang that reaches the uniqueness test is saved exactly when it is the first one, or
it hits a tuple that none of the earlier ones hit, or it misses a tuple that all of them hit. -/
theorem unique_iff (kind : FaultKind) (env : Env (8 * (k + 1))) (s : FuzzState (8 * (k + 1)))
    (arrivals : List (Arrival (8 * (k + 1)))) (hd : s.dumbMode = false)
    (hvirgin : s.virgin kind.virginMap = TraceMap.fill _ 0xff)
    (i : Nat) (t : TraceMap (8 * (k + 1))) (saved : Bool)
    (hi : (uniqueTests kind env s arrivals)[i]? = some (t, saved)) :
    saved = true ↔
      i = 0 ∨ Distinguished t (((uniqueTests kind env s arrivals).take i).map Prod.fst) := by
  have hspec := uniqueTests_spec kind env arrivals s [] hd hvirgin i t saved hi
  rw [List.nil_append] at hspec
  rw [hspec]
  cases i with
  | zero => exact ⟨fun _ => Or.inl rfl, fun _ => distinguished_nil t⟩
  | succ i => simp

end Run

/-- Two crashes on a map of eight bytes: the second one hits nothing new, but it misses the tuple
of the first one. -/
def twoCrashes : List (Arrival 8) :=
  let crash (trace : TraceMap 8) : Arrival 8 :=
    { trace, call := { mem := [], fault := .crash, cal := ⟨fun _ => ⟨.none, trace, false⟩, 1⟩ } }
  [crash ⟨[1, 1, 0, 0, 0, 0, 0, 0], rfl⟩, crash ⟨[1, 0, 0, 0, 0, 0, 0, 0], rfl⟩]

theorem unique_iff_twoCrashes :
    (uniqueTests .crash ⟨true, fun _ => 0⟩ {} twoCrashes)[1]? =
        some (⟨[1, 0, 0, 0, 0, 0, 0, 0], rfl⟩, true) ∧
      (true = true ↔ 1 = 0 ∨ Distinguished (k := 1) ⟨[1, 0, 0, 0, 0, 0, 0, 0], rfl⟩
        (((uniqueTests .crash ⟨true, fun _ => 0⟩ {} twoCrashes).take 1).map Prod.fst)) :=
  ⟨by decide +kernel,
    unique_iff (k := 0) .crash ⟨true, fun _ => 0⟩ {} twoCrashes rfl rfl 1 _ true
      (by decide +kernel)⟩

end TriforceAFL.Proofs
