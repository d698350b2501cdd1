import TriforceAFL.Proofs.CrashDedup
import TriforceAFL.Proofs.Favored
import TriforceAFL.Spec.Session

/-!
# `TriforceAFL.Proofs.QueueBooks`: what the functions on the globals do to the queue

Most functions that work on the globals measure an entry, score it or look for new bits. `Touched`
says once what such a function can change: neither the shape of the queue nor the name, length,
depth and fuzzing state of an entry, and the two counters of marked entries only together with the
marks. The rest is short: `add_to_queue` appends an entry, and `save_if_interesting` is one of the
two, or both (`saveIfInteresting_effect`).

`Books` is the bookkeeping of the queue: its list is complete, and each counter counts what its name
says. It is kept by `Touched`, by `add_to_queue` and by the code at `abandon_entry`.
-/

set_option autoImplicit false

namespace TriforceAFL.Proofs

open Lib Spec

/-! ### Functions that only measure and score -/

section Touched
variable {m : Nat}

/-- The part of an entry that measuring and scoring leave alone. -/
def coreFields (e : QueueEntry) : Text × Nat × Bool × Nat × Option Ptr :=
  (e.fname, e.len, e.wasFuzzed, e.depth, e.next)

/-- That part, with the two marks that have a counter and the one for the deterministic stages. -/
def markedFields (e : QueueEntry) : (Text × Nat × Bool × Nat × Option Ptr) × Bool × Bool × Bool :=
  (coreFields e, e.hasNewCov, e.varBehavior, e.passedDet)

/-- The globals that measuring and scoring leave alone. -/
structure QueueFrame where
  queue : Option Ptr
  top : Option Ptr
  paths : Nat
  pending : U32
  curDepth : Nat
  maxDepth : Nat
  cycle : Nat
  crashMode : Fault
  outDir : Text
  files : List (Text × List U8)

def queueFrame (s : FuzzState m) : QueueFrame :=
  ⟨s.queue, s.queueTop, s.queuedPaths, s.pendingNotFuzzed, s.curDepth, s.maxDepth, s.queueCycle,
    s.crashMode, s.outDir, s.queueFiles⟩

/-- The counters that a calibration changes. -/
def calCounters (s : FuzzState m) : Nat × Nat × Nat × Nat :=
  (s.queuedWithCov, s.queuedVariable, s.totalCalCycles, s.totalBitmapEntries)

/-- What measuring and scoring can do to the globals. -/
structure Touched (s s' : FuzzState m) : Prop where
  core : fields coreFields s' = fields coreFields s
  frame : queueFrame s' = queueFrame s
  withCov : s'.queuedWithCov + s.entries.countP (·.hasNewCov) =
    s.queuedWithCov + s'.entries.countP (·.hasNewCov)
  variableCnt : s'.queuedVariable + s.entries.countP (·.varBehavior) =
    s.queuedVariable + s'.entries.countP (·.varBehavior)
  cycles : s.totalCalCycles ≤ s'.totalCalCycles
  bitmaps : s.totalBitmapEntries ≤ s'.totalBitmapEntries
  passed : ∀ p, (s.entry p).passedDet = true → (s'.entry p).passedDet = true

namespace Touched

variable {s s' s'' : FuzzState m}

theorem refl (s : FuzzState m) : Touched s s :=
  ⟨rfl, rfl, rfl, rfl, Nat.le_refl _, Nat.le_refl _, fun _ h => h⟩

theorem trans (h : Touched s s') (h' : Touched s' s'') : Touched s s'' := by
  refine ⟨h'.core.trans h.core, h'.frame.trans h.frame, ?_, ?_, Nat.le_trans h.cycles h'.cycles,
    Nat.le_trans h.bitmaps h'.bitmaps, fun p hp => h'.passed p (h.passed p hp)⟩
  · have h₁ := h.withCov
    have h₂ := h'.withCov
    omega
  · have h₁ := h.variableCnt
    have h₂ := h'.variableCnt
    omega

/-- A function that does not write the marks either. -/
theorem of_fields (hfields : fields markedFields s' = fields markedFields s)
    (hframe : queueFrame s' = queueFrame s) (hcounters : calCounters s' = calCounters s) :
    Touched s s' := by
  have hcore := congrArg (List.map Prod.fst) hfields
  simp only [fields, List.map_map] at hcore
  have hcov := countP_eq_of_fields_eq hfields fun x => x.2.1
  have hvar := countP_eq_of_fields_eq hfields fun x => x.2.2.1
  have hpassed := fun p => congrArg (·.2.2.2) (field_eq_of_fields_eq hfields p)
  change s'.entries.countP (·.hasNewCov) = s.entries.countP (·.hasNewCov) at hcov
  change s'.entries.countP (·.varBehavior) = s.entries.countP (·.varBehavior) at hvar
  simp only [calCounters, Prod.mk.injEq] at hcounters
  obtain ⟨hc, hv, ht, hb⟩ := hcounters
  exact ⟨hcore, hframe, by rw [hc, hcov], by rw [hv, hvar], Nat.le_of_eq ht.symm,
    Nat.le_of_eq hb.symm, fun p hp => (hpassed p).trans hp⟩

theorem updateEntry (s : FuzzState m) (p : Nat) {f : QueueEntry → QueueEntry}
    (hf : ∀ e, markedFields (f e) = markedFields e) : Touched s (s.updateEntry p f) :=
  of_fields (fields_updateEntry s p hf) rfl rfl

/-- A counter that is raised where an entry is marked. -/
theorem count_mark {c : QueueEntry → Bool} {f : QueueEntry → QueueEntry} {p : Nat}
    (hp : p < s.entries.length) (hnew : c (s.entry p) = false) (hmark : c (f (s.entry p)) = true)
    (n : Nat) : n + 1 + s.entries.countP c = n + (s.updateEntry p f).entries.countP c := by
  have hcount := countP_updateEntry s f hp c
  rw [hnew, hmark, Bool.toNat_false, Bool.toNat_true] at hcount
  omega

/-- Marking an entry together with its counter. -/
theorem mark_cov {p : Nat} (hp : p < s.entries.length) (hnew : (s.entry p).hasNewCov = false) :
    Touched s { s.updateEntry p (fun e => { e with hasNewCov := true }) with
      queuedWithCov := s.queuedWithCov + 1 } := by
  have hpassed := field_eq_of_fields_eq (fields_updateEntry (g := (·.passedDet)) s p
    (f := fun e => { e with hasNewCov := true }) fun e => rfl)
  refine ⟨fields_updateEntry s p fun e => rfl, rfl, count_mark hp hnew rfl _, ?_, Nat.le_refl _,
    Nat.le_refl _, fun r hr => (hpassed r).trans hr⟩
  exact congrArg _ (countP_updateEntry_same s p (f := fun e => { e with hasNewCov := true })
    (c := (·.varBehavior)) fun e => rfl).symm

theorem mark_variable {p : Nat} (hp : p < s.entries.length)
    (hnew : (s.entry p).varBehavior = false) :
    Touched s { s.updateEntry p (fun e => { e with varBehavior := true }) with
      queuedVariable := s.queuedVariable + 1 } := by
  have hpassed := field_eq_of_fields_eq (fields_updateEntry (g := (·.passedDet)) s p
    (f := fun e => { e with varBehavior := true }) fun e => rfl)
  refine ⟨fields_updateEntry s p fun e => rfl, rfl, ?_, count_mark hp hnew rfl _, Nat.le_refl _,
    Nat.le_refl _, fun r hr => (hpassed r).trans hr⟩
  exact congrArg _ (countP_updateEntry_same s p (f := fun e => { e with varBehavior := true })
    (c := (·.hasNewCov)) fun e => rfl).symm

/-- Noting that the deterministic stages are done. -/
theorem mark_passed (s : FuzzState m) (p : Nat) :
    Touched s (s.updateEntry p fun e => { e with passedDet := true }) := by
  have hsame : ∀ {β : Type} {g : QueueEntry → β}, (∀ e, g { e with passedDet := true } = g e) →
      fields g (s.updateEntry p fun e => { e with passedDet := true }) = fields g s :=
    fun hg => fields_updateEntry s p hg
  have hcov := countP_eq_of_fields_eq (hsame (g := (·.hasNewCov)) fun _ => rfl) id
  have hvar := countP_eq_of_fields_eq (hsame (g := (·.varBehavior)) fun _ => rfl) id
  refine ⟨hsame fun _ => rfl, rfl, congrArg _ hcov.symm, congrArg _ hvar.symm, Nat.le_refl _,
    Nat.le_refl _, fun r hr => ?_⟩
  rw [entry_updateEntry]
  split
  · rfl
  · exact hr

theorem length_eq (h : Touched s s') : s'.entries.length = s.entries.length :=
  length_eq_of_fields_eq h.core

/-- Both sides with the same list of files. -/
theorem setFiles (h : Touched s s') (files : List (Text × List U8)) :
    Touched { s with queueFiles := files } { s' with queueFiles := files } := by
  have hframe := h.frame
  simp only [queueFrame, QueueFrame.mk.injEq] at hframe ⊢
  refine ⟨h.core, ?_, h.withCov, h.variableCnt, h.cycles, h.bitmaps, h.passed⟩
  simp only [queueFrame, QueueFrame.mk.injEq]
  tauto

end Touched

/-! ### Scoring, culling, and looking for new bits -/

theorem touched_updateBitmapScore (s : FuzzState m) (q : Nat) :
    Touched s (updateBitmapScore s q) := by
  obtain ⟨entries, topRated, scoreChanged, heq⟩ := updateBitmapScore_frame s q
  refine Touched.of_fields (fields_updateBitmapScore (fun e r mini => rfl) s q) ?_ ?_
  · rw [heq]
    rfl
  · rw [heq]
    rfl

theorem touched_cullQueue (s : FuzzState m) : Touched s (cullQueue s) := by
  have hsel : ∀ n, queueFrame (selection s n).2 = queueFrame s ∧
      calCounters (selection s n).2 = calCounters s := by
    intro n
    refine List.foldlRecOn (motive := fun t : List U8 × FuzzState m =>
      queueFrame t.2 = queueFrame s ∧ calCounters t.2 = calCounters s) _ _ ⟨rfl, rfl⟩ ?_
    intro t ht i _
    unfold cullSlot
    split
    · split <;> exact ht
    · exact ht
  refine Touched.of_fields (fields_cullQueue (fun e b => rfl) (fun e b => rfl) s) ?_ ?_
  · unfold cullQueue
    split
    · exact (hsel m).1
    · rfl
  · unfold cullQueue
    split
    · exact (hsel m).2
    · rfl

theorem touched_hasNewBits (env : Env m) (s : FuzzState m) (which : VirginMap) :
    Touched s (s.hasNewBits env which).2 := by
  cases which <;> exact Touched.of_fields rfl rfl rfl

theorem touched_setTrace (s : FuzzState m) (trace : TraceMap m) :
    Touched s { s with traceBits := trace } := Touched.of_fields rfl rfl rfl

/-! ### Calibration -/

theorem touched_compareChecksum (env : Env m) (q : Nat) (c : CalState m) :
    Touched c.globals (compareChecksum env q c).globals := by
  unfold compareChecksum
  dsimp only
  split
  · split
    · exact touched_hasNewBits env c.globals .bits
    · exact (touched_hasNewBits env c.globals .bits).trans
        (Touched.updateEntry _ q fun e => rfl)
  · exact Touched.refl _

theorem touched_calibrateLoop (env : Env m) (q : Nat) (cal : Calibration m) :
    ∀ (fuel stageCur : Nat) (c : CalState m),
      Touched c.globals (calibrateLoop env q cal fuel stageCur c).2.globals := by
  intro fuel
  induction fuel with
  | zero =>
    intro stageCur c
    exact Touched.refl _
  | succ fuel ih =>
    intro stageCur c
    have htrace := touched_setTrace c.globals (cal.runs stageCur).trace
    rw [calibrateLoop]
    split
    · dsimp only
      split
      · exact htrace
      · split
        · exact htrace
        · have hcompare := touched_compareChecksum env q { c with
            globals := { c.globals with traceBits := (cal.runs stageCur).trace } }
          exact htrace.trans (hcompare.trans (ih _ _))
    · exact Touched.refl _

theorem touched_markCalibrated {q : Nat} (newBits : Nat) (var : Bool) {s : FuzzState m}
    (hq : q < s.entries.length) : Touched s (markCalibrated q newBits var s) := by
  have hcov : ∀ t : FuzzState m, q < t.entries.length →
      Touched t (if newBits == 2 && !(t.entry q).hasNewCov then
        { t.updateEntry q (fun e => { e with hasNewCov := true }) with
          queuedWithCov := t.queuedWithCov + 1 } else t) := by
    intro t ht
    split
    · rename_i hnew
      simp only [Bool.and_eq_true, Bool.not_eq_true'] at hnew
      exact Touched.mark_cov ht hnew.2
    · exact Touched.refl t
  unfold markCalibrated
  dsimp only
  have hfirst := hcov s hq
  generalize (if newBits == 2 && !(s.entry q).hasNewCov then _ else s) = t at hfirst ⊢
  refine hfirst.trans ?_
  have hq' : q < t.entries.length := hfirst.length_eq ▸ hq
  split
  · rename_i hnew
    simp only [Bool.and_eq_true, Bool.not_eq_true'] at hnew
    exact Touched.mark_variable hq' hnew.2
  · exact Touched.refl _

theorem touched_finishCalibration (q handicap elapsedUs : Nat) (c : CalState m) :
    Touched c.globals (finishCalibration q handicap elapsedUs c) := by
  have htotals : Touched c.globals { c.globals with
      totalCalUs := c.globals.totalCalUs + elapsedUs
      totalCalCycles := c.globals.totalCalCycles + c.stageMax
      totalBitmapSize := c.globals.totalBitmapSize + countBytes c.globals.traceBits
      totalBitmapEntries := c.globals.totalBitmapEntries + 1 } :=
    ⟨rfl, rfl, rfl, rfl, Nat.le_add_right _ _, Nat.le_add_right _ _, fun _ h => h⟩
  unfold finishCalibration
  dsimp only
  refine htotals.trans (Touched.trans ?_ (touched_updateBitmapScore _ q))
  exact Touched.updateEntry _ q fun _ => rfl

theorem touched_startCalibration (s : FuzzState m) (q : Nat) :
    Touched s (startCalibration s q).globals := Touched.updateEntry s q fun _ => rfl

theorem touched_calibrateCase (env : Env m) {s : FuzzState m} {q : Nat}
    (hq : q < s.entries.length) (cal : Calibration m) (handicap : Nat) :
    Touched s (calibrateCase env s q cal handicap).2 := by
  have hloop := (touched_startCalibration s q).trans
    (touched_calibrateLoop env q cal (CAL_CYCLES_LONG + 1) 0 (startCalibration s q))
  unfold calibrateCase
  dsimp only
  split
  · rename_i heq
    rw [heq] at hloop
    exact hloop.trans (touched_markCalibrated _ _ (hloop.length_eq ▸ hq))
  · rename_i heq
    rw [heq] at hloop
    have hfinish := hloop.trans (touched_finishCalibration q handicap cal.elapsedUs _)
    exact hfinish.trans (touched_markCalibrated _ _ (hfinish.length_eq ▸ hq))

/-! ### Saving a test case -/

theorem length_addToQueue (s : FuzzState m) (fname : Text) (len : Nat) (passedDet : Bool) :
    (addToQueue s fname len passedDet).entries.length = s.entries.length + 1 := by
  have hfields := fields_addToQueue (g := fun _ => ()) (fun _ _ => rfl) (fun _ _ => rfl) s fname len
    passedDet
  have hlen := congrArg List.length hfields
  rwa [length_fields, List.length_append, length_fields] at hlen

/-- The globals of `QueueFrame` without the head of the list. -/
def QueueFrame.tail (f : QueueFrame) :
    Option Ptr × Nat × U32 × Nat × Nat × Nat × Fault × Text × List (Text × List U8) :=
  (f.top, f.paths, f.pending, f.curDepth, f.maxDepth, f.cycle, f.crashMode, f.outDir, f.files)

theorem frame_addToQueue (s : FuzzState m) (fname : Text) (len : Nat) (passedDet : Bool) :
    (queueFrame (addToQueue s fname len passedDet)).tail =
      (some s.entries.length, s.queuedPaths + 1, s.pendingNotFuzzed + 1, s.curDepth,
        max (s.curDepth + 1) s.maxDepth, s.queueCycle, s.crashMode, s.outDir, s.queueFiles) := by
  obtain ⟨entries, queue, qPrev100, heq⟩ := addToQueue_frame s fname len passedDet
  rw [heq]
  rfl

/-- The globals after a test case is queued and its file is written. -/
def enqueued (s : FuzzState m) (fn : Text) (mem : List U8) : FuzzState m :=
  { addToQueue s fn mem.length false with queueFiles := s.queueFiles ++ [(fn, mem)] }

theorem touched_markQueued (env : Env m) {s : FuzzState m} {top : Nat} (hnb : Nat)
    (htop : top < s.entries.length) (hnew : (s.entry top).hasNewCov = false) :
    Touched s (markQueued env s top hnb) := by
  unfold markQueued
  dsimp only
  split
  · exact (Touched.mark_cov htop hnew).trans (Touched.updateEntry _ top fun _ => rfl)
  · exact Touched.updateEntry s top fun _ => rfl

theorem touched_enqueueCase (env : Env m) (s : FuzzState m) (c : SaveCall m) (hnb : Nat) :
    Touched (addToQueue s (queueFileName s c.op hnb) c.mem.length false)
      (enqueueCase env s c hnb).2 := by
  have htop := congrArg (·.1)
    (frame_addToQueue s (queueFileName s c.op hnb) c.mem.length false)
  have hlen := length_addToQueue s (queueFileName s c.op hnb) c.mem.length false
  have hnew := field_of_fields_append (fields_addToQueue (g := (·.hasNewCov)) (fun _ _ => rfl)
    (fun _ _ => rfl) s (queueFileName s c.op hnb) c.mem.length false) (Nat.le_refl _)
  rw [if_pos rfl] at hnew
  unfold enqueueCase
  dsimp only
  rw [show (addToQueue s (queueFileName s c.op hnb) c.mem.length false).queueTop =
    some s.entries.length from htop, Option.getD_some]
  have hmark := touched_markQueued env hnb (by omega) hnew
  exact hmark.trans (touched_calibrateCase env (by rw [hmark.length_eq]; omega) _ _)

/-- The same with the file that is created afterwards. -/
theorem touched_enqueued (env : Env m) (s : FuzzState m) (c : SaveCall m) (hnb : Nat) :
    Touched (enqueued s (queueFileName s c.op hnb) c.mem) { (enqueueCase env s c hnb).2 with
      queueFiles := (enqueueCase env s c hnb).2.queueFiles ++
        [(queueFileName s c.op hnb, c.mem)] } := by
  have henq := touched_enqueueCase env s c hnb
  have hadd := frame_addToQueue s (queueFileName s c.op hnb) c.mem.length false
  have hfiles : (enqueueCase env s c hnb).2.queueFiles = s.queueFiles :=
    (congrArg QueueFrame.files henq.frame).trans (congrArg (·.2.2.2.2.2.2.2.2) hadd)
  rw [hfiles]
  exact henq.setFiles _

theorem touched_saveFault (env : Env m) (kind : FaultKind) {s s' : FuzzState m} {c : SaveCall m}
    (h : saveFault env kind s c = .ok s') : Touched s s' := by
  have hcount : Touched s (kind.count s) := by cases kind <;> exact Touched.of_fields rfl rfl rfl
  have hunique : ∀ t : FuzzState m, Touched t (isUnique env t kind).2 := by
    intro t
    unfold isUnique
    split
    · exact (touched_setTrace t _).trans (touched_hasNewBits env _ _)
    · exact Touched.refl t
  have hwrite : ∀ (t : FuzzState m) (fn : Text), Touched t (kind.write t fn c.mem) := by
    intro t fn
    cases kind <;> exact Touched.of_fields rfl rfl rfl
  unfold saveFault at h
  dsimp only at h
  split at h
  · cases h
    exact hcount
  · split at h
    · cases h
      exact hcount.trans (hunique _)
    · split at h
      · cases h
        exact hcount.trans ((hunique _).trans (hwrite _ _))
      · cases h

/-- What the block under `fault == crash_mode` can do. -/
theorem saveToQueue_effect (env : Env m) {s s' : FuzzState m} {c : SaveCall m} {r : QueueOutcome}
    (h : saveToQueue env s c = .ok (r, s')) :
    Touched s s' ∨ ∃ s₁ hnb, Touched s s₁ ∧
      Touched (enqueued s₁ (queueFileName s₁ c.op hnb) c.mem) s' := by
  unfold saveToQueue at h
  split at h
  · dsimp only at h
    have hbits := touched_hasNewBits env s .bits
    split at h
    · cases h
      refine Or.inl ?_
      split
      · exact hbits.trans (Touched.of_fields rfl rfl rfl)
      · exact hbits
    · split at h
      · cases h
      · split at h
        · cases h
          refine Or.inr ⟨_, (s.hasNewBits env .bits).1, hbits, ?_⟩
          exact touched_enqueued env _ c _
        · cases h
  · cases h
    exact Or.inl (Touched.refl s)

/-- What a call of `save_if_interesting` can do: nothing but measuring, or queueing the input and
measuring it. -/
theorem saveIfInteresting_effect (env : Env m) {s s' : FuzzState m} {c : SaveCall m}
    {keeping : Bool} (h : saveIfInteresting env s c = .ok (keeping, s')) :
    Touched s s' ∨ ∃ s₁ hnb, Touched s s₁ ∧
      Touched (enqueued s₁ (queueFileName s₁ c.op hnb) c.mem) s' := by
  rcases saveIfInteresting_cases env s s' c keeping h with
    hqueue | ⟨s₂, hqueue, ⟨kind, _, hfault⟩ | ⟨_, rfl⟩⟩
  · exact saveToQueue_effect env hqueue
  · have hafter := touched_saveFault env kind hfault
    rcases saveToQueue_effect env hqueue with htouched | ⟨s₁, hnb, hfirst, htouched⟩
    · exact Or.inl (htouched.trans hafter)
    · exact Or.inr ⟨s₁, hnb, hfirst, htouched.trans hafter⟩
  · exact saveToQueue_effect env hqueue

end Touched

/-! ### The divisors of the averages -/

section Totals
variable {m : Nat}

theorem stageMax_compareChecksum (env : Env m) (q : Nat) (c : CalState m) :
    (compareChecksum env q c).stageMax = c.stageMax ∨
      (compareChecksum env q c).stageMax = CAL_CYCLES_LONG := by
  unfold compareChecksum
  dsimp only
  split
  · split
    · exact Or.inr rfl
    · exact Or.inl rfl
  · exact Or.inl rfl

/-- A calibration loop that ends has a positive bound, and one that is aborted was stopped, saw a
fault other than `crash_mode`, or saw no instrumentation. -/
theorem calibrateLoop_result (env : Env m) (q : Nat) (cal : Calibration m) :
    ∀ (fuel stageCur : Nat) (c : CalState m), 0 < c.stageMax → c.stageMax ≤ CAL_CYCLES_LONG →
      0 < (calibrateLoop env q cal fuel stageCur c).2.stageMax ∧
      ∀ f, (calibrateLoop env q cal fuel stageCur c).1 = some f →
        f = .noInst ∨ ∃ i < CAL_CYCLES_LONG, f = (cal.runs i).fault ∧
          ((cal.runs i).stopSoon = true ∨ f ≠ c.globals.crashMode) := by
  intro fuel
  induction fuel with
  | zero =>
    intro stageCur c hpos _
    exact ⟨hpos, fun f hf => (by cases hf)⟩
  | succ fuel ih =>
    intro stageCur c hpos hmax
    rw [calibrateLoop]
    split
    · rename_i hlt
      dsimp only
      split
      · rename_i hstop
        refine ⟨hpos, fun f hf => Or.inr ⟨stageCur, by omega, ?_⟩⟩
        cases hf
        simp only [Bool.or_eq_true, decide_eq_true_eq] at hstop
        exact ⟨rfl, hstop⟩
      · split
        · refine ⟨hpos, fun f hf => Or.inl ?_⟩
          cases hf
          rfl
        · have hmode := congrArg QueueFrame.crashMode (touched_compareChecksum env q { c with
            globals := { c.globals with traceBits := (cal.runs stageCur).trace } }).frame
          have hbound := stageMax_compareChecksum env q { c with
            globals := { c.globals with traceBits := (cal.runs stageCur).trace } }
          generalize compareChecksum env q { c with
            globals := { c.globals with traceBits := (cal.runs stageCur).trace } } = c'
            at hmode hbound ⊢
          change c'.globals.crashMode = c.globals.crashMode at hmode
          have hc' : 0 < c'.stageMax ∧ c'.stageMax ≤ CAL_CYCLES_LONG := by
            rcases hbound with h | h
            · rw [h]
              exact ⟨hpos, hmax⟩
            · rw [h]
              exact ⟨by decide, Nat.le_refl _⟩
          have hrest := ih (stageCur + 1) c' hc'.1 hc'.2
          rwa [hmode] at hrest
    · exact ⟨hpos, fun f hf => (by cases hf)⟩

theorem stageMax_startCalibration (s : FuzzState m) (q : Nat) :
    0 < (startCalibration s q).stageMax ∧ (startCalibration s q).stageMax ≤ CAL_CYCLES_LONG := by
  show 0 < (if s.noVarCheck then CAL_CYCLES_NO_VAR else CAL_CYCLES) ∧
    (if s.noVarCheck then CAL_CYCLES_NO_VAR else CAL_CYCLES) ≤ CAL_CYCLES_LONG
  split <;> decide

theorem totals_finishCalibration (q handicap elapsedUs : Nat) {c : CalState m}
    (hpos : 0 < c.stageMax) :
    0 < (finishCalibration q handicap elapsedUs c).totalCalCycles ∧
      0 < (finishCalibration q handicap elapsedUs c).totalBitmapEntries := by
  unfold finishCalibration
  dsimp only
  constructor
  · refine Nat.lt_of_lt_of_le ?_ (touched_updateBitmapScore _ q).cycles
    show 0 < c.globals.totalCalCycles + c.stageMax
    omega
  · refine Nat.lt_of_lt_of_le ?_ (touched_updateBitmapScore _ q).bitmaps
    exact Nat.succ_pos _

theorem reported_none : Fault.none.Reported := ⟨by decide, by decide⟩

/-- A calibration that was not stopped and reports success has raised both divisors. -/
theorem totals_calibrateCase (env : Env m) {s : FuzzState m} {q : Nat} (hq : q < s.entries.length)
    {cal : Calibration m} (handicap : Nat) (hstops : ∀ i < CAL_CYCLES_LONG,
      (cal.runs i).stopSoon = false) (hreported : ∀ i, (cal.runs i).fault.Reported)
    (hmode : s.crashMode.Reported)
    (hres : (calibrateCase env s q cal handicap).1 = s.crashMode ∨
      (calibrateCase env s q cal handicap).1 = .noBits) :
    0 < (calibrateCase env s q cal handicap).2.totalCalCycles ∧
      0 < (calibrateCase env s q cal handicap).2.totalBitmapEntries := by
  obtain ⟨hpos, habort⟩ := calibrateLoop_result env q cal (CAL_CYCLES_LONG + 1) 0
    (startCalibration s q) (stageMax_startCalibration s q).1 (stageMax_startCalibration s q).2
  have hloop := (touched_startCalibration s q).trans
    (touched_calibrateLoop env q cal (CAL_CYCLES_LONG + 1) 0 (startCalibration s q))
  unfold calibrateCase at hres ⊢
  dsimp only at hres ⊢
  split at hres
  · rename_i f c heq
    rw [heq] at habort
    dsimp only at hres
    rcases habort f rfl with rfl | ⟨i, hi, hf, hstop | hne⟩
    · -- Neither value is the one for missing instrumentation.
      rcases hres with h | h
      · exact absurd h.symm hmode.1
      · cases h
    · rw [hstops i hi] at hstop
      cases hstop
    · rcases hres with h | h
      · exact absurd h hne
      · exact absurd (hf.symm.trans h) (hreported i).2
  · rename_i c heq
    rw [heq] at hpos hloop
    obtain ⟨hcycles, hbitmaps⟩ := totals_finishCalibration q handicap cal.elapsedUs hpos
    have hfinish := hloop.trans (touched_finishCalibration q handicap cal.elapsedUs c)
    have hmark := touched_markCalibrated c.newBits c.varDetected
      (hfinish.length_eq ▸ hq : q < (finishCalibration q handicap cal.elapsedUs c).entries.length)
    exact ⟨Nat.lt_of_lt_of_le hcycles hmark.cycles, Nat.lt_of_lt_of_le hbitmaps hmark.bitmaps⟩

end Totals

/-! ### The books -/

section Counters
variable {m : Nat}

theorem calCounters_addToQueue (s : FuzzState m) (fname : Text) (len : Nat) (passedDet : Bool) :
    calCounters (addToQueue s fname len passedDet) = calCounters s := by
  obtain ⟨entries, queue, qPrev100, heq⟩ := addToQueue_frame s fname len passedDet
  rw [heq]
  rfl

theorem countP_addToQueue {c : QueueEntry → Bool} (hnext : ∀ e q, c { e with next := q } = c e)
    (hnext100 : ∀ e q, c { e with next100 := q } = c e) (s : FuzzState m) (fname : Text)
    (len : Nat) (passedDet : Bool) :
    (addToQueue s fname len passedDet).entries.countP c = s.entries.countP c +
      (c { fname, len, depth := s.curDepth + 1, passedDet }).toNat := by
  have hfields := congrArg (List.countP id)
    (fields_addToQueue hnext hnext100 s fname len passedDet)
  simp only [fields, List.countP_append, List.countP_map, Function.id_comp] at hfields
  rw [hfields]
  cases c { fname, len, depth := s.curDepth + 1, passedDet } <;> rfl

end Counters

/-- The maximum of a list with one more element. -/
theorem foldr_max_append (l : List Nat) (x : Nat) :
    (l ++ [x]).foldr max 0 = max (l.foldr max 0) x := by
  induction l with
  | nil =>
    show max x 0 = max 0 x
    exact Nat.max_comm x 0
  | cons y l ih =>
    show max y ((l ++ [x]).foldr max 0) = max (max y (l.foldr max 0)) x
    rw [ih, Nat.max_assoc]

section Books
variable {k : Nat} {s s' : FuzzState (8 * k)}

/-- The list of entries is complete, and each counter counts what its name says. -/
structure Books (s : FuzzState (8 * k)) : Prop where
  chain : Chain s
  paths : s.queuedPaths = s.entries.length
  pending : s.pendingNotFuzzed = BitVec.ofNat 32 (s.entries.countP fun e => !e.wasFuzzed)
  withCov : s.queuedWithCov = s.entries.countP (·.hasNewCov)
  variableCnt : s.queuedVariable = s.entries.countP (·.varBehavior)
  depth : s.maxDepth = (s.entries.map (·.depth)).foldr max 0

/-- The shape of the list is a matter of `next`, `queue` and `queue_top`. -/
theorem chain_of_fields (hfields : fields (·.next) s' = fields (·.next) s)
    (hqueue : s'.queue = s.queue) (htop : s'.queueTop = s.queueTop) (h : Chain s) : Chain s' := by
  have hlen := length_eq_of_fields_eq hfields
  have hempty : s'.entries = [] ↔ s.entries = [] := by
    rw [← List.length_eq_zero_iff, hlen, List.length_eq_zero_iff]
  refine ⟨fun p hp => ?_, ?_, ?_⟩
  · rw [hlen] at hp ⊢
    rw [← h.linked p hp]
    exact field_eq_of_fields_eq hfields p
  · rw [hqueue, h.queue]
    simp only [hempty]
  · rw [htop, h.top, hlen]
    simp only [hempty]

/-- A part of the core of the entries. -/
theorem Touched.field {β : Type} (h : Touched s s')
    (g : Text × Nat × Bool × Nat × Option Ptr → β) :
    fields (g ∘ coreFields) s' = fields (g ∘ coreFields) s := by
  have hmap := congrArg (List.map g) h.core
  simpa only [fields, List.map_map] using hmap

theorem Books.touched (h : Books s) (ht : Touched s s') : Books s' := by
  have hframe := ht.frame
  simp only [queueFrame, QueueFrame.mk.injEq] at hframe
  obtain ⟨hqueue, htop, hpaths, hpending, _, hmax, _⟩ := hframe
  refine ⟨chain_of_fields (ht.field fun x => x.2.2.2.2) hqueue htop h.chain, ?_, ?_, ?_, ?_, ?_⟩
  · rw [hpaths, h.paths, ht.length_eq]
  · have hcount := countP_eq_of_fields_eq (ht.field fun x => x.2.2.1) (!·)
    change s'.entries.countP (fun e => !e.wasFuzzed) = _ at hcount
    rw [hpending, h.pending, hcount]
    rfl
  · have hcov := ht.withCov
    have hbooks := h.withCov
    omega
  · have hvar := ht.variableCnt
    have hbooks := h.variableCnt
    omega
  · have hdepth := congrArg (List.foldr max 0) (ht.field fun x => x.2.2.2.1)
    rw [hmax, h.depth]
    exact hdepth.symm

/-- No book is kept about the files. -/
theorem Books.setFiles (h : Books s) (files : List (Text × List U8)) :
    Books { s with queueFiles := files } :=
  ⟨⟨h.chain.linked, h.chain.queue, h.chain.top⟩, h.paths, h.pending, h.withCov, h.variableCnt,
    h.depth⟩

theorem Books.add (h : Books s) (fname : Text) (len : Nat) (passedDet : Bool) :
    Books (addToQueue s fname len passedDet) := by
  obtain ⟨s₁, _, hchain, hsame, _⟩ := addToQueue_appended h.chain fname len passedDet
  have hframe := frame_addToQueue s fname len passedDet
  simp only [queueFrame, QueueFrame.tail, Prod.mk.injEq] at hframe
  obtain ⟨_, hpaths, hpending, _, hmax, _⟩ := hframe
  have hcounters := calCounters_addToQueue s fname len passedDet
  simp only [calCounters, Prod.mk.injEq] at hcounters
  have hcount : ∀ c : QueueEntry → Bool, (∀ e q, c { e with next := q } = c e) →
      (∀ e q, c { e with next100 := q } = c e) →
      (addToQueue s fname len passedDet).entries.countP c = s.entries.countP c +
        (c { fname, len, depth := s.curDepth + 1, passedDet }).toNat :=
    fun c hnext hnext100 => countP_addToQueue hnext hnext100 s fname len passedDet
  refine ⟨hsame.chain hchain, ?_, ?_, ?_, ?_, ?_⟩
  · rw [hpaths, h.paths, length_addToQueue]
  · rw [hpending, h.pending, hcount _ (fun _ _ => rfl) fun _ _ => rfl, BitVec.ofNat_add]
    rfl
  · rw [hcounters.1, h.withCov, hcount _ (fun _ _ => rfl) fun _ _ => rfl]
    rfl
  · rw [hcounters.2.1, h.variableCnt, hcount _ (fun _ _ => rfl) fun _ _ => rfl]
    rfl
  · have hdepth := fields_addToQueue (g := (·.depth)) (fun _ _ => rfl) (fun _ _ => rfl) s fname len
      passedDet
    change (addToQueue s fname len passedDet).entries.map (·.depth) = s.entries.map (·.depth) ++ _
      at hdepth
    rw [hmax, h.depth, hdepth, foldr_max_append, Nat.max_comm]

/-- Writing a field of an entry that no book is kept about. -/
theorem Books.updateEntry (h : Books s) (q : Nat) {f : QueueEntry → QueueEntry}
    (hf : ∀ e, (f e).next = e.next ∧ (f e).wasFuzzed = e.wasFuzzed ∧ (f e).hasNewCov = e.hasNewCov ∧
      (f e).varBehavior = e.varBehavior ∧ (f e).depth = e.depth) : Books (s.updateEntry q f) := by
  have hfuzzed := countP_eq_of_fields_eq
    (fields_updateEntry (g := (·.wasFuzzed)) s q fun e => (hf e).2.1) (!·)
  have hcov := countP_eq_of_fields_eq
    (fields_updateEntry (g := (·.hasNewCov)) s q fun e => (hf e).2.2.1) id
  have hvar := countP_eq_of_fields_eq
    (fields_updateEntry (g := (·.varBehavior)) s q fun e => (hf e).2.2.2.1) id
  have hdepth := fields_updateEntry (g := (·.depth)) s q fun e => (hf e).2.2.2.2
  refine ⟨chain_of_fields (fields_updateEntry s q fun e => (hf e).1) rfl rfl h.chain,
    ?_, ?_, ?_, ?_, ?_⟩
  · exact h.paths.trans (length_updateEntry s q f).symm
  · exact h.pending.trans (congrArg (BitVec.ofNat 32) hfuzzed.symm)
  · exact h.withCov.trans hcov.symm
  · exact h.variableCnt.trans hvar.symm
  · exact h.depth.trans (congrArg (List.foldr max 0) hdepth.symm)

/-- Closing an entry at `abandon_entry`. -/
theorem Books.abandon (h : Books s) {q : Nat} (hq : q < s.entries.length) (stopSoon : Bool) :
    Books (abandonEntry s q stopSoon) := by
  unfold abandonEntry
  dsimp only
  split
  · rename_i hclose
    simp only [Bool.and_eq_true, Bool.not_eq_true'] at hclose
    have hsame : ∀ {β : Type} (g : QueueEntry → β), (∀ e, g { e with wasFuzzed := true } = g e) →
        fields g (s.updateEntry q fun e => { e with wasFuzzed := true }) = fields g s :=
      fun g hg => fields_updateEntry s q hg
    have hcount := countP_updateEntry s (fun e => { e with wasFuzzed := true }) hq
      fun e => !e.wasFuzzed
    rw [hclose.2] at hcount
    simp only [Bool.not_false, Bool.not_true, Bool.toNat_true, Bool.toNat_false] at hcount
    refine ⟨chain_of_fields (hsame _ fun _ => rfl) rfl rfl h.chain, ?_, ?_, ?_, ?_, ?_⟩
    · exact h.paths.trans (length_updateEntry s q _).symm
    · show s.pendingNotFuzzed - 1 = BitVec.ofNat 32
        ((s.updateEntry q fun e => { e with wasFuzzed := true }).entries.countP _)
      rw [h.pending, ← Nat.add_zero (s.entries.countP _), ← hcount, BitVec.ofNat_add]
      exact BitVec.add_sub_cancel _ _
    · exact h.withCov.trans (countP_eq_of_fields_eq (hsame (·.hasNewCov) fun _ => rfl) id).symm
    · exact h.variableCnt.trans
        (countP_eq_of_fields_eq (hsame (·.varBehavior) fun _ => rfl) id).symm
    · exact h.depth.trans (congrArg (List.foldr max 0) (hsame (·.depth) fun _ => rfl)).symm
  · exact h

end Books

end TriforceAFL.Proofs
