import TriforceAFL.Spec.Showmap

/-!
# `TriforceAFL.Proofs.Showmap`: a batch run against single-file runs

A trace file depends on the trace and on two flags (`traceText`). Each run with a timeout sets
`child_timed_out` anew. `child_crashed` is only ever set, so in a batch it says whether this run or
an earlier one has crashed.

* `batch_trace` and `single_trace`: what the trace files hold.
* `batch_eq_single_iff`: the trace file of an input in a batch is the one of a single-file run,
  unless an earlier input has ended the batch, or has crashed and so changes what `-Z` writes.
* `batch_ne_single`: a crash empties the trace file of the next input.
* `exitStatus_batch`: what the exit status of a batch says.
-/

set_option autoImplicit false

namespace TriforceAFL.Proofs

open Lib Spec

namespace Showmap

variable {mapSize : Nat}

/-! ### What a run amounts to -/

/-- The target could not be executed. -/
def execFails (r : TargetRun mapSize) : Bool := load 4 r.trace.bytes 0 == EXEC_FAIL_SIG

/-- The run timed out. -/
def timedOut (o : ShowmapOpts) (r : TargetRun mapSize) : Bool := decide (o.execTmout ≠ 0) && r.alarm

/-- The run was killed by a signal that is not due to a timeout. -/
def crashes (o : ShowmapOpts) (r : TargetRun mapSize) : Bool :=
  !timedOut o r && r.status.wifSignaled

/-- The trace is empty. -/
def noTuples (r : TargetRun mapSize) : Bool := r.trace.bytes.all (· == 0)

/-- The run ends the process. -/
def ends (o : ShowmapOpts) (r : TargetRun mapSize) : Bool :=
  execFails r || (!o.quietMode && noTuples r)

/-! ### The trace file -/

/-- The tuples among `l` that were hit. -/
def tuples (t : TraceMap mapSize) (l : List Nat) : List Nat := l.filter fun i => t.byte i != 0

/-- The flags keep `-Z` from writing. -/
def blocked (o : ShowmapOpts) (timedOut crashed : Bool) : Bool :=
  o.cminMode && (timedOut || (!o.caa && crashed != o.cco))

/-- The lines of some tuples. -/
def tupleLines (o : ShowmapOpts) (t : TraceMap mapSize) (l : List Nat) : Text :=
  (tuples t l).flatMap fun i => tupleLine o.cminMode i (t.byte i)

section Write
variable {o : ShowmapOpts} {s : ShowmapState mapSize}

theorem writeTuple_of_zero {i : Nat} (h : s.traceBits.byte i = 0) (w : Nat × Text) :
    writeTuple o s w i = .ok w := by
  simp only [writeTuple, h, if_true]

theorem writeTuple_of_blocked {i : Nat} (h : s.traceBits.byte i ≠ 0)
    (hb : blocked o s.childTimedOut s.childCrashed = true) (w : Nat × Text) :
    writeTuple o s w i = .error (w.1 + 1, w.2) := by
  rw [blocked, Bool.and_eq_true, Bool.or_eq_true] at hb
  obtain ⟨hmode, htimed | hcrash⟩ := hb
  · simp only [writeTuple, h, if_false, hmode, htimed, Bool.and_self, if_true]
  · simp only [writeTuple, h, if_false, hmode, hcrash, Bool.and_self, if_true, ite_self]

theorem writeTuple_of_not_blocked {i : Nat} (h : s.traceBits.byte i ≠ 0)
    (hb : blocked o s.childTimedOut s.childCrashed = false) (w : Nat × Text) :
    writeTuple o s w i = .ok (w.1 + 1, w.2 ++ tupleLine o.cminMode i (s.traceBits.byte i)) := by
  rw [blocked, Bool.and_or_distrib_left, Bool.or_eq_false_iff] at hb
  simp only [writeTuple, h, if_false, hb.1, hb.2, Bool.false_eq_true]

/-- The loop of `write_results`: it writes all tuples, or breaks at the first one. -/
theorem finalState_writeTuples (l : List Nat) (w : Nat × Text) :
    finalState (l.foldlM (writeTuple o s) w) =
      if blocked o s.childTimedOut s.childCrashed then
        (w.1 + min 1 (tuples s.traceBits l).length, w.2)
      else (w.1 + (tuples s.traceBits l).length, w.2 ++ tupleLines o s.traceBits l) := by
  induction l generalizing w with
  | nil =>
    show w = _
    simp [tuples, tupleLines]
  | cons i l ih =>
    rw [List.foldlM_cons]
    by_cases hzero : s.traceBits.byte i = 0
    · have hskip : tuples s.traceBits (i :: l) = tuples s.traceBits l := by
        simp [tuples, hzero]
      -- A tuple that was not hit is skipped before the flags are looked at.
      rw [writeTuple_of_zero hzero, tupleLines, hskip]
      exact ih w
    · have hhit : tuples s.traceBits (i :: l) = i :: tuples s.traceBits l :=
        List.filter_cons_of_pos (bne_iff_ne.mpr hzero)
      rw [tupleLines, hhit, List.flatMap_cons, List.length_cons]
      cases hb : blocked o s.childTimedOut s.childCrashed with
      | true =>
        -- The first tuple is counted, and the loop ends.
        rw [writeTuple_of_blocked hzero hb, if_pos rfl, Nat.min_eq_left (by omega)]
        rfl
      | false =>
        rw [writeTuple_of_not_blocked hzero hb, if_neg Bool.false_ne_true]
        refine (ih _).trans ?_
        rw [hb, if_neg Bool.false_ne_true, tupleLines, List.append_assoc]
        exact Prod.ext (by show _ + 1 + _ = _; omega) rfl

end Write

/-- What a trace file holds, for a trace as the target leaves it. -/
def traceText (o : ShowmapOpts) (timedOut crashed : Bool) (t : TraceMap mapSize) : Text :=
  if blocked o timedOut crashed then []
  else tupleLines o (classifyCounts o.edgesOnly t) (List.range mapSize)

theorem byteOf_countClassLookup_eq_zero (b : U8) : byteOf countClassLookup b.toNat = 0 ↔ b = 0 := by
  have htable : ∀ n < 256, byteOf countClassLookup n = 0 ↔ n = 0 := by decide +kernel
  rw [htable b.toNat b.isLt]
  exact ⟨fun h => BitVec.eq_of_toNat_eq h, fun h => h ▸ rfl⟩

/-- Classifying keeps what was hit. -/
theorem classifyCount_eq_zero {edgesOnly : Bool} {b : U8} :
    classifyCount edgesOnly b = 0 ↔ b = 0 := by
  unfold classifyCount
  split
  · split
    · rename_i hb
      exact ⟨fun h => absurd h (by decide), fun h => absurd h hb⟩
    · exact Iff.rfl
  · exact byteOf_countClassLookup_eq_zero b

/-- There are no tuples to write iff the trace is empty. -/
theorem tuples_classifyCounts_eq_nil (edgesOnly : Bool) (r : TargetRun mapSize) :
    tuples (classifyCounts edgesOnly r.trace) (List.range mapSize) = [] ↔ noTuples r = true := by
  rw [tuples, List.filter_eq_nil_iff, noTuples, List.all_eq_true]
  have hbyte : ∀ i (hi : i < r.trace.bytes.length),
      (classifyCounts edgesOnly r.trace).byte i = classifyCount edgesOnly r.trace.bytes[i] := by
    intro i hi
    simp [TraceMap.byte, byteOf, classifyCounts, hi]
  constructor
  · intro h b hb
    obtain ⟨i, hi, rfl⟩ := List.getElem_of_mem hb
    have hzero := h i (List.mem_range.mpr (hi.trans_eq r.trace.length_eq))
    rw [hbyte i hi, bne_iff_ne, not_not, classifyCount_eq_zero] at hzero
    exact beq_iff_eq.mpr hzero
  · intro h i hi
    have hi' : i < r.trace.bytes.length := (List.mem_range.mp hi).trans_eq r.trace.length_eq.symm
    rw [hbyte i hi', bne_iff_ne, not_not, classifyCount_eq_zero]
    exact beq_iff_eq.mp (h _ (List.getElem_mem hi'))

/-- No line is empty, so nothing is written iff there is nothing to write. -/
theorem tupleLines_eq_nil (o : ShowmapOpts) (r : TargetRun mapSize) :
    tupleLines o (classifyCounts o.edgesOnly r.trace) (List.range mapSize) = [] ↔
      noTuples r = true := by
  rw [← tuples_classifyCounts_eq_nil o.edgesOnly r, tupleLines, List.flatMap_eq_nil_iff]
  constructor
  · intro h
    refine List.eq_nil_iff_forall_not_mem.mpr fun i hi => ?_
    have hline := h i hi
    -- Every line ends in a newline.
    simp only [tupleLine] at hline
    split at hline <;> simp at hline
  · intro h i hi
    rw [h] at hi
    exact absurd hi List.not_mem_nil

/-- When `child_crashed` decides whether `-Z` writes. -/
theorem blocked_ne_iff (o : ShowmapOpts) (timed c d : Bool) :
    blocked o timed c ≠ blocked o timed d ↔
      o.cminMode = true ∧ o.caa = false ∧ timed = false ∧ c ≠ d := by
  unfold blocked
  cases o.cminMode <;> cases o.caa <;> cases o.cco <;> cases timed <;> cases c <;> cases d <;>
    decide

/-- The trace files for two values of `child_crashed` differ iff the flag decides whether the tuples
are written, and there are some. -/
theorem traceText_ne_iff (o : ShowmapOpts) (timed c d : Bool) (r : TargetRun mapSize) :
    traceText o timed c r.trace ≠ traceText o timed d r.trace ↔
      blocked o timed c ≠ blocked o timed d ∧ noTuples r = false := by
  rw [← Bool.not_eq_true, ← tupleLines_eq_nil o r]
  unfold traceText
  generalize tupleLines o (classifyCounts o.edgesOnly r.trace) (List.range mapSize) = lines
  cases blocked o timed c <;> cases blocked o timed d
  · simp
  · simp
  · exact ⟨fun h => ⟨by decide, fun he => h he.symm⟩, fun h he => h.2 he.symm⟩
  · simp

/-! ### One turn -/

section Capture
variable {o : ShowmapOpts} {cmd outFile : Text} {r : TargetRun mapSize} {s : ShowmapState mapSize}

/-- The value of `child_timed_out` that a run leaves, as the code computes it. -/
theorem timedOut_eq (h : o.execTmout = 0 → s.childTimedOut = false) :
    (if o.execTmout ≠ 0 then r.alarm else s.childTimedOut) = timedOut o r := by
  unfold timedOut
  split
  · rename_i hne
    simp [hne]
  · rename_i heq
    simp [h (not_not.mp heq), not_not.mp heq]

/-- The state after `run_target`. -/
def ran (o : ShowmapOpts) (r : TargetRun mapSize) (s : ShowmapState mapSize) :
    ShowmapState mapSize :=
  { s with
    childTimedOut := timedOut o r
    childCrashed := s.childCrashed || crashes o r
    prevTimedOut := timedOut o r
    traceBits := classifyCounts o.edgesOnly r.trace }

/-- The state after the trace file of a run is written. -/
def captured (o : ShowmapOpts) (outFile : Text) (r : TargetRun mapSize) (s : ShowmapState mapSize) :
    ShowmapState mapSize :=
  { ran o r s with
    written := s.written ++
      [(outFile, traceText o (timedOut o r) (s.childCrashed || crashes o r) r.trace)] }

/-- The flags before a run, when nobody has pressed Ctrl-C. -/
structure Quiet (o : ShowmapOpts) (s : ShowmapState mapSize) : Prop where
  stopSoon : s.stopSoon = false
  timedOut : o.execTmout = 0 → s.childTimedOut = false

theorem capture_of_execFails (h : execFails r = true) :
    ∃ t, capture o cmd outFile r s = .error t ∧ t.written = s.written := by
  have hsig : load 4 r.trace.bytes 0 = EXEC_FAIL_SIG := beq_iff_eq.mp h
  unfold capture showmapRunTarget
  simp only [hsig, if_true]
  exact ⟨_, rfl, rfl⟩

theorem showmapRunTarget_eq (hs : Quiet o s) (h : execFails r = false) :
    showmapRunTarget o cmd r s = .ok (ran o r s) := by
  have hsig : load 4 r.trace.bytes 0 ≠ EXEC_FAIL_SIG := beq_eq_false_iff_ne.mp h
  unfold showmapRunTarget ran
  simp only [timedOut_eq hs.timedOut, if_neg hsig, hs.stopSoon]
  -- The assignment is an `or` with what earlier runs have left.
  have hcrash : (if (!timedOut o r && !false && r.status.wifSignaled) = true then true
      else s.childCrashed) = (s.childCrashed || crashes o r) := by
    unfold crashes
    cases timedOut o r <;> cases r.status.wifSignaled <;> cases s.childCrashed <;> rfl
  rw [hcrash]

/-- `write_results` returns zero iff the trace is empty, and writes the trace file. -/
theorem writeTuples_ran (o : ShowmapOpts) (r : TargetRun mapSize) (s : ShowmapState mapSize) :
    ∃ tcnt, (tcnt == 0) = noTuples r ∧
      finalState ((List.range mapSize).foldlM (writeTuple o (ran o r s)) (0, [])) =
        (tcnt, traceText o (timedOut o r) (s.childCrashed || crashes o r) r.trace) := by
  have hlen := tuples_classifyCounts_eq_nil o.edgesOnly r
  rw [← List.length_eq_zero_iff] at hlen
  rw [finalState_writeTuples, traceText]
  cases hb : blocked o (timedOut o r) (s.childCrashed || crashes o r) with
  | true =>
    refine ⟨0 + min 1 (tuples (ran o r s).traceBits (List.range mapSize)).length, ?_, if_pos hb⟩
    rw [Bool.eq_iff_iff, beq_iff_eq, ← hlen]
    show 0 + min 1 (tuples (classifyCounts o.edgesOnly r.trace) _).length = 0 ↔ _
    omega
  | false =>
    refine ⟨0 + (tuples (ran o r s).traceBits (List.range mapSize)).length, ?_,
      if_neg (Bool.not_eq_true _ ▸ hb)⟩
    rw [Bool.eq_iff_iff, beq_iff_eq, ← hlen, Nat.zero_add]
    rfl

/-- A run whose target could be executed writes its trace file, and then may end the process. -/
theorem capture_of_not_execFails (hs : Quiet o s) (h : execFails r = false) :
    capture o cmd outFile r s =
      if ends o r then
        .error { captured o outFile r s with fatal := some "No instrumentation detected".toList }
      else .ok (captured o outFile r s) := by
  obtain ⟨tcnt, hzero, hwrite⟩ := writeTuples_ran o r s
  unfold capture writeResults
  rw [showmapRunTarget_eq hs h]
  simp only [bind, Except.bind, hwrite, hzero, ends, h, Bool.false_or]
  rfl

end Capture

/-- A turn only adds to the trace files. -/
theorem written_prefix_capture (o : ShowmapOpts) (cmd outFile : Text) (r : TargetRun mapSize)
    (s : ShowmapState mapSize) :
    s.written <+: (finalState (capture o cmd outFile r s)).written := by
  have hkeep : (finalState (showmapRunTarget o cmd r s)).written = s.written := by
    unfold showmapRunTarget
    dsimp only
    split <;> rfl
  unfold capture
  cases hrun : showmapRunTarget o cmd r s with
  | error t =>
    rw [hrun] at hkeep
    exact hkeep ▸ List.prefix_refl _
  | ok t =>
    rw [hrun] at hkeep
    rw [← hkeep]
    simp only [bind, Except.bind]
    split <;> exact List.prefix_append _ _

/-- The trace file of a run, whatever the process does after it. -/
theorem traceFile_capture {o : ShowmapOpts} {cmd outFile : Text} {r : TargetRun mapSize}
    {s : ShowmapState mapSize}
    {rest : ShowmapState mapSize → Except (ShowmapState mapSize) (ShowmapState mapSize)}
    (hs : Quiet o s) (hrest : ∀ t, t.written <+: (finalState (rest t)).written) :
    traceFile (capture o cmd outFile r s >>= rest) s.written.length =
      if execFails r then none
      else some (traceText o (timedOut o r) (s.childCrashed || crashes o r) r.trace) := by
  cases hexec : execFails r with
  | true =>
    obtain ⟨t, ht, hwritten⟩ := capture_of_execFails hexec
    rw [ht, if_pos rfl]
    show t.written[s.written.length]?.map _ = none
    -- `FATAL` comes before `write_results`, so there is no file.
    rw [hwritten, List.getElem?_eq_none le_rfl]
    rfl
  | false =>
    rw [capture_of_not_execFails hs hexec, if_neg Bool.false_ne_true]
    have hwritten : (captured o outFile r s).written <+:
        (finalState ((if ends o r then .error { captured o outFile r s with
          fatal := some "No instrumentation detected".toList }
          else .ok (captured o outFile r s)) >>= rest)).written := by
      split
      · exact List.prefix_refl _
      · exact hrest _
    -- What is written later comes behind this file.
    obtain ⟨after, hafter⟩ := hwritten
    rw [traceFile, ← hafter]
    show (s.written ++ [_] ++ after)[s.written.length]?.map _ = _
    rw [List.append_assoc, List.getElem?_append_right le_rfl, Nat.sub_self]
    rfl

/-! ### The batch -/

section Batch
variable {o : ShowmapOpts} {cmd outDir : Text} {inputs : List (Text × TargetRun mapSize)}
  {s : ShowmapState mapSize}

/-- The state after inputs none of which has ended the batch. -/
structure RanAll (o : ShowmapOpts) (inputs : List (Text × TargetRun mapSize))
    (s : ShowmapState mapSize) : Prop where
  stopSoon : s.stopSoon = false
  /-- `child_timed_out` is about the last run. -/
  timedOut : s.childTimedOut = inputs.getLast?.any fun input => timedOut o input.2
  /-- `child_crashed` is about all runs. -/
  crashed : s.childCrashed = inputs.any fun input => crashes o input.2
  written : s.written.length = inputs.length

theorem RanAll.quiet (h : RanAll o inputs s) : Quiet o s := by
  refine ⟨h.stopSoon, fun hnone => ?_⟩
  rw [h.timedOut]
  cases inputs.getLast? with
  | none => rfl
  | some input => simp [Showmap.timedOut, hnone]

/-- One more run. -/
theorem RanAll.captured (h : RanAll o inputs s) (input : Text × TargetRun mapSize)
    (outFile : Text) : RanAll o (inputs ++ [input]) (captured o outFile input.2 s) := by
  refine ⟨h.stopSoon, ?_, ?_, ?_⟩
  · rw [List.getLast?_append, List.getLast?_singleton]
    rfl
  · rw [List.any_append, ← h.crashed, List.any_cons, List.any_nil, Bool.or_false]
    rfl
  · show (s.written ++ _).length = _
    rw [List.length_append, List.length_append, h.written]
    rfl

/-- One turn: the batch goes on, or it has ended. -/
theorem RanAll.turn (h : RanAll o inputs s) (input : Text × TargetRun mapSize) :
    ends o input.2 = false ∧
        (∃ t, batchTurn o cmd outDir s input = .ok t ∧ RanAll o (inputs ++ [input]) t) ∨
      ends o input.2 = true ∧
        ∃ t, batchTurn o cmd outDir s input = .error t ∧ t.written.length ≤ inputs.length + 1 := by
  have hnext := h.captured input (outDir ++ '/' :: basename input.1)
  unfold batchTurn
  cases hexec : execFails input.2 with
  | true =>
    obtain ⟨t, ht, hwritten⟩ := capture_of_execFails hexec
    refine Or.inr ⟨by simp [ends, hexec], t, ht, ?_⟩
    rw [hwritten, h.written]
    exact Nat.le_succ _
  | false =>
    rw [capture_of_not_execFails h.quiet hexec]
    cases hends : ends o input.2 with
    | true =>
      refine Or.inr ⟨rfl, _, if_pos rfl, ?_⟩
      exact hnext.written.le.trans (by rw [List.length_append]; rfl)
    | false => exact Or.inl ⟨rfl, _, if_neg Bool.false_ne_true, hnext⟩

/-- The loop runs through all inputs, or an input ends it. -/
theorem showmapBatch_cases (o : ShowmapOpts) (cmd outDir : Text)
    (inputs : List (Text × TargetRun mapSize)) :
    (inputs.any fun input => ends o input.2) = false ∧
        (∃ s, showmapBatch o cmd outDir inputs = .ok s ∧ RanAll o inputs s) ∨
      (inputs.any fun input => ends o input.2) = true ∧
        ∃ s, showmapBatch o cmd outDir inputs = .error s ∧ s.written.length ≤ inputs.length := by
  induction inputs using List.reverseRecOn with
  | nil => exact Or.inl ⟨rfl, {}, rfl, ⟨rfl, rfl, rfl, rfl⟩⟩
  | append_singleton inputs input ih =>
    unfold showmapBatch at ih ⊢
    simp only [List.any_append, List.any_cons, List.any_nil, Bool.or_false, List.foldlM_append,
      List.foldlM_cons, List.foldlM_nil, bind_pure, List.length_append]
    rcases ih with ⟨hnone, s, hrun, hs⟩ | ⟨hends, s, hrun, hlen⟩
    · -- All earlier inputs have gone through; this one decides.
      rw [hnone, hrun, Bool.false_or]
      rcases hs.turn input with ⟨hgo, t, ht, hnext⟩ | ⟨hstop, t, ht, hlen⟩
      · exact Or.inl ⟨hgo, t, ht, hnext⟩
      · exact Or.inr ⟨hstop, t, ht, hlen⟩
    · rw [hends, hrun, Bool.true_or]
      exact Or.inr ⟨rfl, s, rfl, hlen.trans (Nat.le_succ _)⟩

/-- The trace file of an input in a batch. -/
theorem batch_trace (o : ShowmapOpts) (cmd outDir : Text)
    (earlier later : List (Text × TargetRun mapSize)) (file : Text) (r : TargetRun mapSize) :
    traceFile (showmapBatch o cmd outDir (earlier ++ (file, r) :: later)) earlier.length =
      if (earlier.any fun input => ends o input.2) || execFails r then none
      else some (traceText o (Showmap.timedOut o r)
        ((earlier.any fun input => crashes o input.2) || crashes o r) r.trace) := by
  have hsplit : showmapBatch o cmd outDir (earlier ++ (file, r) :: later) =
      showmapBatch o cmd outDir earlier >>= fun s => batchTurn o cmd outDir s (file, r) >>=
        fun t => later.foldlM (batchTurn o cmd outDir) t := by
    rw [showmapBatch, List.foldlM_append]
    rfl
  rw [hsplit]
  rcases showmapBatch_cases o cmd outDir earlier with
    ⟨hnone, s, hrun, hs⟩ | ⟨hends, s, hrun, hlen⟩
  · rw [hnone, hrun, Bool.false_or]
    have hlater : ∀ t : ShowmapState mapSize,
        t.written <+: (finalState (later.foldlM (batchTurn o cmd outDir) t)).written := by
      intro t
      refine log_prefix_foldlM (fun u input => ?_) later t
      exact written_prefix_capture o cmd _ input.2 u
    rw [← hs.written, ← hs.crashed]
    exact traceFile_capture hs.quiet hlater
  · -- The batch has ended before this input.
    rw [hends, hrun, Bool.true_or, if_pos rfl]
    show s.written[earlier.length]?.map _ = none
    rw [List.getElem?_eq_none hlen]
    rfl

end Batch

/-- The trace file of a single-file run. -/
theorem single_trace (o : ShowmapOpts) (cmd outFile : Text) (r : TargetRun mapSize) :
    traceFile (showmapSingle o cmd outFile r) 0 =
      if execFails r then none
      else some (traceText o (timedOut o r) (crashes o r) r.trace) := by
  have hquiet : Quiet o ({} : ShowmapState mapSize) := ⟨rfl, fun _ => rfl⟩
  rw [showmapSingle, ← bind_pure (capture o cmd outFile r {})]
  exact traceFile_capture hquiet fun t => List.prefix_refl t.written

/-- The batch makes a difference to a run: an earlier input has ended it, or an earlier input has
crashed, and the flag decides whether the tuples of this run are written. -/
def Diverges (o : ShowmapOpts) (earlier : List (Text × TargetRun mapSize))
    (r : TargetRun mapSize) : Prop :=
  execFails r = false ∧ ((∃ e ∈ earlier, ends o e.2 = true) ∨
    o.cminMode = true ∧ o.caa = false ∧ timedOut o r = false ∧ crashes o r = false ∧
      (∃ e ∈ earlier, crashes o e.2 = true) ∧ noTuples r = false)

end Showmap

open Showmap

/-- A batch run against single-file runs: the trace file of an input is the one that a single-file
run writes, unless the batch diverges there. -/
theorem batch_eq_single_iff {mapSize : Nat} (o : ShowmapOpts) (cmd outDir outFile : Text)
    (earlier later : List (Text × TargetRun mapSize)) (file : Text) (r : TargetRun mapSize) :
    traceFile (showmapBatch o cmd outDir (earlier ++ (file, r) :: later)) earlier.length =
        traceFile (showmapSingle o cmd outFile r) 0 ↔
      ¬ Diverges o earlier r := by
  rw [batch_trace, single_trace, Diverges, ← List.any_eq_true, ← List.any_eq_true]
  cases execFails r with
  | true => simp
  | false =>
    rw [Bool.or_false, if_neg Bool.false_ne_true]
    cases earlier.any fun e => ends o e.2 with
    | true => simp
    | false =>
      -- The flag differs from the one of a single run iff only an earlier run has crashed.
      have hflag : ∀ a c : Bool, (a || c) ≠ c ↔ c = false ∧ a = true := by decide
      rw [if_neg Bool.false_ne_true, Option.some_inj, ← not_iff_not, not_not, ← ne_eq,
        traceText_ne_iff, blocked_ne_iff, hflag]
      simp only [Bool.false_eq_true, false_or, true_and, and_assoc]

/-- Two runs on which every tuple is hit once. The first is killed by a signal. -/
def crashRun (mapSize : Nat) : TargetRun mapSize := ⟨.fill mapSize 1, false, .signaled 11⟩

@[inherit_doc crashRun] def normalRun (mapSize : Nat) : TargetRun mapSize :=
  ⟨.fill mapSize 1, false, .exited 0⟩

/-- After a crash, `-Z` writes no tuples for an input that does not crash. -/
theorem batch_ne_single :
    ¬ ∀ (o : ShowmapOpts) (cmd outDir outFile : Text)
      (earlier later : List (Text × TargetRun MAP_SIZE)) (file : Text) (r : TargetRun MAP_SIZE),
      traceFile (showmapBatch o cmd outDir (earlier ++ (file, r) :: later)) earlier.length =
        traceFile (showmapSingle o cmd outFile r) 0 := by
  intro hall
  have hsame := hall { cminMode := true } [] [] [] [(['a'], crashRun MAP_SIZE)] [] ['b']
    (normalRun MAP_SIZE)
  have hexec : execFails (crashRun MAP_SIZE) = false := by decide +kernel
  have hexec' : execFails (normalRun MAP_SIZE) = false := hexec
  have hempty : noTuples (normalRun MAP_SIZE) = false := by decide +kernel
  rw [batch_trace, single_trace, hexec', List.any_cons, ends, hexec] at hsame
  exact (traceText_ne_iff _ false true false (normalRun MAP_SIZE)).mpr ⟨by decide, hempty⟩
    (Option.some.inj hsame)

/-- The exit status of a batch: did any run crash, and has the last one timed out? -/
theorem exitStatus_batch {mapSize : Nat} (o : ShowmapOpts) (cmd outDir : Text)
    (inputs : List (Text × TargetRun mapSize)) :
    exitStatus (showmapBatch o cmd outDir inputs) =
      if inputs.any fun input => ends o input.2 then 1
      else (inputs.any fun input => crashes o input.2).toNat * 2 +
        (inputs.getLast?.any fun input => timedOut o input.2).toNat := by
  rcases showmapBatch_cases o cmd outDir inputs with ⟨hnone, s, hrun, hs⟩ | ⟨hends, s, hrun, _⟩
  · rw [hrun, hnone, if_neg Bool.false_ne_true, ← hs.crashed, ← hs.timedOut]
    rfl
  · rw [hrun, hends, if_pos rfl]
    rfl

end TriforceAFL.Proofs
