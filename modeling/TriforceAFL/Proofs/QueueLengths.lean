import TriforceAFL.Proofs.MainLoop

/-!
# `TriforceAFL.Proofs.QueueLengths`: the size of the test cases

A buffer given to `save_if_interesting` may become a file of the queue, and `read_testcases` refuses
a file of more than `MAX_FILE` bytes. The stages that lengthen a buffer check this, with one
exception: the stage "user extras (insert)" does not compare `len + extras[j].len` with `MAX_FILE`.

`session_lengths_of_fits` says that this is the only way out. If in every turn the user tokens fit
behind the entry, or are not inserted, then all buffers and all files of the queue have between 1
and `MAX_FILE` bytes. `largeSeed` starts a session without that condition: a seed of `MAX_FILE`
bytes and a token of one byte.
-/

set_option autoImplicit false

namespace TriforceAFL.Proofs

open Lib Lib.Process Spec

section Lengths
variable {k : Nat}

/-- Files of at most `MAX_FILE` bytes are not too big. -/
theorem readTestcases_ne_tooBig {w : World (8 * k)}
    (h : ∀ f ∈ w.inputs, f.content.length ≤ MAX_FILE) (fn : Text) (size : Nat) :
    (Session.readTestcases w (Session.start w)).result ≠ .error (.testCaseTooBig fn size) := by
  intro hres
  obtain ⟨f, hf, hbig⟩ := ((meets_readTestcases w _ rfl).2.2 _ hres).reason
  have hmax := h f (List.mem_filter.mp hf).1
  omega

/-- When the user tokens fit in every turn, all buffers and all files of the queue have a length in
range, and the queue can be read again. -/
theorem session_lengths_of_fits (w : World (8 * k)) (n : Nat)
    (hfits : ∀ i < n, (Session.session w i (Session.start w)).result = .ok () →
      TurnFits w (Session.session w i (Session.start w)).final) :
    ∀ s ∈ (Session.session w n).states (Session.start w),
      (∀ buf ∈ s.handed, 1 ≤ buf.length ∧ buf.length ≤ MAX_FILE) ∧
      (∀ f ∈ s.globals.queueFiles, 1 ≤ f.2.length ∧ f.2.length ≤ MAX_FILE) ∧
      ∀ w' : World (8 * k), (∀ f ∈ w'.inputs, ∃ g ∈ s.globals.queueFiles, f.content = g.2) →
        ∀ fn size, (Session.readTestcases w' (Session.start w')).result ≠
          .error (.testCaseTooBig fn size) := by
  intro s hs
  have hsession : Meets (· = Session.start w) (Session.session w n) (Base True)
      (fun _ => Looping True False) (Leaves True) :=
    meets_session w n (fun h => h.elim) fun _ => hfits
  have hbase : Base True s :=
    hsession.of_mem_states (fun _ _ h => h.toBase) (fun _ _ h => h.base) rfl hs
  refine ⟨fun buf hbuf => ?_, fun f hf => ?_, fun w' hfiles => ?_⟩
  · exact ⟨(hbase.handed buf hbuf).1, (hbase.handed buf hbuf).2 trivial⟩
  · exact ⟨(hbase.files f hf).1, (hbase.files f hf).2 trivial⟩
  · refine readTestcases_ne_tooBig fun f hf => ?_
    obtain ⟨g, hg, hcontent⟩ := hfiles f hf
    rw [hcontent]
    exact (hbase.files g hg).2 trivial

end Lengths

/-! ### Sessions with one seed and one token -/

/-- An execution without coverage. -/
def silentRun : RunOutcome (8 * 1) := ⟨.none, TraceMap.fill 8 0, false⟩

/-- One seed and the dictionary `k="x"`, in dumb mode. No execution reports anything. -/
def quietWorld (content : List U8) : World (8 * 1) where
  env := ⟨true, fun _ => 0⟩
  dictEnv := insertionEnv
  options := { dumbMode := true, extrasDir := some "dict".toList }
  inputs := [{ name := "seed".toList, content }]
  extrasFs := dictFile "k=\"x\"\n"
  random := fun _ => 99
  exec := fun _ => silentRun
  calibration := fun _ => ⟨fun _ => silentRun, 1⟩
  exec_reported _ := reported_none
  calibration_reported _ _ := reported_none
  inputs_nodup := List.nodup_singleton _
  inputs_plain f hf := by
    rw [List.mem_singleton.mp hf]
    show '/' ∉ "seed".toList
    decide

/-- A seed of four bytes has room for the token. -/
theorem session_lengths_four_bytes :
    let w := quietWorld [1, 2, 3, 4]
    (∀ i < 1, (Session.session w i (Session.start w)).result = .ok () →
      TurnFits w (Session.session w i (Session.start w)).final) ∧
    ∀ s ∈ (Session.session w 1).states (Session.start w),
      (∀ buf ∈ s.handed, 1 ≤ buf.length ∧ buf.length ≤ MAX_FILE) ∧
      (∀ f ∈ s.globals.queueFiles, 1 ≤ f.2.length ∧ f.2.length ≤ MAX_FILE) ∧
      ∀ w' : World (8 * 1), (∀ f ∈ w'.inputs, ∃ g ∈ s.globals.queueFiles, f.content = g.2) →
        ∀ fn size, (Session.readTestcases w' (Session.start w')).result ≠
          .error (.testCaseTooBig fn size) := by
  intro w
  have hfits : ∀ i < 1, (Session.session w i (Session.start w)).result = .ok () →
      TurnFits w (Session.session w i (Session.start w)).final := by
    intro i hi _ _ q hq
    cases Nat.lt_one_iff.mp hi
    have hcur : (Session.beginTurn w
        (Session.session w 0 (Session.start w)).final).final.queueCur = some 0 := by
      decide +kernel
    cases hcur.symm.trans hq
    refine Or.inr (Or.inr (Or.inr ?_))
    decide +kernel
  exact ⟨hfits, session_lengths_of_fits w 1 hfits⟩

/-- What lasts while the stages of `fuzz_one` run without a stop and without coverage. -/
structure Calm (s : Session (8 * 1)) : Prop where
  going : s.stopSoon = false
  mode : s.globals.crashMode = .none
  trace : s.globals.traceBits = TraceMap.fill 8 0
  extras : s.dict.extras = [{ data := bytesOf "x" }]

/-- A part of `fuzz_one` that returns in `φ`. -/
abbrev Calmly {α : Type} (p : Fuzz (8 * 1) α) (φ : α → Prop) : Prop :=
  Keeps Calm (fun _ _ => False) p φ

theorem hasNewBits_silent (virgin : TraceMap (8 * 1)) :
    (hasNewBits true (TraceMap.fill 8 0) virgin).1 = 0 := by
  refine (hasNewBits_ret (k := 1) _ _ _).trans ((verdict_eq_zero_iff _ _ _).mpr ?_)
  rintro ⟨b, hb, hnew⟩
  refine hnew ?_
  rw [TraceMap.byte_fill _ hb]
  exact BitVec.zero_and

/-- A test case without new bits is not saved. -/
theorem saveIfInteresting_of_no_new_bits {m : Nat} {env : Env m} {g : FuzzState m} {c : SaveCall m}
    (hfault : c.fault = g.crashMode) (hmode : g.crashMode = .none)
    (hret : (g.hasNewBits env .bits).1 = 0) :
    saveIfInteresting env g c = .ok (false, (g.hasNewBits env .bits).2) := by
  have hmode' : ¬ (g.hasNewBits env .bits).2.crashMode ≠ .none := fun h => h hmode
  have hqueue : saveToQueue env g c = .ok (.returned, (g.hasNewBits env .bits).2) := by
    unfold saveToQueue
    rw [if_pos hfault]
    dsimp only
    rw [if_pos hret, if_neg hmode']
  unfold saveIfInteresting
  rw [hqueue]

section Quiet
variable (content : List U8)

theorem calmly_saveCase (buf : List U8) :
    Calmly (Session.saveCase (quietWorld content) buf .none) fun _ => True := by
  refine (Keeps.modify fun s hs => ⟨hs.going, hs.mode, hs.trace, hs.extras⟩).bind fun _ _ => ?_
  have hsave : ∀ s : Session (8 * 1), Calm s →
      saveIfInteresting (quietWorld content).env s.globals
        (Session.saveCall (quietWorld content) s buf .none) =
      .ok (false, (s.globals.hasNewBits (quietWorld content).env .bits).2) := by
    intro s hs
    refine saveIfInteresting_of_no_new_bits hs.mode.symm hs.mode ?_
    unfold FuzzState.hasNewBits
    dsimp only
    rw [hs.trace]
    exact hasNewBits_silent _
  refine Keeps.step (fun s a s' hs hg => ?_) fun s e hs hg => ?_
  · rw [hsave s hs] at hg
    cases hg
    refine ⟨trivial, ?_, hs.mode, hs.trace, hs.extras⟩
    show (s.stopSoon || (decide (s.globals.queuedPaths ≠ s.globals.queuedPaths) && _)) = false
    rw [hs.going, decide_eq_false (fun h => h rfl)]
    rfl
  · rw [hsave s hs] at hg
    cases hg

theorem calmly_runTarget : Calmly (Session.runTarget (quietWorld content)) (· = .none) := by
  refine Keeps.step (fun s a s' hs hg => ?_) fun s e _ hg => (by cases hg)
  cases hg
  refine ⟨rfl, ?_, hs.mode, rfl, hs.extras⟩
  show (s.stopSoon || false) = false
  rw [hs.going]
  rfl

theorem calmly_countHangs : Calmly (Session.countHangs .none) (· = false) := by
  refine Keeps.step (fun s a s' hs hg => ?_) fun s e _ hg => (by cases hg)
  cases hg
  exact ⟨rfl, hs.going, hs.mode, hs.trace, hs.extras⟩

theorem calmly_checkSkip : Calmly (Session.checkSkip (quietWorld content)) (· = false) := by
  refine Keeps.step (fun s a s' hs hg => ?_) fun s e _ hg => (by cases hg)
  cases hg
  exact ⟨rfl, hs.going, hs.mode, hs.trace, hs.extras⟩

/-- No execution makes a stage bail out. -/
theorem calmly_commonFuzzStuff (buf : List U8) :
    Calmly (Session.commonFuzzStuff (quietWorld content) buf) (· = false) := by
  refine (calmly_runTarget content).bind fun fault hfault => Keeps.get.bind fun s hs => ?_
  rw [hfault, hs.going]
  refine calmly_countHangs.bind fun hangs hhangs => ?_
  rw [hhangs]
  refine (calmly_checkSkip content).bind fun skip hskip => ?_
  rw [hskip]
  exact (calmly_saveCase content buf).bind fun _ _ => Keeps.pure rfl

/-- The buffer reaches `save_if_interesting`. -/
theorem visits_commonFuzzStuff (buf : List U8) :
    Visits Calm (Session.commonFuzzStuff (quietWorld content) buf) fun s => buf ∈ s.handed := by
  refine Visits.bind_keeps (calmly_runTarget content) fun fault hfault =>
    Visits.bind_keeps Keeps.get fun s hs => ?_
  rw [hfault, hs.going]
  refine Visits.bind_keeps calmly_countHangs fun hangs hhangs => ?_
  rw [hhangs]
  refine Visits.bind_keeps (calmly_checkSkip content) fun skip hskip => ?_
  rw [hskip]
  refine Visits.bind_left (Visits.bind_right (C := fun _ => True) (Q := fun _ s => buf ∈ s.handed)
    (Meets.modify (fun _ _ => trivial) fun s _ => ?_) fun _ => Visits.step fun _ hs => hs) _
  exact List.mem_append_right _ (List.mem_singleton.mpr rfl)

theorem calmly_setOp (f : OpInfo → OpInfo) :
    Calmly (Session.setOp f : Fuzz (8 * 1) Unit) fun _ => True :=
  Keeps.modify fun _ hs => ⟨hs.going, hs.mode, hs.trace, hs.extras⟩

theorem calmly_runEvents (events : List Event) :
    Calmly (Session.runEvents (quietWorld content) events) (· = false) := by
  induction events with
  | nil => exact Keeps.pure rfl
  | cons event events ih =>
    cases event with
    | skip stage reason buf => exact ih
    | exec stage curByte valType curVal buf =>
      refine (calmly_setOp _).bind fun _ _ => ?_
      refine (calmly_commonFuzzStuff content buf).bind fun bail hbail => ?_
      rw [hbail]
      exact ih

theorem calmly_simpleStages (q : Ptr) (inBuf : List U8) :
    Calmly (Session.simpleStages (quietWorld content) q inBuf) (·.isSome = true) := by
  refine Keeps.get.bind fun s _ => (calmly_runEvents content _).bind fun bail hbail => ?_
  refine Keeps.bind (φ := fun _ => True) (Keeps.forM fun token _ => ?_) fun _ _ => ?_
  · refine Keeps.modify fun s hs => ⟨hs.going, hs.mode, hs.trace, ?_⟩
    exact (extras_maybeAddAuto _ _ _ _).trans hs.extras
  · rw [hbail]
    exact Keeps.pure rfl

/-- A part of the overwriting stage. It does not bail out, and `out_buf` keeps its length `n`. -/
abbrev Overwrites {γ : Type} (outBuf : γ → List U8) (n : Nat) (p : Fuzz (8 * 1) (Option γ)) :
    Prop :=
  Calmly p fun r => ∃ acc, r = some acc ∧ (outBuf acc).length = n

theorem overwrites_foldUntil {β γ : Type} (outBuf : γ → List U8) {n : Nat}
    {f : γ → β → Fuzz (8 * 1) (Option γ)} (xs : List β)
    (h : ∀ x ∈ xs, ∀ acc, (outBuf acc).length = n → Overwrites outBuf n (f acc x)) {acc : γ}
    (hacc : (outBuf acc).length = n) : Overwrites outBuf n (Process.foldUntil f xs acc) := by
  induction xs generalizing acc with
  | nil => exact Keeps.pure ⟨acc, rfl, hacc⟩
  | cons x xs ih =>
    refine (h x List.mem_cons_self acc hacc).bind fun r hr => ?_
    obtain ⟨acc', rfl, hacc'⟩ := hr
    exact ih (fun y hy => h y (List.mem_cons_of_mem x hy)) hacc'

theorem overwrites_overwriteTurn (cnt : Nat) (hcnt : cnt ≤ MAX_DET_EXTRAS) (effMap : List Bool)
    {i n : Nat} (hi : i < n) {acc : List U8 × Nat} (hacc : acc.1.length = n) (data : List U8) :
    Overwrites (·.1) n (Session.overwriteTurn (quietWorld content) (some MAX_DET_EXTRAS) cnt
      effMap i acc data) := by
  have hdice : Session.unlucky (quietWorld content) (some MAX_DET_EXTRAS) cnt = pure false :=
    if_neg (Nat.not_lt.mpr hcnt)
  rw [Session.overwriteTurn, hdice]
  refine Keeps.bind (φ := fun _ => True) (Keeps.pure trivial) fun skip _ => ?_
  refine Keeps.ite (fun _ => Keeps.pure ⟨acc, rfl, hacc⟩) fun hnot => ?_
  simp only [Bool.or_eq_true, decide_eq_true_eq, not_or] at hnot
  refine (calmly_commonFuzzStuff content _).bind fun bail hbail => ?_
  rw [hbail]
  refine Keeps.pure ⟨_, rfl, ?_⟩
  rw [length_overwrite acc.1 data (by omega), hacc]

theorem overwrites_overwriteExtras (short : Text) {tokens : List (List U8)}
    (htokens : tokens.length ≤ MAX_DET_EXTRAS) (effMap : List Bool) (inBuf : List U8) :
    Overwrites (fun buf => buf) inBuf.length (Session.overwriteExtras (quietWorld content) short
      (some MAX_DET_EXTRAS) tokens effMap inBuf) := by
  refine (calmly_setOp _).bind fun _ _ => overwrites_foldUntil _ _ (fun i hi outBuf hout => ?_) rfl
  have hi := List.mem_range.mp hi
  refine (calmly_setOp _).bind fun _ _ => ?_
  refine (overwrites_foldUntil (fun acc => acc.1) _ (fun data _ acc hacc => ?_) hout).bind
    fun r hr => ?_
  · exact overwrites_overwriteTurn content _ htokens effMap hi hacc data
  · obtain ⟨acc, rfl, hacc⟩ := hr
    refine Keeps.pure ⟨_, rfl, ?_⟩
    rw [length_overwrite, hacc]
    rw [Session.slice, List.length_take, List.length_drop, hacc]
    omega

/-- The first insertion makes the buffer longer by the token. -/
theorem visits_insertExtras {outBuf : List U8} (hpos : 0 < outBuf.length) (data : List U8) :
    Visits Calm (Session.insertExtras (quietWorld content) [data] outBuf) fun s =>
      ∃ buf ∈ s.handed, buf.length = outBuf.length + data.length := by
  refine Visits.bind_keeps (calmly_setOp _) fun _ _ => ?_
  obtain ⟨i, is, hrange⟩ := List.exists_cons_of_ne_nil
    (List.ne_nil_of_length_pos (Nat.lt_of_lt_of_eq hpos List.length_range.symm))
  rw [hrange]
  refine Visits.bind_left (Visits.bind_keeps (calmly_setOp _) fun _ _ => ?_) _
  refine Visits.bind_left (Visits.bind_left (fun s hs => ?_) _) _
  obtain ⟨c, hc, hmem⟩ := visits_commonFuzzStuff content (Session.insertAt outBuf i data) s hs
  exact ⟨c, hc, _, hmem, length_insertAt outBuf data i⟩

theorem visits_userExtras (effMap : List Bool) {inBuf : List U8} (hpos : 0 < inBuf.length) :
    Visits Calm (Session.userExtras (quietWorld content) effMap inBuf) fun s =>
      ∃ buf ∈ s.handed, buf.length = inBuf.length + 1 := by
  refine Visits.bind_keeps Keeps.get fun s hs => ?_
  dsimp only
  rw [hs.extras]
  refine Visits.bind_keeps (overwrites_overwriteExtras content _ (by decide) effMap inBuf)
    fun r hr => ?_
  obtain ⟨outBuf, rfl, hout⟩ := hr
  rw [← hout]
  exact Visits.bind_left (visits_insertExtras content (hout ▸ hpos) _) _

end Quiet

/-- A file of the right length is read. -/
theorem returns_readCase {m : Nat} {s : Session m} {fn : Text} {content : List U8} {len : Nat}
    (hfile : s.globals.queueFiles.lookup fn = some content) (hlen : content.length = len) :
    Returns s (Session.readCase fn len) content s := by
  have hread : Session.readCase fn len s = ⟨[s], .ok content, s⟩ := by
    unfold Session.readCase Process.step
    dsimp only
    rw [hfile]
    dsimp only
    rw [if_neg (by omega), List.take_of_length_le (by omega)]
  exact ⟨congrArg Run.result hread, congrArg Run.final hread⟩

/-- The dry run of a single test case that is calibrated without a fault. -/
theorem returns_performDryRun {m : Nat} {w : World m} {s t u : Session m} {content : List U8}
    (hlen : s.globals.entries.length = 1) (hqueue : s.globals.queue = some 0)
    (hfile : s.globals.queueFiles.lookup (s.globals.entry 0).fname = some content)
    (hsize : content.length = (s.globals.entry 0).len)
    (hcal : Returns s (Session.calibrate w 0 0) .none t)
    (hstop : Returns t (Session.checkStop w) false u) (hmode : u.globals.crashMode = .none) :
    Returns s (Session.performDryRun w) () u := by
  have hjudge : Returns u (Session.judgeDryRun w 0 .none) false u := by
    refine Returns.bind Returns.get ?_
    dsimp only
    rw [if_neg fun h => h hmode]
    exact Returns.pure false
  have hloop : Returns s (Session.dryRunFrom w s.globals.entries.length s.globals.queue 0)
      (some 0) u := by
    rw [hlen, hqueue]
    exact Returns.bind Returns.get (Returns.bind (returns_readCase hfile hsize) (hcal.bind
      (hstop.bind (hjudge.bind (Returns.bind Returns.get (Returns.pure _))))))
  refine Returns.bind Returns.get (hloop.bind (Returns.bind Returns.get ?_))
  rw [if_neg fun h => h.1 rfl]
  exact Returns.pure ()

/-- `fuzz_one` gets to the insertion of the token, if nothing stops it before. -/
theorem visits_fuzzOne {content : List U8} {s t u : Session (8 * 1)} {perfScore : Nat}
    (hcur : s.queueCur = some 0)
    (hskip : Returns s (Session.skipEntry (quietWorld content) 0) false s)
    (hfile : s.globals.queueFiles.lookup (s.globals.entry 0).fname = some content)
    (hsize : content.length = (s.globals.entry 0).len) (hpos : 0 < content.length)
    (hcal : Returns { s with
        subseqHangs := 0
        globals := { s.globals with curDepth := (s.globals.entry 0).depth } }
      (Session.recalibrate (quietWorld content) 0) false t)
    (hdumb : t.globals.dumbMode = true)
    (hscore : Returns t (Session.calculateScore (quietWorld content) 0) perfScore u)
    (hdet : ((u.globals.entry 0).wasFuzzed || (u.globals.entry 0).passedDet) = false)
    (hcalm : Calm u) :
    Visits (· = s) (Session.fuzzOne (quietWorld content)) fun s =>
      ∃ buf ∈ s.handed, buf.length = content.length + 1 := by
  refine Visits.after Returns.get ?_
  rw [hcur]
  refine Visits.after hskip (Visits.after Returns.get
    (Visits.after (returns_readCase hfile hsize) (Visits.after (a := ()) ⟨rfl, rfl⟩ ?_)))
  refine Visits.bind_left (Visits.after hcal (Visits.after (a := some content) ?_
    (Visits.after hscore (Visits.bind_left (Visits.after Returns.get ?_) _)))) _
  · refine Returns.bind Returns.get ?_
    rw [hdumb]
    exact Returns.pure _
  · have hstages : ((quietWorld content).options.skipDeterministic ||
        (u.globals.entry 0).wasFuzzed || (u.globals.entry 0).passedDet) = false := hdet
    dsimp only
    rw [hstages]
    refine Visits.mono (P := Calm) ?_ fun s hs => hs ▸ hcalm
    refine Visits.bind_keeps (calmly_simpleStages content 0 content) fun r hr => ?_
    obtain ⟨effMap, rfl⟩ := Option.isSome_iff_exists.mp hr
    exact Visits.bind_left (visits_userExtras content effMap hpos) _

/-- A seed of the maximum size. -/
def largeSeed : List U8 := List.replicate MAX_FILE 0

theorem length_largeSeed : largeSeed.length = MAX_FILE := List.length_replicate

theorem largeSeed_ne_nil : largeSeed ≠ [] :=
  List.ne_nil_of_length_pos (Nat.lt_of_lt_of_eq (by decide) length_largeSeed.symm)

/-- The large seed is queued. -/
theorem readTestcase_largeSeed :
    Session.readTestcase (quietWorld largeSeed) { name := "seed".toList, content := largeSeed } =
      Session.setGlobals fun g => addToQueue g "in/seed".toList MAX_FILE false := by
  have hcase : isTestCase "seed".toList largeSeed = true := by
    rw [isTestCase, List.isEmpty_eq_false_iff.mpr largeSeed_ne_nil]
    decide
  unfold Session.readTestcase
  dsimp only
  rw [hcase, length_largeSeed]
  rfl

/-- The run on the large seed after `read_testcases`. -/
def largeQueued : Session (8 * 1) :=
  let s := Session.start (quietWorld largeSeed)
  { s with globals := addToQueue s.globals "in/seed".toList MAX_FILE false }

theorem returns_readTestcases_large :
    Returns (Session.start (quietWorld largeSeed)) (Session.readTestcases (quietWorld largeSeed)) ()
      largeQueued := by
  have hone : Returns (Session.start (quietWorld largeSeed)) (Session.readTestcase
      (quietWorld largeSeed) { name := "seed".toList, content := largeSeed }) () largeQueued := by
    rw [readTestcase_largeSeed]
    exact ⟨rfl, rfl⟩
  refine Returns.bind (Returns.forM_singleton hone) (Returns.bind Returns.get ?_)
  rw [if_neg (by decide)]
  exact Returns.pure _

/-- The stage "user extras (insert)" makes a buffer of more than `MAX_FILE` bytes. -/
theorem session_length_exceeds :
    ∃ s ∈ (Session.session (quietWorld largeSeed) 1).states (Session.start (quietWorld largeSeed)),
      ∃ buf ∈ s.handed, buf.length = MAX_FILE + 1 := by
  have hload : Returns (Session.start (quietWorld largeSeed))
      (Session.loadQueue (quietWorld largeSeed)) () _ :=
    Returns.bind returns_readTestcases_large (Returns.of_result (by decide +kernel))
  have hstart : Returns (Session.start (quietWorld largeSeed))
      (Session.startUp (quietWorld largeSeed)) () _ :=
    hload.bind (Returns.bind (Returns.of_result (a := ()) (by decide +kernel))
      (Returns.bind (Returns.of_result (a := ()) (by decide +kernel))
        (Returns.bind (returns_performDryRun (by decide +kernel) (by decide +kernel) rfl
          length_largeSeed (Returns.of_result (by decide +kernel))
          (Returns.of_result (by decide +kernel)) (by decide +kernel))
          (Returns.of_result (by decide +kernel)))))
  have hturn : Visits (· = Session.start (quietWorld largeSeed))
      (Session.session (quietWorld largeSeed) 1)
      fun s => ∃ buf ∈ s.handed, buf.length = largeSeed.length + 1 := by
    refine Visits.after hstart (Visits.after (Returns.pure ())
      (Visits.after (Returns.of_result (a := ()) (by decide +kernel)) (Visits.bind_left ?_ _)))
    exact visits_fuzzOne (by decide +kernel) ⟨by decide +kernel, rfl⟩ rfl length_largeSeed
      (List.length_pos_iff.mpr largeSeed_ne_nil) (Returns.of_result (by decide +kernel))
      (by decide +kernel) (Returns.of_result (a := 100) (by decide +kernel)) (by decide +kernel)
      ⟨by decide +kernel, by decide +kernel, rfl, by decide +kernel⟩
  obtain ⟨s, hs, buf, hbuf, hlen⟩ := hturn _ rfl
  exact ⟨s, List.mem_append_left _ hs, buf, hbuf, hlen.trans (congrArg (· + 1) length_largeSeed)⟩

end TriforceAFL.Proofs
