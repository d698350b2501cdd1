import TriforceAFL.Proofs.BitflipDedup
import TriforceAFL.Proofs.Dictionary
import TriforceAFL.Proofs.Havoc
import TriforceAFL.Proofs.Sync

/-!
# `TriforceAFL.Proofs.FuzzOne`: `fuzz_one` keeps the invariants

The stages are walked in their order. Trimming writes the length of the entry and replaces its file.
The deterministic stages execute buffers as long as the input, which is read off their plans. The
dictionary stages overwrite within the input, or insert a token: only this last stage has no check
against `MAX_FILE`, and `InsertFits` is what it needs.
-/

set_option autoImplicit false

namespace TriforceAFL.Proofs

open Lib Lib.Process Spec

/-! ### Steps that write an entry or its file -/

section Writes
variable {k : Nat} {bounded fresh : Prop} {s : Session (8 * k)} {g : FuzzState (8 * k)} {q : Nat}

/-- The names of the entries are different. -/
theorem Loaded.nodup_names (h : Loaded bounded fresh s) (hfresh : fresh) :
    (fields (·.fname) s.globals).Nodup := by
  rw [List.nodup_iff_getElem?_ne_getElem?]
  intro i j hij hj heq
  rw [length_fields] at hj
  rw [getElem?_fields (by omega), getElem?_fields hj, Option.some.injEq] at heq
  obtain ⟨o, hi, _⟩ := h.explained hfresh i (by omega)
  obtain ⟨o', hj', _⟩ := h.explained hfresh j hj
  rw [hi, hj'] at heq
  exact absurd (caseName_inj (List.append_cancel_left heq)) (Nat.ne_of_lt hij)

theorem undisturbed_updateEntry (s : Session (8 * k)) (q : Nat) {f : QueueEntry → QueueEntry}
    (hf : ∀ e, (f e).depth = e.depth ∧ (f e).wasFuzzed = e.wasFuzzed ∧
      (f e).passedDet = e.passedDet) :
    Undisturbed s { s with globals := s.globals.updateEntry q f } where
  cur := rfl
  party := rfl
  curDepth := rfl
  extras := rfl
  depth p _ := field_eq_of_fields_eq (fields_updateEntry s.globals q fun e => (hf e).1) p
  wasFuzzed p _ := field_eq_of_fields_eq (fields_updateEntry s.globals q fun e => (hf e).2.1) p
  passed p _ hp :=
    (field_eq_of_fields_eq (fields_updateEntry s.globals q fun e => (hf e).2.2) p).trans hp

/-- What `Live` reads of the globals apart from the entries, the files and their counters. -/
def livePart (g : FuzzState (8 * k)) : Text × Nat × Nat × Nat :=
  (g.outDir, g.totalCalCycles, g.totalBitmapEntries, g.queueCycle)

/-- New globals with the same names and depths. -/
theorem Live.rewrite (h : Live bounded fresh s) (hbooks : Books g)
    (hlens : ∀ n ∈ fields (·.len) g, LenOk bounded n)
    (hfiles : ∀ f ∈ g.queueFiles, LenOk bounded f.2.length)
    (hlisted : fresh → (g.queueFiles.map (·.1)).Perm (fields (·.fname) s.globals))
    (hnames : fields (·.fname) g = fields (·.fname) s.globals)
    (hdepths : fields (·.depth) g = fields (·.depth) s.globals)
    (hpart : livePart g = livePart s.globals) : Live bounded fresh { s with globals := g } := by
  have hlen : g.entries.length = s.globals.entries.length := length_eq_of_fields_eq hnames
  simp only [livePart, Prod.mk.injEq] at hpart
  obtain ⟨hdir, hcycles, hbitmaps, hcycle⟩ := hpart
  refine ⟨⟨⟨hbooks, hlens, hfiles, h.handed⟩, ?_, h.short, ?_, ?_⟩, ?_, ?_, ?_, ?_⟩
  · exact Nat.lt_of_lt_of_eq h.nonempty hlen.symm
  · intro hfresh p hp
    refine (h.explained hfresh p (Nat.lt_of_lt_of_eq hp hlen)).of_eq hdir ?_ fun r _ => ?_
    · exact field_eq_of_fields_eq hnames p
    · exact field_eq_of_fields_eq hdepths r
  · intro hfresh
    exact (hlisted hfresh).trans (List.Perm.of_eq hnames.symm)
  · exact Nat.lt_of_lt_of_eq h.cycles hcycles.symm
  · exact Nat.lt_of_lt_of_eq h.bitmaps hbitmaps.symm
  · exact Nat.lt_of_lt_of_eq h.seek hlen.symm
  · intro p hp
    obtain ⟨hcur, hlt, hpos⟩ := h.current p hp
    exact ⟨hcur, Nat.lt_of_lt_of_eq hlt hlen.symm, Nat.lt_of_lt_of_eq hpos hcycle.symm⟩

/-- A shorter length of an entry. -/
theorem Live.setLen (h : Live bounded fresh s) (q : Nat) {n : Nat} (hn : LenOk bounded n) :
    Live bounded fresh { s with
      globals := s.globals.updateEntry q fun e => { e with len := n } } := by
  refine h.rewrite (h.books.updateEntry q fun _ => ⟨rfl, rfl, rfl, rfl, rfl⟩) ?_ h.files h.listed
    (fields_updateEntry s.globals q fun _ => rfl) (fields_updateEntry s.globals q fun _ => rfl) rfl
  intro x hx
  obtain ⟨p, hp, rfl⟩ := mem_fields.mp hx
  rw [length_updateEntry] at hp
  rw [entry_updateEntry]
  split
  · exact hn
  · exact h.lens _ (mem_fields.mpr ⟨p, hp, rfl⟩)

/-- Dropping the file of an entry removes one name. -/
theorem map_dropFile (hnodup : (g.queueFiles.map (·.1)).Nodup) (q : Nat) :
    (Session.dropFile g q).queueFiles.map (·.1) =
      (g.queueFiles.map (·.1)).erase (g.entry q).fname := by
  rw [hnodup.erase_eq_filter, Session.dropFile, List.filter_map]
  congr 1
  refine List.filter_congr fun f _ => ?_
  by_cases hf : f.1 = (g.entry q).fname <;> simp [hf]

/-- Replacing the file of an entry leaves the same names. -/
theorem perm_replaceFile (hlisted : (g.queueFiles.map (·.1)).Perm (fields (·.fname) g))
    (hnodup : (fields (·.fname) g).Nodup) (hq : q < g.entries.length) (buf : List U8) :
    ((Session.replaceFile g q buf).queueFiles.map (·.1)).Perm (fields (·.fname) g) := by
  have hmem : (g.entry q).fname ∈ g.queueFiles.map (·.1) :=
    hlisted.mem_iff.mpr (mem_fields.mpr ⟨q, hq, rfl⟩)
  refine List.Perm.trans ?_ hlisted
  show ((Session.dropFile g q).queueFiles ++ [((g.entry q).fname, buf)]).map (·.1) |>.Perm _
  rw [List.map_append, map_dropFile (hlisted.nodup_iff.mpr hnodup)]
  exact List.perm_append_singleton _ _ |>.trans (List.perm_cons_erase hmem).symm

theorem mem_dropFile {f : Text × List U8} (h : f ∈ (Session.dropFile g q).queueFiles) :
    f ∈ g.queueFiles := (List.mem_filter.mp h).1

theorem Live.replaceFile (h : Live bounded fresh s) (hq : q < s.globals.entries.length)
    {buf : List U8} (hbuf : LenOk bounded buf.length) :
    Live bounded fresh { s with globals := Session.replaceFile s.globals q buf } := by
  refine h.rewrite (h.books.setFiles _) h.lens ?_ (fun hfresh => ?_) rfl rfl rfl
  · intro f hf
    rcases List.mem_append.mp hf with hf | hf
    · exact h.files f (mem_dropFile hf)
    · rw [List.mem_singleton.mp hf]
      exact hbuf
  · exact perm_replaceFile (h.listed hfresh) (h.nodup_names hfresh) hq buf

theorem Base.dropFile (h : Base bounded s) (q : Nat) :
    Base bounded { s with globals := Session.dropFile s.globals q } :=
  ⟨h.books.setFiles _, h.lens, fun f hf => h.files f (mem_dropFile hf), h.handed⟩

/-- After its file was dropped, an entry is not in the directory. -/
theorem Loaded.length_dropFile (h : Loaded bounded fresh s) (hfresh : fresh)
    (hq : q < s.globals.entries.length) :
    (Session.dropFile s.globals q).queueFiles.length < s.globals.entries.length := by
  have hlisted := h.listed hfresh
  have hmem : (s.globals.entry q).fname ∈ s.globals.queueFiles.map (·.1) :=
    hlisted.mem_iff.mpr (mem_fields.mpr ⟨q, hq, rfl⟩)
  have hdrop := congrArg List.length
    (map_dropFile (hlisted.nodup_iff.mpr (h.nodup_names hfresh)) q)
  have hlen := hlisted.length_eq
  rw [length_fields] at hlen
  rw [List.length_map, List.length_erase_of_mem hmem, hlen] at hdrop
  omega

/-- Closing an entry. -/
theorem Live.abandon (h : Live bounded fresh s) (hq : q < s.globals.entries.length) (stop : Bool) :
    Live bounded fresh { s with globals := abandonEntry s.globals q stop } := by
  have hfields : ∀ {β : Type} {g : QueueEntry → β}, (∀ e b, g { e with wasFuzzed := b } = g e) →
      fields g (abandonEntry s.globals q stop) = fields g s.globals :=
    fun hg => fields_abandonEntry hg s.globals q stop
  have hframe : (abandonEntry s.globals q stop).queueFiles = s.globals.queueFiles ∧
      livePart (abandonEntry s.globals q stop) = livePart s.globals := by
    unfold abandonEntry
    dsimp only
    split <;> exact ⟨rfl, rfl⟩
  refine h.rewrite (h.books.abandon hq stop) ?_ ?_ ?_ (hfields fun _ _ => rfl)
    (hfields fun _ _ => rfl) hframe.2
  · rw [hfields fun _ _ => rfl]
    exact h.lens
  · rw [hframe.1]
    exact h.files
  · rw [hframe.1]
    exact h.listed

end Writes

section Stages
variable {k : Nat} {bounded fresh : Prop} {w : World (8 * k)} {q len : Nat} {toks : List Extra}
variable {inBuf : List U8}

/-- A part of `fuzz_one` between the opening and the closing of entry `q`. -/
abbrev Fuzzes {α : Type} (w : World (8 * k)) (bounded fresh : Prop) (q len : Nat)
    (toks : List Extra) (p : Fuzz (8 * k) α) (φ : α → Prop) : Prop :=
  Keeps (Fuzzing w bounded fresh q len toks) (Exits bounded fresh) p φ

theorem Fuzzing.cycle_pos {s : Session (8 * k)} (h : Fuzzing w bounded fresh q len toks s) :
    0 < s.globals.queueCycle := (h.current q h.cur).2.2

/-! ### Calibration and trimming -/

theorem fuzzes_recalibrate :
    Fuzzes w bounded fresh q len toks (Session.recalibrate w q) fun _ => True := by
  have hI := steady_fuzzing bounded fresh w q len toks
  have hagain : ∀ calFailed cycle, Fuzzes w bounded fresh q len toks
      (Session.calibrateAgain w q calFailed cycle) fun _ => True := fun calFailed cycle =>
    Keeps.ite (fun _ => hI.calibrate w (fun _ hs => hs.lt_length) _) fun _ => Keeps.pure trivial
  refine Keeps.get.bind fun s _ => ?_
  refine Keeps.ite (fun _ => Keeps.pure trivial) fun _ => (hagain _ _).bind fun res _ => ?_
  refine Keeps.ite (fun _ => hI.exit fun h => by cases h) fun _ => ?_
  exact (hI.checkStop w).bind fun stop _ => Keeps.pure trivial

/-- The input is not empty, and no longer than it was. -/
def Trimmed (bounded : Prop) (len : Nat) (buf : List U8) : Prop :=
  LenOk bounded buf.length ∧ buf.length ≤ len

/-- A deletion behind position `pos > 0` leaves something. -/
theorem Trimmed.delete {buf : List U8} (h : Trimmed bounded len buf) {pos n : Nat} (hpos : 0 < pos)
    (hend : pos + n ≤ buf.length) : Trimmed bounded len (Session.deleteAt buf pos n) := by
  have hlen := h.2
  rw [Trimmed, length_deleteAt buf hend]
  refine ⟨⟨by omega, fun hb => ?_⟩, by omega⟩
  have hmax := h.1.2 hb
  omega

theorem fuzzes_setLen {n : Nat} (hn : LenOk bounded n) :
    Fuzzes w bounded fresh q len toks
      (Session.setGlobals fun g => g.updateEntry q fun e => { e with len := n })
      fun _ => True := by
  refine Keeps.modify fun s hs => ?_
  exact hs.undisturbed (undisturbed_updateEntry s q fun _ => ⟨rfl, rfl, rfl⟩)
    (hs.toLive.setLen q hn)

theorem fuzzes_trimPass (removeLen fuel : Nat) {removePos : Nat}
    (hpos : 0 < removePos) {t : Session.TrimState (8 * k)} (ht : Trimmed bounded len t.buf) :
    Fuzzes w bounded fresh q len toks (Session.trimPass w q removeLen fuel removePos t)
      fun r => Trimmed bounded len r.2.buf := by
  have hI := steady_fuzzing bounded fresh w q len toks
  induction fuel generalizing removePos t with
  | zero => exact Keeps.pure ht
  | succ fuel ih =>
    refine Keeps.ite (fun hlt => ?_) fun _ => Keeps.pure ht
    refine (hI.runTarget w).bind fun fault _ => Keeps.get.bind fun s _ => ?_
    refine Keeps.ite (fun _ => Keeps.pure ht) fun _ => ?_
    refine Keeps.ite (fun _ => ?_) fun _ => ih (Nat.lt_of_lt_of_le hpos (Nat.le_add_right _ _)) ht
    have hcut := ht.delete (n := min removeLen (t.buf.length - removePos)) hpos (by omega)
    exact (fuzzes_setLen hcut.1).bind fun _ _ => ih hpos hcut

theorem fuzzes_trimPasses (fuel removeLen : Nat) {t : Session.TrimState (8 * k)}
    (ht : Trimmed bounded len t.buf) :
    Fuzzes w bounded fresh q len toks (Session.trimPasses w q fuel removeLen t)
      fun r => Trimmed bounded len r.2.buf := by
  induction fuel generalizing removeLen t with
  | zero => exact Keeps.pure ht
  | succ fuel ih =>
    refine Keeps.ite (fun hlarge => ?_) fun _ => Keeps.pure ht
    have hmin : 0 < TRIM_MIN_BYTES := by decide
    refine (fuzzes_trimPass _ _ (by omega) ht).bind fun r hr => ?_
    exact Keeps.ite (fun _ => Keeps.pure hr) fun _ => ih _ hr

theorem fuzzes_writeTrimmed {buf : List U8} (hbuf : LenOk bounded buf.length)
    (trace : TraceMap (8 * k)) :
    Fuzzes w bounded fresh q len toks (Session.writeTrimmed w q buf trace) fun _ => True := by
  have hI := steady_fuzzing bounded fresh w q len toks
  have hcreate : Fuzzes w bounded fresh q len toks
      (Process.step fun s : Session (8 * k) => .ok (w.canCreate s.clock, s.tick))
      fun _ => True := by
    refine hI.step (fun s a s' _ hg => ?_) fun s e _ hg => (by cases hg)
    cases hg
    exact ⟨trivial, quiet_tick s⟩
  refine hcreate.bind fun created _ => Keeps.ite (fun _ => ?_) fun _ => ?_
  · refine Keeps.modify fun s hs => ?_
    have hfile : Fuzzing w bounded fresh q len toks
        { s with globals := Session.replaceFile s.globals q buf } :=
      hs.undisturbed ⟨rfl, rfl, rfl, rfl, fun _ _ => rfl, fun _ _ => rfl, fun _ _ h => h⟩
        (hs.toLive.replaceFile hs.lt_length hbuf)
    refine hfile.quiet ⟨?_, rfl, fun h => h⟩
    exact (touched_setTrace _ trace).trans (touched_updateBitmapScore _ q)
  · -- The old file is gone, and the process ends.
    let R : Session (8 * k) → Prop := fun s => Base bounded s ∧
      (fresh → s.globals.queueFiles.length < s.globals.entries.length)
    refine Meets.bind (R := fun _ => R) (Meets.modify (fun _ hs => hs) fun s hs => ?_) fun _ => ?_
    · exact ⟨hs.toBase.dropFile q, fun hfresh => hs.length_dropFile hfresh hs.lt_length⟩
    · refine Meets.bind (R := fun _ => R) (Meets.get fun _ hs => hs) fun s => ?_
      exact Meets.exit fun t ht => ⟨fun h => (by cases h), ht.1, Or.inr ht.2⟩

theorem fuzzes_trimCase (hin : Trimmed bounded len inBuf) :
    Fuzzes w bounded fresh q len toks (Session.trimCase w q inBuf)
      fun r => Trimmed bounded len r.2 := by
  refine Keeps.ite (fun _ => Keeps.pure hin) fun _ => ?_
  refine (fuzzes_trimPasses _ _ hin).bind fun r hr => ?_
  obtain ⟨abort, t⟩ := r
  dsimp only
  split
  · rename_i trace _
    exact (fuzzes_writeTrimmed hr.1 trace).bind fun _ _ => Keeps.pure hr
  · exact Keeps.pure hr

theorem fuzzes_trimStage (hin : Trimmed bounded len inBuf) :
    Fuzzes w bounded fresh q len toks (Session.trimStage w q inBuf)
      fun r => ∀ buf ∈ r, Trimmed bounded len buf := by
  have hI := steady_fuzzing bounded fresh w q len toks
  have hsome : ∀ {buf : List U8}, Trimmed bounded len buf →
      ∀ buf' ∈ some buf, Trimmed bounded len buf' := by
    intro buf hbuf buf' hmem
    rwa [← Option.mem_some_iff.mp hmem]
  refine Keeps.get.bind fun s _ => ?_
  refine Keeps.ite (fun _ => Keeps.pure (hsome hin)) fun _ => ?_
  refine (fuzzes_trimCase hin).bind fun r hr => ?_
  obtain ⟨res, buf⟩ := r
  refine Keeps.ite (fun _ => hI.exit fun h => by cases h) fun _ => ?_
  refine (hI.checkStop w).bind fun stop _ => ?_
  refine Keeps.ite (fun _ => ?_) fun _ => ?_
  · exact Keeps.pure fun buf' hmem => absurd hmem (Option.not_mem_none buf')
  · refine (hI.modify fun s _ => ?_).bind fun _ _ => Keeps.pure (hsome hr)
    exact Quiet.of_globals_eq rfl rfl fun h => h

/-! ### The deterministic stages -/

/-- The buffer of an event has the length `n`. -/
def EventLen (n : Nat) : Event → Prop
  | .exec _ _ _ _ buf => buf.length = n
  | .skip _ _ _ => True

/-- The deterministic stages execute buffers as long as the input. -/
theorem eventLen_of_mem_plan {passedDet : Bool} {eff : List Bool} {val : Int} {e : Event}
    (h : e ∈ deterministicPlan inBuf passedDet eff val) : EventLen inBuf.length e := by
  have hinterest : ∀ stage n i (new : BitVec (8 * n)) skip valType val,
      EventLen inBuf.length (interestEvent inBuf stage n i new skip valType val) := by
    intro stage n i new skip valType val
    cases skip with
    | some reason => trivial
    | none => exact length_store n inBuf i new
  rcases mem_deterministicPlan h with h | h | h
  · obtain ⟨_, _, _, _, c, rfl, _, b, n, _, hc⟩ := flipRun_of_mem h
    exact hc.1
  · obtain ⟨stage, n, i, carry, new, valType, val, _, _, _, rfl⟩ := arithEvent_of_mem h
    unfold arithEvent
    dsimp only
    split
    · trivial
    · split
      · trivial
      · exact length_store n inBuf i new
  · rcases mem_interestsPlan h with ⟨i, v, _, _, he⟩ | ⟨i, v, _, _, he⟩ | ⟨i, v, _, _, he⟩
    · rw [int8Events, List.mem_singleton] at he
      subst he
      exact hinterest _ _ _ _ _ _ _
    · simp only [intEvents, List.mem_cons, List.not_mem_nil, or_false] at he
      rcases he with rfl | rfl <;> exact hinterest _ _ _ _ _ _ _
    · simp only [intEvents, List.mem_cons, List.not_mem_nil, or_false] at he
      rcases he with rfl | rfl <;> exact hinterest _ _ _ _ _ _ _

/-- The same for what was executed when the stages end, one way or the other. -/
theorem eventLen_of_mem_log (env : DetEnv) (inBuf : List U8) {e : Event}
    (h : e ∈ (finalState (deterministic env inBuf.length { outBuf := inBuf })).log) :
    EventLen inBuf.length e := by
  obtain ⟨eff, _, hmap⟩ := exists_effMap_or env inBuf { outBuf := inBuf } []
  obtain ⟨done, hdone, hlog⟩ := (deterministic_logs env { outBuf := inBuf } rfl hmap).finalState_log
  rw [hlog] at h
  exact eventLen_of_mem_plan (hdone.subset h)

theorem slash_notMem_short (stage : Stage) : '/' ∉ stage.short := by
  cases stage <;> decide

theorem fuzzes_runEvents {n : Nat} (hn : LenOk bounded n) {events : List Event}
    (h : ∀ e ∈ events, EventLen n e) :
    Fuzzes w bounded fresh q len toks (Session.runEvents w events) fun _ => True := by
  have hI := saving_fuzzing bounded fresh w q len toks
  induction events with
  | nil => exact Keeps.pure trivial
  | cons e events ih =>
    have hrest := ih fun e' he' => h e' (List.mem_cons_of_mem e he')
    cases e with
    | skip stage reason buf => exact hrest
    | exec stage curByte valType curVal buf =>
      have hbuf : buf.length = n := h _ List.mem_cons_self
      refine (hI.setOp (f := fun op => { op with
        stageShort := stage.short
        stageCurByte := curByte
        stageValType := valType
        stageCurVal := curVal }) (fun _ => ⟨rfl, rfl⟩)
        fun _ _ => slash_notMem_short stage).bind fun _ _ => ?_
      refine (hI.commonFuzzStuff w (hbuf.symm ▸ hn)).bind fun bail _ => ?_
      exact Keeps.ite (fun _ => Keeps.pure trivial) fun _ => hrest

theorem fuzzes_addTokens (tokens : List (List U8)) :
    Fuzzes w bounded fresh q len toks (Session.addTokens w tokens) fun _ => True := by
  have hI := steady_fuzzing bounded fresh w q len toks
  refine Keeps.forM fun token _ => hI.modify fun s _ => ?_
  refine Quiet.of_globals_eq rfl ?_ fun h => h
  simp only [sessionFrame, Session.tick, extras_maybeAddAuto]

theorem fuzzes_simpleStages (hin : LenOk bounded inBuf.length) :
    Fuzzes w bounded fresh q len toks (Session.simpleStages w q inBuf) fun _ => True := by
  refine Keeps.get.bind fun s _ => ?_
  refine (fuzzes_runEvents hin fun e he => eventLen_of_mem_log _ _ he).bind fun bail _ => ?_
  refine (fuzzes_addTokens _).bind fun _ _ => ?_
  exact Keeps.ite (fun _ => Keeps.pure trivial) fun _ => Keeps.pure trivial

/-! ### The dictionary stages -/

theorem fuzzes_unlucky (manyLimit : Option Nat) (cnt : Nat) :
    Fuzzes w bounded fresh q len toks (Session.unlucky w manyLimit cnt) fun _ => True := by
  have hI := steady_fuzzing bounded fresh w q len toks
  cases manyLimit with
  | none => exact Keeps.pure trivial
  | some limit =>
    refine Keeps.ite (fun hmany => ?_) fun _ => Keeps.pure trivial
    exact (hI.ur w (by omega)).bind fun r _ => Keeps.pure trivial

theorem fuzzes_overwriteTurn (manyLimit : Option Nat) (cnt : Nat) (effMap : List Bool) {n i : Nat}
    (hn : LenOk bounded n) (hi : i < n) {acc : List U8 × Nat} (hacc : acc.1.length = n)
    (data : List U8) :
    Fuzzes w bounded fresh q len toks (Session.overwriteTurn w manyLimit cnt effMap i acc data)
      fun r => ∀ acc' ∈ r, acc'.1.length = n := by
  have hI := saving_fuzzing bounded fresh w q len toks
  refine (fuzzes_unlucky manyLimit cnt).bind fun skip _ => ?_
  refine Keeps.ite (fun _ => Keeps.pure fun acc' hmem => ?_) fun hnot => ?_
  · rwa [← Option.mem_some_iff.mp hmem]
  · simp only [Bool.or_eq_true, decide_eq_true_eq, not_or] at hnot
    have hout : (Session.overwrite acc.1 i data).length = n := by
      rw [length_overwrite acc.1 data (by omega), hacc]
    refine (hI.commonFuzzStuff w (hout.symm ▸ hn)).bind fun bail _ => Keeps.pure fun acc' hmem => ?_
    cases bail with
    | true => exact absurd hmem (Option.not_mem_none _)
    | false =>
      rw [← Option.mem_some_iff.mp hmem]
      exact hout

theorem fuzzes_overwriteOffset (manyLimit : Option Nat) (tokens : List (List U8))
    (effMap : List Bool) {inBuf outBuf : List U8} (hin : LenOk bounded inBuf.length)
    (hout : outBuf.length = inBuf.length) {i : Nat} (hi : i < inBuf.length) :
    Fuzzes w bounded fresh q len toks
      (Session.overwriteOffset w manyLimit tokens effMap inBuf outBuf i)
      fun r => ∀ buf ∈ r, buf.length = inBuf.length := by
  have hI := steady_fuzzing bounded fresh w q len toks
  refine (hI.setOp (f := fun op => { op with stageCurByte := i }) (fun _ => ⟨rfl, rfl⟩)
    fun _ h => h).bind fun _ _ => ?_
  refine (Keeps.foldUntil (J := fun acc : List U8 × Nat => acc.1.length = inBuf.length)
    (fun data _ acc hacc => fuzzes_overwriteTurn manyLimit _ effMap hin hi hacc data) hout).bind ?_
  intro r hr
  cases r with
  | none => exact Keeps.pure fun buf hmem => absurd hmem (Option.not_mem_none _)
  | some acc =>
    refine Keeps.pure fun buf hmem => ?_
    have hacc := hr acc rfl
    rw [← Option.mem_some_iff.mp hmem, length_overwrite, hacc]
    rw [Session.slice, List.length_take, List.length_drop, hacc]
    omega

theorem fuzzes_overwriteExtras {short : Text} (hshort : '/' ∉ short) (manyLimit : Option Nat)
    (tokens : List (List U8)) (effMap : List Bool) (hin : LenOk bounded inBuf.length) :
    Fuzzes w bounded fresh q len toks
      (Session.overwriteExtras w short manyLimit tokens effMap inBuf)
      fun r => ∀ buf ∈ r, buf.length = inBuf.length := by
  have hI := steady_fuzzing bounded fresh w q len toks
  refine (hI.setOp (f := fun op => { op with stageShort := short, stageValType := .none })
    (fun _ => ⟨rfl, rfl⟩) fun _ _ => hshort).bind fun _ _ => ?_
  refine Keeps.foldUntil (fun i hi outBuf hout => ?_) rfl
  exact fuzzes_overwriteOffset manyLimit tokens effMap hin hout (List.mem_range.mp hi)

/-- The insertions need room for every token. -/
theorem fuzzes_insertExtras {tokens : List (List U8)} {outBuf : List U8}
    (hroom : ∀ data ∈ tokens, LenOk bounded (outBuf.length + data.length)) :
    Fuzzes w bounded fresh q len toks (Session.insertExtras w tokens outBuf) fun _ => True := by
  have hI := saving_fuzzing bounded fresh w q len toks
  have hoffset : ∀ i, Fuzzes w bounded fresh q len toks (Session.insertOffset w tokens outBuf i)
      fun _ => True := by
    intro i
    refine (hI.setOp (f := fun op => { op with stageCurByte := i }) (fun _ => ⟨rfl, rfl⟩)
      fun _ h => h).bind fun _ _ => ?_
    refine (Keeps.foldUntil (J := fun _ => True) (fun data hdata _ _ => ?_) trivial).mono
      fun _ _ => trivial
    have hlen : LenOk bounded (Session.insertAt outBuf i data).length := by
      rw [length_insertAt]
      exact hroom data hdata
    exact (hI.commonFuzzStuff w hlen).bind fun bail _ => Keeps.pure fun _ _ => trivial
  refine (hI.setOp (f := fun op => { op with stageShort := "ext_UI".toList })
    (fun _ => ⟨rfl, rfl⟩) fun _ _ => ?_).bind fun _ _ => ?_
  · show '/' ∉ "ext_UI".toList
    decide
  · refine (Keeps.foldUntil (J := fun _ => True) (fun i _ _ _ => ?_) trivial).mono
      fun _ _ => trivial
    exact (hoffset i).mono fun _ _ _ _ => trivial

theorem fuzzes_userExtras (effMap : List Bool) (hin : LenOk bounded inBuf.length)
    (hroom : bounded → ∀ token ∈ toks, inBuf.length + token.data.length ≤ MAX_FILE) :
    Fuzzes w bounded fresh q len toks (Session.userExtras w effMap inBuf) fun _ => True := by
  refine Keeps.get.bind fun s hs => ?_
  refine Keeps.ite (fun _ => Keeps.pure trivial) fun _ => ?_
  refine (fuzzes_overwriteExtras (by decide) _ _ effMap hin).bind fun r hr => ?_
  cases r with
  | none => exact Keeps.pure trivial
  | some outBuf =>
    refine (fuzzes_insertExtras fun data hdata => ?_).bind fun _ _ => Keeps.pure trivial
    rw [hs.extras] at hdata
    obtain ⟨token, htoken, rfl⟩ := List.mem_map.mp hdata
    rw [hr outBuf rfl]
    exact ⟨Nat.le_trans hin.1 (Nat.le_add_right _ _), fun hb => hroom hb token htoken⟩

theorem fuzzes_autoExtras (effMap : List Bool) (hin : LenOk bounded inBuf.length) :
    Fuzzes w bounded fresh q len toks (Session.autoExtras w effMap inBuf) fun _ => True := by
  refine Keeps.get.bind fun s _ => ?_
  refine Keeps.ite (fun _ => Keeps.pure trivial) fun _ => ?_
  exact (fuzzes_overwriteExtras (by decide) _ _ effMap hin).mono fun _ _ => trivial

theorem Steady.markAsDetDone {I : Session (8 * k) → Prop} (hI : Steady bounded fresh I)
    (w : World (8 * k)) (q : Nat) :
    Keeps I (Exits bounded fresh) (Session.markAsDetDone w q) fun _ => True := by
  refine Keeps.get.bind fun s _ => (hI.createFile w _).bind fun _ _ => ?_
  exact hI.setGlobals fun s _ => Touched.mark_passed s.globals q

theorem fuzzes_detStages (hin : Trimmed bounded len inBuf) :
    Fuzzes w bounded fresh q len toks (Session.detStages w q inBuf) fun _ => True := by
  have hI := steady_fuzzing bounded fresh w q len toks
  refine Keeps.get.bind fun s hs => ?_
  refine Keeps.ite (fun _ => Keeps.pure trivial) fun hdet => ?_
  simp only [Bool.or_eq_true, not_or] at hdet
  -- The insertion stage is reached only now, so the tokens fit.
  have hroom : bounded → ∀ token ∈ toks, inBuf.length + token.data.length ≤ MAX_FILE := by
    intro hb token htoken
    have hlen := hin.2
    rcases hs.fits hb with h | h | h | h
    · exact absurd h hdet.1.1
    · exact absurd h hdet.1.2
    · exact absurd h hdet.2
    · have hfit := h token (hs.extras.symm ▸ htoken)
      omega
  refine (fuzzes_simpleStages hin.1).bind fun r _ => ?_
  cases r with
  | none => exact Keeps.pure trivial
  | some effMap =>
    refine (fuzzes_userExtras effMap hin.1 hroom).bind fun r _ => ?_
    cases r with
    | none => exact Keeps.pure trivial
    | some _ =>
      refine (fuzzes_autoExtras effMap hin.1).bind fun r _ => ?_
      cases r with
      | none => exact Keeps.pure trivial
      | some _ => exact (hI.markAsDetDone w q).bind fun _ _ => Keeps.pure trivial

/-! ### `fuzz_one` -/

theorem fuzzes_fuzzStages (hin : Trimmed bounded len inBuf) :
    Fuzzes w bounded fresh q len toks (Session.fuzzStages w q inBuf) fun _ => True := by
  have hI := saving_fuzzing bounded fresh w q len toks
  refine fuzzes_recalibrate.bind fun failed _ => ?_
  refine Keeps.ite (fun _ => Keeps.pure trivial) fun _ => ?_
  refine (fuzzes_trimStage hin).bind fun r hr => ?_
  cases r with
  | none => exact Keeps.pure trivial
  | some buf =>
    have hbuf := hr buf rfl
    refine (hI.calculateScore hI.live w q).bind fun perfScore _ => ?_
    refine (fuzzes_detStages hbuf).bind fun bail _ => ?_
    refine Keeps.ite (fun _ => Keeps.pure trivial) fun _ => ?_
    exact keeps_randomStages hI (fun _ hs => hs.cycle_pos) w q hbuf.1 perfScore

/-- `fuzz_one` considers entry `q`, whose core is `core`. -/
structure Opening (w : World (8 * k)) (bounded fresh : Prop) (q : Nat) (toks : List Extra)
    (core : Text × Nat × Bool × Nat × Option Ptr) (s : Session (8 * k)) : Prop
    extends Running bounded fresh (some q) s where
  entry : coreFields (s.globals.entry q) = core
  extras : s.dict.extras = toks
  fits : bounded → InsertFits w q core.2.1 s

theorem steady_opening (bounded fresh : Prop) (w : World (8 * k)) (q : Nat) (toks : List Extra)
    (core : Text × Nat × Bool × Nat × Option Ptr) :
    Steady bounded fresh (Opening w bounded fresh q toks core) := by
  refine ⟨fun _ h => h.toLoaded, fun s s' h hq => ?_⟩
  have hlt := (h.current q h.cur).2.1
  have hu := hq.undisturbed
  refine ⟨h.toRunning.quiet hq, ?_, hu.extras.trans h.extras, fun hb => ?_⟩
  · exact (field_eq_of_fields_eq hq.globals.core q).trans h.entry
  · rcases h.fits hb with hskip | hfuzzed | hpassed | hfit
    · exact Or.inl hskip
    · exact Or.inr (Or.inl ((hu.wasFuzzed q hlt).trans hfuzzed))
    · exact Or.inr (Or.inr (Or.inl (hu.passed q hlt hpassed)))
    · exact Or.inr (Or.inr (Or.inr (hu.extras ▸ hfit)))

theorem Steady.skipEntry {I : Session (8 * k) → Prop} (hI : Steady bounded fresh I)
    (w : World (8 * k)) (q : Nat) :
    Keeps I (Exits bounded fresh) (Session.skipEntry w q) fun _ => True := by
  refine Keeps.get.bind fun s _ => ?_
  refine Keeps.ite (fun _ => ?_) fun _ => Keeps.ite (fun _ => ?_) fun _ => Keeps.pure trivial
  · exact Keeps.ite (fun _ => hI.chance w _) fun _ => Keeps.pure trivial
  · exact Keeps.ite (fun _ => hI.chance w _) fun _ => hI.chance w _

/-- Opening an entry sets `cur_depth` to its depth. -/
theorem Opening.fuzzing {core : Text × Nat × Bool × Nat × Option Ptr} {s : Session (8 * k)}
    (h : Opening w bounded fresh q toks core s) :
    Fuzzing w bounded fresh q core.2.1 toks { s with
      subseqHangs := 0
      globals := { s.globals with curDepth := core.2.2.2.1 } } := by
  refine ⟨⟨h.toLoaded.congr rfl, h.cycles, h.bitmaps, h.seek, h.current⟩, h.cur, h.extras, h.party,
    ?_, h.fits⟩
  exact (congrArg (·.2.2.2.1) h.entry).symm

theorem meets_abandonCase :
    Meets (Fuzzing w bounded fresh q len toks) (Session.abandonCase w q)
      (Running bounded fresh (some q)) (fun _ => Running bounded fresh (some q))
      (Exits bounded fresh) := by
  have hI := steady_fuzzing bounded fresh w q len toks
  have hrun : ∀ {α : Type} {φ : α → Prop} {p : Fuzz (8 * k) α},
      Fuzzes w bounded fresh q len toks p φ →
      Meets (Fuzzing w bounded fresh q len toks) p (Running bounded fresh (some q))
        (fun _ => Fuzzing w bounded fresh q len toks) (Exits bounded fresh) :=
    fun h => Meets.mono h (fun _ hs => hs) (fun _ hs => hs.running) (fun _ _ hs => hs.2)
      fun _ _ he => he
  refine (hrun (hI.setOp (f := fun op => { op with splicingWith := -1 }) (fun _ => ⟨rfl, rfl⟩)
    fun _ h => h)).bind fun _ => ?_
  refine (hrun (hI.checkStop w)).bind fun stop => ?_
  refine Meets.modify (fun _ hs => hs.running) fun s hs => ?_
  exact ⟨hs.toLive.abandon hs.lt_length stop, hs.cur, hs.party⟩

/-- `fuzz_one` on entry `q`, which stays the current entry. All its paths lead back to the main
loop. -/
theorem meets_fuzzOne (w : World (8 * k)) (q : Nat) :
    Meets (fun s => Running bounded fresh (some q) s ∧
        (bounded → InsertFits w q (s.globals.entry q).len s))
      (Session.fuzzOne w) (Running bounded fresh (some q))
      (fun _ => Running bounded fresh (some q)) (Exits bounded fresh) := by
  intro s₀ hs₀
  generalize hcore : coreFields (s₀.globals.entry q) = core
  generalize htoks : s₀.dict.extras = toks
  have hopen : Opening w bounded fresh q toks core s₀ :=
    ⟨hs₀.1, hcore, htoks, fun hb => hcore ▸ hs₀.2 hb⟩
  refine (?_ : Meets (Opening w bounded fresh q toks core) (Session.fuzzOne w)
    (Running bounded fresh (some q)) (fun _ => Running bounded fresh (some q))
    (Exits bounded fresh)) s₀ hopen
  have hI := steady_opening bounded fresh w q toks core
  have hrun : ∀ {α : Type} {φ : α → Prop} {p : Fuzz (8 * k) α},
      Keeps (Opening w bounded fresh q toks core) (Exits bounded fresh) p φ →
      Meets (Opening w bounded fresh q toks core) p (Running bounded fresh (some q))
        (fun a s => φ a ∧ Opening w bounded fresh q toks core s) (Exits bounded fresh) :=
    fun h => Meets.of_points h fun _ hs => hs.toRunning
  refine (hrun Keeps.get).bind_of_fact fun s hs => ?_
  rw [hs.cur]
  refine (hrun (hI.skipEntry w q)).bind_of_fact fun skip _ => ?_
  split
  · exact Meets.pure fun _ hs => hs.toRunning
  · refine (hrun Keeps.get).bind_of_fact fun s hs => ?_
    -- The entry that is read is the one that was opened.
    have hlen : (s.globals.entry q).len = core.2.1 := congrArg (·.2.1) hs.entry
    have hdepth : (s.globals.entry q).depth = core.2.2.2.1 := congrArg (·.2.2.2.1) hs.entry
    have hok : LenOk bounded core.2.1 := by
      rw [← hlen]
      exact hs.lens _ (mem_fields.mpr ⟨q, (hs.current q hs.cur).2.1, rfl⟩)
    dsimp only
    rw [hlen, hdepth]
    refine (hrun (hI.readCase _ _)).bind_of_fact fun inBuf hin => ?_
    refine Meets.bind (R := fun _ => Fuzzing w bounded fresh q core.2.1 toks)
      (Meets.modify (fun _ hs => hs.toRunning) fun s hs => hs.fuzzing) fun _ => ?_
    have hstages : Fuzzes w bounded fresh q core.2.1 toks (Session.fuzzStages w q inBuf)
        fun _ => True := fuzzes_fuzzStages ⟨hin ▸ hok, Nat.le_of_eq hin⟩
    refine Meets.bind_of_fact (Meets.of_points hstages fun _ hs => hs.running) fun bail _ => ?_
    exact meets_abandonCase.bind fun _ => Meets.pure fun _ hs => hs

end Stages

end TriforceAFL.Proofs
