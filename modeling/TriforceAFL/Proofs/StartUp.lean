import TriforceAFL.Proofs.FuzzOne

/-!
# `TriforceAFL.Proofs.StartUp`: from an empty queue to the fuzzing loop

`read_testcases` queues the accepted input files in their order, at depth 1. `pivot_inputs` visits
the entries in that order. It gives each of them its name in the output directory and, when the old
name is kept, the depth that the name tells: `Pivoted` says which. `Filling` is the invariant of
both loops.

The dry run calibrates every entry. A calibration that neither fails nor is stopped raises the
divisors of the averages, and the process ends when all of them fail. So the fuzzing loop is reached
with positive divisors, or not at all.
-/

set_option autoImplicit false

namespace TriforceAFL.Proofs

open Lib Lib.Process Spec

/-! ### Following the queue -/

section Follow
variable {k : Nat} {g : FuzzState (8 * k)}

theorem entryAt_none (n : Nat) : Session.entryAt g n none = none := by
  cases n <;> rfl

theorem entryAt_some (h : Linked g.entries) (n : Nat) {p : Nat} (hp : p < g.entries.length) :
    Session.entryAt g n (some p) = if p + n < g.entries.length then some (p + n) else none := by
  induction n generalizing p with
  | zero => rw [Session.entryAt, Nat.add_zero, if_pos hp]
  | succ n ih =>
    rw [Session.entryAt, show (g.entry p).next = _ from h p hp]
    split
    · rename_i hnext
      rw [ih hnext, Nat.add_right_comm, Nat.add_assoc]
    · rw [entryAt_none, if_neg (by omega)]

/-- Following `next` from the head of the queue visits the entries in allocation order. -/
theorem entryAt_queue (h : Chain g) (n : Nat) :
    Session.entryAt g n g.queue = if n < g.entries.length then some n else none := by
  rw [h.queue]
  split
  · rename_i hempty
    rw [entryAt_none, hempty, List.length_nil, if_neg (Nat.not_lt_zero n)]
  · rename_i hne
    rw [entryAt_some h.linked n (List.length_pos_iff.mpr hne), Nat.zero_add]

end Follow

/-! ### Raising a depth -/

/-- The maximum of a list with one element raised. -/
theorem foldr_max_set {l : List Nat} {q d : Nat} (hq : q < l.length) (hd : ∀ x ∈ l[q]?, x ≤ d) :
    (l.set q d).foldr max 0 = max (l.foldr max 0) d := by
  induction l generalizing q with
  | nil => cases hq
  | cons x l ih =>
    cases q with
    | zero =>
      have hx : x ≤ d := hd x rfl
      show max d (l.foldr max 0) = max (max x (l.foldr max 0)) d
      omega
    | succ q =>
      show max x ((l.set q d).foldr max 0) = max (max x (l.foldr max 0)) d
      rw [ih (Nat.lt_of_succ_lt_succ hq) hd, Nat.max_assoc]

theorem le_foldr_max {l : List Nat} {x : Nat} (h : x ∈ l) : x ≤ l.foldr max 0 := by
  induction l with
  | nil => cases h
  | cons y l ih =>
    show x ≤ max y (l.foldr max 0)
    rcases List.mem_cons.mp h with rfl | h
    · exact Nat.le_max_left _ _
    · exact Nat.le_trans (ih h) (Nat.le_max_right _ _)

section Raise
variable {k : Nat} {g : FuzzState (8 * k)}

theorem Books.raiseDepth (h : Books g) {q d : Nat} (hq : q < g.entries.length)
    (hd : (g.entry q).depth ≤ d) :
    Books { g.updateEntry q (fun e => { e with depth := d }) with
      maxDepth := if g.maxDepth < d then d else g.maxDepth } := by
  have hsame : ∀ {β : Type} {f : QueueEntry → β}, (∀ e, f { e with depth := d } = f e) →
      fields f (g.updateEntry q fun e => { e with depth := d }) = fields f g :=
    fun hf => fields_updateEntry g q hf
  have hfuzzed := countP_eq_of_fields_eq (hsame (f := (·.wasFuzzed)) fun _ => rfl) (!·)
  have hcov := countP_eq_of_fields_eq (hsame (f := (·.hasNewCov)) fun _ => rfl) id
  have hvar := countP_eq_of_fields_eq (hsame (f := (·.varBehavior)) fun _ => rfl) id
  have hdepths : fields (·.depth) (g.updateEntry q fun e => { e with depth := d }) =
      (fields (·.depth) g).set q d := fields_updateEntry_set hq _
  refine ⟨chain_of_fields (hsame fun _ => rfl) rfl rfl h.chain, ?_, ?_, ?_, ?_, ?_⟩
  · exact h.paths.trans (length_updateEntry g q _).symm
  · exact h.pending.trans (congrArg (BitVec.ofNat 32) hfuzzed.symm)
  · exact h.withCov.trans hcov.symm
  · exact h.variableCnt.trans hvar.symm
  · have hold : ∀ x ∈ (fields (·.depth) g)[q]?, x ≤ d := by
      intro x hx
      rw [getElem?_fields hq] at hx
      cases hx
      exact hd
    show (if g.maxDepth < d then d else g.maxDepth) =
      (fields (·.depth) (g.updateEntry q fun e => { e with depth := d })).foldr max 0
    rw [hdepths, foldr_max_set (by rwa [length_fields]) hold, h.depth]
    show _ = max ((g.entries.map (·.depth)).foldr max 0) d
    split <;> omega

/-- The part of the globals that `pivot_inputs` leaves alone. -/
def pivotFrame (g : FuzzState (8 * k)) : Nat × Fault × Text × List Nat :=
  (g.curDepth, g.crashMode, g.outDir, fields (·.len) g)

/-- The depth that the name of entry `id` tells when it is pivoted. -/
def toldDepth (g : FuzzState (8 * k)) (id : Nat) (name : Text) : Nat :=
  match (if Session.keepsName id name then Session.sourceId name else none) with
  | none => 1
  | some src => if src < g.entries.length then (g.entry src).depth + 1 else 1

/-- What `pivotDepth` does to an entry of depth 1. -/
theorem pivotDepth_spec (h : Books g) {id : Nat} (hid : id < g.entries.length)
    (hone : (g.entry id).depth = 1) {name : Text} (hkeeps : Session.keepsName id name = true) :
    Books (Session.pivotDepth g id name) ∧
      ((Session.pivotDepth g id name).entry id).depth = toldDepth g id name ∧
      (∀ p, p ≠ id → (Session.pivotDepth g id name).entry p = g.entry p) ∧
      fields (·.fname) (Session.pivotDepth g id name) = fields (·.fname) g ∧
      pivotFrame (Session.pivotDepth g id name) = pivotFrame g ∧
      (Session.pivotDepth g id name).queueFiles = g.queueFiles := by
  have hmax : (g.entry id).depth ≤ g.maxDepth := by
    rw [h.depth]
    exact le_foldr_max (mem_fields.mpr ⟨id, hid, rfl⟩)
  unfold Session.pivotDepth toldDepth
  rw [if_pos hkeeps]
  cases Session.sourceId name with
  | none => exact ⟨h, hone, fun _ _ => rfl, rfl, rfl, rfl⟩
  | some src =>
    dsimp only
    rw [entryAt_queue h.chain]
    by_cases hsrc : src < g.entries.length
    · -- There is such an entry, so the depth is raised to at least 2.
      have hself : ((g.updateEntry id fun e => { e with depth := (g.entry src).depth + 1 }).entry
          id).depth = (g.entry src).depth + 1 := by
        rw [entry_updateEntry_self hid]
      simp only [if_pos hsrc, hself]
      refine ⟨h.raiseDepth hid (by omega), hself, fun p hp => ?_, ?_, ?_, rfl⟩
      · exact entry_updateEntry_of_ne hp
      · exact fields_updateEntry g id fun _ => rfl
      · exact congrArg (fun l => (g.curDepth, g.crashMode, g.outDir, l))
          (fields_updateEntry (g := (·.len)) g id fun _ => rfl)
    · rw [if_neg hsrc, if_neg hsrc, if_neg (Nat.not_lt.mpr hmax)]
      exact ⟨h, hone, fun _ _ => rfl, rfl, rfl, rfl⟩

/-- What `pivot_inputs` does to an entry of depth 1. -/
theorem pivotGlobals_spec (h : Books g) {id : Nat} (hid : id < g.entries.length)
    (hone : (g.entry id).depth = 1) {name : Text} (hname : fileNameOf (g.entry id).fname = name)
    (content : List U8) {g' : FuzzState (8 * k)}
    (hg' : Session.pivotGlobals g id id content = g') :
    Books g' ∧ (g'.entry id).depth = toldDepth g id name ∧
      (g'.entry id).fname = g.outDir ++ "/queue/".toList ++ pivotName id name ∧
      (∀ p, p ≠ id → g'.entry p = g.entry p) ∧
      fields (·.fname) g' = (fields (·.fname) g).set id
        (g.outDir ++ "/queue/".toList ++ pivotName id name) ∧
      pivotFrame g' = pivotFrame g ∧
      g'.queueFiles = g.queueFiles ++
        [(g.outDir ++ "/queue/".toList ++ pivotName id name, content)] := by
  have htold : Session.keepsName id name = false → toldDepth g id name = 1 := by
    intro hkeeps
    rw [toldDepth, hkeeps]
    rfl
  -- The depth first.
  obtain ⟨g₁, hg₁, hbooks, hdepth, hothers, hnames, hframe, hfiles⟩ : ∃ g₁,
      (if Session.keepsName id name then Session.pivotDepth g id name else g) = g₁ ∧ Books g₁ ∧
      (g₁.entry id).depth = toldDepth g id name ∧ (∀ p, p ≠ id → g₁.entry p = g.entry p) ∧
      fields (·.fname) g₁ = fields (·.fname) g ∧ pivotFrame g₁ = pivotFrame g ∧
      g₁.queueFiles = g.queueFiles := by
    cases hkeeps : Session.keepsName id name with
    | true => exact ⟨_, rfl, pivotDepth_spec h hid hone hkeeps⟩
    | false =>
      exact ⟨g, rfl, h, hone.trans (htold hkeeps).symm, fun _ _ => rfl, rfl, rfl, rfl⟩
  have hid₁ : id < g₁.entries.length := by
    rw [length_eq_of_fields_eq hnames]
    exact hid
  -- Then the name and the file.
  unfold Session.pivotGlobals at hg'
  dsimp only at hg'
  rw [hname, hg₁] at hg'
  generalize g.outDir ++ "/queue/".toList ++ pivotName id name = nfn at hg' ⊢
  subst hg'
  refine ⟨(hbooks.updateEntry id (f := fun e => { e with fname := nfn })
    fun _ => ⟨rfl, rfl, rfl, rfl, rfl⟩).setFiles _, ?_, ?_, ?_, ?_, ?_, ?_⟩
  · rw [← hdepth]
    exact congrArg (·.depth) (entry_updateEntry_self hid₁)
  · exact congrArg (·.fname) (entry_updateEntry_self hid₁)
  · intro p hp
    exact (entry_updateEntry_of_ne hp).trans (hothers p hp)
  · rw [← hnames]
    exact fields_updateEntry_set hid₁ _
  · rw [← hframe]
    exact congrArg (fun l => (g₁.curDepth, g₁.crashMode, g₁.outDir, l))
      (fields_updateEntry (g := (·.len)) g₁ id (f := fun e => { e with fname := nfn }) fun _ => rfl)
  · exact congrArg (· ++ [(nfn, content)]) hfiles

end Raise

/-- The file name of a path. -/
theorem fileNameOf_append {dir name : Text} (h : '/' ∉ name) :
    fileNameOf (dir ++ '/' :: name) = name := by
  have hplain : ∀ c ∈ name.reverse, (c != '/') = true := by
    intro c hc
    rw [bne_iff_ne]
    rintro rfl
    exact h (List.mem_reverse.mp hc)
  rw [fileNameOf, List.reverse_append, List.reverse_cons, List.append_assoc,
    List.takeWhile_append_of_pos hplain, List.singleton_append,
    List.takeWhile_cons_of_neg (by decide), List.append_nil, List.reverse_reverse]

/-! ### Filling the queue -/

section Filling
variable {k : Nat}

/-- The files that `read_testcases` takes as test cases. -/
def accepted (inputs : List InputFile) : List InputFile :=
  inputs.filter fun f => isTestCase f.name f.content

/-- What the start-up does not write before the fuzzing loop. -/
def idlePart (s : Session (8 * k)) : OpInfo × Option Ptr × List (List U8) × Nat × Fault × Text :=
  (s.op, s.queueCur, s.handed, s.globals.curDepth, s.globals.crashMode, s.globals.outDir)

/-- Nothing has been fuzzed. -/
def Idle (w : World (8 * k)) (s : Session (8 * k)) : Prop :=
  idlePart s = idlePart (Session.start w)

/-- An entry as `read_testcases` leaves it. -/
def Raw (w : World (8 * k)) (files : List InputFile) (p : Nat) (e : QueueEntry) : Prop :=
  e.depth = 1 ∧ ∃ f, files[p]? = some f ∧ e.fname = Session.inPath w f.name

/-- The depth of a pivoted entry with the given old name. A source that is not pivoted yet has
depth 1. -/
def pivotedDepth (g : FuzzState (8 * k)) (p : Nat) (name : Text) : Nat :=
  match (if Session.keepsName p name then Session.sourceId name else none) with
  | none => 1
  | some src =>
    if src < g.entries.length then (if src < p then (g.entry src).depth else 1) + 1 else 1

/-- An entry as `pivot_inputs` leaves it. -/
def Pivoted (files : List InputFile) (g : FuzzState (8 * k)) (p : Nat) : Prop :=
  ∃ f, files[p]? = some f ∧
    (g.entry p).fname = g.outDir ++ "/queue/".toList ++ pivotName p f.name ∧
    (g.entry p).depth = pivotedDepth g p f.name

/-- The files `files` have been queued, and the entries before `id` have been pivoted. -/
structure Filling (w : World (8 * k)) (files : List InputFile) (id : Nat) (s : Session (8 * k)) :
    Prop where
  base : Base True s
  idle : Idle w s
  size : s.globals.entries.length = files.length
  fits : ∀ f ∈ files, LenOk True f.content.length
  raw : ∀ p, id ≤ p → p < files.length → Raw w files p (s.globals.entry p)
  pivoted : ∀ p < id, Pivoted files s.globals p
  listed : s.globals.queueFiles.map (·.1) = (fields (·.fname) s.globals).take id

/-- Only names and depths matter. -/
theorem Pivoted.of_eq {files : List InputFile} {g g' : FuzzState (8 * k)} {p : Nat}
    (h : Pivoted files g p) (hdir : g'.outDir = g.outDir)
    (hlen : g'.entries.length = g.entries.length)
    (hname : (g'.entry p).fname = (g.entry p).fname)
    (hdepth : ∀ r ≤ p, (g'.entry r).depth = (g.entry r).depth) : Pivoted files g' p := by
  obtain ⟨f, hf, hfname, hp⟩ := h
  refine ⟨f, hf, by rw [hname, hfname, hdir], ?_⟩
  rw [hdepth p (Nat.le_refl p), hp, pivotedDepth, pivotedDepth, hlen]
  split
  · rfl
  · rename_i src _
    by_cases hsrc : src < p
    · rw [if_pos hsrc, if_pos hsrc, hdepth src (Nat.le_of_lt hsrc)]
    · rw [if_neg hsrc, if_neg hsrc]

variable {w : World (8 * k)} {files : List InputFile} {id : Nat} {s s' : Session (8 * k)}

/-- A step that only measures, or writes none of it. -/
theorem Filling.touched (h : Filling w files id s) (ht : Touched s.globals s'.globals)
    (hidle : (s'.op, s'.queueCur, s'.handed) = (s.op, s.queueCur, s.handed)) :
    Filling w files id s' := by
  have hframe := ht.frame
  simp only [queueFrame, QueueFrame.mk.injEq] at hframe
  obtain ⟨_, _, _, _, hcur, _, _, hmode, hdir, hfiles⟩ := hframe
  have hnames : fields (·.fname) s'.globals = fields (·.fname) s.globals := ht.field fun x => x.1
  have hdepths : fields (·.depth) s'.globals = fields (·.depth) s.globals :=
    ht.field fun x => x.2.2.2.1
  simp only [Prod.mk.injEq] at hidle
  refine ⟨h.base.touched ht hidle.2.2, ?_, ht.length_eq.trans h.size, h.fits, fun p hid hp => ?_,
    fun p hp => ?_, ?_⟩
  · rw [Idle, ← h.idle]
    simp only [idlePart, Prod.mk.injEq]
    exact ⟨hidle.1, hidle.2.1, hidle.2.2, hcur, hmode, hdir⟩
  · obtain ⟨hone, f, hf, hname⟩ := h.raw p hid hp
    exact ⟨(field_eq_of_fields_eq hdepths p).trans hone, f, hf,
      (field_eq_of_fields_eq hnames p).trans hname⟩
  · exact (h.pivoted p hp).of_eq hdir ht.length_eq (field_eq_of_fields_eq hnames p)
      fun r _ => field_eq_of_fields_eq hdepths r
  · rw [hfiles, hnames]
    exact h.listed

/-- The reasons for which the queue cannot be filled. -/
def FillingFails (w : World (8 * k)) : Exit → Prop
  | .testCaseTooBig _ _ => ∃ f ∈ accepted w.inputs, MAX_FILE < f.content.length
  | .noUsableTestCases _ => accepted w.inputs = []
  | .unableToCreate _ => ∃ t, w.canCreate t = false
  | _ => False

/-- What holds when the process ends while the queue is being filled. -/
structure Stops (w : World (8 * k)) (e : Exit) (s : Session (8 * k)) : Prop where
  reason : FillingFails w e
  base : Base True s

/-! ### Reading -/

theorem filling_start (w : World (8 * k)) : Filling w [] 0 (Session.start w) where
  base :=
    { books := ⟨⟨fun p hp => absurd hp (Nat.not_lt_zero p), rfl, rfl⟩, rfl, rfl, rfl, rfl, rfl⟩
      lens := fun _ hn => absurd hn List.not_mem_nil
      files := fun _ hf => absurd hf List.not_mem_nil
      handed := fun _ hb => absurd hb List.not_mem_nil }
  idle := rfl
  size := rfl
  fits _ hf := absurd hf List.not_mem_nil
  raw p _ hp := absurd hp (Nat.not_lt_zero p)
  pivoted p hp := absurd hp (Nat.not_lt_zero p)
  listed := rfl

/-- One more test case. -/
theorem Filling.read (h : Filling w files 0 s) {f : InputFile}
    (hlen : LenOk True f.content.length) :
    Filling w (files ++ [f]) 0 { s with
      globals := addToQueue s.globals (Session.inPath w f.name) f.content.length f.passedDet } := by
  have hidle := h.idle
  simp only [Idle, idlePart, Prod.mk.injEq] at hidle
  have hdepth : s.globals.curDepth = 0 := hidle.2.2.2.1
  have hbooks := h.base.books.add (Session.inPath w f.name) f.content.length f.passedDet
  have hsize := length_addToQueue s.globals (Session.inPath w f.name) f.content.length f.passedDet
  have hframe := frame_addToQueue s.globals (Session.inPath w f.name) f.content.length f.passedDet
  have hfields : ∀ {β : Type} {g : QueueEntry → β}, (∀ e q, g { e with next := q } = g e) →
      (∀ e q, g { e with next100 := q } = g e) →
      fields g (addToQueue s.globals (Session.inPath w f.name) f.content.length f.passedDet) =
        fields g s.globals ++ [g {
          fname := Session.inPath w f.name
          len := f.content.length
          depth := 1
          passedDet := f.passedDet }] := by
    intro β g hnext hnext100
    rw [fields_addToQueue hnext hnext100, hdepth]
  generalize addToQueue s.globals (Session.inPath w f.name) f.content.length f.passedDet = g
    at hbooks hsize hframe hfields ⊢
  simp only [queueFrame, QueueFrame.tail, Prod.mk.injEq] at hframe
  obtain ⟨_, _, _, hcur, _, _, hmode, hdir, hfiles⟩ := hframe
  have hempty : s.globals.queueFiles = [] := List.map_eq_nil_iff.mp h.listed
  refine ⟨⟨hbooks, ?_, ?_, h.base.handed⟩, ?_, ?_, ?_, ?_,
    fun p hp => absurd hp (Nat.not_lt_zero p), ?_⟩
  · intro n hn
    change n ∈ fields (·.len) g at hn
    rw [hfields (fun _ _ => rfl) fun _ _ => rfl] at hn
    rcases List.mem_append.mp hn with hn | hn
    · exact h.base.lens n hn
    · rw [List.mem_singleton.mp hn]
      exact hlen
  · rw [show (_ : FuzzState (8 * k)).queueFiles = [] from hfiles.trans hempty]
    exact fun f hf => absurd hf List.not_mem_nil
  · rw [Idle, ← h.idle]
    simp only [idlePart, hcur, hmode, hdir]
  · show g.entries.length = _
    rw [hsize, h.size, List.length_append, List.length_singleton]
  · intro f' hf'
    rcases List.mem_append.mp hf' with hf' | hf'
    · exact h.fits f' hf'
    · rw [List.mem_singleton.mp hf']
      exact hlen
  · intro p _ hp
    rw [List.length_append, List.length_singleton] at hp
    have hle : p ≤ s.globals.entries.length := by
      rw [h.size]
      omega
    have hone := field_of_fields_append
      (hfields (g := (·.depth)) (fun _ _ => rfl) fun _ _ => rfl) hle
    have hname := field_of_fields_append
      (hfields (g := (·.fname)) (fun _ _ => rfl) fun _ _ => rfl) hle
    show Raw w (files ++ [f]) p (g.entry p)
    rw [Raw, hone, hname, h.size]
    by_cases hlast : p = files.length
    · rw [if_pos hlast, if_pos hlast, hlast]
      exact ⟨rfl, f, List.getElem?_concat_length, rfl⟩
    · rw [if_neg hlast, if_neg hlast, List.getElem?_append_left (by omega)]
      exact h.raw p (Nat.zero_le p) (by omega)
  · show g.queueFiles.map (·.1) = _
    rw [hfiles, hempty]
    rfl

theorem accepted_append (pre : List InputFile) (f : InputFile) :
    accepted (pre ++ [f]) = if isTestCase f.name f.content then accepted pre ++ [f]
      else accepted pre := by
  unfold accepted
  rw [List.filter_append]
  split
  · rename_i h
    rw [List.filter_singleton, h]
    rfl
  · rename_i h
    rw [List.filter_singleton, Bool.eq_false_iff.mpr h]
    exact List.append_nil _

theorem meets_readTestcase (w : World (8 * k)) (pre : List InputFile) {f : InputFile}
    (hf : f ∈ w.inputs) :
    Meets (Filling w (accepted pre) 0) (Session.readTestcase w f) (Base True)
      (fun _ => Filling w (accepted (pre ++ [f])) 0) (Stops w) := by
  unfold Session.readTestcase
  rw [accepted_append]
  cases hcase : isTestCase f.name f.content with
  | false => exact Meets.pure fun _ hs => hs
  | true =>
    have hpos : 1 ≤ f.content.length := by
      simp only [isTestCase, Bool.and_eq_true, Bool.not_eq_true', List.isEmpty_eq_false_iff]
        at hcase
      exact List.length_pos_iff.mpr hcase.1
    simp only [Bool.not_true, Bool.false_eq_true, if_false, if_true]
    split
    · rename_i hmax
      exact Meets.exit fun s hs => ⟨⟨f, List.mem_filter.mpr ⟨hf, hcase⟩, hmax⟩, hs.base⟩
    · rename_i hmax
      exact Meets.modify (fun s hs => hs.base) fun s hs =>
        hs.read ⟨hpos, fun _ => Nat.le_of_not_lt hmax⟩

theorem meets_forM_readTestcase (w : World (8 * k)) (rest pre : List InputFile)
    (hrest : ∀ f ∈ rest, f ∈ w.inputs) :
    Meets (Filling w (accepted pre) 0) (rest.forM (Session.readTestcase w)) (Base True)
      (fun _ => Filling w (accepted (pre ++ rest)) 0) (Stops w) := by
  induction rest generalizing pre with
  | nil =>
    rw [List.append_nil]
    exact Meets.pure fun _ hs => hs
  | cons f rest ih =>
    refine (meets_readTestcase w pre (hrest f List.mem_cons_self)).bind fun _ => ?_
    have htail := ih (pre ++ [f]) fun g hg => hrest g (List.mem_cons_of_mem f hg)
    rwa [List.append_assoc, List.singleton_append] at htail

/-- All test cases are read, and there is one. -/
theorem meets_readTestcases (w : World (8 * k)) :
    Meets (· = Session.start w) (Session.readTestcases w) (Base True)
      (fun _ s => 0 < (accepted w.inputs).length ∧ Filling w (accepted w.inputs) 0 s)
      (Stops w) := by
  refine Meets.bind (Meets.of_pre (meets_forM_readTestcase w w.inputs [] fun _ hf => hf)
    fun s hs => hs ▸ filling_start w) ?_
  intro _
  refine Meets.bind_of_fact (φ := Filling w (accepted w.inputs) 0)
    (Meets.get fun s hs => ⟨hs, hs⟩) ?_
  intro s hs
  split
  · rename_i hpaths
    rw [hs.base.books.paths, hs.size] at hpaths
    exact Meets.exit fun t ht => ⟨List.length_eq_zero_iff.mp hpaths, ht.base⟩
  · rename_i hpaths
    rw [hs.base.books.paths, hs.size] at hpaths
    exact Meets.pure fun t ht => ⟨Nat.pos_of_ne_zero hpaths, ht⟩

/-! ### Pivoting -/

/-- One more entry gets its name and its depth. -/
theorem Filling.pivot (h : Filling w files id s) {f : InputFile} (hf : files[id]? = some f)
    (hplain : '/' ∉ f.name) (resuming : Bool) :
    Filling w files (id + 1) { s with
      globals := Session.pivotGlobals s.globals id id f.content
      resumingFuzz := resuming } := by
  have hlt : id < files.length := (List.getElem?_eq_some_iff.mp hf).1
  have hid : id < s.globals.entries.length := by rwa [h.size]
  obtain ⟨hone, f', hf', hname⟩ := h.raw id (Nat.le_refl id) hlt
  cases hf.symm.trans hf'
  have hlen := h.fits f (List.mem_of_getElem? hf)
  have hfile : fileNameOf (s.globals.entry id).fname = f.name := by
    rw [hname]
    exact fileNameOf_append hplain
  obtain ⟨hbooks, hdepth, hnew, hothers, hnames, hframe, hfiles⟩ :=
    pivotGlobals_spec h.base.books hid hone hfile f.content rfl
  generalize Session.pivotGlobals s.globals id id f.content = g
    at hbooks hdepth hnew hothers hnames hframe hfiles ⊢
  simp only [pivotFrame, Prod.mk.injEq] at hframe
  obtain ⟨hcur, hmode, hdir, hlens⟩ := hframe
  have hsize : g.entries.length = s.globals.entries.length := length_eq_of_fields_eq hlens
  refine ⟨⟨hbooks, ?_, ?_, h.base.handed⟩, ?_, hsize.trans h.size, h.fits, ?_, ?_, ?_⟩
  · show ∀ n ∈ fields (·.len) g, _
    rw [hlens]
    exact h.base.lens
  · show ∀ f ∈ g.queueFiles, _
    rw [hfiles]
    intro f hf
    rcases List.mem_append.mp hf with hf | hf
    · exact h.base.files f hf
    · rw [List.mem_singleton.mp hf]
      exact hlen
  · rw [Idle, ← h.idle]
    simp only [idlePart, hcur, hmode, hdir]
  · intro p hp hpn
    show Raw w files p (g.entry p)
    rw [hothers p (by omega)]
    exact h.raw p (by omega) hpn
  · intro p hp
    rcases Nat.lt_succ_iff_lt_or_eq.mp hp with hp | rfl
    · refine (h.pivoted p hp).of_eq hdir hsize ?_ fun r hr => ?_
      · exact congrArg (·.fname) (hothers p (Nat.ne_of_lt hp))
      · exact congrArg (·.depth) (hothers r (Nat.ne_of_lt (Nat.lt_of_le_of_lt hr hp)))
    · refine ⟨f, hf, hnew.trans (by rw [hdir]), ?_⟩
      show (g.entry p).depth = pivotedDepth g p f.name
      rw [hdepth, toldDepth, pivotedDepth, hsize]
      split
      · rfl
      · rename_i src _
        by_cases hsrc : src < s.globals.entries.length
        · rw [if_pos hsrc, if_pos hsrc]
          -- An entry that is not behind keeps its depth; the others still have depth 1.
          by_cases hearlier : src < p
          · rw [if_pos hearlier, hothers src (Nat.ne_of_lt hearlier)]
          · rw [if_neg hearlier]
            exact congrArg (· + 1) (h.raw src (Nat.le_of_not_lt hearlier) (h.size ▸ hsrc)).1
        · rw [if_neg hsrc, if_neg hsrc]
  · show g.queueFiles.map (·.1) = (fields (·.fname) g).take (id + 1)
    rw [hfiles, hnames, List.map_append, h.listed]
    have hlt' : id < (fields (·.fname) s.globals).length := by rwa [length_fields]
    rw [List.take_set, List.take_add_one, List.getElem?_eq_getElem hlt', Option.toList_some,
      List.set_append_right _ _ (by rw [List.length_take]; omega)]
    congr 1
    rw [List.length_take, Nat.min_eq_left (Nat.le_of_lt hlt'), Nat.sub_self]
    rfl

/-- The input of an entry is the file that it was read from. -/
theorem find_input {w : World (8 * k)} {p : Nat} {f f' : InputFile}
    (hf : (accepted w.inputs)[p]? = some f)
    (hfind : w.inputs.find? (fun g => Session.inPath w g.name == Session.inPath w f.name) =
      some f') : f' = f := by
  have hname : f'.name = f.name := by
    have hpath := List.find?_some hfind
    rw [beq_iff_eq] at hpath
    exact (List.cons.injEq _ _ _ _ ▸ List.append_cancel_left hpath).2
  have hmem : f ∈ w.inputs := (List.mem_filter.mp (List.mem_of_getElem? hf)).1
  exact List.inj_on_of_nodup_map w.inputs_nodup (List.mem_of_find?_eq_some hfind) hmem hname

theorem meets_pivotEntry (w : World (8 * k)) {id : Nat} (hid : id < (accepted w.inputs).length) :
    Meets (Filling w (accepted w.inputs) id) (Session.pivotEntry w id id) (Base True)
      (fun _ => Filling w (accepted w.inputs) (id + 1)) (Stops w) := by
  have hcreate : ∀ n fn, Meets (Filling w (accepted w.inputs) n) (Session.createFile w fn)
      (Base True) (fun _ => Filling w (accepted w.inputs) n) (Stops w) := by
    intro n fn
    refine Meets.step (fun s hs => hs.base) (fun s a s' hs hg => ?_) fun s e hs hg => ?_
    · split at hg
      · cases hg
        exact hs.touched (Touched.refl _) rfl
      · cases hg
    · split at hg
      · cases hg
      · rename_i hfull
        cases hg
        exact ⟨⟨s.clock, Bool.eq_false_iff.mpr hfull⟩, hs.base⟩
  refine Meets.bind_of_fact (φ := Filling w (accepted w.inputs) id)
    (Meets.get fun s hs => ⟨hs, hs⟩) fun s hs => ?_
  obtain ⟨_, f, hf, hname⟩ := hs.raw id (Nat.le_refl id) hid
  dsimp only
  have hmem : f ∈ w.inputs := (List.mem_filter.mp (List.mem_of_getElem? hf)).1
  split
  · -- The file that was read is still there.
    rename_i hnone
    exact absurd hname.symm (by simpa using List.find?_eq_none.mp hnone f hmem)
  · rename_i f' hfind
    rw [hname] at hfind
    cases find_input hf hfind
    have hplain := w.inputs_plain f hmem
    refine (hcreate id _).bind fun _ => ?_
    refine Meets.bind (R := fun _ => Filling w (accepted w.inputs) (id + 1))
      (Meets.modify (fun t ht => ht.base) fun t ht => ht.pivot hf hplain _) fun _ => ?_
    split
    · refine Meets.bind_of_fact (φ := fun _ => True) (Meets.get fun t ht => ⟨trivial, ht⟩) ?_
      intro t _
      refine (hcreate (id + 1) _).bind fun _ => Meets.modify (fun t ht => ht.base) fun t ht => ?_
      exact ht.touched (Touched.mark_passed t.globals id) rfl
    · exact Meets.pure fun t ht => ht

theorem meets_pivotFrom (w : World (8 * k)) (fuel id : Nat)
    (hfuel : fuel + id = (accepted w.inputs).length) {q : Option Ptr}
    (hq : q = if id < (accepted w.inputs).length then some id else none) :
    Meets (Filling w (accepted w.inputs) id) (Session.pivotFrom w fuel id q) (Base True)
      (fun _ => Filling w (accepted w.inputs) (accepted w.inputs).length) (Stops w) := by
  induction fuel generalizing id q with
  | zero =>
    refine Meets.pure fun s hs => ?_
    rwa [← hfuel, Nat.zero_add]
  | succ fuel ih =>
    have hid : id < (accepted w.inputs).length := by omega
    rw [if_pos hid] at hq
    subst hq
    refine (meets_pivotEntry w hid).bind fun _ => ?_
    refine Meets.bind_of_fact (φ := Filling w (accepted w.inputs) (id + 1))
      (Meets.get fun s hs => ⟨hs, hs⟩) fun s hs => ih (id + 1) (by omega) ?_
    have hnext := hs.base.books.chain.linked id (hs.size ▸ hid)
    rwa [hs.size] at hnext

theorem meets_pivotInputs (w : World (8 * k)) :
    Meets (Filling w (accepted w.inputs) 0) (Session.pivotInputs w) (Base True)
      (fun _ => Filling w (accepted w.inputs) (accepted w.inputs).length) (Stops w) := by
  refine Meets.bind_of_fact (φ := Filling w (accepted w.inputs) 0)
    (Meets.get fun s hs => ⟨hs, hs⟩) fun s hs => meets_pivotFrom w _ 0 hs.size ?_
  rw [hs.base.books.chain.queue, ← hs.size]
  by_cases hempty : s.globals.entries = []
  · rw [if_pos hempty, if_neg (by rw [hempty]; exact Nat.not_lt_zero 0)]
  · rw [if_neg hempty, if_pos (List.length_pos_iff.mpr hempty)]

/-- A step that only reads the dictionary. -/
theorem meets_setDict {n : Nat} (g : Session (8 * k) → Except DictFatal Dictionary) :
    Meets (Filling w files n) (Session.setDict g) (Base True) (fun _ => Filling w files n)
      (fun e s => (∃ d, e = .dict d) ∧ Base True s) := by
  refine Meets.step (fun s hs => hs.base) (fun s a s' hs hg => ?_) fun s e hs hg => ?_
  · split at hg
    · cases hg
    · cases hg
      exact hs.touched (Touched.refl _) rfl
  · split at hg
    · cases hg
      exact ⟨⟨_, rfl⟩, hs.base⟩
    · cases hg

/-- The queue and its directory are filled. -/
theorem meets_loadQueue (w : World (8 * k)) :
    Meets (· = Session.start w) (Session.loadQueue w) (Base True)
      (fun _ s => 0 < (accepted w.inputs).length ∧
        Filling w (accepted w.inputs) (accepted w.inputs).length s)
      (fun e s => e ≠ .divisionByZero ∧ Base True s) := by
  have hstops : ∀ e (s : Session (8 * k)), Stops w e s → e ≠ .divisionByZero ∧ Base True s := by
    rintro e s hs
    refine ⟨?_, hs.base⟩
    rintro rfl
    exact hs.reason
  refine Meets.bind_of_fact ((meets_readTestcases w).mono (fun _ hs => hs) (fun _ hs => hs)
    (fun _ _ hs => hs) hstops) fun _ hpos => ?_
  refine Meets.bind ((meets_setDict _).mono (fun _ hs => hs) (fun _ hs => hs) (fun _ _ hs => hs)
    fun e s he => ⟨?_, he.2⟩) fun _ => ?_
  · obtain ⟨⟨d, rfl⟩, _⟩ := he
    exact fun h => (by cases h)
  · exact (meets_pivotInputs w).mono (fun _ hs => hs) (fun _ hs => hs) (fun _ _ hs => ⟨hpos, hs⟩)
      hstops

end Filling

/-! ### The dry run -/

section DryRun
variable {k : Nat} {bounded fresh : Prop} {w : World (8 * k)} {s : Session (8 * k)}

theorem Base.weaken (h : Base True s) (bounded : Prop) : Base bounded s :=
  have hlen : ∀ {n}, LenOk True n → LenOk bounded n := fun hn => ⟨hn.1, fun _ => hn.2 trivial⟩
  ⟨h.books, fun n hn => hlen (h.lens n hn), fun f hf => hlen (h.files f hf),
    fun b hb => hlen (h.handed b hb)⟩

/-- The input directory has no name of an earlier session. -/
def FreshInputs (w : World (8 * k)) : Prop :=
  ∀ f ∈ w.inputs, casePrefix.isPrefixOf f.name = false

/-- The origin of a seed is in its name. -/
theorem pivotName_fresh {id : Nat} {name : Text} (hfresh : casePrefix.isPrefixOf name = false)
    (hplain : '/' ∉ name) :
    ∃ rest, pivotName id name = caseName id (Origin.seed rest).text ∧ '/' ∉ rest := by
  have horig : ",orig:".toList = ',' :: "orig:".toList := by decide
  have hname : ∀ useName : Text, casePrefix ++ padDec 6 id ++ ",orig:".toList ++ useName =
      caseName id (Origin.seed useName).text := by
    intro useName
    unfold caseName Origin.text
    exact (List.append_assoc _ _ _).trans
      (congrArg (fun l => casePrefix ++ padDec 6 id ++ (l ++ useName)) horig)
  rw [pivotName, hfresh, Bool.false_and, if_neg Bool.false_ne_true]
  dsimp only
  split
  · rename_i rest hrest
    refine ⟨rest.drop 6, hname _, fun hmem => hplain ?_⟩
    exact (strstr_suffix hrest).subset (List.mem_of_mem_drop hmem)
  · exact ⟨name, hname name, hplain⟩

theorem Filling.loaded (h : Filling w (accepted w.inputs) (accepted w.inputs).length s)
    (hpos : 0 < (accepted w.inputs).length) (hfresh : fresh → FreshInputs w) :
    Loaded bounded fresh s := by
  have hidle := h.idle
  simp only [Idle, idlePart, Prod.mk.injEq] at hidle
  refine ⟨h.base.weaken bounded, Nat.lt_of_lt_of_eq hpos h.size.symm, ?_, ?_, fun _ => ?_⟩
  · rw [hidle.1]
    exact List.not_mem_nil
  · intro hf p hp
    obtain ⟨f, hfile, hname, hdepth⟩ := h.pivoted p (Nat.lt_of_lt_of_eq hp h.size)
    have hmem : f ∈ w.inputs := (List.mem_filter.mp (List.mem_of_getElem? hfile)).1
    have hnew := hfresh hf f hmem
    obtain ⟨rest, hrest, hplain⟩ : ∃ rest, pivotName p f.name = caseName p (Origin.seed rest).text ∧
        '/' ∉ rest := pivotName_fresh hnew (w.inputs_plain f hmem)
    refine ⟨.seed rest, hname.trans (congrArg _ hrest), ?_, ?_⟩
    · show '/' ∉ "orig:".toList ++ rest
      rw [List.mem_append, not_or]
      exact ⟨by decide, hplain⟩
    · show (s.globals.entry p).depth = 1
      rw [hdepth, pivotedDepth, Session.keepsName, hnew, Bool.false_and, if_neg Bool.false_ne_true]
  · rw [h.listed, List.take_of_length_le]
    rw [length_fields]
    exact Nat.le_of_eq h.size

/-- Between `pivot_inputs` and the fuzzing loop. -/
structure Prepared (w : World (8 * k)) (bounded fresh : Prop) (n : Nat) (s : Session (8 * k)) : Prop
    extends Loaded bounded fresh s where
  idle : Idle w s
  size : s.globals.entries.length = n

theorem Prepared.touched {n : Nat} {s s' : Session (8 * k)} (h : Prepared w bounded fresh n s)
    (ht : Touched s.globals s'.globals)
    (hidle : (s'.op, s'.queueCur, s'.handed) = (s.op, s.queueCur, s.handed)) :
    Prepared w bounded fresh n s' := by
  have hframe := ht.frame
  simp only [queueFrame, QueueFrame.mk.injEq] at hframe
  obtain ⟨_, _, _, _, hcur, _, _, hmode, hdir, _⟩ := hframe
  simp only [Prod.mk.injEq] at hidle
  refine ⟨h.toLoaded.touched ht hidle.2.2 (hidle.1 ▸ h.short), ?_, ht.length_eq.trans h.size⟩
  rw [Idle, ← h.idle]
  simp only [idlePart, Prod.mk.injEq]
  exact ⟨hidle.1, hidle.2.1, hidle.2.2, hcur, hmode, hdir⟩

/-- The divisors of the averages are positive. -/
def Averages (s : Session (8 * k)) : Prop :=
  0 < s.globals.totalCalCycles ∧ 0 < s.globals.totalBitmapEntries

theorem Averages.touched {s s' : Session (8 * k)} (h : Averages s)
    (ht : Touched s.globals s'.globals) : Averages s' :=
  ⟨Nat.lt_of_lt_of_le h.1 ht.cycles, Nat.lt_of_lt_of_le h.2 ht.bitmaps⟩

/-- The dry run has visited `visited` entries and counts `fails` failures. -/
structure DryRun (w : World (8 * k)) (bounded fresh : Prop) (n visited fails : Nat)
    (s : Session (8 * k)) : Prop extends Prepared w bounded fresh n s where
  fails_le : fails ≤ visited
  averages : fails < visited → Averages s

/-- `crash_mode` of the session. -/
def crashModeOf (w : World (8 * k)) : Fault := if w.options.crashMode then .crash else .none

theorem Prepared.crashMode {n : Nat} (h : Prepared w bounded fresh n s) :
    s.globals.crashMode = crashModeOf w := by
  have hidle := h.idle
  simp only [Idle, idlePart, Prod.mk.injEq] at hidle
  exact hidle.2.2.2.2.1

theorem crashModeOf_cases (w : World (8 * k)) :
    crashModeOf w = .crash ∨ crashModeOf w = .none := by
  unfold crashModeOf
  split
  · exact Or.inl rfl
  · exact Or.inr rfl

theorem Prepared.exits {n : Nat} {e : Exit} (he : e ≠ .divisionByZero)
    (hs : Prepared w bounded fresh n s) : Exits bounded fresh e s :=
  ⟨he, hs.toBase, Or.inl hs.toLoaded⟩

variable {n visited fails : Nat}

theorem DryRun.touched {s s' : Session (8 * k)} (h : DryRun w bounded fresh n visited fails s)
    (ht : Touched s.globals s'.globals)
    (hidle : (s'.op, s'.queueCur, s'.handed) = (s.op, s.queueCur, s.handed)) :
    DryRun w bounded fresh n visited fails s' :=
  ⟨h.toPrepared.touched ht hidle, h.fails_le, fun hlt => (h.averages hlt).touched ht⟩

/-- A result of `calibrate_case` that stands for a success. -/
def Succeeded (w : World (8 * k)) (res : Fault) : Prop := res = crashModeOf w ∨ res = .noBits

/-- A calibration succeeds only with positive divisors, unless it is stopped. -/
theorem meets_calibrate_dryRun (hv : visited < n) :
    Meets (DryRun w bounded fresh n visited fails) (Session.calibrate w visited 0)
      (Loaded bounded fresh)
      (fun res s => DryRun w bounded fresh n visited fails s ∧
        (Succeeded w res → Averages s ∨ s.stopSoon = true)) (Exits bounded fresh) := by
  refine Meets.step (fun s hs => hs.toLoaded) (fun s res s' hs hg => ?_) fun s e _ hg => by cases hg
  have hq : visited < s.globals.entries.length := hs.size ▸ hv
  cases hg
  have ht := touched_calibrateCase w.env hq (w.calibration s.clock) 0
  refine ⟨hs.touched ht rfl, fun hres => ?_⟩
  cases hstops : (w.calibration s.clock).stops with
  | true => exact Or.inr (Bool.or_true _)
  | false =>
    refine Or.inl (totals_calibrateCase w.env hq 0 ?_ (w.calibration_reported s.clock) ?_ ?_)
    · intro i hi
      have hnone := List.any_eq_false.mp hstops i (List.mem_range.mpr hi)
      simpa using hnone
    · rw [hs.crashMode]
      rcases crashModeOf_cases w with h | h <;> rw [h] <;> exact ⟨by decide, by decide⟩
    · rw [hs.crashMode]
      exact hres

theorem meets_checkStop_dryRun {res : Fault} :
    Meets (fun s => DryRun w bounded fresh n visited fails s ∧
        (Succeeded w res → Averages s ∨ s.stopSoon = true))
      (Session.checkStop w) (Loaded bounded fresh)
      (fun stop s => DryRun w bounded fresh n visited fails s ∧
        (stop = true → s.stopSoon = true) ∧ (stop = false → Succeeded w res → Averages s))
      (Exits bounded fresh) := by
  refine Meets.step (fun s hs => hs.1.toLoaded) (fun s stop s' hs hg => ?_)
    fun s e _ hg => by cases hg
  cases hg
  refine ⟨hs.1.touched (Touched.refl _) rfl, fun h => h, fun hstop hres => ?_⟩
  rcases hs.2 hres with h | h
  · exact h
  · rw [h, Bool.true_or] at hstop
    cases hstop

/-- The entry is counted as a failure, or there was a success. -/
theorem meets_judgeDryRun {res : Fault} :
    Meets (fun s => DryRun w bounded fresh n visited fails s ∧ (Succeeded w res → Averages s))
      (Session.judgeDryRun w visited res) (Loaded bounded fresh)
      (fun failed => DryRun w bounded fresh n (visited + 1) (fails + failed.toNat))
      (Exits bounded fresh) := by
  have hexit : ∀ {e : Exit}, e ≠ .divisionByZero → Meets
      (fun s => DryRun w bounded fresh n visited fails s ∧ (Succeeded w res → Averages s))
      (Process.exit e) (Loaded bounded fresh)
      (fun failed : Bool => DryRun w bounded fresh n (visited + 1) (fails + failed.toNat))
      (Exits bounded fresh) :=
    fun he => Meets.exit fun s hs => hs.1.toPrepared.exits he
  have hsuccess : Succeeded w res → Meets
      (fun s => DryRun w bounded fresh n visited fails s ∧ (Succeeded w res → Averages s))
      (pure false) (Loaded bounded fresh)
      (fun failed : Bool => DryRun w bounded fresh n (visited + 1) (fails + failed.toNat))
      (Exits bounded fresh) :=
    fun hres => Meets.pure fun s hs =>
      ⟨hs.1.toPrepared, Nat.le_succ_of_le hs.1.fails_le, fun _ => hs.2 hres⟩
  have hfail : Meets
      (fun s => DryRun w bounded fresh n visited fails s ∧ (Succeeded w res → Averages s))
      (do
        Session.giveUp visited
        pure true) (Loaded bounded fresh)
      (fun failed : Bool => DryRun w bounded fresh n (visited + 1) (fails + failed.toNat))
      (Exits bounded fresh) := by
    refine Meets.bind (R := fun _ => DryRun w bounded fresh n visited fails)
      (Meets.modify (fun s hs => hs.1.toLoaded) fun s hs => ?_) fun _ => Meets.pure fun s hs => ?_
    · exact hs.1.touched (Touched.updateEntry s.globals visited fun _ => rfl) rfl
    · exact ⟨hs.toPrepared, Nat.succ_le_succ hs.fails_le,
        fun hlt => hs.averages (Nat.lt_of_succ_lt_succ hlt)⟩
  refine Meets.bind_of_fact (φ := fun s => s.globals.crashMode = crashModeOf w)
    (Meets.get fun s hs => ⟨hs.1.crashMode, hs⟩) fun s hmode => ?_
  dsimp only
  cases res with
  | none =>
    dsimp only
    split
    · exact hexit fun h => by cases h
    · rename_i hnone
      refine hsuccess (Or.inl ?_)
      rw [← hmode]
      exact (not_not.mp hnone).symm
  | hang =>
    dsimp only
    split
    · exact hfail
    · exact hexit fun h => by cases h
  | crash =>
    dsimp only
    split
    · rename_i hcrash
      refine hsuccess (Or.inl ?_)
      rw [hmode] at hcrash
      exact ((crashModeOf_cases w).resolve_right hcrash).symm
    · split
      · exact hfail
      · exact hexit fun h => by cases h
  | error => exact hexit fun h => by cases h
  | noInst => exact hexit fun h => by cases h
  | noBits => exact hsuccess (Or.inr rfl)

/-- After a stop, `stop_soon` stays set. -/
def Halted (w : World (8 * k)) (bounded fresh : Prop) (n : Nat) (s : Session (8 * k)) : Prop :=
  Prepared w bounded fresh n s ∧ s.stopSoon = true

theorem meets_dryRunFrom (fuel : Nat) {visited fails : Nat} (hfuel : fuel + visited = n)
    {q : Option Ptr} (hq : q = if visited < n then some visited else none) :
    Meets (DryRun w bounded fresh n visited fails) (Session.dryRunFrom w fuel q fails)
      (Loaded bounded fresh)
      (fun r s => r.elim (Halted w bounded fresh n s) fun fails' =>
        DryRun w bounded fresh n n fails' s) (Exits bounded fresh) := by
  induction fuel generalizing visited fails q with
  | zero =>
    refine Meets.pure fun s hs => ?_
    rw [Nat.zero_add] at hfuel
    exact hfuel ▸ hs
  | succ fuel ih =>
    have hv : visited < n := by omega
    rw [if_pos hv] at hq
    subst hq
    have hread : ∀ fn len, Meets (DryRun w bounded fresh n visited fails)
        (Session.readCase fn len) (Loaded bounded fresh)
        (fun _ => DryRun w bounded fresh n visited fails) (Exits bounded fresh) := by
      intro fn len
      refine Meets.step (fun s hs => hs.toLoaded) (fun s a s' hs hg => ?_) fun s e hs hg => ?_
      · split at hg
        · cases hg
        · split at hg <;> cases hg
          exact hs
      · refine hs.toPrepared.exits ?_
        split at hg
        · cases hg
          exact fun h => by cases h
        · split at hg <;> cases hg
          exact fun h => by cases h
    refine Meets.bind_of_fact (φ := fun _ => True) (Meets.get fun s hs => ⟨trivial, hs⟩) ?_
    intro s _
    refine (hread _ _).bind fun _ => (meets_calibrate_dryRun hv).bind fun res => ?_
    refine meets_checkStop_dryRun.bind fun stop => ?_
    cases stop with
    | true => exact Meets.pure fun s hs => ⟨hs.1.toPrepared, hs.2.1 rfl⟩
    | false =>
      refine Meets.bind (Meets.of_pre meets_judgeDryRun fun s hs => ⟨hs.1, hs.2.2 rfl⟩)
        fun failed => ?_
      refine Meets.bind_of_fact
        (φ := DryRun w bounded fresh n (visited + 1) (fails + failed.toNat))
        (Meets.get fun s hs => ⟨hs, hs⟩) fun s hs => ih (by omega) ?_
      have hnext := hs.books.chain.linked visited (hs.size ▸ hv)
      rwa [hs.size] at hnext

/-- After the dry run there was a success, or a stop. -/
theorem meets_performDryRun (hpos : 0 < n) :
    Meets (Prepared w bounded fresh n) (Session.performDryRun w) (Loaded bounded fresh)
      (fun _ s => Prepared w bounded fresh n s ∧ (s.stopSoon = true ∨ Averages s))
      (Exits bounded fresh) := by
  refine Meets.bind_of_fact (φ := Prepared w bounded fresh n)
    (Meets.get fun s hs => ⟨hs, hs⟩) fun s hs => ?_
  have hqueue : s.globals.queue = if 0 < n then some 0 else none := by
    rw [hs.books.chain.queue, if_pos hpos, if_neg (List.length_pos_iff.mp (hs.size.symm ▸ hpos))]
  refine Meets.bind (Meets.of_pre (meets_dryRunFrom _ hs.size hqueue)
    fun t ht => ⟨ht, Nat.le_refl 0, fun h => absurd h (Nat.lt_irrefl 0)⟩) fun r => ?_
  cases r with
  | none => exact Meets.pure fun t ht => ⟨ht.1, Or.inl ht.2⟩
  | some fails =>
    refine Meets.bind_of_fact (φ := DryRun w bounded fresh n n fails)
      (Meets.get fun t ht => ⟨ht, ht⟩) fun t ht => ?_
    split
    · exact Meets.exit fun u hu => hu.toPrepared.exits fun h => by cases h
    · rename_i hnot
      -- Not all entries failed, since that would have ended the process.
      have hlt : fails < n := by
        have hle := ht.fails_le
        rw [ht.books.paths, ht.size] at hnot
        omega
      exact Meets.pure fun u hu => ⟨hu.toPrepared, Or.inr (hu.averages hlt)⟩

theorem findStartPosition_lt (h : Prepared w bounded fresh n s) :
    Session.findStartPosition w s < s.globals.entries.length := by
  have hpos := h.nonempty
  unfold Session.findStartPosition
  split
  · split
    · exact hpos
    · rename_i hlt
      rw [h.books.paths] at hlt
      omega
  · exact hpos

/-- The fuzzing loop is reached with positive divisors. -/
theorem meets_prepare (hpos : 0 < n) :
    Meets (Prepared w bounded fresh n) (Session.prepare w) (Loaded bounded fresh)
      (fun _ => Running bounded fresh none) (Exits bounded fresh) := by
  have hmodify : ∀ {P : Session (8 * k) → Prop} {f : Session (8 * k) → Session (8 * k)},
      (∀ s, P s → Prepared w bounded fresh n s) → (∀ s, P s → P (f s)) →
      Meets P (Process.modify f) (Loaded bounded fresh) (fun _ => P) (Exits bounded fresh) :=
    fun hP hf => Meets.modify (fun s hs => (hP s hs).toLoaded) hf
  refine Meets.bind (R := fun _ => Prepared w bounded fresh n) ?_ fun _ => ?_
  · refine Meets.step (fun s hs => hs.toLoaded) (fun s a s' hs hg => ?_) fun s e hs hg => ?_
    · dsimp only at hg
      split at hg
      · cases hg
      · cases hg
        exact hs.touched (Touched.refl _) rfl
    · dsimp only at hg
      split at hg
      · cases hg
        exact hs.exits fun h => by cases h
      · cases hg
  refine (hmodify (fun _ hs => hs) fun s hs => ?_).bind fun _ => ?_
  · split
    · exact hs.touched (Touched.refl _) rfl
    · exact hs
  refine (meets_performDryRun hpos).bind fun _ => ?_
  refine (hmodify (fun _ hs => hs.1) fun s hs => ?_).bind fun _ => ?_
  · have ht := touched_cullQueue s.globals
    exact ⟨hs.1.touched ht rfl, hs.2.imp_right fun h => h.touched ht⟩
  refine (hmodify (fun _ hs => hs.1) fun s hs => ?_).bind fun _ => ?_
  · exact ⟨hs.1.touched (Touched.refl _) rfl, hs.2⟩
  -- The position to start from is within the queue.
  refine Meets.bind (R := fun _ s => (Prepared w bounded fresh n s ∧
    (s.stopSoon = true ∨ Averages s)) ∧ s.seekTo < s.globals.entries.length)
    (Meets.modify (fun s hs => hs.1.toLoaded) fun s hs => ?_) fun _ => ?_
  · exact ⟨⟨hs.1.touched (Touched.refl _) rfl, hs.2⟩, findStartPosition_lt hs.1⟩
  refine Meets.bind (R := fun stop s => Prepared w bounded fresh n s ∧
    (stop = false → Averages s) ∧ s.seekTo < s.globals.entries.length)
    (Meets.step (fun s hs => hs.1.1.toLoaded) (fun s stop s' hs hg => ?_)
      fun s e _ hg => by cases hg) fun stop => ?_
  · cases hg
    refine ⟨hs.1.1.touched (Touched.refl _) rfl, fun hstop => ?_, hs.2⟩
    rcases hs.1.2 with h | h
    · rw [h, Bool.true_or] at hstop
      cases hstop
    · exact h
  cases stop with
  | true => exact Meets.exit fun s hs => hs.1.exits fun h => by cases h
  | false =>
    refine Meets.pure fun s hs => ?_
    have hidle := hs.1.idle
    simp only [Idle, idlePart, Prod.mk.injEq] at hidle
    have hcur : s.queueCur = none := hidle.2.1
    have havg := hs.2.1 rfl
    refine ⟨⟨hs.1.toLoaded, havg.1, havg.2, hs.2.2, fun q hq => ?_⟩, hcur, ?_⟩
    · rw [hcur] at hq
      cases hq
    · rw [hidle.1]
      rfl

end DryRun

end TriforceAFL.Proofs
