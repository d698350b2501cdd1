import TriforceAFL.Proofs.QueueLengths
import TriforceAFL.Proofs.Resume

/-!
# `TriforceAFL.Proofs.ResumeDepth`: the depth of an entry after a resume

The name of a queue file tells where the entry comes from: `src:` and the id of the parent for a
find, `orig:` and the old name for a seed, `sync:` and the name of the peer for an import. When a
session is resumed, `pivot_inputs` looks for the first colon behind the id, reads a number behind
it, and takes it for the id of the parent. For a find this is the parent. For a seed or an import it
is whatever the old name or the name of the peer starts with. In the session itself, depths and
names agree (`session_generations`).

A session starts with fresh names, and is left in any state after the queue has been loaded.
`resume_depths_iff` says when the next session finds the depths again: when every file is there and
is not too big, and no seed or import is misread as a find (`Misread`).

The next session reads the directory in the order of the names (`ResumesFrom`), as `scandir` with
`alphasort` returns them; `AFL_SHUFFLE_QUEUE` is not set.
-/

set_option autoImplicit false

namespace TriforceAFL.Proofs

open Lib Lib.Process Spec

/-! ### What the names say -/

/-- The number behind the first colon of the origin. -/
def Origin.source : Origin → Option Nat
  | .seed name => scanUnsigned 6 name
  | .sync party rest => scanUnsigned 6 (party ++ rest)
  | .find parent rest => scanUnsigned 6 (padDec 6 parent ++ rest)

theorem sourceId_caseName (p : Nat) (o : Origin) :
    Session.sourceId (caseName p o.text) = o.source := by
  have hdigits : ∀ c ∈ padDec 6 p, (c != ':') = true := by
    intro c hc
    rw [bne_iff_ne]
    rintro rfl
    exact absurd (isDigit_of_mem_padDec hc) (by decide)
  have hdrop : ((caseName p o.text).drop 3).dropWhile (· != ':') =
      o.text.dropWhile (· != ':') := by
    rw [show (caseName p o.text).drop 3 = _ from drop_caseName p o.text,
      List.dropWhile_append_of_pos hdigits, List.dropWhile_cons_of_pos (by decide)]
  unfold Session.sourceId
  rw [hdrop]
  cases o with
  | seed name => rfl
  | sync party rest => rfl
  | find parent rest => rfl

theorem keepsName_caseName {p : Nat} (hp : p < 10 ^ 6) (op : Text) :
    Session.keepsName p (caseName p op) = true := by
  have hid := caseId_caseName hp op
  rw [caseId, if_pos (isPrefixOf_caseName p op)] at hid
  rw [Session.keepsName, isPrefixOf_caseName, Bool.true_and, beq_iff_eq]
  exact hid

theorem pivotName_caseName {p : Nat} (hp : p < 10 ^ 6) (op : Text) :
    pivotName p (caseName p op) = caseName p op := if_pos (keepsName_caseName hp op)

/-- The names of small ids are in the order of the ids. -/
theorem caseName_lt {p q : Nat} (hpq : p < q) (hq : q < 10 ^ 6) (op op' : Text) :
    caseName p op < caseName q op' := by
  have hlt := padDec_lt_padDec (w := 6) (by decide) hpq hq
  refine append_lt_append hlt ?_
  rw [length_padDec (by decide) (hpq.trans hq), length_padDec (by decide) hq]

theorem slash_notMem_caseName {p : Nat} {op : Text} (h : '/' ∉ op) : '/' ∉ caseName p op := by
  rw [caseName, List.mem_append, List.mem_append, List.mem_cons]
  rintro ((hpre | hid) | hcomma | hop)
  · exact absurd hpre (by decide)
  · exact slash_notMem_padDec 6 p hid
  · exact absurd hcomma (by decide)
  · exact h hop

/-- The file name of a file in the queue directory. -/
theorem fileNameOf_queue {dir name : Text} (h : '/' ∉ name) :
    fileNameOf (dir ++ "/queue/".toList ++ name) = name := by
  have hsplit : dir ++ "/queue/".toList ++ name = (dir ++ "/queue".toList) ++ '/' :: name := by
    rw [List.append_assoc, List.append_assoc]
    rfl
  rw [hsplit, fileNameOf_append h]

section Names
variable {k : Nat} {bounded : Prop} {s : Session (8 * k)}

theorem Explained.fileName {g : FuzzState (8 * k)} {p : Nat} (h : Explained g p) :
    ∃ o : Origin, fileNameOf (g.entry p).fname = caseName p o.text ∧ o.DepthOk g p := by
  obtain ⟨o, hname, hplain, hdepth⟩ := h
  refine ⟨o, ?_, hdepth⟩
  rw [hname]
  exact fileNameOf_queue (slash_notMem_caseName hplain)

/-- The file names of the entries. -/
def fileNames (g : FuzzState (8 * k)) : List Text := fields (fun e => fileNameOf e.fname) g

theorem Loaded.sorted_fileNames (h : Loaded bounded True s)
    (hsmall : s.globals.entries.length < 10 ^ 6) : (fileNames s.globals).Pairwise (· < ·) := by
  rw [List.pairwise_iff_getElem]
  intro i j hi hj hij
  have hlen : (fileNames s.globals).length = s.globals.entries.length := length_fields _ _
  have hname : ∀ p (hp : p < (fileNames s.globals).length),
      (fileNames s.globals)[p] = fileNameOf (s.globals.entry p).fname := by
    intro p hp
    have hget : (fileNames s.globals)[p]? = _ := getElem?_fields (hlen ▸ hp)
    rwa [List.getElem?_eq_getElem hp, Option.some.injEq] at hget
  obtain ⟨o, ho, _⟩ := (h.explained trivial i (by omega)).fileName
  obtain ⟨o', ho', _⟩ := (h.explained trivial j (by omega)).fileName
  rw [hname i hi, hname j hj, ho, ho']
  exact caseName_lt hij (by omega) _ _

end Names

/-! ### The files that the next session reads -/

section Resume
variable {k : Nat} {bounded : Prop} {s t : Session (8 * k)} {w' : World (8 * k)}

/-- The session `w'` is resumed from the queue directory of state `s`. -/
structure ResumesFrom (s : Session (8 * k)) (w' : World (8 * k)) : Prop where
  files : (w'.inputs.map fun f =>
    (s.globals.outDir ++ "/queue/".toList ++ f.name, f.content)).Perm s.globals.queueFiles
  sorted : w'.inputs.Pairwise fun f g => f.name < g.name
  disk : ∀ t, w'.canCreate t = true

theorem ResumesFrom.length_inputs (h : ResumesFrom s w') :
    w'.inputs.length = s.globals.queueFiles.length := by
  rw [← h.files.length_eq, List.length_map]

theorem ResumesFrom.mem_queueFiles (h : ResumesFrom s w') {f : InputFile} (hf : f ∈ w'.inputs) :
    (s.globals.outDir ++ "/queue/".toList ++ f.name, f.content) ∈ s.globals.queueFiles :=
  h.files.mem_iff.mp (List.mem_map_of_mem hf)

/-- The input files are the entries, in the same order. -/
theorem ResumesFrom.names (h : ResumesFrom s w') (hs : Loaded bounded True s)
    (hsmall : s.globals.entries.length < 10 ^ 6) :
    w'.inputs.map (·.name) = fileNames s.globals := by
  have hperm : (w'.inputs.map (·.name)).Perm (fileNames s.globals) := by
    have hfiles := ((h.files.map (·.1)).trans (hs.listed trivial)).map fileNameOf
    rw [List.map_map, List.map_map] at hfiles
    have hnames : w'.inputs.map (·.name) = w'.inputs.map
        (fileNameOf ∘ (fun f => f.1) ∘ fun f : InputFile =>
          (s.globals.outDir ++ "/queue/".toList ++ f.name, f.content)) := by
      refine List.map_congr_left fun f hf => ?_
      exact (fileNameOf_queue (w'.inputs_plain f hf)).symm
    rw [hnames]
    refine hfiles.trans (List.Perm.of_eq ?_)
    exact List.map_map
  refine hperm.eq_of_pairwise (fun a b _ _ hab hba => ?_) (List.pairwise_map.mpr h.sorted)
    (hs.sorted_fileNames hsmall)
  exact absurd (List.lt_trans hab hba) (List.lt_irrefl a)

theorem ResumesFrom.accepted_inputs (h : ResumesFrom s w') (hs : Loaded bounded True s)
    (hsmall : s.globals.entries.length < 10 ^ 6) : accepted w'.inputs = w'.inputs := by
  refine List.filter_eq_self.mpr fun f hf => ?_
  have hpos := (hs.files _ (h.mem_queueFiles hf)).1
  have hname : f.name ∈ fileNames s.globals := by
    rw [← h.names hs hsmall]
    exact List.mem_map_of_mem hf
  obtain ⟨p, hp, hfile⟩ := mem_fields.mp hname
  obtain ⟨o, ho, _⟩ := (hs.explained trivial p hp).fileName
  have hprefix : casePrefix <+: f.name := by
    rw [← hfile, ho]
    exact List.isPrefixOf_iff_prefix.mp (isPrefixOf_caseName _ _)
  rw [isTestCase, isReadme_of_casePrefix hprefix, Bool.and_eq_true]
  refine ⟨?_, rfl⟩
  rw [Bool.not_eq_true', List.isEmpty_eq_false_iff]
  exact List.length_pos_iff.mp hpos

/-! ### The depths -/

/-- Behind `orig:` or `sync:` in the name of entry `p` there is a number that is the id of an
entry. -/
def Misread (g : FuzzState (8 * k)) (p : Nat) : Prop :=
  ∃ rest src, (fileNameOf (g.entry p).fname = caseName p ("orig:".toList ++ rest) ∨
      fileNameOf (g.entry p).fname = caseName p ("sync:".toList ++ rest)) ∧
    scanUnsigned 6 rest = some src ∧ src < g.entries.length

theorem caseName_cancel {p : Nat} {op op' : Text} (h : caseName p op = caseName p op') : op = op' :=
  (List.cons.inj (List.append_cancel_left h)).2

/-- Only a seed or an import is misread. -/
theorem Misread.origin {g : FuzzState (8 * k)} {p : Nat} (h : Misread g p) {o : Origin}
    (hname : fileNameOf (g.entry p).fname = caseName p o.text) (hdepth : o.DepthOk g p) :
    (g.entry p).depth = 1 ∧ ∃ src < g.entries.length, o.source = some src := by
  obtain ⟨rest, src, htext, hscan, hsrc⟩ := h
  rw [hname] at htext
  cases o with
  | seed name =>
    refine ⟨hdepth, src, hsrc, ?_⟩
    rcases htext with htext | htext
    · rw [Origin.source, List.append_cancel_left (caseName_cancel htext), hscan]
    · exact absurd (congrArg (List.take 1) (caseName_cancel htext))
        (show ¬ ['o'] = ['s'] by decide)
  | sync party tail =>
    refine ⟨hdepth, src, hsrc, ?_⟩
    rcases htext with htext | htext
    · exact absurd (congrArg (List.take 1) (caseName_cancel htext))
        (show ¬ ['s'] = ['o'] by decide)
    · have hrest : party ++ tail = rest :=
        List.append_cancel_left ((List.append_assoc _ _ _).symm.trans (caseName_cancel htext))
      rw [Origin.source, hrest, hscan]
  | find parent tail =>
    exfalso
    rcases htext with htext | htext
    · exact absurd (congrArg (List.take 1) (caseName_cancel htext))
        (show ¬ ['s'] = ['o'] by decide)
    · exact absurd (congrArg (List.take 2) (caseName_cancel htext))
        (show ¬ ['s', 'r'] = ['s', 'y'] by decide)

/-- The other direction, for an entry that is not a find. -/
theorem misread_of_source {g : FuzzState (8 * k)} {p src : Nat} {o : Origin}
    (hname : fileNameOf (g.entry p).fname = caseName p o.text)
    (ho : ∀ parent rest, o ≠ .find parent rest) (hsource : o.source = some src)
    (hsrc : src < g.entries.length) : Misread g p := by
  cases o with
  | seed name => exact ⟨name, src, Or.inl hname, hsource, hsrc⟩
  | sync party rest =>
    refine ⟨party ++ rest, src, Or.inr (hname.trans (congrArg (caseName p) ?_)), hsource, hsrc⟩
    exact List.append_assoc _ _ _
  | find parent rest => exact absurd rfl (ho parent rest)

theorem one_le_pivotedDepth (g : FuzzState (8 * k)) (p : Nat) (name : Text) :
    1 ≤ pivotedDepth g p name := by
  unfold pivotedDepth
  split
  · exact Nat.le_refl 1
  · split
    · exact Nat.succ_le_succ (Nat.zero_le _)
    · exact Nat.le_refl 1

/-- The depth that the next session gives to the entry with the given origin. -/
theorem pivotedDepth_caseName {g : FuzzState (8 * k)} {p : Nat} (hp : p < 10 ^ 6) (o : Origin) :
    pivotedDepth g p (caseName p o.text) = match o.source with
      | none => 1
      | some src =>
        if src < g.entries.length then (if src < p then (g.entry src).depth else 1) + 1
        else 1 := by
  have hread : (if Session.keepsName p (caseName p o.text) then
      Session.sourceId (caseName p o.text) else none) = o.source := by
    rw [if_pos (keepsName_caseName hp _), sourceId_caseName]
  rw [← hread]
  rfl

/-- The next session has entries with the same names, and depths read off them. -/
structure Resumed (s t : Session (8 * k)) : Prop where
  size : t.globals.entries.length = s.globals.entries.length
  depth : ∀ p < s.globals.entries.length, (t.globals.entry p).depth =
    pivotedDepth t.globals p (fileNameOf (s.globals.entry p).fname)
  names : fileNames t.globals = fileNames s.globals

theorem ResumesFrom.resumed (h : ResumesFrom s w') (hs : Loaded bounded True s)
    (hsmall : s.globals.entries.length < 10 ^ 6)
    (ht : Filling w' (accepted w'.inputs) (accepted w'.inputs).length t) : Resumed s t := by
  have hnames := h.names hs hsmall
  rw [h.accepted_inputs hs hsmall] at ht
  have hlen : w'.inputs.length = s.globals.entries.length := by
    have hlen := congrArg List.length hnames
    rwa [List.length_map, fileNames, length_fields] at hlen
  have hentry : ∀ p < s.globals.entries.length,
      fileNameOf (t.globals.entry p).fname = fileNameOf (s.globals.entry p).fname ∧
      (t.globals.entry p).depth =
        pivotedDepth t.globals p (fileNameOf (s.globals.entry p).fname) := by
    intro p hp
    obtain ⟨f, hf, hfname, hdepth⟩ := ht.pivoted p (hlen ▸ hp)
    have hfile : f.name = fileNameOf (s.globals.entry p).fname := by
      have hget := congrArg (·[p]?) hnames
      rw [List.getElem?_map, hf, fileNames, getElem?_fields hp, Option.map_some] at hget
      exact Option.some.inj hget
    obtain ⟨o, ho, _⟩ := (hs.explained trivial p hp).fileName
    have hkept : pivotName p f.name = f.name := by
      rw [hfile, ho, pivotName_caseName (by omega)]
    refine ⟨?_, hfile ▸ hdepth⟩
    rw [hfname, hkept, hfile]
    refine fileNameOf_queue ?_
    rw [← hfile]
    exact w'.inputs_plain f (List.mem_of_getElem? hf)
  have hsize : t.globals.entries.length = s.globals.entries.length := ht.size.trans hlen
  refine ⟨hsize, fun p hp => (hentry p hp).2, List.ext_getElem? fun p => ?_⟩
  by_cases hp : p < s.globals.entries.length
  · rw [fileNames, fileNames, getElem?_fields (hsize ▸ hp), getElem?_fields hp, (hentry p hp).1]
  · rw [List.getElem?_eq_none, List.getElem?_eq_none]
    · rw [fileNames, length_fields]
      omega
    · rw [fileNames, length_fields]
      omega

/-- The depths are the same, unless an entry is misread. -/
theorem Resumed.depths_iff (h : Resumed s t) (hs : Loaded bounded True s)
    (hsmall : s.globals.entries.length < 10 ^ 6) :
    (∀ p < s.globals.entries.length, (t.globals.entry p).depth = (s.globals.entry p).depth) ↔
      ∀ p < s.globals.entries.length, ¬ Misread s.globals p := by
  constructor
  · intro hsame p hp hmis
    obtain ⟨o, ho, hok⟩ := (hs.explained trivial p hp).fileName
    obtain ⟨hone, src, hsrc, hsource⟩ := hmis.origin ho hok
    have hdepth := h.depth p hp
    rw [ho, pivotedDepth_caseName (by omega), hsource, hsame p hp, hone] at hdepth
    dsimp only at hdepth
    rw [h.size, if_pos hsrc] at hdepth
    -- The source has a depth of at least 1.
    split at hdepth
    · have hpos := one_le_pivotedDepth t.globals src (fileNameOf (s.globals.entry src).fname)
      rw [← h.depth src hsrc] at hpos
      omega
    · omega
  · intro hnone p
    induction p using Nat.strong_induction_on with
    | _ p ih =>
      intro hp
      obtain ⟨o, ho, hok⟩ := (hs.explained trivial p hp).fileName
      rw [h.depth p hp, ho, pivotedDepth_caseName (by omega)]
      -- A seed or an import has no source among the entries.
      have hroot : (∀ parent rest, o ≠ .find parent rest) → (s.globals.entry p).depth = 1 →
          (match o.source with
            | none => 1
            | some src => if src < t.globals.entries.length then
                (if src < p then (t.globals.entry src).depth else 1) + 1 else 1) =
            (s.globals.entry p).depth := by
        intro hfind hone
        rw [hone]
        cases hsource : o.source with
        | none => rfl
        | some src =>
          refine if_neg fun hsrc => hnone p hp (misread_of_source ho hfind hsource ?_)
          rwa [← h.size]
      cases o with
      | seed name => exact hroot (fun _ _ heq => by cases heq) hok
      | sync party rest => exact hroot (fun _ _ heq => by cases heq) hok
      | find parent rest =>
        obtain ⟨hparent, hdepth⟩ := hok
        have hlt : parent < 10 ^ 6 := by omega
        have hsource : (Origin.find parent rest).source = some parent :=
          scanUnsigned_padDec (by decide) hlt (hlt.trans (by decide)) rest
        rw [hsource, hdepth]
        dsimp only
        rw [h.size, if_pos (by omega), if_pos hparent, ih parent hparent (by omega)]

/-! ### Resuming -/

/-- The next session starts with the same entries, at the same depths. -/
def RecoversDepths (s : Session (8 * k)) (w' : World (8 * k)) : Prop :=
  ∃ t, Returns (Session.start w') (do Session.readTestcases w'; Session.pivotInputs w') () t ∧
    t.globals.entries.map (fun e => (fileNameOf e.fname, e.depth)) =
      s.globals.entries.map (fun e => (fileNameOf e.fname, e.depth))

/-- Reading the test cases and pivoting them. -/
theorem meets_readPivot (w' : World (8 * k)) :
    Meets (· = Session.start w') (do Session.readTestcases w'; Session.pivotInputs w') (Base True)
      (fun _ s => Filling w' (accepted w'.inputs) (accepted w'.inputs).length s) (Stops w') :=
  (meets_readTestcases w').bind_of_fact fun _ _ => meets_pivotInputs w'

/-- The pairs of name and depth agree iff the names and the depths do. -/
theorem Resumed.pairs_iff (h : Resumed s t) :
    t.globals.entries.map (fun e => (fileNameOf e.fname, e.depth)) =
        s.globals.entries.map (fun e => (fileNameOf e.fname, e.depth)) ↔
      ∀ p < s.globals.entries.length, (t.globals.entry p).depth = (s.globals.entry p).depth := by
  constructor
  · intro heq p _
    have hfields : fields (fun e => (fileNameOf e.fname, e.depth)) t.globals =
        fields (fun e => (fileNameOf e.fname, e.depth)) s.globals := heq
    exact congrArg Prod.snd (field_eq_of_fields_eq hfields p)
  · intro hsame
    refine List.ext_getElem? fun p => ?_
    show (fields (fun e => (fileNameOf e.fname, e.depth)) t.globals)[p]? =
      (fields (fun e => (fileNameOf e.fname, e.depth)) s.globals)[p]?
    by_cases hp : p < s.globals.entries.length
    · have hname : fileNameOf (t.globals.entry p).fname = fileNameOf (s.globals.entry p).fname :=
        field_eq_of_fields_eq h.names p
      rw [getElem?_fields (h.size ▸ hp), getElem?_fields hp, hname, hsame p hp]
    · rw [List.getElem?_eq_none, List.getElem?_eq_none]
      · rw [length_fields]
        omega
      · rw [length_fields, h.size]
        omega

/-- A loaded queue is found again iff no file is too big and no entry is misread. -/
theorem ResumesFrom.recovers_iff (h : ResumesFrom s w') (hs : Loaded bounded True s)
    (hsmall : s.globals.entries.length < 10 ^ 6) :
    RecoversDepths s w' ↔ (∀ f ∈ s.globals.queueFiles, f.2.length ≤ MAX_FILE) ∧
      ∀ p < s.globals.entries.length, ¬ Misread s.globals p := by
  have haccepted := h.accepted_inputs hs hsmall
  obtain ⟨_, hok, herr⟩ := meets_readPivot w' _ rfl
  constructor
  · rintro ⟨t, ⟨hres, rfl⟩, hpairs⟩
    have hfill := hok () hres
    have hresumed := h.resumed hs hsmall hfill
    refine ⟨fun f hf => ?_, (hresumed.depths_iff hs hsmall).mp (hresumed.pairs_iff.mp hpairs)⟩
    -- The file is one of the inputs that were read.
    obtain ⟨g, hg, rfl⟩ := List.mem_map.mp (h.files.mem_iff.mpr hf)
    exact (hfill.fits g (haccepted.symm ▸ hg)).2 trivial
  · rintro ⟨hmax, hnone⟩
    have hreturns : ((do Session.readTestcases w'; Session.pivotInputs w' : Fuzz (8 * k) Unit)
        (Session.start w')).result = .ok () := by
      cases hres : ((do Session.readTestcases w'; Session.pivotInputs w' : Fuzz (8 * k) Unit)
          (Session.start w')).result with
      | ok => rfl
      | error e =>
        -- None of the reasons to fail applies.
        exfalso
        have hreason := (herr e hres).reason
        cases e with
        | testCaseTooBig fn size =>
          obtain ⟨f, hf, hbig⟩ := hreason
          rw [haccepted] at hf
          have hle := hmax _ (h.mem_queueFiles hf)
          exact absurd hbig (Nat.not_lt.mpr hle)
        | noUsableTestCases dir =>
          have hempty : accepted w'.inputs = [] := hreason
          have hlen := congrArg List.length (h.names hs hsmall)
          rw [← haccepted, hempty, fileNames, length_fields] at hlen
          exact absurd hs.nonempty (by rw [← hlen]; exact Nat.lt_irrefl 0)
        | unableToCreate fn =>
          obtain ⟨t, ht⟩ := hreason
          rw [h.disk t] at ht
          cases ht
        | _ => exact hreason
    have hresumed := h.resumed hs hsmall (hok () hreturns)
    refine ⟨_, Returns.of_result hreturns, ?_⟩
    exact hresumed.pairs_iff.mpr ((hresumed.depths_iff hs hsmall).mpr hnone)

/-- A queue with a missing file is not found again. -/
theorem ResumesFrom.not_recovers (h : ResumesFrom s w')
    (hmissing : s.globals.queueFiles.length < s.globals.entries.length) :
    ¬ RecoversDepths s w' := by
  rintro ⟨t, ⟨hres, rfl⟩, hpairs⟩
  obtain ⟨_, hok, _⟩ := meets_readPivot w' _ rfl
  have hsize := (hok () hres).size
  have hlen := congrArg List.length hpairs
  have hle : (accepted w'.inputs).length ≤ w'.inputs.length := List.length_filter_le _ _
  rw [List.length_map, List.length_map] at hlen
  rw [h.length_inputs] at hle
  omega

/-- In every state after the queue has been loaded, it is as it should be, unless the process has
ended while it was rewriting a trimmed file. -/
theorem loaded_or_missing {w : World (8 * k)} (hfresh : FreshInputs w)
    (hload : (Session.loadQueue w (Session.start w)).result = .ok ()) {n : Nat}
    (hs : s ∈ (do Session.prepare w; Session.turns w n : Fuzz (8 * k) Unit).states
      (Session.loadQueue w (Session.start w)).final) :
    Loaded False True s ∨ s.globals.queueFiles.length < s.globals.entries.length := by
  obtain ⟨hpos, hfill⟩ := (meets_loadQueue w _ rfl).2.1 () hload
  have hturns : Meets (Running False True none) (Session.turns w n) (Loaded False True)
      (fun _ => Loaded False True) (Exits False True) := by
    intro t ht
    exact Meets.mono (meets_turns n ht.looping fun h => h.elim) (fun _ h => h)
      (fun _ h => h.toLoaded) (fun _ _ h => h.toLoaded) (fun _ _ h => h) t rfl
  have hrun : Meets (Prepared w False True (accepted w.inputs).length)
      (do Session.prepare w; Session.turns w n) (Loaded False True) (fun _ => Loaded False True)
      (Exits False True) := (meets_prepare hpos).bind fun _ => hturns
  have hstates : Meets (Prepared w False True (accepted w.inputs).length)
      (do Session.prepare w; Session.turns w n) (fun s => Loaded False True s ∨
        s.globals.queueFiles.length < s.globals.entries.length) (fun _ => Loaded False True)
      (Exits False True) :=
    hrun.mono (fun _ h => h) (fun _ h => Or.inl h) (fun _ _ h => h) fun _ _ h => h
  refine hstates.of_mem_states (fun _ _ h => Or.inl h) (fun _ _ h => ?_)
    (hfill.prepared hpos fun _ => hfresh) hs
  exact h.loaded.imp_right fun hmissing => hmissing trivial

/-- When the session after this one gives every entry its depth: every entry has its file, no file
is too big, and no seed or import is misread as a find. -/
theorem resume_depths_iff (w : World (8 * k)) (hfresh : FreshInputs w)
    (hload : (Session.loadQueue w (Session.start w)).result = .ok ()) (n : Nat)
    (hs : s ∈ (do Session.prepare w; Session.turns w n : Fuzz (8 * k) Unit).states
      (Session.loadQueue w (Session.start w)).final)
    (hsmall : s.globals.entries.length < 10 ^ 6) (hresume : ResumesFrom s w') :
    RecoversDepths s w' ↔ s.globals.queueFiles.length = s.globals.entries.length ∧
      (∀ f ∈ s.globals.queueFiles, f.2.length ≤ MAX_FILE) ∧
      ∀ p < s.globals.entries.length, ¬ Misread s.globals p := by
  rcases loaded_or_missing hfresh hload hs with hloaded | hmissing
  · have hlen := (hloaded.listed trivial).length_eq
    rw [List.length_map, length_fields] at hlen
    rw [hresume.recovers_iff hloaded hsmall]
    exact ⟨fun h => ⟨hlen, h⟩, fun h => h.2⟩
  · constructor
    · exact fun h => absurd h (hresume.not_recovers hmissing)
    · exact fun h => absurd h.1 (Nat.ne_of_lt hmissing)

/-- Over `d` names, that of entry `p` leads to a seed or an import. -/
inductive Generation (g : FuzzState (8 * k)) : Nat → Nat → Prop
  | first {p : Nat} {o : Origin} (root : ∀ parent rest, o ≠ .find parent rest)
      (name : fileNameOf (g.entry p).fname = caseName p o.text) : Generation g p 1
  | find {p parent d : Nat} {rest : Text} (older : parent < p)
      (name : fileNameOf (g.entry p).fname = caseName p (Origin.find parent rest).text)
      (h : Generation g parent d) : Generation g p (d + 1)

theorem Loaded.generation (h : Loaded bounded True s) {p : Nat}
    (hp : p < s.globals.entries.length) : Generation s.globals p (s.globals.entry p).depth := by
  induction p using Nat.strong_induction_on with
  | h p ih =>
    obtain ⟨o, hname, hdepth⟩ := (h.explained trivial p hp).fileName
    cases o with
    | seed name =>
      rw [show _ = 1 from hdepth]
      exact .first (by simp) hname
    | sync party rest =>
      rw [show _ = 1 from hdepth]
      exact .first (by simp) hname
    | find parent rest =>
      rw [hdepth.2]
      exact .find hdepth.1 hname (ih parent hdepth.1 (hdepth.1.trans hp))

/-- In every state after the queue has been loaded, `queue/` holds one file for each entry, and the
depth of an entry is the number of names from it to a seed or an import. The exception is a process
that has ended while it was rewriting a trimmed file. -/
theorem session_generations (w : World (8 * k)) (hfresh : FreshInputs w)
    (hload : (Session.loadQueue w (Session.start w)).result = .ok ()) (n : Nat)
    (hs : s ∈ (do Session.prepare w; Session.turns w n : Fuzz (8 * k) Unit).states
      (Session.loadQueue w (Session.start w)).final)
    (hfiles : s.globals.entries.length ≤ s.globals.queueFiles.length) :
    (s.globals.queueFiles.map (·.1)).Perm (s.globals.entries.map (·.fname)) ∧
      ∀ p < s.globals.entries.length, Generation s.globals p (s.globals.entry p).depth := by
  obtain hloaded | hmissing := loaded_or_missing hfresh hload hs
  · exact ⟨hloaded.listed trivial, fun p => hloaded.generation⟩
  · omega

/-- The state in which the queue has been loaded is a state of the session. -/
theorem mem_states_prepare (w : World (8 * k)) (n : Nat) (s : Session (8 * k)) :
    s ∈ (do Session.prepare w; Session.turns w n : Fuzz (8 * k) Unit).states s := by
  have hvisits : Visits (· = s) (do Session.prepare w; Session.turns w n : Fuzz (8 * k) Unit)
      (· = s) := Visits.bind_left (Visits.bind_left (Visits.step fun _ h => h) _) _
  obtain ⟨c, hc, rfl⟩ := hvisits s rfl
  exact List.mem_append_left _ hc

end Resume

/-- A session with seeds of one byte. -/
def seedsWorld (names : List Text) (hnodup : names.Nodup) (h : ∀ name ∈ names, '/' ∉ name) :
    World (8 * 1) :=
  { quietWorld [0] with
    inputs := names.map fun name => { name, content := [0] }
    inputs_nodup := by
      rw [List.map_map]
      exact (List.map_id names).symm ▸ hnodup
    inputs_plain := fun f hf => by
      obtain ⟨name, hname, rfl⟩ := List.mem_map.mp hf
      exact h name hname }

/-- A session with one seed. -/
def seedWorld (name : Text) (h : '/' ∉ name) : World (8 * 1) :=
  seedsWorld [name] (List.nodup_singleton _) fun _ hname => List.mem_singleton.mp hname ▸ h

/-- Two seeds with ordinary names, and the queue that is made of them. -/
def twoSeeds : World (8 * 1) :=
  seedsWorld ["jpg 2".toList, "png".toList] (by decide) (by decide)

@[inherit_doc twoSeeds] def twoSeedsQueue : World (8 * 1) :=
  seedsWorld ["id:000000,orig:jpg 2".toList, "id:000001,orig:png".toList] (by decide) (by decide)

theorem freshInputs_twoSeeds : FreshInputs twoSeeds := by
  unfold FreshInputs
  decide

/-- They keep their depths. -/
theorem resume_depths_iff_twoSeeds :
    let s := (Session.loadQueue twoSeeds (Session.start twoSeeds)).final
    RecoversDepths s twoSeedsQueue ∧ s.globals.queueFiles.length = s.globals.entries.length ∧
      (∀ f ∈ s.globals.queueFiles, f.2.length ≤ MAX_FILE) ∧
      ∀ p < s.globals.entries.length, ¬ Misread s.globals p := by
  intro s
  have hrecovers : RecoversDepths s twoSeedsQueue :=
    ⟨_, Returns.of_result (by decide +kernel), by decide +kernel⟩
  refine ⟨hrecovers, (resume_depths_iff twoSeeds freshInputs_twoSeeds (by decide +kernel) 0
    (mem_states_prepare twoSeeds 0 s) (by decide +kernel)
    ⟨List.Perm.of_eq (by decide +kernel), by decide +kernel, fun _ => rfl⟩).mp hrecovers⟩

theorem session_generations_twoSeeds :
    let s := (Session.loadQueue twoSeeds (Session.start twoSeeds)).final
    s.globals.entries.length = 2 ∧
      ∀ p < s.globals.entries.length, Generation s.globals p (s.globals.entry p).depth := by
  intro s
  exact ⟨by decide +kernel, (session_generations twoSeeds freshInputs_twoSeeds (by decide +kernel)
    0 (mem_states_prepare twoSeeds 0 s) (by decide +kernel)).2⟩

/-- A seed with the name `0` is taken for a find of itself. -/
theorem resume_misreads_seed :
    let w := seedWorld "0".toList (by decide)
    let s := (Session.loadQueue w (Session.start w)).final
    let w' := seedWorld "id:000000,orig:0".toList (by decide)
    FreshInputs w ∧ (Session.loadQueue w (Session.start w)).result = .ok () ∧
      s ∈ (do Session.prepare w; Session.turns w 0 : Fuzz (8 * 1) Unit).states s ∧
      s.globals.entries.length < 10 ^ 6 ∧ ResumesFrom s w' ∧ ¬ RecoversDepths s w' := by
  intro w s w'
  refine ⟨fun f hf => ?_, by decide +kernel, mem_states_prepare w 0 s, by decide +kernel,
    ⟨List.Perm.of_eq (by decide +kernel), List.pairwise_singleton _ _, fun _ => rfl⟩, ?_⟩
  · rw [List.mem_singleton.mp hf]
    decide
  · rintro ⟨t, ⟨_, rfl⟩, hdepths⟩
    revert hdepths
    decide +kernel

end TriforceAFL.Proofs
