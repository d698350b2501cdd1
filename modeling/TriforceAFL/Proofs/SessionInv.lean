import TriforceAFL.Proofs.QueueBooks
import TriforceAFL.Spec.MainLoop

/-!
# `TriforceAFL.Proofs.SessionInv`: the invariants of a session

`Quiet` says what most steps of a session can change: the measurements of `Touched`, and parts of
the state that no invariant reads. The other steps are few: saving a test case, trimming one,
closing an entry, and the moves of the main loop.

Three invariants build on each other.

* `Base`: the books of the queue are right, and all lengths are in range.
* `Live`: in the fuzzing loop, there is an entry, both averages have a divisor, the current entry is
  the one at position `current_entry`, and every name and depth has an origin.
* `Fuzzing q`: while `fuzz_one` works on entry `q`.

The upper bound on the lengths holds under an assumption `bounded`, and the origins exist under an
assumption `fresh`. Both are parameters, so that one proof serves all runs.
-/

set_option autoImplicit false

namespace TriforceAFL.Proofs

open Lib Spec

/-! ### Where a test case comes from -/

/-- How an entry came into the queue. -/
inductive Origin
  /-- A file of the input directory. -/
  | seed (name : Text)
  /-- An import from a peer. -/
  | sync (party rest : Text)
  /-- A find, with the entry that was fuzzed. -/
  | find (parent : Nat) (rest : Text)

namespace Origin

/-- The part of the file name that tells the origin. -/
def text : Origin → Text
  | .seed name => "orig:".toList ++ name
  | .sync party rest => "sync:".toList ++ party ++ rest
  | .find parent rest => "src:".toList ++ padDec 6 parent ++ rest

end Origin

section Explained
variable {m : Nat}

/-- The depth that goes with the origin of entry `p`. -/
def Origin.DepthOk (g : FuzzState m) (p : Nat) : Origin → Prop
  | .seed _ | .sync _ _ => (g.entry p).depth = 1
  | .find parent _ => parent < p ∧ (g.entry p).depth = (g.entry parent).depth + 1

/-- Name and depth of entry `p` have an origin. -/
def Explained (g : FuzzState m) (p : Nat) : Prop :=
  ∃ o : Origin, (g.entry p).fname = g.outDir ++ "/queue/".toList ++ caseName p o.text ∧
    '/' ∉ o.text ∧ o.DepthOk g p

/-- Only names and depths matter. -/
theorem Explained.of_eq {g g' : FuzzState m} {p : Nat} (h : Explained g p)
    (hdir : g'.outDir = g.outDir) (hname : (g'.entry p).fname = (g.entry p).fname)
    (hdepth : ∀ r ≤ p, (g'.entry r).depth = (g.entry r).depth) : Explained g' p := by
  obtain ⟨o, hfname, hplain, ho⟩ := h
  refine ⟨o, by rw [hname, hfname, hdir], hplain, ?_⟩
  cases o with
  | seed name => exact (hdepth p (Nat.le_refl p)).trans ho
  | sync party rest => exact (hdepth p (Nat.le_refl p)).trans ho
  | find parent rest =>
    refine ⟨ho.1, ?_⟩
    rw [hdepth p (Nat.le_refl p), hdepth parent (Nat.le_of_lt ho.1)]
    exact ho.2

end Explained

/-- Digits are no slash. -/
theorem slash_notMem_of_isDigit {l : Text} (h : ∀ c ∈ l, c.isDigit = true) : '/' ∉ l := by
  intro hmem
  exact absurd (h _ hmem) (by decide)

theorem slash_notMem_padDec (w n : Nat) : '/' ∉ padDec w n :=
  slash_notMem_of_isDigit fun _ hc => isDigit_of_mem_padDec hc

theorem slash_notMem_toDigits (n : Nat) : '/' ∉ Nat.toDigits 10 n :=
  slash_notMem_of_isDigit fun _ hc => Nat.isDigit_of_mem_toDigits (by decide) (by decide) hc

theorem slash_notMem_signedDec (v : Int) : '/' ∉ signedDec v := by
  rw [signedDec, List.mem_cons]
  rintro (h | h)
  · split at h <;> exact absurd h (by decide)
  · exact slash_notMem_toDigits _ h

/-- The name that a find or an import gets. -/
theorem describeOp_origin (op : OpInfo) (hnb : Nat) (hshort : '/' ∉ op.stageShort)
    (hparty : ∀ party ∈ op.syncingParty, '/' ∉ party) :
    '/' ∉ describeOp op hnb ∧
      ((∃ party ∈ op.syncingParty, ∃ rest, describeOp op hnb = (Origin.sync party rest).text) ∨
        op.syncingParty = none ∧
          ∃ rest, describeOp op hnb = (Origin.find op.currentEntry rest).text) := by
  have hcov : ∀ l : Text, '/' ∉ l → '/' ∉ (if hnb = 2 then l ++ ",+cov".toList else l) := by
    intro l hl
    split
    · rw [List.mem_append]
      rintro (h | h)
      · exact hl h
      · exact absurd h (by decide)
    · exact hl
  have hprefix : ∀ pre l : Text, pre <+: l →
      ∃ rest, (if hnb = 2 then l ++ ",+cov".toList else l) = pre ++ rest := by
    intro pre l hpre
    split
    · obtain ⟨rest, hrest⟩ := hpre.trans (List.prefix_append l ",+cov".toList)
      exact ⟨rest, hrest.symm⟩
    · obtain ⟨rest, hrest⟩ := hpre
      exact ⟨rest, hrest.symm⟩
  unfold describeOp
  dsimp only
  cases hp : op.syncingParty with
  | some party =>
    have hplain := hparty party hp
    refine ⟨hcov _ ?_, Or.inl ⟨party, rfl, hprefix ("sync:".toList ++ party) _ ?_⟩⟩
    · simp only [List.mem_append, not_or]
      exact ⟨⟨⟨by decide, hplain⟩, by decide⟩, slash_notMem_padDec _ _⟩
    · exact (List.prefix_append _ _).trans (List.prefix_append _ _)
  | none =>
    refine ⟨hcov _ ?_, Or.inr ⟨rfl, hprefix ("src:".toList ++ padDec 6 op.currentEntry) _ ?_⟩⟩
    · simp only [List.mem_append, not_or]
      refine ⟨⟨⟨⟨⟨by decide, slash_notMem_padDec _ _⟩, ?_⟩, by decide⟩, hshort⟩, ?_⟩
      · split
        · simp only [List.mem_append, not_or]
          exact ⟨by decide, slash_notMem_padDec _ _⟩
        · exact List.not_mem_nil
      · split
        · simp only [List.mem_append, not_or]
          refine ⟨⟨by decide, slash_notMem_toDigits _⟩, ?_⟩
          split
          · simp only [List.mem_append, not_or]
            refine ⟨⟨by decide, ?_⟩, slash_notMem_signedDec _⟩
            split <;> decide
          · exact List.not_mem_nil
        · simp only [List.mem_append, not_or]
          exact ⟨by decide, slash_notMem_toDigits _⟩
    · exact (((List.prefix_append _ _).trans (List.prefix_append _ _)).trans
        (List.prefix_append _ _)).trans (List.prefix_append _ _)

/-! ### The invariants -/

/-- A test case has a byte, and under `bounded` it has at most `MAX_FILE`. -/
def LenOk (bounded : Prop) (n : Nat) : Prop := 1 ≤ n ∧ (bounded → n ≤ MAX_FILE)

section Invariants
variable {k : Nat}

/-- The books are right, and all lengths are in range. -/
structure Base (bounded : Prop) (s : Session (8 * k)) : Prop where
  books : Books s.globals
  lens : ∀ n ∈ fields (·.len) s.globals, LenOk bounded n
  files : ∀ f ∈ s.globals.queueFiles, LenOk bounded f.2.length
  handed : ∀ buf ∈ s.handed, LenOk bounded buf.length

/-- The queue and its directory have been filled. -/
structure Loaded (bounded fresh : Prop) (s : Session (8 * k)) : Prop extends Base bounded s where
  nonempty : 0 < s.globals.entries.length
  short : '/' ∉ s.op.stageShort
  explained : fresh → ∀ p < s.globals.entries.length, Explained s.globals p
  listed : fresh → (s.globals.queueFiles.map (·.1)).Perm (fields (·.fname) s.globals)

/-- The fuzzing loop has been reached. -/
structure Live (bounded fresh : Prop) (s : Session (8 * k)) : Prop
    extends Loaded bounded fresh s where
  cycles : 0 < s.globals.totalCalCycles
  bitmaps : 0 < s.globals.totalBitmapEntries
  seek : s.seekTo < s.globals.entries.length
  current : ∀ q ∈ s.queueCur,
    q = s.op.currentEntry ∧ q < s.globals.entries.length ∧ 0 < s.globals.queueCycle

/-- The user tokens are not inserted into entry `q`, or they fit into a buffer of `len` bytes. -/
def InsertFits (w : World (8 * k)) (q len : Nat) (s : Session (8 * k)) : Prop :=
  w.options.skipDeterministic = true ∨ (s.globals.entry q).wasFuzzed = true ∨
    (s.globals.entry q).passedDet = true ∨
    ∀ token ∈ s.dict.extras, len + token.data.length ≤ MAX_FILE

/-- `fuzz_one` works on entry `q`, which had `len` bytes at first, with the user tokens `toks`. -/
structure Fuzzing (w : World (8 * k)) (bounded fresh : Prop) (q len : Nat) (toks : List Extra)
    (s : Session (8 * k)) : Prop extends Live bounded fresh s where
  cur : s.queueCur = some q
  extras : s.dict.extras = toks
  party : s.op.syncingParty = none
  depth : s.globals.curDepth = (s.globals.entry q).depth
  fits : bounded → InsertFits w q len s

/-- The fuzzing loop is between two entries, or at the beginning of one; `queue_cur` is `cur`. -/
structure Running (bounded fresh : Prop) (cur : Option Ptr) (s : Session (8 * k)) : Prop
    extends Live bounded fresh s where
  cur : s.queueCur = cur
  party : s.op.syncingParty = none

/-- `sync_fuzzers` works, and `party` is what `syncing_party` says. -/
structure Syncing (bounded fresh : Prop) (cur : Option Ptr) (party : Option Text)
    (s : Session (8 * k)) : Prop extends Live bounded fresh s where
  cur : s.queueCur = cur
  party : s.op.syncingParty = party
  depth : s.globals.curDepth = 0

/-- What `Loaded` reads of the state. -/
def loadedPart (s : Session (8 * k)) :
    (List QueueEntry × Option Ptr × Option Ptr × Nat × U32 × Nat × Nat × Nat) × Text ×
      List (Text × List U8) × List (List U8) × Text :=
  let g := s.globals
  ((g.entries, g.queue, g.queueTop, g.queuedPaths, g.pendingNotFuzzed, g.queuedWithCov,
    g.queuedVariable, g.maxDepth), g.outDir, g.queueFiles, s.handed, s.op.stageShort)

/-- A step that writes nothing of it. -/
theorem Loaded.congr {bounded fresh : Prop} {s s' : Session (8 * k)} (h : Loaded bounded fresh s)
    (heq : loadedPart s' = loadedPart s) : Loaded bounded fresh s' := by
  simp only [loadedPart, Prod.mk.injEq] at heq
  obtain ⟨⟨hentries, hqueue, htop, hpaths, hpending, hcov, hvar, hdepth⟩, hdir, hfiles, hhanded,
    hshort⟩ := heq
  have hfields : ∀ {β : Type} (g : QueueEntry → β), fields g s'.globals = fields g s.globals :=
    fun g => congrArg (List.map g) hentries
  refine ⟨⟨⟨chain_of_fields (hfields _) hqueue htop h.books.chain, ?_, ?_, ?_, ?_, ?_⟩, ?_, ?_, ?_⟩,
    ?_, hshort ▸ h.short, fun hfresh p hp => ?_, fun hfresh => ?_⟩
  · rw [hpaths, hentries, h.books.paths]
  · rw [hpending, hentries, h.books.pending]
  · rw [hcov, hentries, h.books.withCov]
  · rw [hvar, hentries, h.books.variableCnt]
  · rw [hdepth, hentries, h.books.depth]
  · rw [hfields]
    exact h.lens
  · rw [hfiles]
    exact h.files
  · rw [hhanded]
    exact h.handed
  · rw [hentries]
    exact h.nonempty
  · refine (h.explained hfresh p (hentries ▸ hp)).of_eq hdir ?_ fun r _ => ?_
    · exact field_eq_of_fields_eq (hfields (·.fname)) p
    · exact field_eq_of_fields_eq (hfields (·.depth)) r
  · rw [hfiles, hfields]
    exact h.listed hfresh

/-! ### Quiet steps -/

/-- The part of the state that a quiet step leaves alone. -/
def sessionFrame (s : Session (8 * k)) :
    Option Ptr × Nat × Nat × Option Text × List (List U8) × List Extra :=
  (s.queueCur, s.seekTo, s.op.currentEntry, s.op.syncingParty, s.handed, s.dict.extras)

/-- A step that only measures, draws a number, or changes what no invariant reads. -/
structure Quiet (s s' : Session (8 * k)) : Prop where
  globals : Touched s.globals s'.globals
  frame : sessionFrame s' = sessionFrame s
  short : '/' ∉ s.op.stageShort → '/' ∉ s'.op.stageShort

variable {bounded fresh : Prop} {s s' : Session (8 * k)}

/-- A step that leaves the globals alone. -/
theorem Quiet.of_globals_eq (hglobals : s'.globals = s.globals)
    (hframe : sessionFrame s' = sessionFrame s)
    (hshort : '/' ∉ s.op.stageShort → '/' ∉ s'.op.stageShort) : Quiet s s' :=
  ⟨hglobals ▸ Touched.refl s.globals, hframe, hshort⟩

/-- Names and depths stay. -/
theorem Explained.touched {g g' : FuzzState (8 * k)} {p : Nat} (h : Explained g p)
    (ht : Touched g g') : Explained g' p := by
  refine h.of_eq (congrArg QueueFrame.outDir ht.frame) ?_ fun r _ => ?_
  · exact field_eq_of_fields_eq (ht.field fun x => x.1) p
  · exact field_eq_of_fields_eq (ht.field fun x => x.2.2.2.1) r

/-- The queue keeps its invariants when it is only touched. -/
theorem Base.touched (h : Base bounded s) (ht : Touched s.globals s'.globals)
    (hhanded : s'.handed = s.handed) : Base bounded s' := by
  have hlens : fields (·.len) s'.globals = fields (·.len) s.globals := ht.field fun x => x.2.1
  have hfiles : s'.globals.queueFiles = s.globals.queueFiles :=
    congrArg QueueFrame.files ht.frame
  refine ⟨h.books.touched ht, ?_, ?_, ?_⟩
  · rw [hlens]
    exact h.lens
  · rw [hfiles]
    exact h.files
  · rw [hhanded]
    exact h.handed

/-- So does a queue that has been loaded. -/
theorem Loaded.touched (h : Loaded bounded fresh s) (ht : Touched s.globals s'.globals)
    (hhanded : s'.handed = s.handed) (hshort : '/' ∉ s'.op.stageShort) :
    Loaded bounded fresh s' := by
  have hlen := ht.length_eq
  have hnames : fields (·.fname) s'.globals = fields (·.fname) s.globals := ht.field fun x => x.1
  have hfiles : s'.globals.queueFiles = s.globals.queueFiles :=
    congrArg QueueFrame.files ht.frame
  refine ⟨h.toBase.touched ht hhanded, hlen ▸ h.nonempty, hshort, fun hfresh p hp => ?_,
    fun hfresh => ?_⟩
  · exact (h.explained hfresh p (hlen ▸ hp)).touched ht
  · rw [hfiles, hnames]
    exact h.listed hfresh

/-- A quiet step keeps all of it. -/
theorem Loaded.quiet (h : Loaded bounded fresh s) (hq : Quiet s s') : Loaded bounded fresh s' :=
  h.touched hq.globals (congrArg (·.2.2.2.2.1) hq.frame) (hq.short h.short)

theorem Live.quiet (h : Live bounded fresh s) (hq : Quiet s s') : Live bounded fresh s' := by
  have hlen := hq.globals.length_eq
  have hcycle : s'.globals.queueCycle = s.globals.queueCycle :=
    congrArg QueueFrame.cycle hq.globals.frame
  have hframe := hq.frame
  simp only [sessionFrame, Prod.mk.injEq] at hframe
  refine ⟨h.toLoaded.quiet hq, Nat.lt_of_lt_of_le h.cycles hq.globals.cycles,
    Nat.lt_of_lt_of_le h.bitmaps hq.globals.bitmaps, ?_, ?_⟩
  · rw [hframe.2.1, hlen]
    exact h.seek
  · rw [hframe.1, hframe.2.2.1, hlen, hcycle]
    exact h.current

/-! ### Steps that do not disturb an ongoing activity -/

/-- What the functions called by `fuzz_one` and `sync_fuzzers` leave alone. -/
structure Undisturbed (s s' : Session (8 * k)) : Prop where
  cur : s'.queueCur = s.queueCur
  party : s'.op.syncingParty = s.op.syncingParty
  curDepth : s'.globals.curDepth = s.globals.curDepth
  extras : s'.dict.extras = s.dict.extras
  depth : ∀ p < s.globals.entries.length,
    (s'.globals.entry p).depth = (s.globals.entry p).depth
  wasFuzzed : ∀ p < s.globals.entries.length,
    (s'.globals.entry p).wasFuzzed = (s.globals.entry p).wasFuzzed
  passed : ∀ p < s.globals.entries.length, (s.globals.entry p).passedDet = true →
    (s'.globals.entry p).passedDet = true

/-- A quiet step does not disturb `fuzz_one`. -/
theorem Quiet.undisturbed (h : Quiet s s') : Undisturbed s s' := by
  have hframe := h.frame
  simp only [sessionFrame, Prod.mk.injEq] at hframe
  refine ⟨hframe.1, hframe.2.2.2.1, congrArg QueueFrame.curDepth h.globals.frame,
    hframe.2.2.2.2.2, fun p _ => ?_, fun p _ => ?_, fun p _ => h.globals.passed p⟩
  · exact field_eq_of_fields_eq (h.globals.field fun x => x.2.2.2.1) p
  · exact field_eq_of_fields_eq (h.globals.field fun x => x.2.2.1) p

variable {w : World (8 * k)} {q len : Nat} {toks : List Extra}

/-- The entry exists. -/
theorem Fuzzing.lt_length (h : Fuzzing w bounded fresh q len toks s) :
    q < s.globals.entries.length :=
  (h.current q h.cur).2.1

/-- `fuzz_one` runs inside the main loop. -/
theorem Fuzzing.running (h : Fuzzing w bounded fresh q len toks s) :
    Running bounded fresh (some q) s := ⟨h.toLive, h.cur, h.party⟩

/-- What `fuzz_one` relies on stays. -/
theorem Fuzzing.undisturbed (h : Fuzzing w bounded fresh q len toks s) (hu : Undisturbed s s')
    (hlive : Live bounded fresh s') : Fuzzing w bounded fresh q len toks s' := by
  have hq := h.lt_length
  refine ⟨hlive, hu.cur.trans h.cur, hu.extras.trans h.extras, hu.party.trans h.party, ?_,
    fun hb => ?_⟩
  · rw [hu.curDepth, hu.depth q hq]
    exact h.depth
  · rcases h.fits hb with hskip | hfuzzed | hpassed | hfit
    · exact Or.inl hskip
    · exact Or.inr (Or.inl ((hu.wasFuzzed q hq).trans hfuzzed))
    · exact Or.inr (Or.inr (Or.inl (hu.passed q hq hpassed)))
    · exact Or.inr (Or.inr (Or.inr (hu.extras ▸ hfit)))

theorem Fuzzing.quiet (h : Fuzzing w bounded fresh q len toks s) (hq : Quiet s s') :
    Fuzzing w bounded fresh q len toks s' := h.undisturbed hq.undisturbed (h.toLive.quiet hq)

variable {cur : Option Ptr}

theorem Running.quiet (h : Running bounded fresh cur s) (hq : Quiet s s') :
    Running bounded fresh cur s' :=
  ⟨h.toLive.quiet hq, hq.undisturbed.cur.trans h.cur, hq.undisturbed.party.trans h.party⟩

/-- What an import relies on stays. -/
theorem Syncing.undisturbed {party : Option Text} (h : Syncing bounded fresh cur party s)
    (hu : Undisturbed s s') (hlive : Live bounded fresh s') : Syncing bounded fresh cur party s' :=
  ⟨hlive, hu.cur.trans h.cur, hu.party.trans h.party, hu.curDepth.trans h.depth⟩

theorem Syncing.quiet {party : Option Text} (h : Syncing bounded fresh cur party s)
    (hq : Quiet s s') : Syncing bounded fresh cur party s' :=
  h.undisturbed hq.undisturbed (h.toLive.quiet hq)

/-! ### Saving -/

/-- The new entry can be told where it comes from. -/
def CanSave (s : Session (8 * k)) : Prop :=
  (∀ party ∈ s.op.syncingParty, '/' ∉ party ∧ s.globals.curDepth = 0) ∧
    (s.op.syncingParty = none → s.op.currentEntry < s.globals.entries.length ∧
      s.globals.curDepth = (s.globals.entry s.op.currentEntry).depth)

/-- `fuzz_one` can save test cases. -/
theorem Fuzzing.canSave (h : Fuzzing w bounded fresh q len toks s) : CanSave s := by
  obtain ⟨hcur, hlt, _⟩ := h.current q h.cur
  constructor
  · intro party hparty
    rw [h.party] at hparty
    cases hparty
  · intro _
    rw [← hcur]
    exact ⟨hlt, h.depth⟩

/-- So can an import. -/
theorem Syncing.canSave {party : Text} (h : Syncing bounded fresh cur (some party) s)
    (hplain : '/' ∉ party) : CanSave s := by
  constructor
  · intro party' hparty
    rw [h.party] at hparty
    cases hparty
    exact ⟨hplain, h.depth⟩
  · intro hparty
    rw [h.party] at hparty
    cases hparty

/-- A quiet step changes neither. -/
theorem CanSave.quiet (h : CanSave s) (hq : Quiet s s') : CanSave s' := by
  have hu := hq.undisturbed
  have hcur : s'.op.currentEntry = s.op.currentEntry := congrArg (·.2.2.1) hq.frame
  constructor
  · rw [hu.party, hu.curDepth]
    exact h.1
  · rw [hu.party, hu.curDepth, hcur, hq.globals.length_eq]
    intro hparty
    obtain ⟨hlt, hdepth⟩ := h.2 hparty
    exact ⟨hlt, (hu.depth _ hlt).symm ▸ hdepth⟩

/-- The file name of a new entry tells its origin. -/
theorem queueFileName_eq {g : FuzzState (8 * k)} (hbooks : Books g) (op : OpInfo) (hnb : Nat) :
    queueFileName g op hnb =
      g.outDir ++ "/queue/".toList ++ caseName g.entries.length (describeOp op hnb) := by
  have hsplit : "/queue/id:".toList = "/queue/".toList ++ casePrefix := by decide
  rw [queueFileName, hbooks.paths, hsplit, caseName]
  simp only [List.append_assoc]
  rfl

/-! A new entry is behind the old ones, which keep everything but their links. -/

section Enqueued
variable {β : Type} {f : QueueEntry → β} (g : FuzzState (8 * k)) (fn : Text) (mem : List U8)

/-- A new entry comes last. -/
theorem fields_enqueued (hnext : ∀ e q, f { e with next := q } = f e)
    (hnext100 : ∀ e q, f { e with next100 := q } = f e) :
    fields f (enqueued g fn mem) =
      fields f g ++ [f { fname := fn, len := mem.length, depth := g.curDepth + 1 }] :=
  fields_addToQueue hnext hnext100 g fn mem.length false

/-- The entries before it keep their fields. -/
theorem field_enqueued (hnext : ∀ e q, f { e with next := q } = f e)
    (hnext100 : ∀ e q, f { e with next100 := q } = f e) {p : Nat} (hp : p < g.entries.length) :
    f ((enqueued g fn mem).entry p) = f (g.entry p) := by
  rw [field_of_fields_append (fields_enqueued g fn mem hnext hnext100) (Nat.le_of_lt hp),
    if_neg (Nat.ne_of_lt hp)]

/-- The fields of the new entry. -/
theorem field_enqueued_last (hnext : ∀ e q, f { e with next := q } = f e)
    (hnext100 : ∀ e q, f { e with next100 := q } = f e) :
    f ((enqueued g fn mem).entry g.entries.length) =
      f { fname := fn, len := mem.length, depth := g.curDepth + 1 } := by
  rw [field_of_fields_append (fields_enqueued g fn mem hnext hnext100) (Nat.le_refl _), if_pos rfl]

theorem length_enqueued : (enqueued g fn mem).entries.length = g.entries.length + 1 :=
  length_addToQueue g fn mem.length false

/-- The globals after a new entry. -/
theorem frame_enqueued : (queueFrame (enqueued g fn mem)).tail =
    (some g.entries.length, g.queuedPaths + 1, g.pendingNotFuzzed + 1, g.curDepth,
      max (g.curDepth + 1) g.maxDepth, g.queueCycle, g.crashMode, g.outDir,
      g.queueFiles ++ [(fn, mem)]) := by
  have hadd := frame_addToQueue g fn mem.length false
  unfold enqueued
  generalize addToQueue g fn mem.length false = t at hadd ⊢
  simp only [queueFrame, QueueFrame.tail, Prod.mk.injEq] at hadd ⊢
  tauto

theorem outDir_enqueued : (enqueued g fn mem).outDir = g.outDir :=
  congrArg (·.2.2.2.2.2.2.2.1) (frame_enqueued g fn mem)

/-- The counters count it. -/
theorem books_enqueued (h : Books g) : Books (enqueued g fn mem) :=
  (h.add fn mem.length false).setFiles _

/-- The entries before it keep their names and depths. -/
theorem Explained.enqueued {p : Nat} (h : Explained g p) (hp : p < g.entries.length) :
    Explained (enqueued g fn mem) p := by
  refine h.of_eq (outDir_enqueued g fn mem) ?_ fun r hr => ?_
  · exact field_enqueued (f := (·.fname)) g fn mem (fun _ _ => rfl) (fun _ _ => rfl) hp
  · exact field_enqueued (f := (·.depth)) g fn mem (fun _ _ => rfl) (fun _ _ => rfl)
      (Nat.lt_of_le_of_lt hr hp)

end Enqueued

/-- The new entry has an origin. -/
theorem explained_enqueued_last (hbooks : Books s.globals) (hsave : CanSave s)
    (hshort : '/' ∉ s.op.stageShort) (hnb : Nat) (mem : List U8) :
    Explained (enqueued s.globals (queueFileName s.globals s.op hnb) mem)
      s.globals.entries.length := by
  have hname := field_enqueued_last (f := (·.fname)) s.globals
    (queueFileName s.globals s.op hnb) mem (fun _ _ => rfl) fun _ _ => rfl
  have hdepth := field_enqueued_last (f := (·.depth)) s.globals
    (queueFileName s.globals s.op hnb) mem (fun _ _ => rfl) fun _ _ => rfl
  have hdir := outDir_enqueued s.globals (queueFileName s.globals s.op hnb) mem
  obtain ⟨hplain, horigin⟩ := describeOp_origin s.op hnb hshort fun party hp => (hsave.1 party hp).1
  rcases horigin with ⟨party, hp, rest, htext⟩ | ⟨hp, rest, htext⟩
  · refine ⟨.sync party rest, ?_, htext ▸ hplain, ?_⟩
    · rw [hname, hdir, queueFileName_eq hbooks, htext]
    · show _ = 1
      rw [hdepth]
      exact congrArg (· + 1) (hsave.1 party hp).2
  · obtain ⟨hlt, hcur⟩ := hsave.2 hp
    refine ⟨.find s.op.currentEntry rest, ?_, htext ▸ hplain, hlt, ?_⟩
    · rw [hname, hdir, queueFileName_eq hbooks, htext]
    · rw [hdepth, field_enqueued (f := (·.depth)) s.globals _ mem (fun _ _ => rfl)
        (fun _ _ => rfl) hlt, ← hcur]

/-- A test case that is saved becomes an entry of the queue. -/
theorem Live.enqueued (h : Live bounded fresh s) (hsave : CanSave s) (hnb : Nat) {mem : List U8}
    (hmem : LenOk bounded mem.length) :
    Live bounded fresh { s with
      globals := enqueued s.globals (queueFileName s.globals s.op hnb) mem } := by
  generalize hfn : queueFileName s.globals s.op hnb = fn
  have hframe := frame_enqueued s.globals fn mem
  simp only [queueFrame, QueueFrame.tail, Prod.mk.injEq] at hframe
  obtain ⟨_, _, _, _, _, hcycle, _, _, hfiles⟩ := hframe
  have hlen := length_enqueued s.globals fn mem
  have hcounters := calCounters_addToQueue s.globals fn mem.length false
  simp only [calCounters, Prod.mk.injEq] at hcounters
  refine ⟨⟨⟨books_enqueued _ fn mem h.books, ?_, ?_, h.handed⟩, ?_, h.short, ?_, ?_⟩,
    ?_, ?_, ?_, ?_⟩
  · intro n hn
    rw [fields_enqueued s.globals fn mem (fun _ _ => rfl) fun _ _ => rfl] at hn
    rcases List.mem_append.mp hn with hn | hn
    · exact h.lens n hn
    · rw [List.mem_singleton.mp hn]
      exact hmem
  · intro f hf
    rw [hfiles] at hf
    rcases List.mem_append.mp hf with hf | hf
    · exact h.files f hf
    · rw [List.mem_singleton.mp hf]
      exact hmem
  · show 0 < (Proofs.enqueued s.globals fn mem).entries.length
    omega
  · intro hfresh p hp
    change p < (Proofs.enqueued s.globals fn mem).entries.length at hp
    rcases Nat.lt_succ_iff_lt_or_eq.mp (hlen ▸ hp) with hlt | rfl
    · exact (h.explained hfresh p hlt).enqueued s.globals fn mem hlt
    · rw [← hfn]
      exact explained_enqueued_last h.books hsave h.short hnb mem
  · intro hfresh
    show ((Proofs.enqueued s.globals fn mem).queueFiles.map (·.1)).Perm
      (fields (·.fname) (Proofs.enqueued s.globals fn mem))
    rw [hfiles, fields_enqueued s.globals fn mem (fun _ _ => rfl) fun _ _ => rfl, List.map_append]
    exact (h.listed hfresh).append_right _
  · exact Nat.lt_of_lt_of_eq h.cycles hcounters.2.2.1.symm
  · exact Nat.lt_of_lt_of_eq h.bitmaps hcounters.2.2.2.symm
  · show s.seekTo < (Proofs.enqueued s.globals fn mem).entries.length
    have hseek := h.seek
    omega
  · intro q hq
    obtain ⟨hcur, hlt, hpos⟩ := h.current q hq
    exact ⟨hcur, Nat.lt_of_lt_of_eq (Nat.lt_succ_of_lt hlt) hlen.symm,
      Nat.lt_of_lt_of_eq hpos hcycle.symm⟩

/-- This does not disturb `fuzz_one`. -/
theorem undisturbed_enqueued (s : Session (8 * k)) (fn : Text) (mem : List U8) :
    Undisturbed s { s with globals := enqueued s.globals fn mem } where
  cur := rfl
  party := rfl
  curDepth := congrArg (·.2.2.2.1) (frame_enqueued s.globals fn mem)
  extras := rfl
  depth _ hp :=
    field_enqueued (f := (·.depth)) s.globals fn mem (fun _ _ => rfl) (fun _ _ => rfl) hp
  wasFuzzed _ hp :=
    field_enqueued (f := (·.wasFuzzed)) s.globals fn mem (fun _ _ => rfl) (fun _ _ => rfl) hp
  passed _ hp hpassed := (field_enqueued (f := (·.passedDet)) s.globals fn mem (fun _ _ => rfl)
    (fun _ _ => rfl) hp).trans hpassed

/-- Steps one after the other. -/
theorem Undisturbed.trans {s'' : Session (8 * k)} (h : Undisturbed s s') (h' : Undisturbed s' s'')
    (hlen : s.globals.entries.length ≤ s'.globals.entries.length) : Undisturbed s s'' where
  cur := h'.cur.trans h.cur
  party := h'.party.trans h.party
  curDepth := h'.curDepth.trans h.curDepth
  extras := h'.extras.trans h.extras
  depth p hp := (h'.depth p (Nat.lt_of_lt_of_le hp hlen)).trans (h.depth p hp)
  wasFuzzed p hp := (h'.wasFuzzed p (Nat.lt_of_lt_of_le hp hlen)).trans (h.wasFuzzed p hp)
  passed p hp hpassed := h'.passed p (Nat.lt_of_lt_of_le hp hlen) (h.passed p hp hpassed)

/-- A call of `save_if_interesting` keeps the invariant and disturbs nothing. -/
theorem Live.save (h : Live bounded fresh s) (hsave : CanSave s) {c : SaveCall (8 * k)}
    (hop : c.op = s.op) (hmem : LenOk bounded c.mem.length) {env : Env (8 * k)}
    {g : FuzzState (8 * k)} {keeping : Bool}
    (hcall : saveIfInteresting env s.globals c = .ok (keeping, g)) :
    Live bounded fresh { s with globals := g } ∧ Undisturbed s { s with globals := g } := by
  have hquiet : ∀ {t : Session (8 * k)} {g' : FuzzState (8 * k)}, Touched t.globals g' →
      Quiet t { t with globals := g' } := fun ht => ⟨ht, rfl, fun hs => hs⟩
  rcases saveIfInteresting_effect env hcall with ht | ⟨g₁, hnb, hfirst, hlast⟩
  · exact ⟨h.quiet (hquiet ht), (hquiet ht).undisturbed⟩
  · rw [hop] at hlast
    have hq := hquiet (t := s) hfirst
    have henq := (h.quiet hq).enqueued (hsave.quiet hq) hnb hmem
    have hun := undisturbed_enqueued { s with globals := g₁ }
      (queueFileName g₁ s.op hnb) c.mem
    have hq' := hquiet (t := { s with
      globals := Proofs.enqueued g₁ (queueFileName g₁ s.op hnb) c.mem }) hlast
    have hlen := length_enqueued g₁ (queueFileName g₁ s.op hnb) c.mem
    refine ⟨henq.quiet hq', (hq.undisturbed.trans hun ?_).trans hq'.undisturbed ?_⟩
    · exact Nat.le_of_eq hfirst.length_eq.symm
    · show s.globals.entries.length ≤
        (Proofs.enqueued g₁ (queueFileName g₁ s.op hnb) c.mem).entries.length
      have := hfirst.length_eq
      omega

end Invariants

end TriforceAFL.Proofs
