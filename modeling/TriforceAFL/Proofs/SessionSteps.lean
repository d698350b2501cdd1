import TriforceAFL.Proofs.SessionInv

/-!
# `TriforceAFL.Proofs.SessionSteps`: the elementary steps keep the invariants

An invariant is `Steady` when it survives quiet steps. The elementary steps of `Spec.Session` are
quiet, so one lemma per step serves all invariants. `common_fuzz_stuff` and `sync_fuzzers` follow:
they also save test cases, which needs a right `cur_depth`.

`Exits` says what holds when the process ends early. Only a failed rewrite of a trimmed test case
leaves the queue directory incomplete.
-/

set_option autoImplicit false

namespace TriforceAFL.Proofs

open Lib Lib.Process Spec

section Steps
variable {k : Nat} {bounded fresh : Prop} {I : Session (8 * k) → Prop}

/-- What holds when the process ends early: it did not divide by zero, and unless it was trimming
an entry, the queue is as it was. -/
structure Exits (bounded fresh : Prop) (e : Exit) (s : Session (8 * k)) : Prop where
  exit : e ≠ .divisionByZero
  base : Base bounded s
  loaded : Loaded bounded fresh s ∨
    (fresh → s.globals.queueFiles.length < s.globals.entries.length)

/-- An invariant that holds once the queue is filled and survives quiet steps. -/
structure Steady (bounded fresh : Prop) (I : Session (8 * k) → Prop) : Prop where
  loaded : ∀ s, I s → Loaded bounded fresh s
  quiet : ∀ s s', I s → Quiet s s' → I s'

/-- The invariant of `fuzz_one`. -/
theorem steady_fuzzing (bounded fresh : Prop) (w : World (8 * k)) (q len : Nat)
    (toks : List Extra) :
    Steady bounded fresh (Fuzzing w bounded fresh q len toks) :=
  ⟨fun _ h => h.toLoaded, fun _ _ h hq => h.quiet hq⟩

/-- The invariant of the main loop. -/
theorem steady_running (bounded fresh : Prop) (cur : Option Ptr) :
    Steady bounded fresh (Running (k := k) bounded fresh cur) :=
  ⟨fun _ h => h.toLoaded, fun _ _ h hq => h.quiet hq⟩

/-- The invariant of an import. -/
theorem steady_syncing (bounded fresh : Prop) (cur : Option Ptr) (party : Option Text) :
    Steady bounded fresh (Syncing (k := k) bounded fresh cur party) :=
  ⟨fun _ h => h.toLoaded, fun _ _ h hq => h.quiet hq⟩

/-- The clock changes nothing else. -/
theorem quiet_tick (s : Session (8 * k)) : Quiet s s.tick :=
  Quiet.of_globals_eq rfl rfl fun h => h

/-- A number below a positive limit, for every invariant that ignores the clock. -/
theorem keeps_ur {X : Exit → Session (8 * k) → Prop} (htick : ∀ s, I s → I s.tick)
    (w : World (8 * k)) {limit : Nat} (hlimit : 0 < limit) :
    Keeps I X (Session.ur w limit) (· < limit) := by
  refine Keeps.step (fun s a s' hs hg => ?_) fun s e _ hg => ?_
  · rw [if_neg (Nat.ne_of_gt hlimit)] at hg
    cases hg
    exact ⟨Nat.mod_lt _ hlimit, htick s hs⟩
  · rw [if_neg (Nat.ne_of_gt hlimit)] at hg
    cases hg

section Steady
variable (hI : Steady bounded fresh I) (w : World (8 * k))
include hI

/-- The process may exit in any state, but not by a division by zero. -/
theorem Steady.exits {e : Exit} (he : e ≠ .divisionByZero) (s : Session (8 * k)) (hs : I s) :
    Exits bounded fresh e s :=
  ⟨he, (hI.loaded s hs).toBase, Or.inl (hI.loaded s hs)⟩

/-- An exit. -/
theorem Steady.exit {α : Type} {φ : α → Prop} {e : Exit} (he : e ≠ .divisionByZero) :
    Keeps I (Exits bounded fresh) (Process.exit e) φ :=
  Keeps.exit (hI.exits he)

/-- A quiet step that can exit. -/
theorem Steady.step {α : Type} {φ : α → Prop}
    {g : Session (8 * k) → Except Exit (α × Session (8 * k))}
    (hok : ∀ s a s', I s → g s = .ok (a, s') → φ a ∧ Quiet s s')
    (hexit : ∀ s e, I s → g s = .error e → e ≠ .divisionByZero) :
    Keeps I (Exits bounded fresh) (Process.step g) φ := by
  refine Keeps.step (fun s a s' hs hg => ?_) fun s e hs hg => hI.exits (hexit s e hs hg) s hs
  obtain ⟨hφ, hquiet⟩ := hok s a s' hs hg
  exact ⟨hφ, hI.quiet s s' hs hquiet⟩

/-- A quiet change of the state. -/
theorem Steady.modify {f : Session (8 * k) → Session (8 * k)} (hf : ∀ s, I s → Quiet s (f s)) :
    Keeps I (Exits bounded fresh) (Process.modify f) fun _ => True :=
  Keeps.modify fun s hs => hI.quiet s (f s) hs (hf s hs)

/-- A change of the stage variables. -/
theorem Steady.setOp {f : OpInfo → OpInfo}
    (hframe : ∀ op, (f op).currentEntry = op.currentEntry ∧ (f op).syncingParty = op.syncingParty)
    (hshort : ∀ op, '/' ∉ op.stageShort → '/' ∉ (f op).stageShort) :
    Keeps I (Exits bounded fresh) (Session.setOp f) fun _ => True := by
  refine hI.modify fun s _ => Quiet.of_globals_eq rfl ?_ (hshort s.op)
  simp only [sessionFrame, (hframe s.op).1, (hframe s.op).2]

/-- A change of the globals that touches the queue. -/
theorem Steady.setGlobals {f : FuzzState (8 * k) → FuzzState (8 * k)}
    (hf : ∀ s, I s → Touched s.globals (f s.globals)) :
    Keeps I (Exits bounded fresh) (Session.setGlobals f) fun _ => True :=
  hI.modify fun s hs => ⟨hf s hs, rfl, fun h => h⟩

/-- `UR` of a positive limit. -/
theorem Steady.ur {limit : Nat} (hlimit : 0 < limit) :
    Keeps I (Exits bounded fresh) (Session.ur w limit) (· < limit) :=
  keeps_ur (fun s hs => hI.quiet s _ hs (quiet_tick s)) w hlimit

/-- A die with a hundred faces. -/
theorem Steady.chance (percent : Nat) :
    Keeps I (Exits bounded fresh) (Session.chance w percent) fun _ => True :=
  (hI.ur w (by decide)).bind fun _ _ => Keeps.pure trivial

/-- A look at `stop_soon`. -/
theorem Steady.checkStop :
    Keeps I (Exits bounded fresh) (Session.checkStop w) fun _ => True := by
  refine hI.step (fun s a s' _ hg => ?_) fun s e _ hg => (by cases hg)
  cases hg
  exact ⟨trivial, Quiet.of_globals_eq rfl rfl fun h => h⟩

/-- A look at `skip_requested`. -/
theorem Steady.checkSkip :
    Keeps I (Exits bounded fresh) (Session.checkSkip w) fun _ => True := by
  refine hI.step (fun s a s' _ hg => ?_) fun s e _ hg => (by cases hg)
  cases hg
  exact ⟨trivial, quiet_tick s⟩

/-- `open` with `O_CREAT`. -/
theorem Steady.createFile (fn : Text) :
    Keeps I (Exits bounded fresh) (Session.createFile w fn) fun _ => True := by
  refine hI.step (fun s a s' _ hg => ?_) fun s e _ hg => ?_
  · split at hg
    · cases hg
      exact ⟨trivial, quiet_tick s⟩
    · cases hg
  · split at hg
    · cases hg
    · cases hg
      exact fun h => by cases h

/-- A file of the queue is read to the length that was asked for. -/
theorem Steady.readCase (fn : Text) (len : Nat) :
    Keeps I (Exits bounded fresh) (Session.readCase fn len) (·.length = len) := by
  refine hI.step (fun s a s' _ hg => ?_) fun s e _ hg => ?_
  · split at hg
    · cases hg
    · split at hg
      · cases hg
      · rename_i hlen
        cases hg
        refine ⟨?_, Quiet.of_globals_eq rfl rfl fun h => h⟩
        rw [List.length_take]
        omega
  · split at hg
    · cases hg
      exact fun h => by cases h
    · split at hg
      · cases hg
        exact fun h => by cases h
      · cases hg

/-- `run_target`. -/
theorem Steady.runTarget :
    Keeps I (Exits bounded fresh) (Session.runTarget w) fun _ => True := by
  refine hI.step (fun s a s' _ hg => ?_) fun s e _ hg => (by cases hg)
  cases hg
  exact ⟨trivial, touched_setTrace s.globals _, rfl, fun h => h⟩

/-- `calibrate_case`. -/
theorem Steady.calibrate {q : Nat} (hq : ∀ s, I s → q < s.globals.entries.length) (handicap : Nat) :
    Keeps I (Exits bounded fresh) (Session.calibrate w q handicap) fun _ => True := by
  refine hI.step (fun s a s' hs hg => ?_) fun s e _ hg => (by cases hg)
  cases hg
  exact ⟨trivial, touched_calibrateCase w.env (hq s hs) _ _, rfl, fun h => h⟩

/-- The counter of successive hangs. -/
theorem Steady.countHangs (fault : Fault) :
    Keeps I (Exits bounded fresh) (Session.countHangs fault) fun _ => True := by
  refine hI.step (fun s a s' _ hg => ?_) fun s e _ hg => ?_
  · split at hg <;> cases hg <;> exact ⟨trivial, Quiet.of_globals_eq rfl rfl fun h => h⟩
  · split at hg <;> cases hg

/-- In the fuzzing loop, the averages have divisors. -/
theorem Steady.calculateScore (hlive : ∀ s, I s → Live bounded fresh s) (w : World (8 * k))
    (q : Nat) :
    Keeps I (Exits bounded fresh) (Session.calculateScore w q) fun _ => True := by
  have hpos : ∀ s, I s →
      ¬(s.globals.totalCalCycles = 0 ∨ s.globals.totalBitmapEntries = 0) := by
    intro s hs
    have hcycles := (hlive s hs).cycles
    have hbitmaps := (hlive s hs).bitmaps
    omega
  refine hI.step (fun s a s' hs hg => ?_) fun s e hs hg => ?_
  · rw [if_neg (hpos s hs)] at hg
    cases hg
    exact ⟨trivial, Touched.updateEntry s.globals q fun _ => rfl, rfl, fun h => h⟩
  · rw [if_neg (hpos s hs)] at hg
    cases hg

end Steady

/-! ### Saving -/

/-- An invariant that allows to save, and survives it. -/
structure Saving (bounded fresh : Prop) (I : Session (8 * k) → Prop) : Prop
    extends Steady bounded fresh I where
  live : ∀ s, I s → Live bounded fresh s
  canSave : ∀ s, I s → CanSave s
  undisturbed : ∀ s s', I s → Undisturbed s s' → Live bounded fresh s' → I s'

/-- `fuzz_one` can save test cases. -/
theorem saving_fuzzing (bounded fresh : Prop) (w : World (8 * k)) (q len : Nat)
    (toks : List Extra) :
    Saving bounded fresh (Fuzzing w bounded fresh q len toks) :=
  ⟨steady_fuzzing bounded fresh w q len toks, fun _ h => h.toLive, fun _ h => h.canSave,
    fun _ _ h hu hlive => h.undisturbed hu hlive⟩

/-- So can an import from a peer. -/
theorem saving_syncing (bounded fresh : Prop) (cur : Option Ptr) {party : Text}
    (hplain : '/' ∉ party) :
    Saving bounded fresh (Syncing (k := k) bounded fresh cur (some party)) :=
  ⟨steady_syncing bounded fresh cur _, fun _ h => h.toLive, fun _ h => h.canSave hplain,
    fun _ _ h hu hlive => h.undisturbed hu hlive⟩

/-- A buffer with a length in range may be noted. -/
theorem Live.hand {s : Session (8 * k)} (h : Live bounded fresh s) {mem : List U8}
    (hmem : LenOk bounded mem.length) :
    Live bounded fresh { s with handed := s.handed ++ [mem] } := by
  refine ⟨⟨⟨h.books, h.lens, h.files, fun buf hbuf => ?_⟩, h.nonempty, h.short, h.explained,
    h.listed⟩, h.cycles, h.bitmaps, h.seek, h.current⟩
  rcases List.mem_append.mp hbuf with hbuf | hbuf
  · exact h.handed buf hbuf
  · rw [List.mem_singleton.mp hbuf]
    exact hmem

/-- `save_if_interesting`. -/
theorem Saving.saveCase (hI : Saving bounded fresh I) (w : World (8 * k)) {mem : List U8}
    (hmem : LenOk bounded mem.length) (fault : Fault) :
    Keeps I (Exits bounded fresh) (Session.saveCase w mem fault) fun _ => True := by
  refine (Keeps.modify fun s hs => ?_).bind fun _ _ => ?_
  · exact hI.undisturbed s _ hs ⟨rfl, rfl, rfl, rfl, fun _ _ => rfl, fun _ _ => rfl, fun _ _ h => h⟩
      ((hI.live s hs).hand hmem)
  · refine Keeps.step (fun s a s' hs hg => ?_) fun s e hs hg => ?_
    · split at hg
      · cases hg
      · rename_i keeping globals hcall
        cases hg
        obtain ⟨hlive, hun⟩ := (hI.live s hs).save (hI.canSave s hs) rfl hmem hcall
        refine ⟨trivial, hI.quiet { s with globals } _ (hI.undisturbed s _ hs hun hlive) ?_⟩
        exact Quiet.of_globals_eq rfl rfl fun h => h
    · split at hg
      · cases hg
        exact hI.exits (fun h => by cases h) s hs
      · cases hg

/-- One execution of a fuzzed input. -/
theorem Saving.commonFuzzStuff (hI : Saving bounded fresh I) (w : World (8 * k)) {buf : List U8}
    (hbuf : LenOk bounded buf.length) :
    Keeps I (Exits bounded fresh) (Session.commonFuzzStuff w buf) fun _ => True := by
  refine (hI.runTarget w).bind fun fault _ => Keeps.get.bind fun s _ => ?_
  refine Keeps.ite (fun _ => Keeps.pure trivial) fun _ => ?_
  refine (hI.countHangs fault).bind fun hangs _ => ?_
  refine Keeps.ite (fun _ => Keeps.pure trivial) fun _ => ?_
  refine (hI.checkSkip w).bind fun skip _ => ?_
  refine Keeps.ite (fun _ => Keeps.pure trivial) fun _ => ?_
  exact (hI.saveCase w hbuf fault).bind fun _ _ => Keeps.pure trivial

/-! ### Importing -/

/-- The steps of `sync_fuzzers` stay in the fuzzing loop, and leave a state in `Q`. -/
abbrev Imports {α : Type} (bounded fresh : Prop) (P : Session (8 * k) → Prop)
    (p : Fuzz (8 * k) α) (Q : Session (8 * k) → Prop) : Prop :=
  Meets P p (Live bounded fresh) (fun _ => Q) (Exits bounded fresh)

/-- What keeps an invariant of the fuzzing loop. -/
theorem Imports.of_keeps {α : Type} {φ : α → Prop} {p : Fuzz (8 * k) α}
    (hlive : ∀ s, I s → Live bounded fresh s) (h : Keeps I (Exits bounded fresh) p φ) :
    Imports bounded fresh I p I :=
  Meets.mono h (fun _ hs => hs) hlive (fun _ _ hs => hs.2) fun _ _ he => he

variable {cur : Option Ptr}

/-- `syncing_party` is written, and nothing else. -/
theorem imports_setParty (party party' : Option Text) :
    Imports bounded fresh (Syncing (k := k) bounded fresh cur party)
      (Session.setOp fun op => { op with syncingParty := party' })
      (Syncing bounded fresh cur party') := by
  refine Meets.modify (fun s hs => hs.toLive) fun s hs => ?_
  exact ⟨⟨hs.toLoaded.congr rfl, hs.cycles, hs.bitmaps, hs.seek, hs.current⟩, hs.cur, rfl, hs.depth⟩

/-- One file of a peer. -/
theorem imports_syncCase (w : World (8 * k)) {party : Text} (hplain : '/' ∉ party)
    (minAccept next : Nat) (file : Text × List U8) :
    Imports bounded fresh (Syncing (k := k) bounded fresh cur none)
      (Session.syncCase w party minAccept next file) (Syncing bounded fresh cur none) := by
  have hidle : ∀ {α : Type} {φ : α → Prop} {p : Fuzz (8 * k) α},
      Keeps (Syncing bounded fresh cur none) (Exits bounded fresh) p φ →
      Imports bounded fresh (Syncing bounded fresh cur none) p (Syncing bounded fresh cur none) :=
    fun h => Imports.of_keeps (fun _ hs => hs.toLive) h
  have hI := steady_syncing (k := k) bounded fresh cur none
  unfold Session.syncCase
  split
  · exact Meets.pure fun _ hs => hs
  · rename_i syncingCase _
    refine (hidle (hI.setOp (f := fun op => { op with syncingCase }) (fun _ => ⟨rfl, rfl⟩)
      fun _ h => h)).bind fun _ => ?_
    dsimp only
    split
    · rename_i hrun
      have hfile : LenOk bounded file.2.length := by
        simp only [SyncState.runnable, Bool.and_eq_true, Bool.not_eq_true',
          List.isEmpty_eq_false_iff, decide_eq_true_eq] at hrun
        exact ⟨List.length_pos_iff.mpr hrun.1, fun _ => hrun.2⟩
      refine (hidle (hI.runTarget w)).bind fun fault => ?_
      refine (hidle Keeps.get).bind fun s => ?_
      split
      · exact Meets.pure fun _ hs => hs
      · refine (imports_setParty none (some party)).bind fun _ => ?_
        have hsave := (saving_syncing bounded fresh cur hplain).saveCase w
          hfile fault
        refine (Imports.of_keeps (fun _ hs => hs.toLive) hsave).bind fun _ => ?_
        refine (imports_setParty (some party) none).bind fun _ => ?_
        exact Meets.pure fun _ hs => hs
    · exact Meets.pure fun _ hs => hs

/-- All files of a peer. -/
theorem imports_syncPeer (w : World (8 * k)) {peer : PeerQueue} (hplain : '/' ∉ peer.party) :
    Imports bounded fresh (Syncing (k := k) bounded fresh cur none) (Session.syncPeer w peer)
      (Syncing bounded fresh cur none) := by
  have hI := steady_syncing (k := k) bounded fresh cur none
  have hlive : ∀ s : Session (8 * k), Syncing bounded fresh cur none s → Live bounded fresh s :=
    fun _ hs => hs.toLive
  unfold Session.syncPeer
  split
  · exact Meets.pure fun _ hs => hs
  · refine (Imports.of_keeps hlive Keeps.get).bind fun s => ?_
    refine Meets.bind (Meets.foldUntil (J := fun _ => Syncing bounded fresh cur none)
      (L := Syncing bounded fresh cur none) peer.files (fun file _ acc => ?_) _) fun r => ?_
    · refine (imports_syncCase w hplain _ acc file).of_post ?_
      intro r s hs
      cases r <;> exact hs
    · cases r with
      | none => exact Meets.pure fun _ hs => hs
      | some next =>
        refine (Imports.of_keeps hlive (hI.modify fun s _ => ?_)).bind fun _ => ?_
        · exact Quiet.of_globals_eq rfl rfl fun h => h
        · exact Meets.pure fun _ hs => hs

/-- Between two entries, test cases may be imported. -/
theorem imports_syncFuzzers (w : World (8 * k)) :
    Imports bounded fresh (Running (k := k) bounded fresh cur) (Session.syncFuzzers w)
      (Running bounded fresh cur) := by
  have hlive : ∀ s : Session (8 * k), Syncing bounded fresh cur none s → Live bounded fresh s :=
    fun _ hs => hs.toLive
  refine Meets.bind (R := fun _ => Syncing bounded fresh cur none)
    (Meets.modify (fun s hs => hs.toLive) fun s hs => ?_) fun _ => ?_
  · exact ⟨⟨hs.toLoaded.congr rfl, hs.cycles, hs.bitmaps, hs.seek, hs.current⟩, hs.cur, hs.party,
      rfl⟩
  · have hpeers : Keeps (Syncing bounded fresh cur none) (Exits bounded fresh)
        (Process.step fun s : Session (8 * k) => .ok (w.peers s.clock, s.tick))
        fun peers => ∀ peer ∈ peers, '/' ∉ peer.party := by
      refine (steady_syncing bounded fresh cur none).step (fun s a s' _ hg => ?_)
        fun s e _ hg => (by cases hg)
      cases hg
      exact ⟨w.peers_plain s.clock, quiet_tick s⟩
    refine Meets.bind_of_fact (Meets.of_points hpeers hlive) fun peers hplain => ?_
    refine Meets.bind (Meets.foldUntil (J := fun _ => Syncing bounded fresh cur none)
      (L := Syncing bounded fresh cur none) peers (fun peer hpeer acc => ?_) ()) fun r => ?_
    · refine (imports_syncPeer w (hplain peer hpeer)).of_post ?_
      intro r s hs
      cases r <;> exact hs
    · refine Meets.pure fun s hs => ?_
      cases r <;> exact ⟨hs.toLive, hs.cur, hs.party⟩

end Steps

end TriforceAFL.Proofs
