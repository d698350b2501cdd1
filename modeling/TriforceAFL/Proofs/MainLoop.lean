import TriforceAFL.Proofs.StartUp

/-!
# `TriforceAFL.Proofs.MainLoop`: what holds in every session

The walks of the start-up and of `fuzz_one` are put together. A turn of the fuzzing loop starts and
ends in `Running`, and the part before `fuzz_one` leaves a current entry (`meets_beginTurn`), so the
invariants hold along every session of any number of turns.
-/

set_option autoImplicit false

namespace TriforceAFL.Proofs

open Lib Lib.Process Spec

section Loop
variable {k : Nat} {bounded fresh : Prop} {w : World (8 * k)} {s : Session (8 * k)}

/-- Between two turns, with any current entry. -/
def Looping (bounded fresh : Prop) (s : Session (8 * k)) : Prop :=
  Running bounded fresh s.queueCur s

theorem Running.looping {cur : Option Ptr} (h : Running bounded fresh cur s) :
    Looping bounded fresh s := ⟨h.toLive, rfl, h.party⟩

/-! ### The part of a turn before `fuzz_one` -/

/-- The current entry moves forward by `n` entries. -/
theorem meets_seek (n : Nat) {q : Nat} :
    Meets (fun s => Running bounded fresh (some q) s ∧ s.seekTo = n ∧
        q + n < s.globals.entries.length)
      (Session.seek n) (Live bounded fresh) (fun _ => Running (k := k) bounded fresh (some (q + n)))
      (Exits bounded fresh) := by
  induction n generalizing q with
  | zero => exact Meets.pure fun s hs => hs.1
  | succ n ih =>
    refine Meets.bind (R := fun _ s => Running bounded fresh (some (q + 1)) s ∧ s.seekTo = n ∧
      q + 1 + n < s.globals.entries.length) (Meets.step (fun s hs => hs.1.toLive)
        (fun s a s' hs hg => ?_) fun s e hs hg => ?_) fun _ => ?_
    · obtain ⟨hrun, hseek, hlt⟩ := hs
      have hnext : (s.globals.entry q).next = some (q + 1) :=
        (hrun.books.chain.linked q (by omega)).trans (if_pos (by omega))
      obtain ⟨hcur, _, hcycle⟩ := hrun.current q hrun.cur
      rw [hrun.cur] at hg
      dsimp only at hg
      rw [hnext] at hg
      cases hg
      refine ⟨⟨⟨hrun.toLoaded.congr rfl, hrun.cycles, hrun.bitmaps, ?_, fun p hp => ?_⟩, rfl,
        hrun.party⟩, ?_, ?_⟩
      · show s.seekTo - 1 < s.globals.entries.length
        omega
      · cases hp
        refine ⟨congrArg (· + 1) hcur, ?_, hcycle⟩
        show q + 1 < s.globals.entries.length
        omega
      · show s.seekTo - 1 = n
        omega
      · show q + 1 + n < s.globals.entries.length
        omega
    · rw [hs.1.cur] at hg
      cases hg
    · have hrest := ih (q := q + 1)
      rwa [show q + 1 + n = q + (n + 1) by omega] at hrest ⊢

theorem meets_startCycle :
    Meets (Running bounded fresh none) (Session.startCycle w) (Live bounded fresh)
      (fun _ s => ∃ q, Running bounded fresh (some q) s) (Exits bounded fresh) := by
  refine Meets.bind (R := fun _ => Running bounded fresh (some 0))
    (Meets.modify (fun s hs => hs.toLive) fun s hs => ?_) fun _ => ?_
  · have hqueue : s.globals.queue = some 0 := by
      rw [hs.books.chain.queue, if_neg (List.length_pos_iff.mp hs.nonempty)]
    refine ⟨⟨hs.toLoaded.congr rfl, hs.cycles, hs.bitmaps, hs.seek, fun q hq => ?_⟩,
      hqueue, hs.party⟩
    have hzero : some 0 = some q := hqueue.symm.trans hq
    cases hzero
    exact ⟨rfl, hs.nonempty, Nat.succ_pos _⟩
  refine Meets.bind (R := fun s t => t = s ∧ Running bounded fresh (some 0) t)
    (Meets.get fun s hs => ⟨rfl, hs⟩) fun s => ?_
  refine Meets.bind (Meets.of_pre (meets_seek (q := 0) s.seekTo) fun t ht => ?_) fun _ => ?_
  · obtain ⟨rfl, hrun⟩ := ht
    refine ⟨hrun, rfl, ?_⟩
    rw [Nat.zero_add]
    exact hrun.seek
  generalize 0 + s.seekTo = q
  have hrun : ∀ {α : Type} {φ : α → Prop} {p : Fuzz (8 * k) α},
      Keeps (Running bounded fresh (some q)) (Exits bounded fresh) p φ →
      Meets (Running bounded fresh (some q)) p (Live bounded fresh)
        (fun _ => Running bounded fresh (some q)) (Exits bounded fresh) :=
    fun h => Imports.of_keeps (fun _ hs => hs.toLive) h
  have hI := steady_running (k := k) bounded fresh (some q)
  refine (hrun (hI.modify fun s _ => ?_)).bind fun _ => (hrun Keeps.get).bind fun s => ?_
  · unfold Session.adjustSplicing
    dsimp only
    split
    · split <;> exact ⟨Touched.of_fields rfl rfl rfl, rfl, fun h => h⟩
    · exact ⟨Touched.of_fields rfl rfl rfl, rfl, fun h => h⟩
  · refine Meets.mono (Q := fun _ => Running bounded fresh (some q)) ?_ (fun _ hs => hs)
      (fun _ hs => hs) (fun _ _ hs => ⟨q, hs⟩) fun _ _ he => he
    split
    · exact imports_syncFuzzers w
    · exact Meets.pure fun _ hs => hs

/-- When `fuzz_one` is called there is a current entry. -/
theorem meets_beginTurn :
    Meets (Looping bounded fresh) (Session.beginTurn w) (Live bounded fresh)
      (fun _ s => ∃ q, Running bounded fresh (some q) s) (Exits bounded fresh) := by
  refine Meets.bind (R := fun _ => Looping bounded fresh)
    (Meets.modify (fun s hs => hs.toLive) fun s hs => ?_) fun _ => ?_
  · exact hs.quiet ⟨touched_cullQueue s.globals, rfl, fun h => h⟩
  refine Meets.bind (R := fun s t => t = s ∧ Looping bounded fresh t)
    (Meets.get fun s hs => ⟨rfl, hs⟩) fun s => ?_
  split
  · rename_i hnone
    refine meets_startCycle.of_pre fun t ht => ?_
    obtain ⟨rfl, hloop⟩ := ht
    exact ⟨hloop.toLive, hnone, hloop.party⟩
  · rename_i hsome
    refine Meets.pure fun t ht => ?_
    obtain ⟨rfl, hloop⟩ := ht
    obtain ⟨q, hq⟩ := Option.ne_none_iff_exists'.mp hsome
    exact ⟨q, hloop.toLive, hq, hloop.party⟩

/-! ### The part after it -/

theorem meets_maybeSync {cur : Option Ptr} (skipped : Bool) :
    Meets (Running bounded fresh cur) (Session.maybeSync w skipped) (Live bounded fresh)
      (fun _ => Running bounded fresh cur) (Exits bounded fresh) := by
  have hrun : ∀ {α : Type} {φ : α → Prop} {p : Fuzz (8 * k) α},
      Keeps (Running bounded fresh cur) (Exits bounded fresh) p φ →
      Meets (Running bounded fresh cur) p (Live bounded fresh)
        (fun _ => Running bounded fresh cur) (Exits bounded fresh) :=
    fun h => Imports.of_keeps (fun _ hs => hs.toLive) h
  have hI := steady_running (k := k) bounded fresh cur
  refine (hrun (hI.checkStop w)).bind fun stop => ?_
  split
  · refine (hrun Keeps.get).bind fun s => (hrun (hI.modify fun s _ => ?_)).bind fun _ => ?_
    · exact Quiet.of_globals_eq rfl rfl fun h => h
    · split
      · exact imports_syncFuzzers w
      · exact Meets.pure fun _ hs => hs
  · exact Meets.pure fun _ hs => hs

theorem meets_advance {q : Nat} :
    Meets (Running bounded fresh (some q)) Session.advance (Live (k := k) bounded fresh)
      (fun _ => Looping bounded fresh) (Exits bounded fresh) := by
  refine Meets.step (fun s hs => hs.toLive) (fun s a s' hs hg => ?_) fun s e hs hg => ?_
  · obtain ⟨hcur, hlt, hcycle⟩ := hs.current q hs.cur
    have hnext : (s.globals.entry q).next =
        if q + 1 < s.globals.entries.length then some (q + 1) else none :=
      hs.books.chain.linked q hlt
    rw [hs.cur] at hg
    dsimp only at hg
    cases hg
    refine ⟨⟨hs.toLoaded.congr rfl, hs.cycles, hs.bitmaps, hs.seek, fun p hp => ?_⟩, rfl, hs.party⟩
    change (s.globals.entry q).next = some p at hp
    rw [hnext] at hp
    split at hp
    · rename_i hlt'
      cases hp
      exact ⟨congrArg (· + 1) hcur, hlt', hcycle⟩
    · cases hp
  · rw [hs.cur] at hg
    cases hg

theorem meets_endTurn {q : Nat} (skipped : Bool) :
    Meets (Running bounded fresh (some q)) (Session.endTurn w skipped) (Live bounded fresh)
      (fun _ => Looping bounded fresh) (Exits bounded fresh) := by
  refine (meets_maybeSync skipped).bind fun _ => ?_
  have hI := steady_running (k := k) bounded fresh (some q)
  refine Meets.bind (Imports.of_keeps (fun _ hs => hs.toLive) (hI.checkStop w)) fun stop => ?_
  split
  · exact Meets.exit (hI.exits fun h => by cases h)
  · exact meets_advance

/-! ### Turns -/

/-- In the turn that starts in `s`, the user tokens are not inserted, or they fit. -/
def TurnFits (w : World (8 * k)) (s : Session (8 * k)) : Prop :=
  (Session.beginTurn w s).result = .ok () → ∀ q ∈ (Session.beginTurn w s).final.queueCur,
    InsertFits w q ((Session.beginTurn w s).final.globals.entry q).len
      (Session.beginTurn w s).final

theorem meets_mainTurn :
    Meets (fun s => Looping bounded fresh s ∧ (bounded → TurnFits w s)) (Session.mainTurn w)
      (Live bounded fresh) (fun _ => Looping bounded fresh) (Exits bounded fresh) := by
  refine Meets.of_eq fun s hs => ?_
  refine (meets_beginTurn.from_state hs.1).bind fun _ => ?_
  rintro t ⟨⟨q, hrun⟩, hok, rfl⟩
  refine (?_ : Meets (fun t => Running bounded fresh (some q) t ∧
    (bounded → InsertFits w q (t.globals.entry q).len t)) _ (Live bounded fresh)
    (fun _ => Looping bounded fresh) (Exits bounded fresh)) _
    ⟨hrun, fun hb => hs.2 hb hok q hrun.cur⟩
  exact Meets.bind (Meets.of_points (meets_fuzzOne w q) fun _ ht => ht.toLive)
    fun skipped => meets_endTurn skipped

/-- Any number of turns. -/
theorem meets_turns (n : Nat) (hs : Looping bounded fresh s)
    (hfits : bounded → ∀ i < n, (Session.turns w i s).result = .ok () →
      TurnFits w (Session.turns w i s).final) :
    Meets (· = s) (Session.turns w n) (Live bounded fresh) (fun _ => Looping bounded fresh)
      (Exits bounded fresh) := by
  induction n with
  | zero =>
    refine Meets.pure fun t ht => ?_
    rwa [ht]
  | succ n ih =>
    have hn := ih fun hb i hi => hfits hb i (Nat.lt_succ_of_lt hi)
    refine (hn.from_state rfl).bind fun _ => ?_
    refine meets_mainTurn.of_pre fun t ht => ?_
    obtain ⟨hloop, hok, rfl⟩ := ht
    exact ⟨hloop, fun hb => hfits hb n (Nat.lt_succ_self n) hok⟩

/-! ### Whole sessions -/

/-- How a session can end, in any phase. -/
structure Leaves (bounded : Prop) (e : Exit) (s : Session (8 * k)) : Prop where
  exit : e ≠ .divisionByZero
  base : Base bounded s

theorem Exits.leaves {e : Exit} (h : Exits bounded fresh e s) :
    Leaves bounded e s := ⟨h.exit, h.base⟩

/-- After the queue is loaded. -/
theorem Filling.prepared (h : Filling w (accepted w.inputs) (accepted w.inputs).length s)
    (hpos : 0 < (accepted w.inputs).length) (hfresh : fresh → FreshInputs w) :
    Prepared w bounded fresh (accepted w.inputs).length s :=
  ⟨h.loaded hpos hfresh, h.idle, h.size⟩

/-- The start-up leads to the fuzzing loop, or to an exit that is not a division by zero. -/
theorem meets_startUp (w : World (8 * k)) (hfresh : fresh → FreshInputs w) :
    Meets (· = Session.start w) (Session.startUp w) (Base bounded)
      (fun _ => Looping bounded fresh) (Leaves bounded) := by
  refine Meets.bind ((meets_loadQueue w).mono (fun _ hs => hs) (fun _ hs => hs.weaken bounded)
    (fun _ _ hs => hs) fun _ _ he => ⟨he.1, he.2.weaken bounded⟩) fun _ => ?_
  rintro s ⟨hpos, hfill⟩
  refine Meets.mono (meets_prepare hpos) (fun _ hs => hs) (fun _ hs => hs.toBase)
    (fun _ _ hs => hs.looping) (fun _ _ he => he.leaves) s (hfill.prepared hpos hfresh)

/-- Any session. The turns of a session with the assumption `bounded` have room for the tokens. -/
theorem meets_session (w : World (8 * k)) (n : Nat) (hfresh : fresh → FreshInputs w)
    (hfits : bounded → ∀ i < n, (Session.session w i (Session.start w)).result = .ok () →
      TurnFits w (Session.session w i (Session.start w)).final) :
    Meets (· = Session.start w) (Session.session w n) (Base bounded)
      (fun _ => Looping bounded fresh) (Leaves bounded) := by
  refine Meets.bind ((meets_startUp w hfresh).from_state rfl) fun _ => ?_
  rintro s ⟨hloop, hok, rfl⟩
  refine Meets.mono (meets_turns n hloop fun hb i hi hres => ?_) (fun _ hs => hs)
    (fun _ hs => hs.toBase) (fun _ _ hs => hs) (fun _ _ he => he.leaves) _ rfl
  -- The start-up and `i` turns are the session of `i` turns.
  have hrun := Process.bind_of_result (f := fun _ => Session.turns w i) hok
  have hturn := hfits hb i hi ((congrArg Run.result hrun).trans hres)
  rwa [show (Session.session w i (Session.start w)).final = _ from congrArg Run.final hrun] at hturn

/-! ### The books of the queue -/

/-- Following `next` from `queue` visits the entries, one after the other, and ends at
`queue_top`. -/
theorem Base.walk (h : Base bounded s) :
    s.globals.queuedPaths = s.globals.entries.length ∧
      (∀ i, Session.entryAt s.globals i s.globals.queue =
        if i < s.globals.queuedPaths then some i else none) ∧
      s.globals.queueTop =
        Session.entryAt s.globals (s.globals.queuedPaths - 1) s.globals.queue := by
  have hpaths := h.books.paths
  refine ⟨hpaths, fun i => ?_, ?_⟩
  · rw [entryAt_queue h.books.chain, hpaths]
  · rw [entryAt_queue h.books.chain, h.books.chain.top, hpaths]
    by_cases hempty : s.globals.entries = []
    · rw [if_pos hempty, hempty, List.length_nil, if_neg (by decide)]
    · have hpos := List.length_pos_iff.mpr hempty
      rw [if_neg hempty, if_pos (by omega)]

/-- The books of the queue are right in every state of a session, and `fuzz_one` works on the entry
at position `current_entry`. -/
theorem session_queue_books (w : World (8 * k)) (n : Nat) :
    (∀ s ∈ (Session.session w n).states (Session.start w),
      s.globals.queuedPaths = s.globals.entries.length ∧
      (∀ i, Session.entryAt s.globals i s.globals.queue =
        if i < s.globals.queuedPaths then some i else none) ∧
      s.globals.queueTop =
        Session.entryAt s.globals (s.globals.queuedPaths - 1) s.globals.queue ∧
      s.globals.pendingNotFuzzed =
        BitVec.ofNat 32 (s.globals.entries.countP fun e => !e.wasFuzzed) ∧
      s.globals.queuedWithCov = s.globals.entries.countP (·.hasNewCov) ∧
      s.globals.queuedVariable = s.globals.entries.countP (·.varBehavior) ∧
      s.globals.maxDepth = (s.globals.entries.map (·.depth)).foldr max 0) ∧
    (((do Session.session w n; Session.beginTurn w) (Session.start w)).result = .ok () →
      let s := ((do Session.session w n; Session.beginTurn w) (Session.start w)).final
      ∃ q, ∀ t ∈ s :: (Session.fuzzOne w s).points, t.queueCur = some q ∧
        Session.entryAt t.globals t.op.currentEntry t.globals.queue = some q) := by
  have hsession : Meets (· = Session.start w) (Session.session w n) (Base False)
      (fun _ => Looping False False) (Leaves False) :=
    meets_session w n (fun h => h.elim) fun h => h.elim
  constructor
  · intro s hs
    have hbase : Base False s :=
      hsession.of_mem_states (fun _ _ h => h.toBase) (fun _ _ h => h.base) rfl hs
    obtain ⟨hpaths, hwalk, htop⟩ := hbase.walk
    exact ⟨hpaths, hwalk, htop, hbase.books.pending, hbase.books.withCov,
      hbase.books.variableCnt, hbase.books.depth⟩
  · intro hok s
    have hturn : Meets (· = Session.start w) (do Session.session w n; Session.beginTurn w)
        (Base False) (fun _ s => ∃ q, Running False False (some q) s) (Leaves False) :=
      hsession.bind fun _ => Meets.mono meets_beginTurn (fun _ h => h) (fun _ h => h.toBase)
        (fun _ _ h => h) fun _ _ h => h.leaves
    obtain ⟨q, hrun⟩ := (hturn _ rfl).2.1 () hok
    refine ⟨q, fun t ht => ?_⟩
    have hcur : Running False False (some q) t := by
      rcases List.mem_cons.mp ht with rfl | ht
      · exact hrun
      · exact (meets_fuzzOne w q s ⟨hrun, fun h => h.elim⟩).1 t ht
    obtain ⟨hpos, hlt, _⟩ := hcur.current q hcur.cur
    refine ⟨hcur.cur, ?_⟩
    rw [entryAt_queue hcur.books.chain, ← hpos, if_pos hlt]

/-! ### The divisions -/

/-- In the fuzzing loop both averages have a divisor, and no session divides by zero. The states
before the calls of `calculate_score` are among the recorded ones. -/
theorem session_divisors_pos (w : World (8 * k)) (n : Nat) :
    ((Session.startUp w (Session.start w)).result = .ok () →
      ∀ s ∈ (Session.turns w n (Session.startUp w (Session.start w)).final).points,
        0 < s.globals.totalCalCycles ∧ 0 < s.globals.totalBitmapEntries) ∧
    (Session.session w n (Session.start w)).result ≠ .error .divisionByZero ∧
    ∀ (g : FuzzState (8 * k)) (q : Ptr) (cal : Calibration (8 * k)),
      0 < (calibrateLoop w.env q cal (CAL_CYCLES_LONG + 1) 0
        (startCalibration g q)).2.stageMax := by
  refine ⟨fun hok s hs => ?_, fun hres => ?_, fun g q cal => ?_⟩
  · have hstart : Meets (· = Session.start w) (Session.startUp w) (Base False)
        (fun _ => Looping False False) (Leaves False) := meets_startUp w fun h => h.elim
    have hloop := (hstart _ rfl).2.1 () hok
    have hlive := (meets_turns (w := w) n hloop (fun h => h.elim) _ rfl).1 s hs
    exact ⟨hlive.cycles, hlive.bitmaps⟩
  · have hsession : Meets (· = Session.start w) (Session.session w n) (Base False)
        (fun _ => Looping False False) (Leaves False) :=
      meets_session w n (fun h => h.elim) fun h => h.elim
    exact ((hsession _ rfl).2.2 _ hres).exit rfl
  · obtain ⟨hpos, hmax⟩ := stageMax_startCalibration g q
    exact (calibrateLoop_result w.env q cal _ 0 _ hpos hmax).1

end Loop

end TriforceAFL.Proofs
