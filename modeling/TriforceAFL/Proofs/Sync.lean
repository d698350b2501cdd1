import TriforceAFL.Lib.Reachable
import TriforceAFL.Spec.Sync

/-!
# `TriforceAFL.Proofs.Sync`: what the scans of a peer's queue execute

* `ScanInv` is what holds in every run, whatever names the peer uses, as long as their ids are
  below a million: a scan starts from the stored mark and only raises it.
* `sync_once`: over a directory with distinct ids, the stored mark never decreases and no id is
  executed twice.
* `sync_complete`: a test case that was complete when a scan began has been executed when the scan
  ends, in every run in which the scans return no file before it is complete, and leave no file
  behind below the new mark (`SafeAct`). `sync_incomplete` states that this does not hold in every
  run: the mark is raised before the size of the file is looked at.
-/

set_option autoImplicit false

namespace TriforceAFL.Proofs

open Lib Spec Spec.SyncState

/-! ### The ids of names -/

theorem caseId_eq_some {name : Text} {c : Nat} (h : caseId name = some c) :
    casePrefix <+: name ∧ scanUnsigned 6 (name.drop casePrefix.length) = some c := by
  unfold caseId at h
  split at h
  · rename_i hname
    exact ⟨List.isPrefixOf_iff_prefix.mp hname, h⟩
  · cases h

/-- A name with an id is accepted unless the id is below the mark. -/
theorem accepted_eq_some_iff {m c : Nat} {name : Text} :
    accepted m name = some c ↔ caseId name = some c ∧ m ≤ c := by
  unfold accepted
  constructor
  · intro h
    split at h
    · cases h
    · rw [Option.filter_eq_some_iff] at h
      exact ⟨h.1, by simpa using h.2⟩
  · rintro ⟨hid, hle⟩
    obtain ⟨rest, rfl⟩ := (caseId_eq_some hid).1
    -- The name starts with the `i` of the prefix.
    have hdot : (casePrefix ++ rest).head? ≠ some '.' := by
      show some 'i' ≠ some '.'
      decide
    rw [if_neg hdot, Option.filter_eq_some_iff]
    exact ⟨hid, by simpa using hle⟩

theorem drop_caseName (id : Nat) (op : Text) :
    (caseName id op).drop casePrefix.length = padDec 6 id ++ ',' :: op := by
  rw [caseName, List.append_assoc]
  exact List.drop_left

theorem isPrefixOf_caseName (id : Nat) (op : Text) :
    casePrefix.isPrefixOf (caseName id op) = true := by
  rw [List.isPrefixOf_iff_prefix, caseName, List.append_assoc]
  exact List.prefix_append _ _

/-- The id of a queue file is read back. -/
theorem caseId_caseName {id : Nat} (hid : id < 10 ^ 6) (op : Text) :
    caseId (caseName id op) = some id := by
  rw [caseId, if_pos (isPrefixOf_caseName id op), drop_caseName]
  exact scanUnsigned_padDec (by decide) hid (hid.trans (by decide)) _

/-- A name has one id. -/
theorem caseName_inj {id id' : Nat} {op op' : Text} (h : caseName id op = caseName id' op') :
    id = id' := by
  -- The digits end at the comma.
  have hdigits : ∀ n rest, (padDec 6 n ++ ',' :: rest).takeWhile Char.isDigit = padDec 6 n := by
    intro n rest
    rw [List.takeWhile_append_of_pos fun c hc => isDigit_of_mem_padDec hc,
      List.takeWhile_cons_of_neg (by decide), List.append_nil]
  have heq := congrArg (List.drop casePrefix.length) h
  rw [drop_caseName, drop_caseName] at heq
  -- Equal names have equal digits, and the digits spell the id.
  have hpad := congrArg (List.takeWhile Char.isDigit) heq
  rw [hdigits, hdigits] at hpad
  rw [← ofDigitChars_padDec 6 id, hpad, ofDigitChars_padDec]

/-- An id of more than six digits is cut off. -/
theorem caseId_caseName_le {id c : Nat} {op : Text} (h : caseId (caseName id op) = some c) :
    c ≤ id ∧ c < 10 ^ 6 := by
  by_cases hid : id < 10 ^ 6
  · rw [caseId_caseName hid] at h
    cases h
    exact ⟨Nat.le_refl _, hid⟩
  · have hlt : c < 10 ^ 6 := by
      have hscan := (caseId_eq_some h).2
      rw [drop_caseName] at hscan
      exact scanUnsigned_padDec_lt hscan
    exact ⟨by omega, hlt⟩

/-! ### The steps -/

/-- What `readdir` returning `f` does. -/
theorem visit_cases (s : SyncState) (sc : Scan) (f : PeerFile) :
    (∃ sc', s.visit sc f = { s with scan := some sc' } ∧ accepted sc.minAccept f.name = none ∧
      sc' = { sc with returned := f.name :: sc.returned }) ∨
    ∃ c sc', accepted sc.minAccept f.name = some c ∧
      s.visit sc f = { s with
        scan := some sc'
        executed := if runnable f.content then s.executed ++ [(c, f.content)] else s.executed } ∧
      sc' = { sc with
        returned := f.name :: sc.returned
        nextMinAccept := if c ≥ sc.nextMinAccept then (c + 1) % 2 ^ 32 else sc.nextMinAccept } := by
  unfold SyncState.visit
  dsimp only
  cases h : accepted sc.minAccept f.name with
  | none => exact Or.inl ⟨_, rfl, rfl, rfl⟩
  | some c => exact Or.inr ⟨c, _, rfl, rfl, rfl⟩

/-- Nothing that was executed is forgotten. -/
theorem executed_mono (s : SyncState) (act : SyncAct) :
    ∀ e ∈ s.executed, e ∈ (act.apply s).executed := by
  intro e he
  cases act with
  | create name => exact he
  | write name content => exact he
  | beginScan => exact he
  | finish sc => exact he
  | visit sc f =>
    show e ∈ (s.visit sc f).executed
    rcases visit_cases s sc f with ⟨sc', heq, _⟩ | ⟨c, sc', _, heq, _⟩
    · rw [heq]
      exact he
    · rw [heq]
      dsimp only
      split
      · exact List.mem_append_left _ he
      · exact he

/-! ### The invariant of a scan -/

/-- What holds in every run over names with ids below a million. -/
structure ScanInv (s : SyncState) : Prop where
  small : ∀ f ∈ s.files, ∀ c, caseId f.name = some c → c < 10 ^ 6
  /-- A name is used once. -/
  unique : ∀ f ∈ s.files, ∀ g ∈ s.files, f.name = g.name → f = g
  start : ∀ sc, s.scan = some sc → sc.minAccept = s.mark
  raised : ∀ sc, s.scan = some sc → sc.minAccept ≤ sc.nextMinAccept
  returned : ∀ sc, s.scan = some sc → ∀ n ∈ sc.returned, ∃ f ∈ s.files, f.name = n
  below : ∀ sc, s.scan = some sc → ∀ n ∈ sc.returned, ∀ c, caseId n = some c →
    c < sc.nextMinAccept

theorem ScanInv.init : ScanInv {} where
  small _ hf := absurd hf List.not_mem_nil
  unique _ hf := absurd hf List.not_mem_nil
  start _ hsc := by cases hsc
  raised _ hsc := by cases hsc
  returned _ hsc := by cases hsc
  below _ hsc := by cases hsc

section Steps
variable {s : SyncState}

/-- The file of a name, before the write and after it. -/
theorem mem_write {name : Text} {content : List U8} {g : PeerFile}
    (hg : g ∈ (s.write name content).files) :
    g ∈ s.files ∨ ∃ f ∈ s.files, f.complete = false ∧
      g = { f with content, complete := true } := by
  obtain ⟨f, hf, rfl⟩ := List.mem_map.mp hg
  split
  · rename_i hwritten
    rw [Bool.and_eq_true, Bool.not_eq_true'] at hwritten
    exact Or.inr ⟨f, hf, hwritten.2, rfl⟩
  · exact Or.inl hf

/-- A write keeps the names. -/
theorem exists_name_write {name n : Text} {content : List U8} :
    (∃ f ∈ (s.write name content).files, f.name = n) ↔ ∃ f ∈ s.files, f.name = n := by
  have hname : ∀ f : PeerFile, (if f.name = name && !f.complete
      then { f with content, complete := true } else f).name = f.name := by
    intro f
    split <;> rfl
  constructor
  · rintro ⟨g, hg, rfl⟩
    obtain ⟨f, hf, rfl⟩ := List.mem_map.mp hg
    exact ⟨f, hf, (hname f).symm⟩
  · rintro ⟨f, hf, rfl⟩
    exact ⟨_, List.mem_map_of_mem hf, hname f⟩

theorem ScanInv.create (h : ScanInv s) {name : Text}
    (hsmall : ∀ c, caseId name = some c → c < 10 ^ 6) (hfresh : ∀ f ∈ s.files, f.name ≠ name) :
    ScanInv (s.create name) := by
  have hmem : ∀ f ∈ (s.create name).files, f ∈ s.files ∨ f = ⟨name, [], false⟩ := by
    intro f hf
    rcases List.mem_append.mp hf with hold | hnew
    · exact Or.inl hold
    · exact Or.inr (List.mem_singleton.mp hnew)
  refine ⟨fun f hf c hc => ?_, fun f hf g hg heq => ?_, h.start, h.raised, fun sc hsc n hn => ?_,
    h.below⟩
  · rcases hmem f hf with hold | rfl
    · exact h.small f hold c hc
    · exact hsmall c hc
  · rcases hmem f hf with hold | rfl
    · rcases hmem g hg with hold' | rfl
      · exact h.unique f hold g hold' heq
      · exact absurd heq (hfresh f hold)
    · rcases hmem g hg with hold' | rfl
      · exact absurd heq.symm (hfresh g hold')
      · rfl
  · obtain ⟨f, hf, hname⟩ := h.returned sc hsc n hn
    exact ⟨f, List.mem_append_left _ hf, hname⟩

theorem ScanInv.write (h : ScanInv s) (name : Text) (content : List U8) :
    ScanInv (s.write name content) := by
  refine ⟨fun g hg c hc => ?_, fun f' hf' g' hg' heq => ?_, h.start, h.raised,
    fun sc hsc n hn => ?_,
    h.below⟩
  · obtain ⟨f, hf, hname⟩ := exists_name_write.mp ⟨g, hg, rfl⟩
    rw [← hname] at hc
    exact h.small f hf c hc
  · obtain ⟨f, hf, rfl⟩ := List.mem_map.mp hf'
    obtain ⟨g, hg, rfl⟩ := List.mem_map.mp hg'
    -- A write changes the content only.
    have hnames : f.name = g.name := by
      split at heq <;> split at heq <;> exact heq
    rw [h.unique f hf g hg hnames]
  · exact exists_name_write.mpr (h.returned sc hsc n hn)

theorem ScanInv.beginScan (h : ScanInv s) : ScanInv s.beginScan := by
  refine ⟨h.small, h.unique, fun sc hsc => ?_, fun sc hsc => ?_, fun sc hsc n hn => ?_,
    fun sc hsc n hn => ?_⟩
  · cases hsc
    rfl
  · cases hsc
    exact Nat.le_refl _
  · cases hsc
    cases hn
  · cases hsc
    cases hn

/-- The mark is raised above every id that is accepted. -/
theorem next_of_small {c n : Nat} (hc : c < 10 ^ 6) :
    n ≤ (if c ≥ n then (c + 1) % 2 ^ 32 else n) ∧ c < if c ≥ n then (c + 1) % 2 ^ 32 else n := by
  have hmod : (c + 1) % 2 ^ 32 = c + 1 := Nat.mod_eq_of_lt (by omega)
  rw [hmod]
  split <;> omega

theorem ScanInv.visit (h : ScanInv s) {sc : Scan} {f : PeerFile} (hscan : s.scan = some sc)
    (hf : f ∈ s.files) : ScanInv (s.visit sc f) := by
  have hstart := h.start sc hscan
  have hraised := h.raised sc hscan
  have hreturned : ∀ n ∈ f.name :: sc.returned, ∃ g ∈ s.files, g.name = n := by
    intro n hn
    rcases List.mem_cons.mp hn with rfl | hn
    · exact ⟨f, hf, rfl⟩
    · exact h.returned sc hscan n hn
  rcases visit_cases s sc f with ⟨sc', heq, hskip, hsc'⟩ | ⟨c, sc', hacc, heq, hsc'⟩
  · rw [heq]
    refine ⟨h.small, h.unique, fun t ht => ?_, fun t ht => ?_, fun t ht => ?_,
      fun t ht n hn c hc => ?_⟩
    all_goals cases ht; subst hsc'
    · exact hstart
    · exact hraised
    · exact hreturned
    · rcases List.mem_cons.mp hn with rfl | hn
      · -- A name that is skipped although it has an id is below the old mark.
        by_contra hle
        have hacc := accepted_eq_some_iff.mpr ⟨hc, hraised.trans (Nat.le_of_not_lt hle)⟩
        rw [hskip] at hacc
        cases hacc
      · exact h.below sc hscan n hn c hc
  · rw [heq]
    obtain ⟨hid, _⟩ := accepted_eq_some_iff.mp hacc
    obtain ⟨hle, hlt⟩ := next_of_small (n := sc.nextMinAccept) (h.small f hf c hid)
    refine ⟨h.small, h.unique, fun t ht => ?_, fun t ht => ?_, fun t ht => ?_,
      fun t ht n hn d hd => ?_⟩
    all_goals cases ht; subst hsc'
    · exact hstart
    · exact hraised.trans hle
    · exact hreturned
    · rcases List.mem_cons.mp hn with rfl | hn
      · rw [hid] at hd
        cases hd
        exact hlt
      · -- The ids of the names returned before were below a smaller mark.
        exact (h.below sc hscan n hn d hd).trans_le hle

theorem ScanInv.finish (h : ScanInv s) (sc : Scan) : ScanInv (s.finish sc) :=
  ⟨h.small, h.unique, fun t ht => (by cases ht), fun t ht => (by cases ht),
    fun t ht => (by cases ht), fun t ht => (by cases ht)⟩

/-- Every step keeps the invariant. -/
theorem ScanInv.step {MayCreate : SyncState → Text → Prop} (h : ScanInv s)
    (hsmall : ∀ name, MayCreate s name → ∀ c, caseId name = some c → c < 10 ^ 6) (act : SyncAct)
    (hen : act.Enabled MayCreate s) : ScanInv (act.apply s) := by
  cases act with
  | create name => exact h.create (hsmall name hen.1) hen.2
  | write name content => exact h.write name content
  | beginScan => exact h.beginScan
  | visit sc f => exact h.visit hen.1 hen.2.1
  | finish sc => exact h.finish sc

end Steps

/-! ### No id is executed twice -/

/-- Executed ids are below the stored mark, or belong to a name that the scan has returned. -/
structure OnceInv (s : SyncState) : Prop where
  scanInv : ScanInv s
  distinct : ∀ f ∈ s.files, ∀ g ∈ s.files, ∀ c, caseId f.name = some c → caseId g.name = some c →
    f = g
  idle : s.scan = none → ∀ e ∈ s.executed, e.1 < s.mark
  scanning : ∀ sc, s.scan = some sc → ∀ e ∈ s.executed,
    e.1 < sc.minAccept ∨ ∃ n ∈ sc.returned, caseId n = some e.1
  nodup : (s.executed.map Prod.fst).Nodup

theorem OnceInv.init : OnceInv {} where
  scanInv := ScanInv.init
  distinct _ hf := absurd hf List.not_mem_nil
  idle _ _ he := absurd he List.not_mem_nil
  scanning _ hsc := by cases hsc
  nodup := List.nodup_nil

section Once
variable {s : SyncState} {sc : Scan}

/-- What a scan has executed is below the mark that it stores. -/
theorem OnceInv.lt_next (h : OnceInv s) (hscan : s.scan = some sc) :
    ∀ e ∈ s.executed, e.1 < sc.nextMinAccept := by
  intro e he
  rcases h.scanning sc hscan e he with hlt | ⟨n, hn, hid⟩
  · exact hlt.trans_le (h.scanInv.raised sc hscan)
  · exact h.scanInv.below sc hscan n hn _ hid

theorem OnceInv.create (h : OnceInv s) {name : Text} (hinv : ScanInv (s.create name))
    (hnew : ∀ c, caseId name = some c → ∀ f ∈ s.files, caseId f.name ≠ some c) :
    OnceInv (s.create name) := by
  refine ⟨hinv, fun f hf g hg c hfc hgc => ?_, h.idle, h.scanning, h.nodup⟩
  rcases List.mem_append.mp hf with hf | hf
  · rcases List.mem_append.mp hg with hg | hg
    · exact h.distinct f hf g hg c hfc hgc
    · rw [List.mem_singleton.mp hg] at hgc
      exact absurd hfc (hnew c hgc f hf)
  · rw [List.mem_singleton.mp hf] at hfc
    rcases List.mem_append.mp hg with hg | hg
    · exact absurd hgc (hnew c hfc g hg)
    · rw [List.mem_singleton.mp hf, List.mem_singleton.mp hg]

theorem OnceInv.write (h : OnceInv s) {name : Text} {content : List U8}
    (hinv : ScanInv (s.write name content)) : OnceInv (s.write name content) := by
  refine ⟨hinv, fun f hf g hg c hfc hgc => hinv.unique f hf g hg ?_, h.idle, h.scanning, h.nodup⟩
  obtain ⟨f', hf', hfname⟩ := exists_name_write.mp ⟨f, hf, rfl⟩
  obtain ⟨g', hg', hgname⟩ := exists_name_write.mp ⟨g, hg, rfl⟩
  rw [← hfname] at hfc ⊢
  rw [← hgname] at hgc ⊢
  rw [h.distinct f' hf' g' hg' c hfc hgc]

theorem OnceInv.beginScan (h : OnceInv s) (hidle : s.scan = none) (hinv : ScanInv s.beginScan) :
    OnceInv s.beginScan := by
  refine ⟨hinv, h.distinct, fun hnone => (by cases hnone), fun sc hsc e he => ?_, h.nodup⟩
  cases hsc
  exact Or.inl (h.idle hidle e he)

/-- A file that is returned now has an id that was not executed before. -/
theorem OnceInv.fresh (h : OnceInv s) {f : PeerFile} {c : Nat} (hscan : s.scan = some sc)
    (hf : f ∈ s.files) (hnew : f.name ∉ sc.returned) (hid : caseId f.name = some c)
    (hle : sc.minAccept ≤ c) :
    c ∉ s.executed.map Prod.fst := by
  intro hmem
  obtain ⟨e, he, rfl⟩ := List.mem_map.mp hmem
  rcases h.scanning sc hscan e he with hlt | ⟨n, hn, hn'⟩
  · exact absurd hle (Nat.not_le_of_lt hlt)
  · -- The id determines the file, and the file was returned before.
    obtain ⟨g, hg, rfl⟩ := h.scanInv.returned sc hscan n hn
    rw [h.distinct f hf g hg _ hid hn'] at hnew
    exact hnew hn

theorem OnceInv.visit (h : OnceInv s) {f : PeerFile} (hscan : s.scan = some sc) (hf : f ∈ s.files)
    (hnew : f.name ∉ sc.returned) (hinv : ScanInv (s.visit sc f)) :
    OnceInv (s.visit sc f) := by
  have hkeep : ∀ e ∈ s.executed, e.1 < sc.minAccept ∨
      ∃ n ∈ f.name :: sc.returned, caseId n = some e.1 := by
    intro e he
    rcases h.scanning sc hscan e he with hlt | ⟨n, hn, hn'⟩
    · exact Or.inl hlt
    · exact Or.inr ⟨n, List.mem_cons_of_mem _ hn, hn'⟩
  rcases visit_cases s sc f with ⟨sc', heq, _, hsc'⟩ | ⟨c, sc', hacc, heq, hsc'⟩
  · rw [heq] at hinv ⊢
    refine ⟨hinv, h.distinct, fun hnone => (by cases hnone), fun t ht => ?_, h.nodup⟩
    cases ht
    subst hsc'
    exact hkeep
  · rw [heq] at hinv ⊢
    obtain ⟨hid, hle⟩ := accepted_eq_some_iff.mp hacc
    refine ⟨hinv, h.distinct, fun hnone => (by cases hnone), fun t ht e he => ?_, ?_⟩
    · cases ht
      subst hsc'
      dsimp only at he
      split at he
      · rcases List.mem_append.mp he with he | he
        · exact hkeep e he
        · rw [List.mem_singleton.mp he]
          exact Or.inr ⟨f.name, List.mem_cons_self, hid⟩
      · exact hkeep e he
    · dsimp only
      split
      · -- One more id, which `fresh` says is new.
        rw [List.map_append, List.perm_append_comm.nodup_iff]
        exact List.nodup_cons.mpr ⟨h.fresh hscan hf hnew hid hle, h.nodup⟩
      · exact h.nodup

theorem OnceInv.finish (h : OnceInv s) (hscan : s.scan = some sc) (hinv : ScanInv (s.finish sc)) :
    OnceInv (s.finish sc) :=
  ⟨hinv, h.distinct, fun _ => h.lt_next hscan, fun t ht => (by cases ht), h.nodup⟩

theorem OnceInv.step (h : OnceInv s) (act : SyncAct) (hen : act.Enabled DistinctIds s) :
    OnceInv (act.apply s) := by
  have hinv := h.scanInv.step (fun name hname c hc => (hname c hc).1) act hen
  cases act with
  | create name => exact h.create hinv fun c hc => (hen.1 c hc).2
  | write name content => exact h.write hinv
  | beginScan => exact h.beginScan hen hinv
  | visit sc f => exact h.visit hen.1 hen.2.1 hen.2.2 hinv
  | finish sc => exact h.finish hen.1 hinv

/-- Only the end of a scan stores a mark, and it is not below the old one. -/
theorem mark_le_apply (h : ScanInv s) {MayCreate : SyncState → Text → Prop} (act : SyncAct)
    (hen : act.Enabled MayCreate s) : s.mark ≤ (act.apply s).mark := by
  cases act with
  | create name => exact Nat.le_refl _
  | write name content => exact Nat.le_refl _
  | beginScan => exact Nat.le_refl _
  | visit sc f =>
    show s.mark ≤ (s.visit sc f).mark
    rcases visit_cases s sc f with ⟨sc', heq, _⟩ | ⟨c, sc', _, heq, _⟩
    · rw [heq]
      exact Nat.le_refl _
    · rw [heq]
      exact Nat.le_refl _
  | finish sc =>
    rw [← h.start sc hen.1]
    exact h.raised sc hen.1

/-- Over a directory that grows by names with distinct ids below a million, in any order, and with
any `readdir` order in every scan: the stored mark never decreases, and no id is executed twice. -/
theorem sync_once (h : Reachable (· = {}) (SyncStep DistinctIds) s) :
    (s.executed.map Prod.fst).Nodup ∧ ∀ s', SyncStep DistinctIds s s' → s.mark ≤ s'.mark := by
  have hinv : OnceInv s := by
    refine h.invariant (fun t ht => ht ▸ OnceInv.init) fun t t' ht hstep => ?_
    obtain ⟨act, hen, rfl⟩ := hstep
    exact ht.step act hen
  -- The mark is compared for one more step of the run.
  refine ⟨hinv.nodup, fun s' hstep => ?_⟩
  obtain ⟨act, hen, rfl⟩ := hstep
  exact mark_le_apply hinv.scanInv act hen

end Once

/-- The condition on a step: `readdir` returns no new file before the peer has written it, and no
file with an id that the stored mark will cover is left behind at the end of a scan. -/
def SafeAct (s : SyncState) : SyncAct → Prop
  | .visit sc f => ∀ c, caseId f.name = some c → sc.minAccept ≤ c → f.complete = true
  | .finish sc => ∀ f ∈ s.files, ∀ c, caseId f.name = some c → sc.minAccept ≤ c →
      c < sc.nextMinAccept → f.name ∈ sc.returned
  | _ => True

/-- The files of the first two queue entries of a peer. -/
def firstFile (content : List U8) (complete : Bool) : PeerFile := ⟨caseName 0 [], content, complete⟩

@[inherit_doc firstFile] def secondFile (content : List U8) (complete : Bool) : PeerFile :=
  ⟨caseName 1 [], content, complete⟩

/-- The peer has written its first file, and a scan has executed it. -/
def scannedFirst : SyncState where
  files := [firstFile [1] true]
  synced := some 1
  executed := [(0, [1])]

/-- A scan of both files that returns the second one first. It passes over the first one. -/
def secondScan : Scan :=
  ⟨1, 2, [caseName 0 [], caseName 1 []], [caseName 0 [], caseName 1 []],
    [firstFile [1] true, secondFile [2, 3] true]⟩

@[inherit_doc secondScan] def scannedSecond : SyncState where
  files := [firstFile [1] true, secondFile [2, 3] true]
  synced := some 1
  scan := some secondScan
  executed := [(0, [1]), (1, [2, 3])]

theorem reachable_scannedSecond {MayCreate : SyncState → Text → Prop}
    {Step : SyncState → SyncState → Prop}
    (hstep : ∀ {s s'} act, act.Enabled MayCreate s → SafeAct s act → act.apply s = s' → Step s s')
    (hfirst : MayCreate {} (caseName 0 [])) (hsecond : MayCreate scannedFirst (caseName 1 [])) :
    Reachable (· = {}) Step scannedSecond := by
  have h₁ : Reachable (· = {}) Step { files := [firstFile [1] true] } :=
    .step (.step (.init rfl) (hstep (.create _) ⟨hfirst, by simp⟩ trivial rfl))
      (hstep (.write (caseName 0 []) [1]) ⟨_, List.mem_cons_self, rfl, rfl⟩ trivial (by decide))
  have h₂ : Reachable (· = {}) Step
      { files := [firstFile [1] true], executed := [(0, [1])]
        scan := some ⟨0, 1, [caseName 0 []], [caseName 0 []], [firstFile [1] true]⟩ } :=
    .step (.step h₁ (hstep .beginScan rfl trivial rfl)) (hstep (.visit _ (firstFile [1] true))
      ⟨rfl, List.mem_cons_self, List.not_mem_nil⟩ (fun _ _ _ => rfl) (by decide +kernel))
  have h₃ : Reachable (· = {}) Step scannedFirst := by
    refine .step h₂ (hstep (.finish _) ⟨rfl, fun _ h => h⟩ (fun f hf _ _ _ _ => ?_) rfl)
    rw [List.mem_singleton.mp hf]
    exact List.mem_cons_self
  have h₄ : Reachable (· = {}) Step
      { scannedFirst with files := [firstFile [1] true, secondFile [2, 3] true] } :=
    .step (.step h₃ (hstep (.create _) ⟨hsecond, by decide⟩ trivial rfl))
      (hstep (.write (caseName 1 []) [2, 3]) ⟨_, List.mem_cons_of_mem _ List.mem_cons_self, rfl,
        rfl⟩ trivial (by decide))
  refine .step (.step (.step h₄ (hstep .beginScan rfl trivial rfl))
    (hstep (.visit _ (secondFile [2, 3] true)) ⟨rfl, List.mem_cons_of_mem _ List.mem_cons_self,
      List.not_mem_nil⟩ (fun _ _ _ => rfl) rfl))
    (hstep (.visit _ (firstFile [1] true)) ⟨rfl, List.mem_cons_self, ?_⟩ (fun _ _ _ => rfl) ?_)
  all_goals decide +kernel

/-- Two files that are written and scanned. -/
theorem sync_once_scannedSecond :
    (scannedSecond.executed.map Prod.fst).Nodup ∧
      ∀ s', SyncStep DistinctIds scannedSecond s' → scannedSecond.mark ≤ s'.mark := by
  refine sync_once (reachable_scannedSecond (fun act hen _ hs => ⟨act, hen, hs⟩) ?_ ?_) <;>
    intro c hc
  · rw [caseId_caseName (by decide)] at hc
    cases hc
    exact ⟨by decide, by simp⟩
  · rw [caseId_caseName (by decide)] at hc
    cases hc
    exact ⟨by decide, by decide +kernel⟩

/-! ### Every complete test case is executed -/

/-- A step that meets the condition, next to a peer fuzzer. -/
def SafeSyncStep (s s' : SyncState) : Prop :=
  ∃ act : SyncAct, act.Enabled PeerCreates s ∧ SafeAct s act ∧ act.apply s = s'

/-- The file is complete, and executed if it is runnable. -/
def Done (s : SyncState) (f : PeerFile) (id : Nat) : Prop :=
  f.complete = true ∧ (runnable f.content = true → (id, f.content) ∈ s.executed)

theorem Done.mono {s : SyncState} {f : PeerFile} {id : Nat} (h : Done s f id) (act : SyncAct) :
    Done (act.apply s) f id :=
  ⟨h.1, fun hrun => executed_mono s act _ (h.2 hrun)⟩

/-- `f` is the file of a queue entry that the mark can cover. -/
def IsCase (f : PeerFile) (id : Nat) : Prop := id < 10 ^ 6 ∧ ∃ op, f.name = caseName id op

theorem IsCase.caseId {f : PeerFile} {id : Nat} (h : IsCase f id) : caseId f.name = some id := by
  obtain ⟨hid, op, hname⟩ := h
  rw [hname]
  exact caseId_caseName hid op

/-- The mark `n` is covered by a file: it is at most one above its id. -/
def MarkCovered (s : SyncState) (n : Nat) : Prop :=
  n = 0 ∨ ∃ f ∈ s.files, ∃ c, caseId f.name = some c ∧ n ≤ c + 1

/-- What holds in every run of safe steps. -/
structure DoneInv (s : SyncState) : Prop where
  scanInv : ScanInv s
  /-- All test cases below the stored mark are done. -/
  seen : ∀ f ∈ s.files, ∀ id, IsCase f id → id < s.mark → Done s f id
  /-- So are those that the scan has returned. -/
  scanned : ∀ sc, s.scan = some sc → ∀ f ∈ s.files, f.name ∈ sc.returned → ∀ id, IsCase f id →
    Done s f id
  due : ∀ sc, s.scan = some sc → ∀ f ∈ sc.due, f ∈ s.files ∧ f.complete = true ∧ f.name ∈ sc.listed
  covered : MarkCovered s s.mark
  next_covered : ∀ sc, s.scan = some sc → MarkCovered s sc.nextMinAccept

theorem DoneInv.init : DoneInv {} where
  scanInv := ScanInv.init
  seen _ hf := absurd hf List.not_mem_nil
  scanned _ hsc := by cases hsc
  due _ hsc := by cases hsc
  covered := Or.inl rfl
  next_covered _ hsc := by cases hsc

section Complete
variable {s : SyncState} {name : Text}

/-- Names only come. -/
theorem MarkCovered.mono {s' : SyncState} {n : Nat} (h : MarkCovered s n)
    (hnames : ∀ f ∈ s.files, ∃ g ∈ s'.files, g.name = f.name) : MarkCovered s' n := by
  rcases h with hzero | ⟨f, hf, c, hc, hle⟩
  · exact Or.inl hzero
  · obtain ⟨g, hg, hname⟩ := hnames f hf
    exact Or.inr ⟨g, hg, c, by rw [hname, hc], hle⟩

/-- A new test case is not below the mark, since its id is above all others. -/
theorem DoneInv.mark_le (h : DoneInv s) (hcreate : PeerCreates s name) {id : Nat}
    {content : List U8} {complete : Bool} (hcase : IsCase ⟨name, content, complete⟩ id) :
    s.mark ≤ id := by
  obtain ⟨_, id₀, op₀, rfl, habove⟩ := hcreate
  obtain ⟨_, op, hname⟩ := hcase
  have heq : id₀ = id := caseName_inj hname
  rcases h.covered with hzero | ⟨f, hf, c, hc, hle⟩
  · rw [hzero]
    exact Nat.zero_le id
  · obtain ⟨id', op', hname', hlt⟩ := habove f hf
    rw [hname'] at hc
    have hc' := (caseId_caseName_le hc).1
    omega

theorem DoneInv.create (h : DoneInv s) (hinv : ScanInv (s.create name))
    (hcreate : PeerCreates s name) (hfresh : ∀ f ∈ s.files, f.name ≠ name) :
    DoneInv (s.create name) := by
  have hnames : ∀ f ∈ s.files, ∃ g ∈ (s.create name).files, g.name = f.name :=
    fun f hf => ⟨f, List.mem_append_left _ hf, rfl⟩
  refine ⟨hinv, fun f hf id hcase hlt => ?_, fun sc hsc f hf hret id hcase => ?_,
    fun sc hsc f hf => ?_, h.covered.mono hnames, fun sc hsc => (h.next_covered sc hsc).mono hnames⟩
  · rcases List.mem_append.mp hf with hf | hf
    · exact h.seen f hf id hcase hlt
    · rw [List.mem_singleton.mp hf] at hcase
      exact absurd hlt (Nat.not_lt_of_le (h.mark_le hcreate hcase))
  · rcases List.mem_append.mp hf with hf | hf
    · exact h.scanned sc hsc f hf hret id hcase
    · -- The scan can not have returned the new name.
      rw [List.mem_singleton.mp hf] at hret
      obtain ⟨g, hg, hname⟩ := h.scanInv.returned sc hsc _ hret
      exact absurd hname (hfresh g hg)
  · obtain ⟨hmem, hrest⟩ := h.due sc hsc f hf
    exact ⟨List.mem_append_left _ hmem, hrest⟩

/-- A file that is done is complete already, so a write does not change it. -/
theorem done_write {content : List U8} {g : PeerFile} {id : Nat} {P : PeerFile → Prop}
    (hP : ∀ f : PeerFile, P f ↔ P { f with content, complete := true })
    (hdone : ∀ f ∈ s.files, P f → IsCase f id → Done s f id) (hg : g ∈ (s.write name content).files)
    (hPg : P g) (hcase : IsCase g id) :
    Done (s.write name content) g id := by
  rcases mem_write hg with hold | ⟨f, hf, hopen, rfl⟩
  · exact (hdone g hold hPg hcase).mono (.write name content)
  · have hcomplete := (hdone f hf ((hP f).mpr hPg) hcase).1
    rw [hopen] at hcomplete
    cases hcomplete

theorem DoneInv.write (h : DoneInv s) {content : List U8} (hinv : ScanInv (s.write name content)) :
    DoneInv (s.write name content) := by
  have hnames : ∀ f ∈ s.files, ∃ g ∈ (s.write name content).files, g.name = f.name :=
    fun f hf => exists_name_write.mpr ⟨f, hf, rfl⟩
  refine ⟨hinv, fun g hg id hcase hlt => ?_, fun sc hsc g hg hret id hcase => ?_,
    fun sc hsc f hf => ?_, h.covered.mono hnames, fun sc hsc => (h.next_covered sc hsc).mono hnames⟩
  · exact done_write (P := fun _ => True) (fun _ => Iff.rfl)
      (fun f hf _ hc => h.seen f hf id hc hlt) hg trivial hcase
  · exact done_write (P := fun f => f.name ∈ sc.returned) (fun _ => Iff.rfl)
      (fun f hf hret hc => h.scanned sc hsc f hf hret id hc) hg hret hcase
  · obtain ⟨hmem, hcomplete, hlisted⟩ := h.due sc hsc f hf
    refine ⟨List.mem_map.mpr ⟨f, hmem, ?_⟩, hcomplete, hlisted⟩
    rw [hcomplete, Bool.not_true, Bool.and_false]
    rfl

theorem DoneInv.beginScan (h : DoneInv s) (hinv : ScanInv s.beginScan) : DoneInv s.beginScan := by
  refine ⟨hinv, h.seen, fun sc hsc f hf hret => ?_, fun sc hsc f hf => ?_, h.covered,
    fun sc hsc => ?_⟩
  · cases hsc
    cases hret
  · cases hsc
    obtain ⟨hmem, hcomplete⟩ := List.mem_filter.mp hf
    exact ⟨hmem, hcomplete, List.mem_map_of_mem hmem⟩
  · cases hsc
    exact h.covered

theorem DoneInv.visit (h : DoneInv s) {sc : Scan} {f : PeerFile} (hscan : s.scan = some sc)
    (hf : f ∈ s.files) (hsafe : SafeAct s (.visit sc f)) (hinv : ScanInv (s.visit sc f)) :
    DoneInv (s.visit sc f) := by
  have hmono : ∀ g id, Done s g id → Done (s.visit sc f) g id :=
    fun g id hg => hg.mono (.visit sc f)
  -- The file that is returned is executed, or was so before.
  have hself : ∀ id, IsCase f id → Done (s.visit sc f) f id := by
    intro id hcase
    rcases visit_cases s sc f with ⟨sc', heq, hskip, _⟩ | ⟨c, sc', hacc, heq, _⟩
    · -- A test case that is skipped is below the stored mark, so it is done.
      refine hmono f id (h.seen f hf id hcase ?_)
      rw [← h.scanInv.start sc hscan]
      by_contra hle
      rw [accepted_eq_some_iff.mpr ⟨hcase.caseId, Nat.le_of_not_lt hle⟩] at hskip
      cases hskip
    · obtain ⟨hid, hle⟩ := accepted_eq_some_iff.mp hacc
      rw [hcase.caseId] at hid
      cases hid
      -- The condition: the file is complete when `readdir` returns it.
      refine ⟨hsafe id hcase.caseId hle, fun hrun => ?_⟩
      rw [heq]
      dsimp only
      rw [if_pos hrun]
      exact List.mem_append_right _ List.mem_cons_self
  have hscanned : ∀ g ∈ s.files, g.name ∈ f.name :: sc.returned → ∀ id, IsCase g id →
      Done (s.visit sc f) g id := by
    intro g hg hret id hcase
    rcases List.mem_cons.mp hret with hname | hret
    · rw [h.scanInv.unique g hg f hf hname] at hcase ⊢
      exact hself id hcase
    · exact hmono g id (h.scanned sc hscan g hg hret id hcase)
  have hseen : ∀ g ∈ s.files, ∀ id, IsCase g id → id < s.mark → Done (s.visit sc f) g id :=
    fun g hg id hcase hlt => hmono g id (h.seen g hg id hcase hlt)
  rcases visit_cases s sc f with ⟨sc', heq, _, hsc'⟩ | ⟨c, sc', hacc, heq, hsc'⟩
  · rw [heq] at hinv hscanned hseen ⊢
    refine ⟨hinv, hseen, fun t ht => ?_, fun t ht => ?_, h.covered, fun t ht => ?_⟩
    all_goals cases ht; subst hsc'
    · exact hscanned
    · exact h.due sc hscan
    · exact h.next_covered sc hscan
  · rw [heq] at hinv hscanned hseen ⊢
    refine ⟨hinv, hseen, fun t ht => ?_, fun t ht => ?_, h.covered, fun t ht => ?_⟩
    all_goals cases ht; subst hsc'
    · exact hscanned
    · exact h.due sc hscan
    · obtain ⟨hid, _⟩ := accepted_eq_some_iff.mp hacc
      dsimp only
      split
      · exact Or.inr ⟨f, hf, c, hid, Nat.mod_le _ _⟩
      · exact h.next_covered sc hscan

theorem DoneInv.finish (h : DoneInv s) {sc : Scan} (hscan : s.scan = some sc)
    (hsafe : SafeAct s (.finish sc)) (hinv : ScanInv (s.finish sc)) : DoneInv (s.finish sc) := by
  refine ⟨hinv, fun f hf id hcase hlt => ?_, fun t ht => (by cases ht), fun t ht => (by cases ht),
    h.next_covered sc hscan, fun t ht => (by cases ht)⟩
  -- Below the old mark nothing changes; from there on the scan has returned everything.
  by_cases hold : id < s.mark
  · exact h.seen f hf id hcase hold
  · rw [← h.scanInv.start sc hscan] at hold
    have hret := hsafe f hf id hcase.caseId (Nat.le_of_not_lt hold) hlt
    exact h.scanned sc hscan f hf hret id hcase

theorem DoneInv.step (h : DoneInv s) (act : SyncAct) (hen : act.Enabled PeerCreates s)
    (hsafe : SafeAct s act) : DoneInv (act.apply s) := by
  have hsmall : ∀ name, PeerCreates s name → ∀ c, caseId name = some c → c < 10 ^ 6 := by
    rintro name ⟨_, id, op, rfl, _⟩ c hc
    exact (caseId_caseName_le hc).2
  have hinv := h.scanInv.step hsmall act hen
  cases act with
  | create name => exact h.create hinv hen.1 hen.2
  | write name content => exact h.write hinv
  | beginScan => exact h.beginScan hinv
  | visit sc f => exact h.visit hen.1 hen.2.1 hsafe hinv
  | finish sc => exact h.finish hen.1 hsafe hinv

/-- In every run of safe steps: when a scan ends, every test case that was complete when the scan
began has been executed with its full content. -/
theorem sync_complete (h : Reachable (· = {}) SafeSyncStep s) {sc : Scan}
    (hend : (SyncAct.finish sc).Enabled PeerCreates s) {f : PeerFile} (hdue : f ∈ sc.due)
    {id : Nat} {op : Text} (hname : f.name = caseName id op) (hid : id < 10 ^ 6)
    (hrun : runnable f.content = true) : (id, f.content) ∈ (s.finish sc).executed := by
  have hinv : DoneInv s := by
    refine h.invariant (fun t ht => ht ▸ DoneInv.init) fun t t' ht hstep => ?_
    obtain ⟨act, hen, hsafe, rfl⟩ := hstep
    exact ht.step act hen hsafe
  obtain ⟨hscan, hall⟩ := hend
  -- What was complete at `opendir` was listed there, so the scan has returned it.
  obtain ⟨hmem, _, hlisted⟩ := hinv.due sc hscan f hdue
  exact (hinv.scanned sc hscan f hmem (hall _ hlisted) id ⟨hid, op, hname⟩).2 hrun

end Complete

/-- The same run next to a peer fuzzer: the files are complete when a scan returns them. -/
theorem sync_complete_scannedSecond :
    ((0, [1]) : Nat × List U8) ∈ (scannedSecond.finish secondScan).executed ∧
      ((1, [2, 3]) : Nat × List U8) ∈ (scannedSecond.finish secondScan).executed := by
  have hrun : Reachable (· = {}) SafeSyncStep scannedSecond := by
    refine reachable_scannedSecond (fun act hen hsafe hs => ⟨act, hen, hsafe, hs⟩)
      ⟨by simp, 0, [], rfl, by simp⟩ ⟨by decide, 1, [], rfl, fun f hf => ⟨0, [], ?_, by decide⟩⟩
    rw [List.mem_singleton.mp hf]
    rfl
  have hend : (SyncAct.finish secondScan).Enabled PeerCreates scannedSecond :=
    ⟨rfl, fun _ h => h⟩
  exact ⟨sync_complete hrun hend (f := firstFile [1] true) (by decide) rfl (by decide) (by decide),
    sync_complete hrun hend (f := secondFile [2, 3] true) (by decide) rfl (by decide) (by decide)⟩

/-- The first scan has returned the first file of the peer when it was still empty. The peer has
written it since, and a second scan has skipped it. -/
def skippedFirst : SyncState where
  files := [firstFile [1] true]
  synced := some 1
  scan := some ⟨1, 1, [caseName 0 []], [caseName 0 []], [firstFile [1] true]⟩

theorem reachable_skippedFirst : Reachable (· = {}) (SyncStep PeerCreates) skippedFirst := by
  have h₁ : Reachable (· = {}) (SyncStep PeerCreates) { files := [firstFile [] false] } :=
    .step (.init rfl) ⟨.create (caseName 0 []),
      ⟨⟨fun f hf => absurd hf List.not_mem_nil, 0, [], rfl,
        fun f hf => absurd hf List.not_mem_nil⟩, fun f hf => absurd hf List.not_mem_nil⟩, rfl⟩
  have h₂ : Reachable (· = {}) (SyncStep PeerCreates)
      { files := [firstFile [] false], scan := some ⟨0, 0, [], [caseName 0 []], []⟩ } :=
    .step h₁ ⟨.beginScan, rfl, rfl⟩
  -- The mark is raised although nothing is executed.
  have h₃ : Reachable (· = {}) (SyncStep PeerCreates)
      { files := [firstFile [] false]
        scan := some ⟨0, 1, [caseName 0 []], [caseName 0 []], []⟩ } :=
    .step h₂ ⟨.visit _ (firstFile [] false), ⟨rfl, List.mem_cons_self, List.not_mem_nil⟩,
      by decide +kernel⟩
  have h₄ : Reachable (· = {}) (SyncStep PeerCreates)
      { files := [firstFile [] false], synced := some 1 } :=
    .step h₃ ⟨.finish _, ⟨rfl, fun name hname => hname⟩, rfl⟩
  have h₅ : Reachable (· = {}) (SyncStep PeerCreates)
      { files := [firstFile [1] true], synced := some 1 } :=
    .step h₄ ⟨.write (caseName 0 []) [1], ⟨_, List.mem_cons_self, rfl, rfl⟩, by decide⟩
  have h₆ : Reachable (· = {}) (SyncStep PeerCreates)
      { files := [firstFile [1] true], synced := some 1
        scan := some ⟨1, 1, [], [caseName 0 []], [firstFile [1] true]⟩ } :=
    .step h₅ ⟨.beginScan, rfl, rfl⟩
  exact .step h₆ ⟨.visit _ (firstFile [1] true), ⟨rfl, List.mem_cons_self, List.not_mem_nil⟩,
    by decide +kernel⟩

/-- Not every run executes every test case: one that was returned before it was written is never
executed. -/
theorem sync_incomplete :
    ¬ ∀ (s : SyncState) (sc : Scan) (f : PeerFile) (id : Nat) (op : Text),
      Reachable (· = {}) (SyncStep PeerCreates) s → (SyncAct.finish sc).Enabled PeerCreates s →
        f ∈ sc.due → f.name = caseName id op → id < 10 ^ 6 → runnable f.content = true →
          (id, f.content) ∈ (s.finish sc).executed := by
  intro hall
  have hmem := hall skippedFirst _ (firstFile [1] true) 0 [] reachable_skippedFirst
    ⟨rfl, fun name hname => hname⟩ List.mem_cons_self rfl (by decide) (by decide)
  cases hmem

end TriforceAFL.Proofs
