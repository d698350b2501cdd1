import TriforceAFL.Proofs.AutoTable

/-!
# `TriforceAFL.Proofs.AutoSave`: the detected tokens of an earlier session

`save_auto` writes the tokens in use, one per file, and `load_auto` hands the files to
`maybe_add_auto` one by one. A token that has made it into the table passes every filter again, and
it is no duplicate of another one, so each file adds its token (`loadAutoFrom_tokens`). The table
never gets shorter, so no file is left behind the last one from an earlier save (`SavedOk`).
-/

set_option autoImplicit false

namespace TriforceAFL.Proofs

open Lib Spec

/-! ### `save_auto` -/

theorem savedFileName_inj {outDir : Text} {i j : Nat}
    (h : savedFileName outDir i = savedFileName outDir j) : i = j := by
  have hpad : padDec 6 i = padDec 6 j := List.append_cancel_left h
  rw [← ofDigitChars_padDec 6 i, hpad, ofDigitChars_padDec]

/-- A later session finds the files below the old output directory. -/
theorem autoFileName_queue (outDir : Text) (i : Nat) :
    autoFileName (outDir ++ "/queue".toList) i = savedFileName outDir i := by
  unfold autoFileName savedFileName
  rw [List.append_assoc outDir]
  rfl

section Save
variable {outDir : Text} {outcome : Text → SaveOutcome}

/-- One turn of the loop writes one file. -/
theorem saveToken_ok {files files' : SavedFiles} {token : List U8} {i : Nat}
    (h : saveToken outDir outcome files (token, i) = .ok files') :
    files' (savedFileName outDir i) = some token ∧
      ∀ name, name ≠ savedFileName outDir i → files' name = files name := by
  unfold saveToken at h
  dsimp only at h
  split at h
  · cases h
  · cases h
  · cases h
    exact ⟨if_pos rfl, fun name hne => if_neg hne⟩

/-- The loop, from file `k` on. -/
theorem saveTokens_ok (tokens : List (List U8)) :
    ∀ (k : Nat) (files files' : SavedFiles),
      (tokens.zipIdx k).foldlM (saveToken outDir outcome) files = .ok files' →
      (∀ i token, tokens[i]? = some token → files' (savedFileName outDir (k + i)) = some token) ∧
        ∀ name, (∀ i < tokens.length, name ≠ savedFileName outDir (k + i)) →
          files' name = files name := by
  induction tokens with
  | nil =>
    intro k files files' h
    cases h
    exact ⟨fun i token hi => absurd hi (by simp), fun _ _ => rfl⟩
  | cons token tokens ih =>
    intro k files files' h
    rw [List.zipIdx_cons, List.foldlM_cons] at h
    cases hone : saveToken outDir outcome files (token, k) with
    | error e =>
      rw [hone] at h
      cases h
    | ok files₁ =>
      rw [hone] at h
      obtain ⟨hsaved, hkept⟩ := saveToken_ok hone
      obtain ⟨hrest, hother⟩ := ih (k + 1) files₁ files' h
      refine ⟨?_, ?_⟩
      · intro i t hi
        cases i with
        | zero =>
          -- The later turns write other files.
          cases hi
          rw [Nat.add_zero, hother _ fun j _ hname => ?_, hsaved]
          have := savedFileName_inj hname
          omega
        | succ i =>
          rw [Nat.add_comm i 1, ← Nat.add_assoc]
          exact hrest i t hi
      · intro name hname
        rw [hother name ?_, hkept name ?_]
        · exact hname 0 (Nat.zero_lt_succ _)
        · intro j hj
          rw [Nat.add_assoc, Nat.add_comm 1 j]
          exact hname (j + 1) (Nat.succ_lt_succ hj)

/-- What `save_auto` leaves on the disk when it writes. -/
theorem saveAuto_ok {d d' : Dictionary} {files files' : SavedFiles}
    (hchanged : d.autoChanged = true)
    (h : saveAuto outDir outcome d files = .ok (d', files')) :
    (∀ i token, (dataOf (d.aExtras.take USE_AUTO_EXTRAS))[i]? = some token →
        files' (savedFileName outDir i) = some token) ∧
      ∀ i, (d.aExtras.take USE_AUTO_EXTRAS).length ≤ i →
        files' (savedFileName outDir i) = files (savedFileName outDir i) := by
  unfold saveAuto at h
  rw [hchanged] at h
  have hrun : ((dataOf (d.aExtras.take USE_AUTO_EXTRAS)).zipIdx.foldlM (saveToken outDir outcome)
      files >>= fun files => .ok ({ d with autoChanged := false }, files)) = .ok (d', files') := h
  cases hloop : (dataOf (d.aExtras.take USE_AUTO_EXTRAS)).zipIdx.foldlM (saveToken outDir outcome)
      files with
  | error e =>
    rw [hloop] at hrun
    cases hrun
  | ok files₁ =>
    rw [hloop] at hrun
    cases hrun
    obtain ⟨hsaved, hother⟩ := saveTokens_ok _ 0 files files' hloop
    refine ⟨?_, ?_⟩
    · intro i token hi
      rw [← hsaved i token hi, Nat.zero_add]
    · intro i hi
      refine hother _ ?_
      intro j hj hname
      rw [length_dataOf] at hj
      have := savedFileName_inj hname
      omega

end Save

/-! ### `load_auto` -/

section Load
variable (env : DictEnv) {d : Dictionary} {mem : List U8}

/-- A token that passes the filters and matches no other one is added. -/
theorem maybeAddAuto_new (hextras : d.extras = []) (hmem : AdmissibleToken mem)
    (hnew : ∀ a ∈ dataOf d.aExtras, ¬ SameToken a mem) (hroom : d.aExtras.length < MAX_AUTO_EXTRAS)
    (draw : Nat) :
    (dataOf (maybeAddAuto env d mem draw).aExtras).Perm (mem :: dataOf d.aExtras) := by
  rcases maybeAddAuto_cases env d mem draw with ⟨_, hreject⟩ | ⟨_, _, hadd⟩
  · have hmatch := hreject hmem.accepted
    rw [hextras] at hmatch
    cases hmatch
  · rw [hadd]
    refine ((sortAuto_perm env _).map Extra.data).trans ?_
    rcases noteAuto_cases (Nat.le_of_lt hroom) mem draw with ⟨e, rest, hsame, hold, _⟩ |
      ⟨_, _, happend⟩ | ⟨_, hfull, _⟩
    · have he : e ∈ d.aExtras := hold.mem_iff.mpr List.mem_cons_self
      exact absurd hsame (hnew e.data (List.mem_map_of_mem he))
    · exact happend.map Extra.data
    · omega

/-- `load_auto` adds every token of a list that is closed under the filters. -/
theorem loadAutoFrom_tokens (inDir : Text) (files : Nat → AutoFile) (draws : Nat → Nat)
    (tokens : List (List U8)) :
    ∀ (turns i : Nat) (d : Dictionary), tokens.length ≤ turns → d.extras = [] →
      TokensOk (dataOf d.aExtras ++ tokens) →
      (∀ j token, tokens[j]? = some token → files (i + j) = .content token) →
      (tokens.length < turns → files (i + tokens.length) = .missing) →
      ∃ d', loadAutoFrom env inDir files draws turns i d = .ok d' ∧
        (dataOf d'.aExtras).Perm (dataOf d.aExtras ++ tokens) := by
  induction tokens with
  | nil =>
    intro turns i d _ _ _ _ hend
    refine ⟨d, ?_, by rw [List.append_nil]⟩
    cases turns with
    | zero => rfl
    | succ turns =>
      have hmissing : files i = .missing := hend (Nat.zero_lt_succ turns)
      rw [loadAutoFrom, hmissing]
  | cons token tokens ih =>
    intro turns i d hturns hextras hok hfiles hend
    obtain ⟨turns, rfl⟩ : ∃ n, turns = n + 1 := by
      cases turns with
      | zero => exact absurd hturns (Nat.not_succ_le_zero _)
      | succ n => exact ⟨n, rfl⟩
    rw [List.length_cons] at hturns hend
    have hadm : AdmissibleToken token :=
      hok.each token (List.mem_append_right _ List.mem_cons_self)
    have hsize := hok.size
    rw [List.length_append, length_dataOf, List.length_cons] at hsize
    have hnew : ∀ a ∈ dataOf d.aExtras, ¬ SameToken a token := fun a ha =>
      (List.pairwise_append.mp hok.distinct).2.2 a ha token List.mem_cons_self
    have hfile : files i = .content token := hfiles 0 token rfl
    -- The file is not longer than what is read of it.
    have hread : token.take (MAX_AUTO_EXTRA + 1) = token :=
      List.take_of_length_le (hadm.max.trans (Nat.le_succ _))
    have hperm := maybeAddAuto_new env hextras hadm hnew (by omega) (draws i)
    have happ : (dataOf (maybeAddAuto env d token (draws i)).aExtras ++ tokens).Perm
        (dataOf d.aExtras ++ token :: tokens) :=
      (hperm.append_right tokens).trans List.perm_middle.symm
    obtain ⟨d', hload, hall⟩ := ih turns (i + 1) (maybeAddAuto env d token (draws i)) (by omega)
      (by rw [extras_maybeAddAuto, hextras]) (hok.of_perm happ)
      (fun j t hj => by
        rw [Nat.add_assoc, Nat.add_comm 1 j]
        exact hfiles (j + 1) t hj)
      (fun hlt => by
        rw [Nat.add_assoc, Nat.add_comm 1]
        exact hend (Nat.succ_lt_succ hlt))
    refine ⟨d', ?_, hall.trans happ⟩
    rw [loadAutoFrom, hfile]
    dsimp only
    rw [hread, if_pos ⟨hadm.min, hadm.max⟩]
    exact hload

end Load

/-! ### Sessions -/

/-- A session, as far as its detected tokens go: the table, and the files. -/
structure TokenSession where
  block : AutoBlock
  files : SavedFiles

/-- `maybe_add_auto` is called with any tokens of an admissible length, and `save_auto` at any time.
A save that fails ends the process. -/
inductive SavedRun (debug : Bool) (outDir : Text) (files₀ : SavedFiles) : TokenSession → Prop
  | start : SavedRun debug outDir files₀ ⟨{}, files₀⟩
  | add {s : TokenSession} (c : AutoCall) : SavedRun debug outDir files₀ s →
      MIN_AUTO_EXTRA ≤ c.mem.length → c.mem.length ≤ MAX_AUTO_EXTRA →
      SavedRun debug outDir files₀
        { s with block := s.block.maybeAddAuto c.env debug c.extras c.mem c.draw }
  | save {s : TokenSession} {outcome : Text → SaveOutcome} {extras : List Extra} {d : Dictionary}
      {files : SavedFiles} : SavedRun debug outDir files₀ s →
      saveAuto outDir outcome (AutoBlock.dictionary s.block extras) s.files = .ok (d, files) →
      SavedRun debug outDir files₀ ⟨{ s.block with autoChanged := d.autoChanged }, files⟩

/-- There is no file behind the tokens in use. -/
structure SavedOk (outDir : Text) (s : TokenSession) : Prop where
  block : BlockOk s.block
  tokens : TokensOk (dataOf s.block.table)
  files : ∀ i, min USE_AUTO_EXTRAS s.block.cnt ≤ i → s.files (savedFileName outDir i) = none

section Sessions
variable {debug : Bool} {outDir : Text} {files₀ : SavedFiles} {s : TokenSession}

theorem BlockOk.length_inUse {t : AutoBlock} (h : BlockOk t) :
    (t.table.take USE_AUTO_EXTRAS).length = min USE_AUTO_EXTRAS t.cnt := by
  rw [List.length_take, h.length_table]

theorem SavedOk.save (h : SavedOk outDir s) {outcome : Text → SaveOutcome} {extras : List Extra}
    {d : Dictionary} {files : SavedFiles}
    (hsave : saveAuto outDir outcome (AutoBlock.dictionary s.block extras) s.files
      = .ok (d, files)) :
    SavedOk outDir ⟨{ s.block with autoChanged := d.autoChanged }, files⟩ := by
  refine ⟨⟨h.block.room, h.block.zeroed⟩, h.tokens, ?_⟩
  intro i hi
  cases hchanged : s.block.autoChanged with
  | true =>
    have hkept := (saveAuto_ok hchanged hsave).2 i (h.block.length_inUse.trans_le hi)
    exact hkept.trans (h.files i hi)
  | false =>
    -- Nothing has changed since the last save.
    unfold saveAuto at hsave
    have hskip : (AutoBlock.dictionary s.block extras).autoChanged = false := hchanged
    rw [hskip] at hsave
    cases hsave
    exact h.files i hi

theorem savedOk_of_run (hnone : ∀ i, files₀ (savedFileName outDir i) = none)
    (hrun : SavedRun debug outDir files₀ s) : SavedOk outDir s := by
  induction hrun with
  | start =>
    refine ⟨⟨Nat.zero_le _, ?_⟩, ⟨Nat.zero_le _, List.Pairwise.nil, ?_⟩, fun i _ => hnone i⟩ <;>
    · intro e he
      cases he
  | add c _ hmin hmax ih =>
    obtain ⟨htokens, hblock, hcnt⟩ :=
      ih.tokens.maybeAddAuto ih.block hmin hmax c.env debug c.extras c.draw
    refine ⟨hblock, htokens, ?_⟩
    intro i hi
    exact ih.files i (by dsimp only at hi; omega)
  | save _ hsave ih => exact ih.save hsave

/-- In every session that starts without files of this kind: when `save_auto` writes the table, and
`load_auto` of a later session finds the files below its input directory and starts without tokens,
it ends with exactly the tokens that were in use, each of them once. -/
theorem saved_tokens_reloaded (hnone : ∀ i, files₀ (savedFileName outDir i) = none)
    (hrun : SavedRun debug outDir files₀ s) (hchanged : s.block.autoChanged = true)
    {outcome : Text → SaveOutcome} {extras : List Extra} {d : Dictionary} {files : SavedFiles}
    (hsave : saveAuto outDir outcome (AutoBlock.dictionary s.block extras) s.files
      = .ok (d, files))
    (env : DictEnv) (inDir : Text) (found : SavedFiles)
    (hfound : ∀ i, found (autoFileName inDir i) = files (savedFileName outDir i))
    (draws : Nat → Nat) :
    ∃ d', loadAuto env inDir (autoFilesOf found inDir) draws {} = .ok d' ∧
      (d'.aExtras.map (·.data)).Perm ((s.block.table.take USE_AUTO_EXTRAS).map (·.data)) ∧
      (d'.aExtras.map (·.data)).Nodup := by
  have hok := savedOk_of_run hnone hrun
  obtain ⟨hsaved, hrest⟩ := saveAuto_ok hchanged hsave
  -- The tokens in use are closed under the filters, as the whole table is.
  have hused : TokensOk (dataOf (s.block.table.take USE_AUTO_EXTRAS)) := by
    have hsub : (dataOf (s.block.table.take USE_AUTO_EXTRAS)).Sublist (dataOf s.block.table) :=
      (List.take_sublist _ _).map _
    exact ⟨hsub.length_le.trans hok.tokens.size, hok.tokens.distinct.sublist hsub,
      fun a ha => hok.tokens.each a (hsub.subset ha)⟩
  have hlen : (dataOf (s.block.table.take USE_AUTO_EXTRAS)).length
      = min USE_AUTO_EXTRAS s.block.cnt := (length_dataOf _).trans hok.block.length_inUse
  obtain ⟨d', hload, hperm⟩ := loadAutoFrom_tokens env inDir (autoFilesOf found inDir) draws
    (dataOf (s.block.table.take USE_AUTO_EXTRAS)) USE_AUTO_EXTRAS 0 {} (by omega) rfl hused
    (fun j token hj => by
      unfold autoFilesOf
      rw [Nat.zero_add, hfound, hsaved j token hj])
    (fun _ => by
      have hmissing : files (savedFileName outDir
          (dataOf (s.block.table.take USE_AUTO_EXTRAS)).length) = none :=
        (hrest _ (length_dataOf _).ge).trans (hok.files _ hlen.ge)
      unfold autoFilesOf
      rw [Nat.zero_add, hfound, hmissing])
  refine ⟨d', hload, hperm, ?_⟩
  refine hperm.nodup_iff.mpr (hused.distinct.imp ?_)
  intro a b hne heq
  exact hne (congrArg (List.map tolower) heq)

end Sessions

/-- The files of a session that has saved one token. -/
def abcSaved : SavedFiles := fun name =>
  if name = savedFileName "out".toList 0 then some (bytesOf "abc") else none

theorem saved_tokens_reloaded_abc :
    ∃ d', loadAuto byHitsEnv "out/queue".toList (autoFilesOf abcSaved "out/queue".toList)
        (fun _ => 0) {} = .ok d' ∧
      (d'.aExtras.map (·.data)).Perm [bytesOf "abc"] ∧ (d'.aExtras.map (·.data)).Nodup := by
  have hrun : SavedRun false "out".toList (fun _ => none)
      ⟨AutoBlock.maybeAddAuto byHitsEnv false [] {} (bytesOf "abc") 0, fun _ => none⟩ :=
    .add (tokenCall "abc") .start (by decide) (by decide)
  have hsave : saveAuto "out".toList (fun _ => .saved) (AutoBlock.dictionary
      (AutoBlock.maybeAddAuto byHitsEnv false [] {} (bytesOf "abc") 0) []) (fun _ => none)
      = .ok ({ aExtras := [{ data := bytesOf "abc", hitCnt := 0 }] }, abcSaved) := rfl
  exact saved_tokens_reloaded (fun _ => rfl) hrun (by decide) hsave byHitsEnv
    "out/queue".toList abcSaved (fun i => congrArg abcSaved (autoFileName_queue "out".toList i))
    fun _ => 0

end TriforceAFL.Proofs
