import TriforceAFL.Lib.Reachable
import TriforceAFL.Spec.Resume

/-!
# `TriforceAFL.Proofs.Resume`: aborted attempts to resume in place

An attempt works on the corpus that it trusts: that of `_resume/` if this directory exists and is
not empty, else that of `queue/` (`trusted`). All that comes before `nuke_resume_dir` leaves
`_resume/` as it is, and `nuke_resume_dir` starts when `queue/` carries the corpus again
(`resumeSession_meets`). An abort inside of `nuke_resume_dir` however can leave a part of the
corpus in `_resume/`, which the next attempt trusts. `resume_carries` states that the corpus
survives when no abort does that (`SafeAbort`), and `resume_loses` that it does not survive all
aborts.
-/

set_option autoImplicit false

namespace TriforceAFL.Proofs

open Lib Lib.Process Spec

/-! ### What a directory carries -/

/-- The directory has a test case with this name and content. -/
def HasCase (d : Option Files) (name : Text) (content : List U8) : Prop :=
  isTestCase name content = true ∧ d.bind (·.lookup name) = some content

/-- Every test case of `d` is in `d'` with its content, under a name of its own. -/
def Carries (d d' : Option Files) : Prop :=
  ∃ ρ : Text → Text,
    (∀ n₁ c₁ n₂ c₂, HasCase d n₁ c₁ → HasCase d n₂ c₂ → ρ n₁ = ρ n₂ → n₁ = n₂) ∧
      ∀ n c, HasCase d n c → HasCase d' (ρ n) c

namespace Carries

variable {d d' d'' : Option Files}

/-- Test cases that keep their names. -/
theorem of_forall (h : ∀ n c, HasCase d n c → HasCase d' n c) : Carries d d' :=
  ⟨id, fun _ _ _ _ _ _ heq => heq, h⟩

theorem refl (d : Option Files) : Carries d d := of_forall fun _ _ h => h

theorem trans (h : Carries d d') (h' : Carries d' d'') : Carries d d'' := by
  obtain ⟨ρ, hinj, hcase⟩ := h
  obtain ⟨ρ', hinj', hcase'⟩ := h'
  refine ⟨ρ' ∘ ρ, fun n₁ c₁ n₂ c₂ h₁ h₂ heq => ?_, fun n c hn => hcase' _ _ (hcase n c hn)⟩
  exact hinj n₁ c₁ n₂ c₂ h₁ h₂ (hinj' _ c₁ _ c₂ (hcase n₁ c₁ h₁) (hcase n₂ c₂ h₂) heq)

/-- What has no test cases carries nothing, so anything carries it. -/
theorem of_empty (h : Carries d d') (hempty : ∀ n c, ¬ HasCase d' n c) (d'' : Option Files) :
    Carries d d'' := by
  obtain ⟨ρ, _, hcase⟩ := h
  exact of_forall fun n c hn => absurd (hcase n c hn) (hempty _ _)

end Carries

/-! ### Frames of the file-system operations -/

/-! ### Abort points and frames -/

/-- From `P`, every abort point is in `C` and every result in `Q`. -/
abbrev Abortable {α : Type} (P : OutDir → Prop) (p : Prog α) (C : OutDir → Prop)
    (Q : α → OutDir → Prop) : Prop :=
  Meets P p C Q fun _ _ => True

namespace Abortable

variable {α : Type} {P C : OutDir → Prop} {Q : α → OutDir → Prop}

theorem op {g : OutDir → Option (α × OutDir)} (hpoint : ∀ s, P s → C s)
    (h : ∀ s, P s → ∀ a s', g s = some (a, s') → Q a s') : Abortable P (Prog.op g) C Q := by
  refine Meets.step hpoint (fun s a s' hs hg => h s hs a s' ?_) fun _ _ _ _ => trivial
  cases hrun : g s with
  | none =>
    rw [hrun] at hg
    cases hg
  | some r =>
    rw [hrun] at hg
    cases hg
    rfl

theorem fail (hpoint : ∀ s, P s → C s) : Abortable P Prog.fail C Q :=
  op hpoint fun _ _ _ _ hrun => by cases hrun

end Abortable

/-- The program leaves `f` of the state as it is, at every point of its run. -/
def Framed {α γ : Type} (f : OutDir → γ) (p : Prog α) : Prop :=
  ∀ v, Keeps (fun s => f s = v) (fun _ _ => True) p fun _ => True

namespace Framed

variable {α β γ : Type} {f : OutDir → γ} {p : Prog α}

/-- What is known about `f` of the state stays known. -/
theorem abortable (h : Framed f p) (R : γ → Prop) :
    Abortable (fun s => R (f s)) p (fun s => R (f s)) fun _ s => R (f s) := by
  intro s hs
  obtain ⟨hpoints, hresult, -⟩ := h (f s) s rfl
  refine ⟨fun c hc => ?_, fun a ha => ?_, fun _ _ => trivial⟩
  · show R (f c)
    rwa [hpoints c hc]
  · show R (f _)
    rwa [(hresult a ha).2]

/-- Two parts of the state that are both left as they are. -/
theorem pair {δ : Type} {g : OutDir → δ} (hf : Framed f p) (hg : Framed g p) :
    Framed (fun s => (f s, g s)) p := by
  rintro ⟨v, w⟩ s hs
  obtain ⟨hv, hw⟩ := Prod.mk.inj hs
  obtain ⟨hpoints, hresult, -⟩ := hf v s hv
  obtain ⟨hpoints', hresult', -⟩ := hg w s hw
  exact ⟨fun c hc => Prod.ext (hpoints c hc) (hpoints' c hc),
    fun a ha => ⟨trivial, Prod.ext (hresult a ha).2 (hresult' a ha).2⟩, fun _ _ => trivial⟩

theorem pure (a : α) : Framed f (Pure.pure a : Prog α) := fun _ => Keeps.pure trivial

theorem bind {g : α → Prog β} (hp : Framed f p) (hg : ∀ a, Framed f (g a)) :
    Framed f (p >>= g) := fun v => (hp v).bind fun a _ => hg a v

theorem op {g : OutDir → Option (α × OutDir)} (h : ∀ s a s', g s = some (a, s') → f s' = f s) :
    Framed f (Prog.op g) :=
  fun _ => Abortable.op (fun _ hs => hs) fun s hs a s' hrun => ⟨trivial, (h s a s' hrun).trans hs⟩

theorem fail : Framed f (Prog.fail : Prog α) := op fun _ _ _ hrun => by cases hrun

end Framed

section Frames
variable {p q : DirPath}

@[simp] theorem dirs_set (s : OutDir) (p q : DirPath) (d : Option Files) :
    (s.set p d).dirs q = if q = p then d else s.dirs q := by
  show Function.update s.dirs p d q = _
  rw [Function.update_apply]

theorem framed_unlink (h : q ≠ p) (name : Text) : Framed (·.dirs q) (unlink p name) := by
  refine Framed.op fun s a s' hrun => ?_
  split at hrun
  · cases hrun
  · split at hrun
    · cases hrun
      simp [h]
    · cases hrun

theorem framed_rmdir (h : q ≠ p) : Framed (·.dirs q) (rmdir p) := by
  refine Framed.op fun s a s' hrun => ?_
  split at hrun
  · cases hrun
    rfl
  · split at hrun
    · cases hrun
      simp [h]
    · cases hrun
      rfl

theorem framed_mkdir (h : q ≠ p) : Framed (·.dirs q) (mkdir p) := by
  refine Framed.op fun s a s' hrun => ?_
  split at hrun
  · cases hrun
    simp [h]
  · cases hrun

theorem framed_createExcl (h : q ≠ p) (name : Text) : Framed (·.dirs q) (createExcl p name) := by
  refine Framed.op fun s a s' hrun => ?_
  split at hrun
  · cases hrun
  · split at hrun
    · cases hrun
    · cases hrun
      simp [h]

theorem framed_cleanupFailedIf (failed : Bool) : Framed (·.dirs q) (cleanupFailedIf failed) := by
  cases failed with
  | false => exact Framed.pure ()
  | true => exact Framed.fail

/-- `delete_files` touches one directory only. -/
theorem framed_deleteFiles (env : ResumeEnv) (h : q ≠ p) (pre : Option Text) :
    Framed (·.dirs q) (deleteFiles env p pre) := by
  intro v
  refine Keeps.get.bind fun s _ => ?_
  cases s.dirs p with
  | none => exact Keeps.pure trivial
  | some files =>
    -- Every `unlink` and the final `rmdir` are in the directory `p`.
    refine (Keeps.forM fun name _ => ?_).bind fun _ _ =>
      (framed_rmdir h v).bind fun _ _ => Keeps.pure trivial
    exact Keeps.ite (fun _ => framed_unlink h name v) fun _ => Keeps.pure trivial

/-- Deleting `queue/` leaves `_resume/` as it is, and the other way round. -/
theorem framed_deleteRoot (env : ResumeEnv) {r r' : Root} (h : r' ≠ r) :
    Framed (·.dirs (.root r')) (deleteRoot env r) := by
  have hsub : ∀ d pre, Framed (·.dirs (.root r')) (deleteFiles env (.sub r d) pre) :=
    fun d pre => framed_deleteFiles env (by simp) pre
  have hroot : Framed (·.dirs (.root r')) (deleteFiles env (.root r) casePrefix) :=
    framed_deleteFiles env (by simpa using h) casePrefix
  have hstate : Framed (·.dirs (.root r')) (rmdir (.state r)) := framed_rmdir (by simp)
  have hif := fun failed => framed_cleanupFailedIf (q := .root r') failed
  exact (hsub _ _).bind fun _ => (hif _).bind fun _ =>
    (hsub _ _).bind fun _ => (hif _).bind fun _ =>
    (hsub _ _).bind fun _ => (hif _).bind fun _ =>
    (hsub _ _).bind fun _ => (hif _).bind fun _ =>
    hstate.bind fun _ => (hif _).bind fun _ =>
    hroot.bind fun _ => hif _

theorem framed_setupDirs : Framed (·.dirs (.root .resume)) setupDirs := by
  refine fun v => Keeps.forM fun p hp => framed_mkdir ?_ v
  rintro rfl
  simp at hp

end Frames

/-! ### Importing a test case -/

section Import
variable {env : ResumeEnv} {r q : Option Files}

/-- The content of a file, if the directory and the file exist. -/
def look (d : Option Files) (name : Text) : Option (List U8) := d.bind (·.lookup name)

/-- `d'` is `d` with one more file. -/
def Added (d d' : Option Files) (name : Text) (content : List U8) : Prop :=
  look d name = none ∧ ∀ m, look d' m = if m = name then some content else look d m

/-- A file that is written again keeps the others. -/
theorem look_insert (files : Files) (name : Text) (content : List U8) (m : Text) :
    look (some (files.insert name content)) m =
      if m = name then some content else look (some files) m := by
  show (files.insert name content).lookup m = if _ then _ else files.lookup m
  split
  · rename_i heq
    rw [heq, AList.lookup_insert]
  · rename_i hne
    exact AList.lookup_insert_ne hne

theorem link_meets (name newName : Text) :
    Abortable (fun s => s.dirs (.root .resume) = r ∧ s.dirs (.root .queue) = q)
      (link env.hardLinks (.root .resume) name (.root .queue) newName)
      (fun s => s.dirs (.root .resume) = r)
      fun linked s => s.dirs (.root .resume) = r ∧
        if linked then ∃ c, look r name = some c ∧ Added q (s.dirs (.root .queue)) newName c
        else s.dirs (.root .queue) = q := by
  refine Abortable.op (fun s hs => hs.1) fun s hs linked s' hrun => ?_
  obtain ⟨rfl, rfl⟩ := hs
  split at hrun
  · rename_i content files hcontent hfiles
    split at hrun
    · rename_i hfree
      cases hrun
      rw [Bool.and_eq_true, Bool.not_eq_true', decide_eq_false_iff_not] at hfree
      refine ⟨by simp, ?_⟩
      rw [if_pos rfl]
      refine ⟨content, hcontent, ?_, fun m => ?_⟩
      · rw [hfiles]
        exact AList.lookup_eq_none.mpr hfree.2
      · rw [dirs_set, if_pos rfl, look_insert, hfiles]
    · cases hrun
      exact ⟨rfl, rfl⟩
  · cases hrun
    exact ⟨rfl, rfl⟩

theorem createExcl_meets (newName : Text) :
    Abortable (fun s => s.dirs (.root .resume) = r ∧ s.dirs (.root .queue) = q)
      (createExcl (.root .queue) newName) (fun s => s.dirs (.root .resume) = r)
      fun _ s => s.dirs (.root .resume) = r ∧ Added q (s.dirs (.root .queue)) newName [] := by
  refine Abortable.op (fun s hs => hs.1) fun s hs a s' hrun => ?_
  obtain ⟨rfl, rfl⟩ := hs
  split at hrun
  · cases hrun
  · rename_i files hfiles
    split at hrun
    · cases hrun
    · rename_i hfree
      cases hrun
      refine ⟨by simp, ?_, fun m => ?_⟩
      · rw [hfiles]
        exact AList.lookup_eq_none.mpr hfree
      · rw [dirs_set, if_pos rfl, look_insert, hfiles]

theorem append_meets (newName : Text) (old bytes : List U8) :
    Abortable (fun s => s.dirs (.root .resume) = r ∧ Added q (s.dirs (.root .queue)) newName old)
      (append (.root .queue) newName bytes) (fun s => s.dirs (.root .resume) = r)
      fun _ s => s.dirs (.root .resume) = r ∧
        Added q (s.dirs (.root .queue)) newName (old ++ bytes) := by
  refine Abortable.op (fun s hs => hs.1) fun s hs a s' hrun => ?_
  obtain ⟨hresume, hfresh, hlook⟩ := hs
  split at hrun
  · cases hrun
  · rename_i files hfiles
    split at hrun
    · cases hrun
    · rename_i found hfound
      cases hrun
      -- The file that is appended to is the one that was created.
      have hold : found = old := by
        have hnew := hlook newName
        rw [if_pos rfl, hfiles] at hnew
        exact Option.some.inj (hfound.symm.trans hnew)
      refine ⟨by simpa using hresume, hfresh, fun m => ?_⟩
      rw [dirs_set, if_pos rfl, look_insert, hold, ← hfiles, hlook]
      split <;> rfl

/-- The chunks that are copied add up to the content. -/
theorem take_chunks (content : List U8) (i : Nat) :
    content.take (i * COPY_CHUNK) ++ (content.drop (i * COPY_CHUNK)).take COPY_CHUNK =
      content.take ((i + 1) * COPY_CHUNK) := by
  rw [Nat.succ_mul, List.take_add]

/-- Importing a test case adds one file to `queue/`. -/
theorem linkOrCopy_meets (name newName : Text) :
    Abortable (fun s => s.dirs (.root .resume) = r ∧ s.dirs (.root .queue) = q)
      (linkOrCopy env name newName) (fun s => s.dirs (.root .resume) = r)
      fun _ s => s.dirs (.root .resume) = r ∧
        ∃ c, look r name = some c ∧ Added q (s.dirs (.root .queue)) newName c := by
  refine (link_meets name newName).bind fun linked => ?_
  cases linked with
  | true => exact Meets.pure fun s hs => hs
  | false =>
    -- The copy, which looks at the state that `link` has left.
    refine Meets.bind (R := fun t s => t = s ∧ s.dirs (.root .resume) = r ∧
      s.dirs (.root .queue) = q) (Meets.get fun s hs => ⟨rfl, hs⟩) fun t => ?_
    cases hcontent : (t.dirs (.root .resume)).bind (·.lookup name) with
    | none => exact Abortable.fail fun s hs => hs.2.1
    | some content =>
      refine Meets.of_eq fun s hs => ?_
      obtain ⟨rfl, hresume, hqueue⟩ := hs
      have hlook : look r name = some content := by rwa [← hresume]
      refine Meets.of_pre ((createExcl_meets newName).bind fun _ =>
        (Meets.forM_range (J := fun i s => s.dirs (.root .resume) = r ∧
          Added q (s.dirs (.root .queue)) newName (content.take (i * COPY_CHUNK)))
          fun i _ => ?_).mono (fun s hs => ?_) (fun s hs => hs) (fun _ s hs => ?_)
          fun _ _ he => he) (by rintro _ rfl; exact ⟨hresume, hqueue⟩)
      · rw [← take_chunks]
        exact append_meets newName _ _
      · rw [Nat.zero_mul, List.take_zero]
        exact hs
      · -- The chunks reach past the end of the content.
        have hall : content.take ((content.length + COPY_CHUNK - 1) / COPY_CHUNK * COPY_CHUNK) =
            content := by
          refine List.take_of_length_le ?_
          unfold COPY_CHUNK
          omega
        rw [hall] at hs
        exact ⟨hs.1, content, hlook, hs.2⟩

/-- The files `names` of `r` are in `q'`, each under a new name, and `q'` has the files of `q`. -/
structure Imported (r q q' : Option Files) (names : List Text) (ρ : Text → Text) : Prop where
  fresh : ∀ n ∈ names, look q (ρ n) = none
  content : ∀ n ∈ names, ∃ c, look r n = some c ∧ look q' (ρ n) = some c
  named : ∀ n ∈ names, casePrefix <+: ρ n
  inj : ∀ n₁ ∈ names, ∀ n₂ ∈ names, ρ n₁ = ρ n₂ → n₁ = n₂
  kept : ∀ m c, look q m = some c → look q' m = some c

theorem Imported.nil (r q : Option Files) : Imported r q q [] (fun n => n) where
  fresh _ hn := absurd hn List.not_mem_nil
  content _ hn := absurd hn List.not_mem_nil
  named _ hn := absurd hn List.not_mem_nil
  inj _ hn := absurd hn List.not_mem_nil
  kept _ _ hm := hm

/-- One file first, then the others. -/
theorem Imported.cons {q₁ q' : Option Files} {name newName : Text} {names : List Text}
    {ρ : Text → Text} {c : List U8} (hname : name ∉ names) (hc : look r name = some c)
    (hnamed : casePrefix <+: newName) (hadd : Added q q₁ newName c)
    (h : Imported r q₁ q' names ρ) :
    Imported r q q' (name :: names) (Function.update ρ name newName) := by
  obtain ⟨hfree, hlook⟩ := hadd
  have hnew : look q₁ newName = some c := by rw [hlook, if_pos rfl]
  have hother : ∀ n ∈ names, Function.update ρ name newName n = ρ n := by
    intro n hn
    refine Function.update_of_ne ?_ _ _
    rintro rfl
    exact hname hn
  have hself : Function.update ρ name newName name = newName := Function.update_self _ _ _
  -- The later names are not in `q₁`, which has `newName`.
  have hne : ∀ n ∈ names, ρ n ≠ newName := by
    intro n hn heq
    have hnone := h.fresh n hn
    rw [heq, hnew] at hnone
    cases hnone
  refine ⟨fun n hn => ?_, fun n hn => ?_, fun n hn => ?_, fun n₁ hn₁ n₂ hn₂ heq => ?_,
    fun m x hm => ?_⟩
  · rcases List.mem_cons.mp hn with rfl | hn
    · rwa [hself]
    · have hnone := h.fresh n hn
      rw [hlook, if_neg (hne n hn)] at hnone
      rwa [hother n hn]
  · rcases List.mem_cons.mp hn with rfl | hn
    · exact ⟨c, hc, by rw [hself, h.kept _ _ hnew]⟩
    · rw [hother n hn]
      exact h.content n hn
  · rcases List.mem_cons.mp hn with rfl | hn
    · rwa [hself]
    · rw [hother n hn]
      exact h.named n hn
  · -- Two old names with one new name: only `name` has the new name `newName`.
    rcases List.mem_cons.mp hn₁ with heq₁ | hmem₁
    · rcases List.mem_cons.mp hn₂ with heq₂ | hmem₂
      · rw [heq₁, heq₂]
      · rw [heq₁, hself, hother n₂ hmem₂] at heq
        exact absurd heq.symm (hne n₂ hmem₂)
    · rcases List.mem_cons.mp hn₂ with heq₂ | hmem₂
      · rw [heq₂, hself, hother n₁ hmem₁] at heq
        exact absurd heq (hne n₁ hmem₁)
      · rw [hother n₁ hmem₁, hother n₂ hmem₂] at heq
        exact h.inj n₁ hmem₁ n₂ hmem₂ heq
  · refine h.kept m x ?_
    rw [hlook, if_neg, hm]
    rintro rfl
    rw [hfree] at hm
    cases hm

/-- The names of the new queue are those of test cases. -/
theorem casePrefix_pivotName (id : Nat) (name : Text) : casePrefix <+: pivotName id name := by
  unfold pivotName
  split
  · rename_i hkeep
    exact List.isPrefixOf_iff_prefix.mp (Bool.and_eq_true _ _ ▸ hkeep).1
  · rw [List.append_assoc, List.append_assoc]
    exact List.prefix_append _ _

/-- The loop of `pivot_inputs` imports all entries and leaves `_resume/` alone. -/
theorem pivotEntries_meets (entries : List (Text × Bool)) :
    ∀ (id : Nat) (q : Option Files), (entries.map Prod.fst).Nodup →
      Abortable (fun s => s.dirs (.root .resume) = r ∧ s.dirs (.root .queue) = q)
        (pivotEntries env id entries) (fun s => s.dirs (.root .resume) = r)
        fun _ s => ∃ ρ, Imported r q (s.dirs (.root .queue)) (entries.map Prod.fst) ρ := by
  induction entries with
  | nil =>
    intro id q _
    refine Meets.pure fun s hs => ⟨fun n => n, ?_⟩
    rw [hs.2]
    exact Imported.nil r q
  | cons entry entries ih =>
    obtain ⟨name, passedDet⟩ := entry
    intro id q hnodup
    rw [List.map_cons, List.nodup_cons] at hnodup
    refine (linkOrCopy_meets name (pivotName id name)).bind fun _ => ?_
    -- The flag file is in another directory.
    have hflag : Framed (fun s : OutDir => (s.dirs (.root .resume), s.dirs (.root .queue)))
        (carryDetDone passedDet (pivotName id name)) := by
      cases passedDet with
      | false => exact Framed.pure ()
      | true =>
        exact (framed_createExcl (by simp) _).pair (framed_createExcl (by simp) _)
    refine Meets.bind ((hflag.abortable fun d => d.1 = r ∧
      ∃ c, look r name = some c ∧ Added q d.2 (pivotName id name) c).of_points
        fun s hs => hs.1) fun _ => ?_
    -- The remaining entries start from the queue that has this one.
    refine Meets.of_eq fun s hs => ?_
    obtain ⟨hresume, c, hc, hadd⟩ := hs
    refine (ih (id + 1) (s.dirs (.root .queue)) hnodup.2).mono
      (by rintro _ rfl; exact ⟨hresume, rfl⟩) (fun t ht => ht) (fun _ t ht => ?_) fun _ _ he => he
    obtain ⟨ρ, hρ⟩ := ht
    exact ⟨_, hρ.cons hnodup.1 hc (casePrefix_pivotName id name) hadd⟩

end Import

/-! ### Reading the test cases -/

section Read
variable {env : ResumeEnv}

/-- The entries are the names that are test cases. -/
theorem readEntries_names (files : Files) (done : Option Files) (names : List Text)
    (entries : List (Text × Bool)) (h : readEntries files done names = some entries) :
    entries.map Prod.fst =
      names.filter fun n => isTestCase n ((files.lookup n).getD []) := by
  induction names generalizing entries with
  | nil =>
    cases h
    rfl
  | cons name names ih =>
    rw [readEntries] at h
    split at h
    · rename_i hcase
      rw [List.filter_cons, if_pos hcase]
      split at h
      · cases h
      · obtain ⟨rest, hrest, rfl⟩ := Option.map_eq_some_iff.mp h
        rw [List.map_cons, ih rest hrest]
    · rename_i hcase
      rw [List.filter_cons, if_neg hcase]
      exact ih entries h

/-- `read_testcases` only looks, and returns each test case of `_resume/` once. -/
theorem readTestcases_meets (r : Option Files) :
    Abortable (fun s => s.dirs (.root .resume) = r) (readTestcases env)
      (fun s => s.dirs (.root .resume) = r)
      fun entries s => s.dirs (.root .resume) = r ∧ (entries.map Prod.fst).Nodup ∧
        ∀ n c, HasCase r n c → n ∈ entries.map Prod.fst := by
  refine Meets.bind (R := fun t s => t = s ∧ s.dirs (.root .resume) = r)
    (Meets.get fun s hs => ⟨rfl, hs⟩) fun t => ?_
  cases hfiles : t.dirs (.root .resume) with
  | none => exact Abortable.fail fun s hs => hs.2
  | some files =>
    dsimp only
    split
    · exact Abortable.fail fun s hs => hs.2
    · split
      · exact Abortable.fail fun s hs => hs.2
      · exact Abortable.fail fun s hs => hs.2
      · rename_i entries _ hread
        refine Meets.pure fun s hs => ?_
        obtain ⟨rfl, hresume⟩ := hs
        have hperm : (env.shuffle (files.keys.insertionSort (· ≤ ·))).Perm files.keys :=
          (env.shuffle_perm _).trans (List.perm_insertionSort _ _)
        have hnames := readEntries_names _ _ _ _ hread
        refine ⟨hresume, ?_, fun n c hn => ?_⟩
        · rw [hnames]
          exact (hperm.nodup_iff.mpr files.keys_nodup).filter _
        · -- A test case has a key, and passes the filter.
          obtain ⟨hcase, hlook⟩ := hn
          rw [← hresume, hfiles] at hlook
          change files.lookup n = some c at hlook
          have hkey : n ∈ files.keys :=
            AList.mem_keys.mp (AList.lookup_isSome.mp (Option.isSome_iff_exists.mpr ⟨c, hlook⟩))
          rw [hnames, List.mem_filter, hperm.mem_iff, hlook]
          exact ⟨hkey, hcase⟩

end Read

/-! ### One attempt -/

section Attempt
variable {env : ResumeEnv}

/-- The names of test cases are not `README.txt`. -/
theorem isReadme_of_casePrefix {name : Text} (h : casePrefix <+: name) : isReadme name = false := by
  obtain ⟨rest, rfl⟩ := h
  rfl

/-- The imported test cases are carried by the new queue. -/
theorem Imported.carries {r q q' : Option Files} {names : List Text} {ρ : Text → Text}
    (h : Imported r q q' names ρ) (hall : ∀ n c, HasCase r n c → n ∈ names) : Carries r q' := by
  refine ⟨ρ, fun n₁ c₁ n₂ c₂ h₁ h₂ => h.inj n₁ (hall n₁ c₁ h₁) n₂ (hall n₂ c₂ h₂), fun n c hn => ?_⟩
  obtain ⟨x, hold, hnew⟩ := h.content n (hall n c hn)
  have heq : x = c := Option.some.inj (hold.symm.trans hn.2)
  subst heq
  refine ⟨?_, hnew⟩
  have hcontent : (!x.isEmpty) = true := (Bool.and_eq_true _ _ ▸ hn.1).1
  show (!x.isEmpty && !isReadme (ρ n)) = true
  rw [hcontent, isReadme_of_casePrefix (h.named n (hall n x hn))]
  rfl

/-- Where an abort can leave an attempt that has set aside `r`: before it has renamed anything, with
`r` still in `_resume/`, or with a `queue/` that carries `r`. -/
def AbortPoint (s : OutDir) (r : Option Files) (c : OutDir) : Prop :=
  c = s ∨ c.dirs (.root .resume) = r ∨ Carries r (c.dirs (.root .queue))

/-- `pivot_inputs` starts to delete `_resume/` when `queue/` carries it. -/
theorem pivotInputs_meets (s : OutDir) (r : Option Files) (entries : List (Text × Bool)) :
    Abortable (fun t => t.dirs (.root .resume) = r ∧ (entries.map Prod.fst).Nodup ∧
        ∀ n c, HasCase r n c → n ∈ entries.map Prod.fst)
      (pivotInputs env entries) (AbortPoint s r) fun _ t => Carries r (t.dirs (.root .queue)) := by
  refine Meets.bind (R := fun _ t => Carries r (t.dirs (.root .queue)))
    (Meets.of_eq fun t ht => ?_) fun _ => ?_
  · -- While entries are imported, `_resume/` is as it was.
    obtain ⟨hresume, hnodup, hall⟩ := ht
    refine (pivotEntries_meets entries 0 (t.dirs (.root .queue)) hnodup).mono
      (by rintro _ rfl; exact ⟨hresume, rfl⟩) (fun u hu => Or.inr (Or.inl hu))
      (fun _ u hu => ?_) fun _ _ he => he
    obtain ⟨ρ, hρ⟩ := hu
    exact hρ.carries hall
  · -- While `_resume/` is deleted, `queue/` is as it was.
    exact ((framed_deleteRoot env (by decide)).abortable (Carries r)).of_points
      fun u hu => Or.inr (Or.inr hu)

/-- One attempt, from `s`: its abort points, and what `queue/` carries at the end. -/
theorem resumeSession_meets (env : ResumeEnv) (s : OutDir) :
    Abortable (· = s) (resumeSession env) (AbortPoint s ((renameQueue s).dirs (.root .resume)))
      fun _ t => Carries ((renameQueue s).dirs (.root .resume)) (t.dirs (.root .queue)) := by
  have hwiden : ∀ {α : Type} {p : Prog α} {r : Option Files},
      Framed (·.dirs (.root .resume)) p →
      Abortable (fun t => t.dirs (.root .resume) = r) p (AbortPoint s r)
        fun _ t => t.dirs (.root .resume) = r :=
    fun hframed => Meets.mono (hframed _) (fun t ht => ht) (fun t ht => Or.inr (Or.inl ht))
      (fun _ t ht => ht.2) fun _ _ he => he
  have hrename : Abortable (· = s) (maybeDeleteOutDir env)
      (AbortPoint s ((renameQueue s).dirs (.root .resume)))
      fun _ t => t.dirs (.root .resume) = (renameQueue s).dirs (.root .resume) := by
    refine Meets.bind (Abortable.op (fun t ht => Or.inl ht) fun t ht a t' hrun => ?_) fun _ =>
      hwiden (framed_deleteRoot env (by decide))
    cases hrun
    rw [ht]
  -- Until the import, no operation touches `_resume/`.
  refine hrename.bind fun _ => (hwiden framed_setupDirs).bind fun _ => ?_
  exact ((readTestcases_meets _).of_points fun t ht => Or.inr (Or.inl ht)).bind
    fun entries => pivotInputs_meets s _ entries

end Attempt

/-! ### All attempts -/

section Attempts

/-- The directory that the next attempt takes the corpus from. -/
def trusted (s : OutDir) : Option Files :=
  if resumeFree s then s.dirs (.root .queue) else s.dirs (.root .resume)

/-- A `_resume/` that can be replaced holds no test case. -/
theorem not_hasCase_of_resumeFree {s : OutDir} (h : resumeFree s = true) (n : Text)
    (c : List U8) : ¬ HasCase (s.dirs (.root .resume)) n c := by
  rintro ⟨_, hlook⟩
  cases hdir : s.dirs (.root .resume) with
  | none =>
    rw [hdir] at hlook
    cases hlook
  | some files =>
    rw [resumeFree, OutDir.isEmptyDir, hdir] at h
    rw [hdir] at hlook
    have hkeys : files.keys = [] := by
      rw [Option.isNone_some, Bool.false_or, Bool.and_eq_true] at h
      exact List.isEmpty_iff.mp h.1
    have hmem : n ∈ files.keys :=
      AList.mem_keys.mp (AList.lookup_isSome.mp (Option.isSome_iff_exists.mpr ⟨c, hlook⟩))
    rw [hkeys] at hmem
    cases hmem

/-- After the rename, `_resume/` carries what was trusted before. -/
theorem carries_renameQueue {d : Option Files} {s : OutDir} (h : Carries d (trusted s)) :
    Carries d ((renameQueue s).dirs (.root .resume)) := by
  unfold trusted at h
  unfold renameQueue
  cases hfree : resumeFree s with
  | false =>
    rw [hfree, if_neg (by decide)] at h
    rw [Bool.and_false, if_neg (by decide)]
    exact h
  | true =>
    rw [hfree, if_pos rfl] at h
    cases hqueue : s.dirs (.root .queue) with
    | some files =>
      rw [hqueue] at h
      show Carries d (s.dirs (.root .queue))
      rwa [hqueue]
    | none =>
      -- There is nothing to rename, and nothing was carried.
      rw [hqueue] at h
      refine h.of_empty (fun n c hn => ?_) _
      cases hn.2

/-- The condition on an abort: it leaves a `_resume/` that is gone or empty, or that still has
every test case that the attempt has set aside. -/
def SafeAbort (s c : OutDir) : Prop :=
  resumeFree c = true ∨ ∀ n x, HasCase ((renameQueue s).dirs (.root .resume)) n x →
    HasCase (c.dirs (.root .resume)) n x

/-- An attempt that is aborted, or gives up. -/
def AbortStep (s c : OutDir) : Prop := ∃ env, c ∈ (resumeSession env s).points

/-- An attempt that is aborted at a point that meets the condition. -/
def SafeAbortStep (s c : OutDir) : Prop := AbortStep s c ∧ SafeAbort s c

/-- The trusted directory carries the corpus after such an attempt when it did before. -/
theorem carries_trusted_step {d : Option Files} {s c : OutDir} (h : Carries d (trusted s))
    (hstep : SafeAbortStep s c) : Carries d (trusted c) := by
  obtain ⟨⟨env, hpoint⟩, hsafe⟩ := hstep
  have hset := carries_renameQueue h
  rcases (resumeSession_meets env s s rfl).1 c hpoint with rfl | hresume | hqueue
  · exact h
  · unfold trusted
    split
    · rename_i hfree
      -- What has been set aside has no test cases at all.
      rw [← hresume] at hset
      exact hset.of_empty (not_hasCase_of_resumeFree hfree) _
    · rwa [hresume]
  · unfold trusted
    split
    · -- `_resume/` is free, so the next attempt trusts the complete `queue/`.
      exact hset.trans hqueue
    · rename_i hfree
      rcases hsafe with hfree' | hkept
      · exact absurd hfree' hfree
      · exact hset.trans (Carries.of_forall hkept)

/-- The corpus of `queue/` survives any number of attempts whose aborts meet the condition: the
first attempt that runs to completion leaves a `queue/` that carries it. -/
theorem resume_carries {s₀ s : OutDir} {env : ResumeEnv}
    (hstart : s₀.dirs (.root .resume) = none) (hrun : Reachable (· = s₀) SafeAbortStep s)
    (hdone : (resumeSession env s).result = .ok ()) :
    Carries (s₀.dirs (.root .queue)) ((resumeSession env s).final.dirs (.root .queue)) := by
  have htrusted : Carries (s₀.dirs (.root .queue)) (trusted s) := by
    refine hrun.invariant (fun t ht => ?_) fun t t' ht hstep => carries_trusted_step ht hstep
    have hfree : resumeFree s₀ = true := by
      unfold resumeFree
      rw [hstart]
      rfl
    rw [ht, trusted, if_pos hfree]
    exact Carries.refl _
  -- The last attempt sets the trusted corpus aside and imports it.
  exact (carries_renameQueue htrusted).trans
    ((resumeSession_meets env s s rfl).2.1 () hdone)

/-! ### Two test cases and one abort -/

/-- Directories are read in the order of their files, and there are hard links. -/
def plainEnv : ResumeEnv where
  readdir _ names := names
  readdir_perm _ names := List.Perm.refl names
  shuffle names := names
  shuffle_perm names := List.Perm.refl names
  hardLinks := true

/-- A corpus of two test cases. -/
def twoCases : Files :=
  ((∅ : Files).insert "id:000001,b".toList [2]).insert "id:000000,a".toList [1]

/-- An output directory with this corpus. -/
def twoCasesDir : OutDir where
  dirs
    | .root .queue => some twoCases
    | _ => none

/-- The state that an abort of the first attempt after `n` operations leaves. -/
def abortedAt (n : Nat) : OutDir := (resumeSession plainEnv twoCasesDir).points.getD n twoCasesDir

theorem abortStep_abortedAt {n : Nat}
    (h : n < (resumeSession plainEnv twoCasesDir).points.length) :
    AbortStep twoCasesDir (abortedAt n) := by
  refine ⟨plainEnv, ?_⟩
  rw [abortedAt, List.getD_eq_getElem _ _ h]
  exact List.getElem_mem h

/-- The files of `queue/` after a further attempt. -/
def importedFrom (s : OutDir) : Option (List (Sigma fun _ : Text => List U8)) :=
  ((resumeSession plainEnv s).final.dirs (.root .queue)).map (·.entries)

/-- The first attempt is aborted before it deletes anything from `_resume/`, the second one runs to
completion. -/
theorem resume_carries_twoCases :
    (resumeSession plainEnv (abortedAt 11)).result = .ok () ∧
      Carries (some twoCases)
        ((resumeSession plainEnv (abortedAt 11)).final.dirs (.root .queue)) := by
  have hpoint : 11 < (resumeSession plainEnv twoCasesDir).points.length := by decide +kernel
  have hdone : (resumeSession plainEnv (abortedAt 11)).result = .ok () := by decide +kernel
  refine ⟨hdone, ?_⟩
  have hsafe : SafeAbort twoCasesDir (abortedAt 11) := by
    refine Or.inr fun n x hn => ?_
    have hentries : ((abortedAt 11).dirs (.root .resume)).map (·.entries) =
        ((renameQueue twoCasesDir).dirs (.root .resume)).map (·.entries) := by decide +kernel
    rwa [Option.map_injective (fun _ _ => AList.ext) hentries]
  have hrun : Reachable (· = twoCasesDir) SafeAbortStep (abortedAt 11) :=
    .step (.init rfl) ⟨abortStep_abortedAt hpoint, hsafe⟩
  exact resume_carries rfl hrun hdone

/-- The corpus does not survive every abort: when `nuke_resume_dir` is aborted after it has deleted
one of two test cases, the next attempt deletes the complete `queue/` and imports the other one. -/
theorem resume_loses :
    ¬ ∀ (s₀ s : OutDir) (env : ResumeEnv), s₀.dirs (.root .resume) = none →
      Reachable (· = s₀) AbortStep s → (resumeSession env s).result = .ok () →
        Carries (s₀.dirs (.root .queue)) ((resumeSession env s).final.dirs (.root .queue)) := by
  intro hall
  have hpoint : 12 < (resumeSession plainEnv twoCasesDir).points.length := by decide +kernel
  have hleft : importedFrom (abortedAt 12) =
      some [⟨"id:000000,orig:id:000001,b".toList, [2]⟩] := by decide +kernel
  obtain ⟨files, hfiles, hentries⟩ := Option.map_eq_some_iff.mp hleft
  obtain ⟨ρ, _, hcase⟩ := hall twoCasesDir (abortedAt 12) plainEnv rfl
    (.step (.init rfl) (abortStep_abortedAt hpoint)) (by decide +kernel)
  -- The first test case is nowhere in the new queue.
  have hfirst : HasCase (some twoCases) "id:000000,a".toList [1] := ⟨by decide, by decide⟩
  obtain ⟨_, hlook⟩ := hcase _ _ hfirst
  rw [hfiles] at hlook
  have hmem : Sigma.mk (ρ "id:000000,a".toList) [1] ∈ files.entries := AList.mem_lookup_iff.mp hlook
  rw [hentries] at hmem
  simp at hmem

end Attempts

end TriforceAFL.Proofs
