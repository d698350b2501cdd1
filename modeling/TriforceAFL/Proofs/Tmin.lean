import TriforceAFL.Spec.Tmin

/-!
# `TriforceAFL.Proofs.Tmin`: what `minimize` of afl-tmin returns

For every verdict `f` that is a function of the candidate, and every input that `f` accepts:

* `minimize_sound`: `minimize` ends; its result is accepted and not longer than the input, and after
  every accepted test `in_data` is the buffer that was tested.
* `minimize_oneMinimal`: deleting one byte of a non-empty result gives a buffer that `f` rejects.
* `tmin_keeps_outcome`: both, for the verdict of `run_target`.

Both come from one walk over the stages. Every stage is a sequence of calls of `TminState.test`, and
`Sound.test` is what one call keeps. Two facts about a stage carry the pass loop. `Unchanged` says
that `changed_any` is raised whenever `in_data` changes; `Shrinks` says that the deletion stage
raises it only when it shortens `in_data`. The other two stages can raise it without a change of
`in_data`: `alpha_map` still holds symbols of earlier passes, and replacing a symbol that no longer
occurs gives the accepted buffer itself. The pass loop ends all the same, since from the second pass
on only the deletion stage lets it go on.
-/

set_option autoImplicit false

namespace TriforceAFL.Proofs

open Lib Spec

namespace Tmin

variable {f : List U8 → Bool} {n : Nat} {s s' s'' : TminState} {tmpBuf : List U8}

/-! ### What every step keeps -/

/-- What holds between two steps of `minimize`, for inputs of `n` bytes. -/
structure Sound (f : List U8 → Bool) (n : Nat) (s : TminState) : Prop where
  accepted : f s.inData = true
  length_le : s.inData.length ≤ n
  tests : ∀ t ∈ s.tests, t.accepted = f t.tested ∧ t.inData.length ≤ n ∧
    (t.accepted = true → t.inData = t.tested)

/-- If nothing was reported as changed, then nothing has changed. -/
def Unchanged (s s' : TminState) : Prop :=
  s'.changedAny = false → s.changedAny = false ∧ s'.inData = s.inData

/-- What is reported as changed has become shorter. -/
def Shrinks (s s' : TminState) : Prop :=
  s'.inData.length ≤ s.inData.length ∧
    (s.changedAny = false → s'.changedAny = true → s'.inData.length < s.inData.length)

theorem Unchanged.refl (s : TminState) : Unchanged s s := fun h => ⟨h, rfl⟩

theorem Unchanged.trans (h : Unchanged s s') (h' : Unchanged s' s'') : Unchanged s s'' := by
  intro hchanged
  have hlast := h' hchanged
  have hfirst := h hlast.1
  exact ⟨hfirst.1, hlast.2.trans hfirst.2⟩

theorem Shrinks.refl (s : TminState) : Shrinks s s := by
  refine ⟨Nat.le_refl _, fun hfalse htrue => ?_⟩
  simp [hfalse] at htrue

theorem Shrinks.trans (h : Shrinks s s') (h' : Shrinks s' s'') : Shrinks s s'' := by
  refine ⟨h'.1.trans h.1, fun hfalse htrue => ?_⟩
  cases hmid : s'.changedAny with
  | true => exact Nat.lt_of_le_of_lt h'.1 (h.2 hfalse hmid)
  | false => exact Nat.lt_of_lt_of_le (h'.2 hmid htrue) h.1

/-- A test whose accepted buffer is the tested one. -/
theorem Sound.test (h : Sound f n s) (stage : TminStage) (hlen : tmpBuf.length ≤ n) :
    Sound f n (s.test f stage tmpBuf tmpBuf).2 := by
  have hnew : (if f tmpBuf = true then tmpBuf else s.inData).length ≤ n := by
    split
    · exact hlen
    · exact h.length_le
  refine ⟨?_, hnew, ?_⟩
  · show f (if f tmpBuf = true then tmpBuf else s.inData) = true
    split
    · assumption
    · exact h.accepted
  · intro t ht
    rcases List.mem_append.mp ht with hold | hlast
    · exact h.tests t hold
    · rw [List.mem_singleton] at hlast
      subst hlast
      refine ⟨rfl, hnew, fun hacc => ?_⟩
      show (if f tmpBuf = true then tmpBuf else s.inData) = tmpBuf
      exact if_pos hacc

/-- A test reports every change. -/
theorem unchanged_test (stage : TminStage) (tmpBuf accepted : List U8) :
    Unchanged s (s.test f stage tmpBuf accepted).2 := by
  intro hchanged
  have hor : s.changedAny = false ∧ f tmpBuf = false := by
    simpa [TminState.test] using hchanged
  refine ⟨hor.1, ?_⟩
  show (if f tmpBuf = true then accepted else s.inData) = s.inData
  simp [hor.2]

/-- A test of a shorter buffer. -/
theorem shrinks_test (stage : TminStage) (hlen : tmpBuf.length < s.inData.length) :
    Shrinks s (s.test f stage tmpBuf tmpBuf).2 := by
  show (if f tmpBuf = true then tmpBuf else s.inData).length ≤ s.inData.length ∧
    (s.changedAny = false → (s.changedAny || f tmpBuf) = true →
      (if f tmpBuf = true then tmpBuf else s.inData).length < s.inData.length)
  cases hf : f tmpBuf with
  | true =>
    simp only [if_true]
    exact ⟨Nat.le_of_lt hlen, fun _ _ => hlen⟩
  | false =>
    simp only [Bool.false_eq_true, if_false]
    refine ⟨Nat.le_refl _, fun hfalse htrue => ?_⟩
    simp [hfalse] at htrue

/-- The length of `in_data` after a test of a buffer of the same length. -/
theorem length_test (stage : TminStage) (hlen : tmpBuf.length = s.inData.length) :
    (s.test f stage tmpBuf tmpBuf).2.inData.length = s.inData.length := by
  show (if f tmpBuf = true then tmpBuf else s.inData).length = s.inData.length
  split
  · exact hlen
  · rfl

/-! ### Block normalization -/

theorem length_memset {buf : List U8} {pos m : Nat} (v : U8) (h : pos + m ≤ buf.length) :
    (memset buf pos v m).length = buf.length := by
  simp only [memset, List.length_append, List.length_take, List.length_replicate,
    List.length_drop]
  omega

theorem ends_normalizeBlocks (hs : Sound f n s) :
    Ends (fun budget => normalizeBlocks f budget s) (Sound f n) := by
  unfold normalizeBlocks
  dsimp only
  have hpos : 1 ≤ max (nextP2 (s.inData.length / TMIN_SET_STEPS)) TMIN_SET_MIN_SIZE :=
    le_trans (by decide) (le_max_right _ _)
  generalize max (nextP2 (s.inData.length / TMIN_SET_STEPS)) TMIN_SET_MIN_SIZE = setLen at hpos
  refine Ends.repeatStep (fun t => Sound f n t.1 ∧ t.1.inData.length = s.inData.length)
    (fun t => s.inData.length - t.2) ?_ (s, 0) ⟨hs, rfl⟩
  rintro ⟨t, setPos⟩ ⟨ht, hlen⟩
  refine Ends.pure ?_
  simp only at ht hlen
  simp only [normalizeStep]
  by_cases hin : setPos < t.inData.length
  · simp only [if_pos hin]
    have hset : (memset t.inData setPos zeroDigit (min setLen (t.inData.length - setPos))).length =
        t.inData.length := length_memset _ (by omega)
    refine ⟨?_, by omega⟩
    split
    · exact ⟨ht, hlen⟩
    · exact ⟨ht.test .normalize (hset.trans_le ht.length_le),
        (length_test .normalize hset).trans hlen⟩
  · simp only [if_neg hin]
    exact ht

/-! ### Block deletion -/

/-- Deleting any single byte gives a buffer that is rejected. -/
def OneMinimal (f : List U8 → Bool) (buf : List U8) : Prop :=
  ∀ p < buf.length, f (buf.eraseIdx p) = false

/-- The tail that is copied behind a deleted block is all that follows it. -/
theorem block_tail (buf : List U8) (pos m : Nat) :
    block buf (pos + m) (buf.length - pos - m) = buf.drop (pos + m) := by
  have hlen : (buf.drop (pos + m)).length = buf.length - pos - m := by
    rw [List.length_drop]
    omega
  rw [block, ← hlen, List.take_length]

/-- Deleting a byte that equals its predecessor is deleting the predecessor. -/
theorem eraseIdx_of_block_eq {buf : List U8} {p : Nat} (hp : p + 1 < buf.length)
    (heq : block buf p 1 = block buf (p + 1) 1) : buf.eraseIdx (p + 1) = buf.eraseIdx p := by
  have hget : ∀ i (hi : i < buf.length), block buf i 1 = [buf.get ⟨i, hi⟩] := by
    intro i hi
    rw [block, List.drop_eq_getElem_cons hi]
    rfl
  rw [hget p (by omega), hget (p + 1) hp, List.cons.injEq] at heq
  rw [List.eraseIdx_eq_take_drop_succ, List.eraseIdx_eq_take_drop_succ,
    List.take_succ_eq_append_getElem (by omega), List.drop_eq_getElem_cons hp, List.append_assoc]
  exact congrArg (fun b => buf.take p ++ b :: buf.drop (p + 1 + 1)) heq.1

/-- What holds before every turn of the deletion loop that was started in `s₀`. -/
structure RoundInv (f : List U8 → Bool) (n : Nat) (s₀ : TminState) (delLen : Nat) (d : DelState) :
    Prop where
  sound : Sound f n d.s
  unchanged : Unchanged s₀ d.s
  shrinks : Shrinks s₀ d.s
  /-- After a block that was not deleted there is one to compare with. -/
  behind : d.prevDel = false → delLen ≤ d.delPos
  /-- The positions that are behind were tried on the buffer as it is now, or did not have to be. -/
  tried : delLen = 1 → d.s.changedAny = false →
    ∀ p < d.delPos, p < d.s.inData.length → f (d.s.inData.eraseIdx p) = false

namespace RoundInv

variable {s₀ : TminState} {delLen delPos : Nat} {prevDel : Bool}

/-- A block that equals its predecessor is passed over. -/
theorem skip (h : RoundInv f n s₀ delLen ⟨s, delPos, prevDel⟩) (hin : delPos < s.inData.length)
    (hprev : prevDel = false)
    (hblock : block s.inData (delPos - delLen) delLen = block s.inData delPos delLen) :
    RoundInv f n s₀ delLen ⟨s, delPos + delLen, prevDel⟩ := by
  refine ⟨h.sound, h.unchanged, h.shrinks, fun _ => Nat.le_add_left _ _, ?_⟩
  intro hone hchanged p hp hplen
  simp only at hp hplen
  subst hone
  by_cases hlast : p = delPos
  · -- Deleting this byte gives what deleting its predecessor gave.
    have hbehind : 1 ≤ delPos := h.behind hprev
    have hsucc : delPos - 1 + 1 = delPos := by omega
    have herase : s.inData.eraseIdx (delPos - 1 + 1) = s.inData.eraseIdx (delPos - 1) :=
      eraseIdx_of_block_eq (by omega) (by rwa [hsucc])
    show f (s.inData.eraseIdx p) = false
    rw [hlast, ← hsucc, herase]
    exact h.tried rfl hchanged (delPos - 1) (Nat.sub_lt hbehind Nat.one_pos)
      (Nat.lt_of_le_of_lt (Nat.sub_le _ _) hin)
  · have hp' : p < delPos := by omega
    exact h.tried rfl hchanged p hp' hplen

/-- The block is gone, and what follows has moved to its place. -/
theorem accept (h : RoundInv f n s₀ delLen ⟨s, delPos, prevDel⟩)
    (hlen : tmpBuf.length < s.inData.length) (hf : f tmpBuf = true) :
    RoundInv f n s₀ delLen ⟨(s.test f .delete tmpBuf tmpBuf).2, delPos, true⟩ := by
  refine ⟨h.sound.test .delete (hlen.le.trans h.sound.length_le),
    h.unchanged.trans (unchanged_test .delete tmpBuf tmpBuf),
    h.shrinks.trans (shrinks_test .delete hlen), fun hprev => ?_, fun _ hchanged => ?_⟩
  · cases hprev
  · have hor : (s.changedAny || f tmpBuf) = false := hchanged
    simp [hf] at hor

/-- The block stays. -/
theorem reject (h : RoundInv f n s₀ delLen ⟨s, delPos, prevDel⟩)
    (htmp : tmpBuf = s.inData.take delPos ++ s.inData.drop (delPos + delLen))
    (hlen : tmpBuf.length < s.inData.length) (hf : f tmpBuf = false) :
    RoundInv f n s₀ delLen ⟨(s.test f .delete tmpBuf tmpBuf).2, delPos + delLen, false⟩ := by
  refine ⟨h.sound.test .delete (hlen.le.trans h.sound.length_le),
    h.unchanged.trans (unchanged_test .delete tmpBuf tmpBuf),
    h.shrinks.trans (shrinks_test .delete hlen), fun _ => Nat.le_add_left _ _, ?_⟩
  intro hone hchanged p hp hplen
  have hdata : (s.test f .delete tmpBuf tmpBuf).2.inData = s.inData := if_neg (by simp [hf])
  simp only [hdata] at hp hplen ⊢
  subst hone
  by_cases hlast : p = delPos
  · rw [hlast, List.eraseIdx_eq_take_drop_succ, ← htmp]
    exact hf
  · have hor : (s.changedAny || f tmpBuf) = false := hchanged
    simp only [hf, Bool.or_false] at hor
    have hp' : p < delPos := by omega
    exact h.tried rfl hor p hp' hplen

/-- One turn of the deletion loop. -/
theorem step {d : DelState} (hpos : 1 ≤ delLen) (h : RoundInv f n s₀ delLen d)
    (hin : d.delPos < d.s.inData.length) :
    ∃ d', delStep f delLen d = .inl d' ∧ RoundInv f n s₀ delLen d' ∧
      d'.s.inData.length - d'.delPos < d.s.inData.length - d.delPos := by
  obtain ⟨s, delPos, prevDel⟩ := d
  simp only at hin
  simp only [delStep, if_pos hin, block_tail]
  split
  · rename_i hskip
    simp only [Bool.and_eq_true, Bool.not_eq_true', beq_iff_eq] at hskip
    exact ⟨_, rfl, h.skip hin hskip.1.1 hskip.2, by simp only; omega⟩
  · have hlen : (s.inData.take delPos ++ s.inData.drop (delPos + delLen)).length <
        s.inData.length := by
      simp only [List.length_append, List.length_take, List.length_drop]
      omega
    generalize htmp : s.inData.take delPos ++ s.inData.drop (delPos + delLen) = tmpBuf at hlen ⊢
    cases hf : f tmpBuf with
    | true =>
      have hdata : (s.test f .delete tmpBuf tmpBuf).2.inData = tmpBuf := if_pos hf
      refine ⟨_, if_pos hf, h.accept hlen hf, ?_⟩
      simp only [hdata]
      omega
    | false =>
      have hdata : (s.test f .delete tmpBuf tmpBuf).2.inData = s.inData := if_neg (by simp [hf])
      refine ⟨_, if_neg (by simp [TminState.test, hf]), h.reject htmp.symm hlen hf, ?_⟩
      simp only [hdata]
      omega

end RoundInv

/-- What the deletion loop for one block length leaves behind. -/
theorem ends_deleteRound {delLen : Nat} (hpos : 1 ≤ delLen) (hs : Sound f n s) :
    Ends (fun budget => deleteRound f delLen budget s) fun s' =>
      Sound f n s' ∧ Unchanged s s' ∧ Shrinks s s' ∧
        (delLen = 1 → s'.changedAny = false → OneMinimal f s'.inData) := by
  refine Ends.repeatStep (RoundInv f n s delLen) (fun d => d.s.inData.length - d.delPos) ?_
    ⟨s, 0, true⟩ ⟨hs, Unchanged.refl s, Shrinks.refl s, fun hprev => (by cases hprev),
      fun _ _ p hp => absurd hp (Nat.not_lt_zero p)⟩
  intro d hd
  refine Ends.pure ?_
  by_cases hin : d.delPos < d.s.inData.length
  · obtain ⟨d', hstep, hd', hlt⟩ := hd.step hpos hin
    rw [hstep]
    exact ⟨hd', hlt⟩
  · -- Every position is behind.
    simp only [delStep, if_neg hin]
    refine ⟨hd.sound, hd.unchanged, hd.shrinks, fun hone hchanged p hp => ?_⟩
    exact hd.tried hone hchanged p (by omega) hp

/-- What the deletion stage leaves behind. Its last round deletes single bytes. -/
theorem ends_deleteBlocks (hs : Sound f n s) :
    Ends (fun budget => deleteBlocks f budget s) fun s' =>
      Sound f n s' ∧ Unchanged s s' ∧ Shrinks s s' ∧
        (s'.changedAny = false → OneMinimal f s'.inData) := by
  refine Ends.repeatStep (fun t => Sound f n t.2 ∧ Unchanged s t.2 ∧ Shrinks s t.2) (fun t => t.1)
    ?_ _ ⟨hs, Unchanged.refl s, Shrinks.refl s⟩
  rintro ⟨delLen, t⟩ ⟨ht, hunchanged, hshrinks⟩
  have hpos : 1 ≤ if delLen = 0 then 1 else delLen := by split <;> omega
  refine Ends.bind (ends_deleteRound hpos ht) ?_
  rintro t' ⟨ht', hunchanged', hshrinks', hmin⟩
  by_cases hmore : (if delLen = 0 then 1 else delLen) > 1 ∧ t'.inData.length ≥ 1
  · simp only [if_pos hmore]
    refine Ends.pure ⟨⟨ht', hunchanged.trans hunchanged', hshrinks.trans hshrinks'⟩, ?_⟩
    have hgt := hmore.1
    by_cases hzero : delLen = 0
    · simp [hzero] at hgt
    · simp only [hzero, if_false] at hgt ⊢
      omega
  · simp only [if_neg hmore]
    refine Ends.pure ⟨ht', hunchanged.trans hunchanged', hshrinks.trans hshrinks', ?_⟩
    intro hchanged p hp
    have hone : (if delLen = 0 then 1 else delLen) = 1 :=
      Nat.le_antisymm (Nat.not_lt.mp fun hgt => hmore ⟨hgt, by omega⟩) hpos
    exact hmin hone hchanged p hp

/-! ### Alphabet and character minimization -/

/-- What the two later stages keep. -/
structure Kept (f : List U8 → Bool) (n : Nat) (s s' : TminState) : Prop where
  sound : Sound f n s'
  unchanged : Unchanged s s'
  length_eq : s'.inData.length = s.inData.length

/-- A test of a buffer of the same length. -/
theorem Kept.test (h : Kept f n s s') (stage : TminStage)
    (hlen : tmpBuf.length = s'.inData.length) : Kept f n s (s'.test f stage tmpBuf tmpBuf).2 :=
  ⟨h.sound.test stage (hlen.trans_le h.sound.length_le),
    h.unchanged.trans (unchanged_test stage tmpBuf tmpBuf),
    (length_test stage hlen).trans h.length_eq⟩

theorem Kept.trans (h : Kept f n s s') (h' : Kept f n s' s'') : Kept f n s s'' :=
  ⟨h'.sound, h.unchanged.trans h'.unchanged, h'.length_eq.trans h.length_eq⟩

theorem kept_minimizeAlphabet (hs : Sound f n s) : Kept f n s (minimizeAlphabet f s) := by
  unfold minimizeAlphabet minimizeAlphabetStats
  refine List.foldlRecOn (motive := fun t : TminState × AlphaStats => Kept f n s t.1) _ _ ?_ ?_
  · exact ⟨⟨hs.accepted, hs.length_le, hs.tests⟩, fun h => ⟨h, rfl⟩, rfl⟩
  · intro t ht i _
    simp only [alphabetStep]
    split
    · exact ht
    · exact ht.test .alphabet (List.length_map _)

/-- Writing back the byte that was there. -/
theorem set_byteOf (buf : List U8) (i : Nat) : buf.set i (byteOf buf i) = buf := by
  by_cases hi : i < buf.length
  · simp [byteOf, hi]
  · exact List.set_eq_of_length_le (Nat.le_of_not_lt hi)

theorem kept_minimizeCharacters (hs : Sound f n s) : Kept f n s (minimizeCharacters f s) := by
  -- `tmp_buf` and `in_data` hold the same bytes before every turn.
  have hinv : ∀ l : List Nat, Kept f n s (l.foldl (characterStep f) (s, s.inData)).1 ∧
      (l.foldl (characterStep f) (s, s.inData)).2 =
        (l.foldl (characterStep f) (s, s.inData)).1.inData := by
    intro l
    refine List.foldlRecOn (motive := fun t : TminState × List U8 =>
      Kept f n s t.1 ∧ t.2 = t.1.inData) _ _ ⟨⟨hs, Unchanged.refl s, rfl⟩, rfl⟩ ?_
    rintro ⟨t, tmpBuf⟩ ⟨ht, htmp⟩ i _
    simp only at ht htmp
    subst htmp
    simp only [characterStep]
    split
    · exact ⟨ht, rfl⟩
    · refine ⟨ht.test .character List.length_set, ?_⟩
      cases hf : f (t.inData.set i zeroDigit) with
      | true => simp [TminState.test, hf]
      | false => simp [TminState.test, hf, set_byteOf]
  exact (hinv _).1

/-! ### All passes -/

/-- One pass. A pass that is followed by another one is the first, or has shortened `in_data`. -/
theorem ends_tminPass {t : Nat × TminState} (ht : Sound f n t.2) :
    Ends (fun budget => tminPass f budget t) (Sum.elim
      (fun t' => Sound f n t'.2 ∧ t'.2.inData.length + (if t'.1 = 0 then 1 else 0) <
        t.2.inData.length + (if t.1 = 0 then 1 else 0))
      (fun s => Sound f n s ∧ OneMinimal f s.inData)) := by
  obtain ⟨curPass, s⟩ := t
  have hstart : Sound f n { s with changedAny := false } := ⟨ht.accepted, ht.length_le, ht.tests⟩
  refine Ends.bind (ends_deleteBlocks hstart) ?_
  rintro s₁ ⟨hs₁, _, hshrinks, hmin⟩
  by_cases hexit : curPass + 1 > 1 ∧ s₁.changedAny = false
  · simp only [if_pos hexit]
    exact Ends.pure ⟨hs₁, hmin hexit.2⟩
  · simp only [if_neg hexit]
    have hkept : Kept f n s₁ (minimizeCharacters f (minimizeAlphabet f s₁)) :=
      (kept_minimizeAlphabet hs₁).trans
        (kept_minimizeCharacters (kept_minimizeAlphabet hs₁).sound)
    have hle : s₁.inData.length ≤ s.inData.length := hshrinks.1
    generalize minimizeCharacters f (minimizeAlphabet f s₁) = s₂ at hkept
    cases hchanged : s₂.changedAny with
    | true =>
      simp only [if_true]
      refine Ends.pure ⟨hkept.sound, ?_⟩
      simp only [hkept.length_eq, Nat.succ_ne_zero, if_false]
      by_cases hfirst : curPass = 0
      · simp only [hfirst, if_true]
        omega
      · -- A later pass has come here because the deletion stage has reported a change.
        have htrue : s₁.changedAny = true := by
          rw [← Bool.not_eq_false]
          intro hfalse
          exact hexit ⟨by omega, hfalse⟩
        have hlt : s₁.inData.length < s.inData.length := hshrinks.2 rfl htrue
        simp only [hfirst, if_false]
        omega
    | false =>
      obtain ⟨hfalse, hdata⟩ := hkept.unchanged hchanged
      simp only [Bool.false_eq_true, if_false]
      refine Ends.pure ⟨hkept.sound, ?_⟩
      rw [hdata]
      exact hmin hfalse

/-- All of `minimize`. -/
theorem ends_minimize {input : TminInput} (h : f input.data = true) :
    Ends (minimize f input) fun s =>
      Sound f input.data.length s ∧ OneMinimal f s.inData := by
  have hstart : Sound f input.data.length { inData := input.data } :=
    ⟨h, Nat.le_refl _, fun t ht => absurd ht List.not_mem_nil⟩
  refine Ends.bind (ends_normalizeBlocks hstart) fun s hs => ?_
  exact Ends.repeatStep (fun t => Sound f input.data.length t.2)
    (fun t => t.2.inData.length + (if t.1 = 0 then 1 else 0)) (fun t ht => ends_tminPass ht)
    (0, s) hs

end Tmin

open Tmin

/-- `minimize` ends for every verdict and every input that it accepts. Its result is accepted and at
no time longer than the input, and after every accepted test `in_data` is the tested buffer. -/
theorem minimize_sound (f : List U8 → Bool) (input : TminInput) (h : f input.data = true) :
    Ends (minimize f input) fun s =>
      f s.inData = true ∧ s.inData.length ≤ input.data.length ∧
        ∀ t ∈ s.tests, t.accepted = f t.tested ∧ t.inData.length ≤ input.data.length ∧
          (t.accepted = true → t.inData = t.tested) :=
  (ends_minimize h).mono fun _ hs => ⟨hs.1.accepted, hs.1.length_le, hs.1.tests⟩

/-- A target that looks for a star, and an input that has one. -/
def hasStar (buf : List U8) : Bool := buf.contains 0x2a

@[inherit_doc hasStar] def starInput : TminInput := ⟨[0x41, 0x2a, 0x42], by decide, by decide⟩

/-- `minimize` on the input with a star. -/
theorem minimize_sound_star :
    hasStar starInput.data = true ∧ Ends (minimize hasStar starInput) fun s =>
      hasStar s.inData = true ∧ s.inData.length ≤ starInput.data.length ∧
        ∀ t ∈ s.tests, t.accepted = hasStar t.tested ∧
          t.inData.length ≤ starInput.data.length ∧ (t.accepted = true → t.inData = t.tested) :=
  ⟨by decide, minimize_sound hasStar starInput (by decide)⟩

example : (minimize hasStar starInput 10).map (·.inData) = some [0x2a] := by decide +kernel

/-- The result of `minimize` is 1-minimal. -/
theorem minimize_oneMinimal (f : List U8 → Bool) (input : TminInput) (h : f input.data = true) :
    Ends (minimize f input) fun s =>
      1 ≤ s.inData.length → ∀ p < s.inData.length, f (s.inData.eraseIdx p) = false :=
  (ends_minimize h).mono fun _ hs _ => hs.2

/-- A star is all that is left. -/
theorem minimize_oneMinimal_star :
    hasStar starInput.data = true ∧ Ends (minimize hasStar starInput) fun s =>
      1 ≤ s.inData.length → ∀ p < s.inData.length, hasStar (s.inData.eraseIdx p) = false :=
  ⟨by decide, minimize_oneMinimal hasStar starInput (by decide)⟩

/-! ### With the dry run -/

section DryRun
variable {mapSize : Nat} (o : VerdictFlags) (hash32 : TraceMap mapSize → U32)
  (target : List U8 → TminOutcome mapSize)

/-- The verdict after the dry run: a candidate is accepted if it does what the input does. -/
theorem verdictOf_iff (input candidate : List U8) :
    verdictOf o hash32 target input candidate = true ↔
      (target candidate).record.timedOut = false ∧
        tminCrashed o (target candidate).record = tminCrashed o (target input).record ∧
        (tminCrashed o (target input).record = false →
          hash32 (target candidate).trace = hash32 (target input).trace) := by
  unfold verdictOf tminVerdict
  dsimp only
  cases (target candidate).record.timedOut <;> cases tminCrashed o (target candidate).record <;>
    cases tminCrashed o (target input).record <;> simp
  exact eq_comm

/-- What afl-tmin does to a file that does not time out: the result crashes like it or has the same
trace checksum, and without one of its bytes it does not. -/
theorem tmin_keeps_outcome {file : List U8} {input : TminInput}
    (hread : readInitialFile file = .ok input) (hrun : (target file).record.timedOut = false) :
    Ends (minimize (verdictOf o hash32 target file) input) fun s =>
      s.inData.length ≤ file.length ∧ (target s.inData).record.timedOut = false ∧
        tminCrashed o (target s.inData).record = tminCrashed o (target file).record ∧
        (tminCrashed o (target file).record = false →
          hash32 (target s.inData).trace = hash32 (target file).trace) ∧
        ∀ p < s.inData.length, verdictOf o hash32 target file (s.inData.eraseIdx p) = false := by
  obtain rfl : input.data = file := by
    unfold readInitialFile at hread
    split_ifs at hread
    cases hread
    rfl
  have haccepted := (verdictOf_iff o hash32 target input.data input.data).mpr
    ⟨hrun, rfl, fun _ => rfl⟩
  refine (ends_minimize haccepted).mono fun s ⟨hsound, hminimal⟩ => ?_
  obtain ⟨htime, hcrash, htrace⟩ := (verdictOf_iff o hash32 target _ _).mp hsound.accepted
  exact ⟨hsound.length_le, htime, hcrash, htrace, hminimal⟩

end DryRun

/-- A target that dies when it reads a star. -/
def starTarget (buf : List U8) : TminOutcome 8 :=
  ⟨⟨1, ⟨if hasStar buf then .signaled 6 else .exited 0, 1, false⟩, false, false⟩, .fill 8 1⟩

theorem tmin_keeps_outcome_star :
    Ends (minimize (verdictOf ⟨false, 0, false⟩ (fun _ => 0) starTarget starInput.data) starInput)
      fun s => tminCrashed ⟨false, 0, false⟩ (starTarget s.inData).record = true :=
  (tmin_keeps_outcome ⟨false, 0, false⟩ (fun _ => 0) starTarget rfl rfl).mono fun _ h => h.2.2.1

end TriforceAFL.Proofs
