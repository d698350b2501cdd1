import TriforceAFL.Proofs.HavocRefines

/-!
# `TriforceAFL.Proofs.Splice`: what a splice makes of its two inputs

A splice takes the first `split_at` bytes of the input and the rest of the target, where `split_at`
is drawn as `f_diff + UR(l_diff - f_diff)`. The byte at `l_diff` is always the target's, so the
result is never the input. The byte at `f_diff` is the input's only if the draw is not zero. With
a draw of zero the result is the target itself (`splice_differs_iff`).

`locateDiffsLoop_eq` ties the loop of `locate_diffs` to the list of all differences, from which
the stages read the first and the last one.
-/

set_option autoImplicit false

namespace TriforceAFL.Proofs

open Lib Spec Spec.HavocMemory

/-! ### The first and the last difference -/

/-- The positions below `n` at which two buffers differ. -/
def diffsBelow (buf1 buf2 : List U8) (n : Nat) : List Nat :=
  (List.range n).filter fun pos => byteOf buf1 pos ≠ byteOf buf2 pos

theorem diffsBelow_succ (buf1 buf2 : List U8) (n : Nat) :
    diffsBelow buf1 buf2 (n + 1)
      = diffsBelow buf1 buf2 n ++ if byteOf buf1 n ≠ byteOf buf2 n then [n] else [] := by
  unfold diffsBelow
  rw [List.range_succ, List.filter_append, List.filter_cons, List.filter_nil]
  by_cases h : byteOf buf1 n = byteOf buf2 n
  · simp [h]
  · simp [h]

/-- `locate_diffs` finds the first and the last position. -/
theorem locateDiffsLoop_diffs (buf1 buf2 : List U8) (n : Nat) :
    Session.locateDiffsLoop buf1 buf2 n
      = ((diffsBelow buf1 buf2 n).head?.elim (-1) Int.ofNat,
        (diffsBelow buf1 buf2 n).getLast?.elim (-1) Int.ofNat) := by
  induction n with
  | zero => rfl
  | succ n ih =>
    unfold Session.locateDiffsLoop at ih ⊢
    rw [List.range_succ, List.foldl_append, List.foldl_cons, List.foldl_nil, ih,
      diffsBelow_succ]
    split
    · -- The first location is set once, the last one every time.
      rw [List.getLast?_append, List.head?_append]
      cases diffsBelow buf1 buf2 n with
      | nil => rfl
      | cons d ds =>
        have hset : Int.ofNat d ≠ -1 := by
          intro h
          cases h
        show (if Int.ofNat d = -1 then (n : Int) else Int.ofNat d, (n : Int)) = _
        rw [if_neg hset]
        rfl
    · rw [List.append_nil]

theorem locateDiffsLoop_eq (buf1 buf2 : List U8) :
    Session.locateDiffsLoop buf1 buf2 (min buf1.length buf2.length)
      = match Session.locateDiffs buf1 buf2 with
        | some (first, last) => ((first : Int), (last : Int))
        | none => (-1, -1) := by
  rw [locateDiffsLoop_diffs]
  unfold Session.locateDiffs diffsBelow
  dsimp only
  cases (List.range (min buf1.length buf2.length)).filter
    fun pos => byteOf buf1 pos ≠ byteOf buf2 pos with
  | nil => rfl
  | cons d ds =>
    rw [List.getLast?_eq_some_getLast (List.cons_ne_nil d ds)]
    rfl

/-- The buffers differ at the two positions, and agree before the first one. -/
theorem locateDiffs_differ {buf1 buf2 : List U8} {first last : Nat}
    (h : Session.locateDiffs buf1 buf2 = some (first, last)) :
    byteOf buf1 first ≠ byteOf buf2 first ∧ byteOf buf1 last ≠ byteOf buf2 last ∧
      ∀ pos < first, byteOf buf1 pos = byteOf buf2 pos := by
  obtain ⟨hle, hlast1, hlast2⟩ := locateDiffs_bounds h
  have hdiffer : ∀ pos ∈ diffsBelow buf1 buf2 (min buf1.length buf2.length),
      byteOf buf1 pos ≠ byteOf buf2 pos := by
    intro pos hpos
    exact of_decide_eq_true (List.mem_filter.mp hpos).2
  have hsorted : (diffsBelow buf1 buf2 (min buf1.length buf2.length)).Pairwise (· < ·) :=
    List.pairwise_lt_range.filter _
  have hmem : ∀ pos < min buf1.length buf2.length, byteOf buf1 pos ≠ byteOf buf2 pos →
      pos ∈ diffsBelow buf1 buf2 (min buf1.length buf2.length) := by
    intro pos hpos hne
    exact List.mem_filter.mpr ⟨List.mem_range.mpr hpos, decide_eq_true hne⟩
  have hdef : (List.range (min buf1.length buf2.length)).filter
      (fun pos => byteOf buf1 pos ≠ byteOf buf2 pos)
      = diffsBelow buf1 buf2 (min buf1.length buf2.length) := rfl
  unfold Session.locateDiffs at h
  dsimp only at h
  rw [hdef] at h
  cases hdiffs : diffsBelow buf1 buf2 (min buf1.length buf2.length) with
  | nil =>
    rw [hdiffs] at h
    cases h
  | cons d ds =>
    rw [hdiffs] at h hdiffer hsorted hmem
    rw [List.getLast?_eq_some_getLast (List.cons_ne_nil d ds)] at h
    cases h
    refine ⟨hdiffer _ List.mem_cons_self, hdiffer _ (List.getLast_mem _), ?_⟩
    intro pos hpos
    by_contra hne
    -- A difference before the first one would be in the list.
    rcases List.mem_cons.mp (hmem pos (by omega) hne) with rfl | hin
    · exact Nat.lt_irrefl _ hpos
    · exact Nat.lt_asymm hpos (List.rel_of_pairwise_cons hsorted hin)

/-! ### The spliced buffer -/

/-- The answers that a splice asks for: the draw of `UR` and the contents of fresh memory. -/
def spliceAnswers (fresh : Nat → List U8) (draw : Nat) : (x : HavocAsk) → Option x.Answer
  | .ur _ => some draw
  | .alloc size => some (fresh size)
  | .access _ _ _ => some ()
  | .over10m | .queueCycle | .dict | .lengths _ _ _ | .refill _ _ | .setStacking _ | .exec _
  | .queuedPaths | .havocDiv | .enterStage _ | .spliceGlobals | .target _ | .outOfBudget => none

/-- The first bytes of the input and the rest of the target. -/
def splicedAt (origIn file : List U8) (splitAt : Nat) : List U8 :=
  origIn.take splitAt ++ file.drop splitAt

theorem byteOf_splicedAt (origIn file : List U8) {splitAt : Nat} (hin : splitAt ≤ origIn.length)
    (i : Nat) :
    byteOf (splicedAt origIn file splitAt) i
      = if i < splitAt then byteOf origIn i else byteOf file i := by
  have hlen : (origIn.take splitAt).length = splitAt := by
    rw [List.length_take, Nat.min_eq_left hin]
  unfold byteOf splicedAt
  rw [List.getD_eq_getElem?_getD, List.getD_eq_getElem?_getD, List.getD_eq_getElem?_getD,
    List.getElem?_append, hlen]
  split
  · rename_i hi
    rw [List.getElem?_take_of_lt hi]
  · rename_i hi
    rw [List.getElem?_drop, Nat.add_sub_of_le (Nat.le_of_not_lt hi)]

/-- Before a position up to which the input agrees with the target, a splice gives the target. -/
theorem splicedAt_of_agree {origIn file : List U8} {splitAt : Nat} (hin : splitAt ≤ origIn.length)
    (hfile : splitAt ≤ file.length) (h : ∀ pos < splitAt, byteOf origIn pos = byteOf file pos) :
    splicedAt origIn file splitAt = file := by
  have htake : origIn.take splitAt = file.take splitAt := by
    apply List.ext_getElem
    · rw [List.length_take, List.length_take, Nat.min_eq_left hin, Nat.min_eq_left hfile]
    · intro pos hpos _
      rw [List.length_take, Nat.min_eq_left hin] at hpos
      have hbyte := h pos hpos
      unfold byteOf at hbyte
      rw [List.getD_eq_getElem _ _ (by omega), List.getD_eq_getElem _ _ (by omega)] at hbyte
      rw [List.getElem_take, List.getElem_take, hbyte]
  unfold splicedAt
  rw [htake, List.take_append_drop]

/-- A splice that passes the checks gives the spliced buffer. -/
theorem interp_spliceFile {fresh : Nat → List U8} (hfresh : ∀ n, (fresh n).length = n)
    {origIn file : List U8} {fDiff lDiff : Nat}
    (hdiffs : Session.locateDiffs origIn file = some (fDiff, lDiff))
    (hchecks : ¬ (lDiff < 2 ∨ fDiff = lDiff)) (draw : Nat) (hdraw : fDiff + draw < lDiff) :
    (spliceFile origIn file).interp (spliceAnswers fresh draw)
      = some (some (splicedAt origIn file (fDiff + draw))) := by
  obtain ⟨_, hin, _⟩ := locateDiffs_bounds hdiffs
  have halloc : (ckAllocNozero file.length).interp (spliceAnswers fresh draw)
      = some (fresh file.length) := rfl
  have hread : (memcpy (fresh file.length) 0 file 0 file.length).interp (spliceAnswers fresh draw)
      = some file := congrArg some (overwrite_whole (hfresh file.length))
  have haccess : ∀ (block : List U8) (i n : Nat),
      (access block i n).interp (spliceAnswers fresh draw) = some () := fun _ _ _ => rfl
  unfold spliceFile
  simp only [Asks.interp_bind, halloc, hread, haccess, Option.bind_eq_bind, Option.bind_some,
    hdiffs, if_neg hchecks]
  show some (some (Session.overwrite file 0 (Session.slice origIn 0 (fDiff + draw)))) = _
  rw [overwrite_head (by omega)]
  rfl

/-- For every input and target that pass the checks, and for every draw, the splice differs from the
target and from the input if and only if the draw is not zero. -/
theorem splice_differs_iff {fresh : Nat → List U8} (hfresh : ∀ n, (fresh n).length = n)
    (origIn file : List U8) {fDiff lDiff : Int}
    (hdiffs : Session.locateDiffsLoop origIn file (min origIn.length file.length) = (fDiff, lDiff))
    (hchecks : ¬ (fDiff < 0 ∨ lDiff < 2 ∨ fDiff = lDiff)) (draw : Nat)
    (hdraw : (draw : Int) < lDiff - fDiff) :
    ∃ buf, (spliceFile origIn file).interp (spliceAnswers fresh draw) = some (some buf) ∧
      buf = origIn.take (fDiff.toNat + draw) ++ file.drop (fDiff.toNat + draw) ∧
      ((buf ≠ file ∧ ∃ i < min origIn.length file.length, byteOf buf i ≠ byteOf origIn i) ↔
        draw ≠ 0) := by
  rw [locateDiffsLoop_eq] at hdiffs
  cases hlocated : Session.locateDiffs origIn file with
  | none =>
    rw [hlocated] at hdiffs
    cases hdiffs
    omega
  | some located =>
    obtain ⟨first, last⟩ := located
    rw [hlocated] at hdiffs
    cases hdiffs
    obtain ⟨_, hin, hfile⟩ := locateDiffs_bounds hlocated
    obtain ⟨hfirst, hlast, hbefore⟩ := locateDiffs_differ hlocated
    have hrun := interp_spliceFile hfresh hlocated (by omega) draw (by omega)
    have hsplit : first + draw ≤ origIn.length := by omega
    have hbyte := byteOf_splicedAt origIn file hsplit
    refine ⟨_, hrun, rfl, ?_⟩
    -- The byte at the last difference comes from the target.
    have hother : ∃ i < min origIn.length file.length,
        byteOf (splicedAt origIn file (first + draw)) i ≠ byteOf origIn i := by
      refine ⟨last, by omega, ?_⟩
      rw [hbyte, if_neg (by omega)]
      exact hlast.symm
    constructor
    · rintro ⟨hne, _⟩ rfl
      -- Nothing is taken from the input but what the two have in common.
      refine hne ?_
      rw [Nat.add_zero]
      exact splicedAt_of_agree (by omega) (by omega) hbefore
    · intro hdraw0
      refine ⟨?_, hother⟩
      intro heq
      have hat := hbyte first
      rw [if_pos (by omega), heq] at hat
      exact hfirst hat.symm

/-- A draw of one splices `1 2 3 4` and `1 5 6 7` to `1 2 6 7`. -/
theorem splice_differs_iff_one :
    ∃ buf, (spliceFile [1, 2, 3, 4] [1, 5, 6, 7]).interp
        (spliceAnswers (fun n => List.replicate n 0) 1) = some (some buf) ∧
      buf = [1, 2, 6, 7] ∧
      ((buf ≠ [1, 5, 6, 7] ∧ ∃ i < 4, byteOf buf i ≠ byteOf [1, 2, 3, 4] i) ↔ 1 ≠ 0) :=
  have hdiffs : Session.locateDiffsLoop [1, 2, 3, 4] [1, 5, 6, 7] 4 = (1, 3) := by decide
  splice_differs_iff (fun _ => List.length_replicate) [1, 2, 3, 4] [1, 5, 6, 7] hdiffs
    (by decide) 1 (by decide)

/-- If the two differing bytes are neighbours, then zero is the only draw: the splice of `1 2 3` and
`1 5 6` is always `1 5 6`. -/
theorem splice_gives_target :
    Session.locateDiffsLoop [1, 2, 3] [1, 5, 6] 3 = (1, 2) ∧
    ∃ buf, (spliceFile [1, 2, 3] [1, 5, 6]).interp
        (spliceAnswers (fun n => List.replicate n 0) 0) = some (some buf) ∧
      ¬ (buf ≠ [1, 5, 6] ∧ ∃ i < 3, byteOf buf i ≠ byteOf [1, 2, 3] i) :=
  ⟨by decide, [1, 5, 6], by decide, fun h => h.1 rfl⟩

end TriforceAFL.Proofs
