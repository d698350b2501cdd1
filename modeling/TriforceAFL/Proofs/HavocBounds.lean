import TriforceAFL.Spec.HavocBounds

/-!
# `TriforceAFL.Proofs.HavocBounds`: the havoc loop is bounded

The loop of the havoc stage doubles its own bound when it finds something, as long as the score is
at most `HAVOC_MAX_MULT * 100`, and doubles the score with it. The score starts at 2 or more
(`between_calculateScore`), so `stage_max` is never more than fifty times the score (`Bounded`): the
clamp to `HAVOC_MIN` stays below that, and doubling both keeps it.

`scoreOf_eq` and `toState_nextVars` connect the results with the model of a session.
-/

set_option autoImplicit false

namespace TriforceAFL.Proofs

open Lib Spec Machine

namespace Machine

variable {h : HavocVars}

/-! ### The score -/

section Score
variable {perfScore : U32} {lo hi : Nat}

/-- A score between two bounds. -/
def Between (lo hi : Nat) (perfScore : U32) : Prop := lo ≤ perfScore.toNat ∧ perfScore.toNat ≤ hi

instance : Decidable (Between lo hi perfScore) := inferInstanceAs (Decidable (_ ∧ _))

theorem Between.mono {lo' hi' : Nat} (h : Between lo hi perfScore) (hlo : lo' ≤ lo)
    (hhi : hi ≤ hi') : Between lo' hi' perfScore :=
  ⟨hlo.trans h.1, h.2.trans hhi⟩

theorem toNat_mul_lit {k : Nat} (h : perfScore.toNat * k < 2 ^ 32) :
    (perfScore * BitVec.ofNat 32 k).toNat = perfScore.toNat * k := by
  rw [BitVec.toNat_mul, BitVec.toNat_ofNat, Nat.mul_mod_mod]
  exact Nat.mod_eq_of_lt h

/-- A product with a small factor. -/
theorem Between.mul {k : Nat} (h : Between lo hi perfScore) (hfits : hi * k < 2 ^ 32) :
    Between (lo * k) (hi * k) (perfScore * BitVec.ofNat 32 k) := by
  have hle : perfScore.toNat * k ≤ hi * k := Nat.mul_le_mul_right k h.2
  rw [Between, toNat_mul_lit (Nat.lt_of_le_of_lt hle hfits)]
  exact ⟨Nat.mul_le_mul_right k h.1, hle⟩

/-- A product that is truncated. -/
theorem Between.times {num den : Nat} (h : Between lo hi perfScore) (hfits : hi * num < 2 ^ 32) :
    Between (lo * num / den) (hi * num / den) (times perfScore num den) := by
  have hle : perfScore.toNat * num / den ≤ hi * num / den :=
    Nat.div_le_div_right (Nat.mul_le_mul_right num h.2)
  have hlt : perfScore.toNat * num / den < 2 ^ 32 :=
    Nat.lt_of_le_of_lt (hle.trans (Nat.div_le_self _ _)) hfits
  rw [Between, Machine.times, BitVec.toNat_ofNat, Nat.mod_eq_of_lt hlt]
  exact ⟨Nat.div_le_div_right (Nat.mul_le_mul_right num h.1), hle⟩

theorem between_speedScore (tests : ScoreTests) : Between 10 300 (speedScore tests) := by
  unfold speedScore
  split_ifs <;> decide

theorem between_bitmapScore (tests : ScoreTests) (h : Between 10 300 perfScore) :
    Between 2 900 (bitmapScore tests perfScore) := by
  unfold bitmapScore
  split_ifs
  · exact (h.mul (k := 3) (by decide)).mono (by decide) (by decide)
  · exact (h.mul (k := 2) (by decide)).mono (by decide) (by decide)
  · exact (h.times (by decide)).mono (by decide) (by decide)
  · exact (h.times (by decide)).mono (by decide) (by decide)
  · exact (h.times (by decide)).mono (by decide) (by decide)
  · exact (h.times (by decide)).mono (by decide) (by decide)
  · exact h.mono (by decide) (by decide)

theorem between_handicapScore (handicap : Nat) (h : Between 2 900 perfScore) :
    Between 2 3600 (handicapScore handicap perfScore) := by
  unfold handicapScore
  split_ifs
  · exact (h.mul (k := 4) (by decide)).mono (by decide) (by decide)
  · exact (h.mul (k := 2) (by decide)).mono (by decide) (by decide)
  · exact h.mono (by decide) (by decide)

theorem between_depthScore (depth : Nat) (h : Between 2 3600 perfScore) :
    Between 2 28800 (depthScore depth perfScore) := by
  unfold depthScore
  split_ifs
  · exact h.mono (by decide) (by decide)
  · exact (h.mul (k := 2) (by decide)).mono (by decide) (by decide)
  · exact (h.mul (k := 4) (by decide)).mono (by decide) (by decide)
  · exact (h.mul (k := 6) (by decide)).mono (by decide) (by decide)
  · exact (h.mul (k := 8) (by decide)).mono (by decide) (by decide)

/-- The smallest score is a quarter of 10, truncated, and the largest is cut off. -/
theorem between_calculateScore (tests : ScoreTests) (handicap depth : Nat) :
    Between 2 (HAVOC_MAX_MULT * 100) (calculateScore tests handicap depth) := by
  have hscore := between_depthScore depth (between_handicapScore handicap
    (between_bitmapScore tests (between_speedScore tests)))
  unfold calculateScore
  dsimp only
  split
  · decide
  · rename_i hle
    exact ⟨hscore.1, Nat.le_of_not_lt hle⟩

end Score

/-! ### The loop -/

/-- What holds before every turn of the loop, in the model of a session. -/
structure LoopBounded (h : Session.HavocState) : Prop where
  cur_le : h.stageCur ≤ h.stageMax
  /-- The invariant that carries the bound. -/
  max_le : h.stageMax ≤ 50 * h.perfScore
  score_le : h.perfScore ≤ 2 * HAVOC_MAX_MULT * 100

theorem LoopBounded.max_le_limit {h : Session.HavocState} (hb : LoopBounded h) :
    h.stageMax ≤ HAVOC_CYCLES * 2 * HAVOC_MAX_MULT := by
  have hmax := hb.max_le
  have hscore := hb.score_le
  simp only [HAVOC_MAX_MULT, HAVOC_CYCLES] at hscore ⊢
  omega

/-- The bound and the score are doubled together, or not at all. -/
theorem LoopBounded.next {h : Session.HavocState} (hb : LoopBounded h)
    (hlt : h.stageCur < h.stageMax) (queuedPaths : Nat) : LoopBounded (h.next queuedPaths) := by
  have hmax := hb.max_le
  have hscore := hb.score_le
  unfold Session.HavocState.next
  dsimp only
  split_ifs
  · exact ⟨by dsimp only; omega, by dsimp only; omega, by dsimp only; omega⟩
  · exact ⟨by dsimp only; omega, hmax, hscore⟩
  · exact ⟨by dsimp only; omega, hmax, hscore⟩

/-- The variables of the loop in the model of a session. -/
def toState (h : HavocVars) : Session.HavocState where
  stageCur := h.stageCur.toNat
  stageMax := h.stageMax.toNat
  perfScore := h.perfScore.toNat
  havocQueued := h.havocQueued.toNat

/-- The same for the machine. -/
structure Bounded (h : HavocVars) : Prop where
  cur_nonneg : 0 ≤ h.stageCur
  max_nonneg : 0 ≤ h.stageMax
  loop : LoopBounded (toState h)

theorem Bounded.max_le_limit (hb : Bounded h) :
    h.stageMax ≤ HAVOC_CYCLES * 2 * HAVOC_MAX_MULT := by
  have hlimit : h.stageMax.toNat ≤ HAVOC_CYCLES * 2 * HAVOC_MAX_MULT := hb.loop.max_le_limit
  simp only [HAVOC_CYCLES, HAVOC_MAX_MULT] at hlimit ⊢
  omega

theorem s32_of_mem {v : Int} (hlo : -2 ^ 31 ≤ v) (hhi : v < 2 ^ 31) : s32 v = some v :=
  if_pos ⟨hlo, hhi⟩

/-- The next variables, in numbers that do not overflow. -/
def nextVars (h : HavocVars) (queuedPaths : U32) : HavocVars :=
  let doubles := queuedPaths ≠ h.havocQueued ∧ h.perfScore.toNat ≤ HAVOC_MAX_MULT * 100
  { stageCur := h.stageCur + 1
    stageMax := if doubles then h.stageMax * 2 else h.stageMax
    perfScore := if doubles then h.perfScore * 2 else h.perfScore
    havocQueued := queuedPaths }

/-- A turn does not overflow. -/
theorem turn_eq (hb : Bounded h) (queuedPaths : U32) :
    h.turn queuedPaths = some (nextVars h queuedPaths) := by
  have hlimit := hb.max_le_limit
  have hnonneg := hb.cur_nonneg
  have hmax := hb.max_nonneg
  have hcur : h.stageCur.toNat ≤ h.stageMax.toNat := hb.loop.cur_le
  simp only [HAVOC_MAX_MULT, HAVOC_CYCLES] at hlimit
  have hcount : s32 (h.stageCur + 1) = some (h.stageCur + 1) := s32_of_mem (by omega) (by omega)
  have hdouble : s32 (h.stageMax * 2) = some (h.stageMax * 2) := s32_of_mem (by omega) (by omega)
  unfold HavocVars.turn nextVars
  by_cases hnew : queuedPaths ≠ h.havocQueued
  · by_cases hscore : h.perfScore.toNat ≤ HAVOC_MAX_MULT * 100
    · simp [hnew, hscore, hcount, hdouble]
    · simp [hnew, hscore, hcount]
  · have hsame : queuedPaths = h.havocQueued := not_not.mp hnew
    simp [hsame, hcount]

/-- A turn of the model of a session is the machine's. -/
theorem toState_nextVars (hb : Bounded h) (queuedPaths : U32) :
    toState (nextVars h queuedPaths) = (toState h).next queuedPaths.toNat := by
  have hnonneg := hb.cur_nonneg
  have hcount : (h.stageCur + 1).toNat = h.stageCur.toNat + 1 := by omega
  have hsame : queuedPaths.toNat = h.havocQueued.toNat ↔ queuedPaths = h.havocQueued :=
    BitVec.toNat_inj
  by_cases hnew : queuedPaths = h.havocQueued
  · simp [toState, nextVars, Session.HavocState.next, hnew, hcount]
  by_cases hscore : h.perfScore.toNat ≤ HAVOC_MAX_MULT * 100
  · have hfits : h.perfScore.toNat * 2 < 2 ^ 32 := by
      simp only [HAVOC_MAX_MULT] at hscore
      omega
    have hmax : (h.stageMax * 2).toNat = h.stageMax.toNat * 2 := by
      have := hb.max_nonneg
      omega
    simp [toState, nextVars, Session.HavocState.next, hnew, hsame, hscore, hcount, hmax]
    exact hfits
  · simp [toState, nextVars, Session.HavocState.next, hnew, hsame, hscore, hcount]

theorem Bounded.next (hb : Bounded h) (hlt : h.stageCur < h.stageMax) (queuedPaths : U32) :
    Bounded (nextVars h queuedPaths) := by
  have hcur := hb.cur_nonneg
  have hmax := hb.max_nonneg
  refine ⟨?_, ?_, ?_⟩
  · show 0 ≤ h.stageCur + 1
    omega
  · unfold nextVars
    dsimp only
    split_ifs <;> omega
  · rw [toState_nextVars hb]
    refine hb.loop.next ?_ queuedPaths.toNat
    show h.stageCur.toNat < h.stageMax.toNat
    omega

/-- All turns of the loop, whatever they find. After `n` turns the loop has been left, or
`stage_cur` is `n`. -/
theorem havocVars_bounded (queued : Nat → U32) (hb : Bounded h) (hstart : h.stageCur = 0)
    (n : Nat) :
    ∃ h', havocVars queued h n = some h' ∧ Bounded h' ∧
      (h'.stageCur < h'.stageMax → h'.stageCur = n) := by
  induction n with
  | zero => exact ⟨h, rfl, hb, fun _ => hstart⟩
  | succ n ih =>
    obtain ⟨h', hrun, hb', hcur⟩ := ih
    rw [havocVars, hrun]
    by_cases hlt : h'.stageCur < h'.stageMax
    · refine ⟨nextVars h' (queued n), ?_, hb'.next hlt (queued n), ?_⟩
      · show (if h'.stageCur < h'.stageMax then h'.turn (queued n) else pure h') = _
        rw [if_pos hlt, turn_eq hb']
      · intro _
        show h'.stageCur + 1 = _
        rw [hcur hlt]
        rfl
    · refine ⟨h', ?_, hb', fun hmore => absurd hmore hlt⟩
      show (if h'.stageCur < h'.stageMax then h'.turn (queued n) else pure h') = _
      rw [if_neg hlt]
      rfl

/-! ### The start of the loop -/

section Start
variable {perfScore havocDiv : U32} (splicing : Bool)

/-- The model of the start with natural numbers. -/
theorem stageMaxStart_eq (h : Between 2 (HAVOC_MAX_MULT * 100) perfScore) :
    stageMaxStart splicing perfScore havocDiv =
      max ((if splicing then SPLICE_HAVOC else HAVOC_CYCLES) * perfScore.toNat / havocDiv.toNat
        / 100) HAVOC_MIN := by
  have hhigh := h.2
  simp only [HAVOC_MAX_MULT] at hhigh
  have hcycles : (if splicing then SPLICE_HAVOC else HAVOC_CYCLES) ≤ 5000 := by
    split <;> decide
  generalize hcyc : (if splicing then SPLICE_HAVOC else HAVOC_CYCLES) = cycles at hcycles
  have hprod : cycles * perfScore.toNat ≤ 8000000 := Nat.mul_le_mul hcycles hhigh
  have hdiv : cycles * perfScore.toNat / havocDiv.toNat / 100 ≤ 8000000 :=
    ((Nat.div_le_self _ _).trans (Nat.div_le_self _ _)).trans hprod
  have hvalue : (BitVec.ofNat 32 cycles * perfScore / havocDiv / 100).toNat
      = cycles * perfScore.toNat / havocDiv.toNat / 100 := by
    rw [BitVec.toNat_udiv, BitVec.toNat_udiv, BitVec.toNat_mul, BitVec.toNat_ofNat,
      Nat.mod_mul_mod, Nat.mod_eq_of_lt (by omega)]
    rfl
  have hsigned : (BitVec.ofNat 32 cycles * perfScore / havocDiv / 100).toInt
      = (cycles * perfScore.toNat / havocDiv.toNat / 100 : Nat) := by
    rw [BitVec.toInt_eq_toNat_of_lt (by rw [hvalue]; omega), hvalue]
  simp only [stageMaxStart, hcyc, hsigned]
  split <;> omega

theorem bounded_havocStart (h : Between 2 (HAVOC_MAX_MULT * 100) perfScore) (queuedPaths : U32) :
    Bounded (havocStart splicing perfScore havocDiv queuedPaths) := by
  have hlow := h.1
  have hhigh := h.2
  have hstart : stageMaxStart splicing perfScore havocDiv = _ := stageMaxStart_eq splicing h
  have hcycles : (if splicing then SPLICE_HAVOC else HAVOC_CYCLES) ≤ 5000 := by
    split <;> decide
  have hquot : (if splicing then SPLICE_HAVOC else HAVOC_CYCLES) * perfScore.toNat / havocDiv.toNat
      / 100 ≤ 50 * perfScore.toNat := by
    calc (if splicing then SPLICE_HAVOC else HAVOC_CYCLES) * perfScore.toNat / havocDiv.toNat / 100
        ≤ 5000 * perfScore.toNat / 100 :=
          Nat.div_le_div_right ((Nat.div_le_self _ _).trans (Nat.mul_le_mul_right _ hcycles))
      _ = 50 * perfScore.toNat := by omega
  have hmin : HAVOC_MIN = 10 := rfl
  have hnonneg : 0 ≤ stageMaxStart splicing perfScore havocDiv := by
    rw [hstart]
    omega
  refine ⟨Int.le_refl 0, hnonneg, Nat.zero_le _, ?_, ?_⟩
  · show (stageMaxStart splicing perfScore havocDiv).toNat ≤ 50 * perfScore.toNat
    rw [hstart]
    omega
  · show perfScore.toNat ≤ 2 * HAVOC_MAX_MULT * 100
    omega

end Start

end Machine

open Machine

/-- For every entry, however the comparisons in `calculate_score` come out, every divisor and every
sequence of finds during the loop: the score is between 2 and its limit, in the loop it stays within
twice the limit and `stage_max` within 160000, no operation on the signed counters overflows, and
after at most 160000 turns the loop is left. -/
theorem havoc_bounded (tests : ScoreTests) (handicap depth : Nat) (havocDiv : U32)
    (splicing : Bool) (queuedPaths : U32) (queued : Nat → U32) :
    (2 ≤ (calculateScore tests handicap depth).toNat ∧
        (calculateScore tests handicap depth).toNat ≤ HAVOC_MAX_MULT * 100) ∧
      (∀ n, ∃ h, havocVars queued (havocStart splicing (calculateScore tests handicap depth)
          havocDiv queuedPaths) n = some h ∧
        h.perfScore.toNat ≤ 2 * HAVOC_MAX_MULT * 100 ∧
        h.stageMax ≤ HAVOC_CYCLES * 2 * HAVOC_MAX_MULT) ∧
      ∃ h, havocVars queued (havocStart splicing (calculateScore tests handicap depth) havocDiv
          queuedPaths) (HAVOC_CYCLES * 2 * HAVOC_MAX_MULT) = some h ∧
        ¬h.stageCur < h.stageMax := by
  have hscore := between_calculateScore tests handicap depth
  have hstart : Bounded (havocStart splicing (calculateScore tests handicap depth) havocDiv
      queuedPaths) := bounded_havocStart splicing hscore queuedPaths
  have hrun := havocVars_bounded queued hstart rfl
  refine ⟨hscore, fun n => ?_, ?_⟩
  · obtain ⟨h, hn, hb, _⟩ := hrun n
    exact ⟨h, hn, hb.loop.score_le, hb.max_le_limit⟩
  · obtain ⟨h, hn, hb, hcur⟩ := hrun (HAVOC_CYCLES * 2 * HAVOC_MAX_MULT)
    refine ⟨h, hn, fun hlt => ?_⟩
    -- In the loop, `stage_cur` would be as large as the limit of `stage_max`.
    have hturns := hcur hlt
    have hlimit := hb.max_le_limit
    simp only [HAVOC_CYCLES, HAVOC_MAX_MULT] at hturns hlimit
    omega

/-! ### The model of a session -/

namespace Machine

section Session
variable {mapSize : Nat} (w : World mapSize) {perfScore : U32}

/-- The comparisons for an entry, as the model of a session makes them. -/
def testsOf (e : QueueEntry) (avgUs avgBitmap : Nat) : ScoreTests where
  speed
    | 0 => w.tenthExceeds e.execUs avgUs
    | 1 => decide (e.execUs > avgUs * 4)
    | 2 => decide (e.execUs > avgUs * 2)
    | 3 => decide (e.execUs * 3 > avgUs * 4)
    | 4 => decide (e.execUs * 4 < avgUs)
    | 5 => decide (e.execUs * 3 < avgUs)
    | _ => decide (e.execUs * 2 < avgUs)
  bitmap
    | 0 => w.threeTenthsExceed e.bitmapSize avgBitmap
    | 1 => decide (e.bitmapSize > avgBitmap * 2)
    | 2 => decide (e.bitmapSize * 3 > avgBitmap * 4)
    | 3 => decide (e.bitmapSize * 3 < avgBitmap)
    | 4 => decide (e.bitmapSize * 2 < avgBitmap)
    | _ => decide (e.bitmapSize * 3 < avgBitmap * 2)

variable (e : QueueEntry) (avgUs avgBitmap : Nat)

theorem speedScore_eq :
    Session.speedScore w e.execUs avgUs = (speedScore (testsOf w e avgUs avgBitmap)).toNat := by
  simp only [Session.speedScore, speedScore, testsOf, decide_eq_true_eq]
  split_ifs <;> rfl

theorem times_eq {num den : Nat} (h : perfScore.toNat * num < 2 ^ 32) :
    (times perfScore num den).toNat = perfScore.toNat * num / den := by
  rw [times, BitVec.toNat_ofNat]
  exact Nat.mod_eq_of_lt (Nat.lt_of_le_of_lt (Nat.div_le_self _ _) h)

theorem bitmapScore_eq (h : Between 10 300 perfScore) :
    Session.bitmapScore w e.bitmapSize avgBitmap perfScore.toNat
      = (bitmapScore (testsOf w e avgUs avgBitmap) perfScore).toNat := by
  have hhigh := h.2
  have hthree : (perfScore * 3).toNat = perfScore.toNat * 3 := toNat_mul_lit (k := 3) (by omega)
  have htwo : (perfScore * 2).toNat = perfScore.toNat * 2 := toNat_mul_lit (k := 2) (by omega)
  simp only [Session.bitmapScore, bitmapScore, testsOf, decide_eq_true_eq]
  split_ifs
  · exact hthree.symm
  · exact htwo.symm
  · exact (times_eq (by omega)).symm
  · rw [times_eq (by omega), Nat.mul_one]
  · rw [times_eq (by omega), Nat.mul_one]
  · exact (times_eq (by omega)).symm
  · rfl

theorem handicapScore_eq (h : Between 2 900 perfScore) (handicap : Nat) :
    (handicapScore handicap perfScore).toNat
      = if handicap ≥ 4 then perfScore.toNat * 4
        else if handicap ≠ 0 then perfScore.toNat * 2 else perfScore.toNat := by
  have hhigh := h.2
  unfold handicapScore
  split_ifs
  · exact toNat_mul_lit (k := 4) (by omega)
  · exact toNat_mul_lit (k := 2) (by omega)
  · rfl

theorem depthScore_eq (h : Between 2 3600 perfScore) (depth : Nat) :
    (depthScore depth perfScore).toNat = perfScore.toNat * Session.depthFactor depth := by
  have hhigh := h.2
  unfold depthScore Session.depthFactor
  split_ifs
  · exact (Nat.mul_one _).symm
  · exact toNat_mul_lit (k := 2) (by omega)
  · exact toNat_mul_lit (k := 4) (by omega)
  · exact toNat_mul_lit (k := 6) (by omega)
  · exact toNat_mul_lit (k := 8) (by omega)

/-- The score of the model of a session is the machine's. -/
theorem scoreOf_eq :
    Session.scoreOf w e avgUs avgBitmap
      = (calculateScore (testsOf w e avgUs avgBitmap) e.handicap e.depth).toNat := by
  have hspeed := between_speedScore (testsOf w e avgUs avgBitmap)
  have hbitmap := between_bitmapScore (testsOf w e avgUs avgBitmap) hspeed
  have hhandicap := between_handicapScore e.handicap hbitmap
  have hdepth := depthScore_eq hhandicap e.depth
  rw [handicapScore_eq hbitmap, ← bitmapScore_eq w e avgUs avgBitmap hspeed,
    ← speedScore_eq w e avgUs avgBitmap] at hdepth
  unfold calculateScore Session.scoreOf
  dsimp only
  rw [← hdepth]
  split
  · rename_i hlarge
    rw [Nat.min_eq_right (Nat.le_of_lt hlarge)]
    rfl
  · rename_i hsmall
    exact Nat.min_eq_left (Nat.le_of_not_lt hsmall)

end Session

end Machine

end TriforceAFL.Proofs
