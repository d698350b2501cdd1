import TriforceAFL.Spec.Havoc

/-!
# `TriforceAFL.Spec.HavocBounds`: the machine arithmetic of the havoc loop

`Spec.Session` and `Spec.Havoc` count with natural numbers. Here the score of an entry is a `u32`,
with the multiplications of `calculate_score` in it, and `stage_cur` and `stage_max` are `s32`. An
operation on an `s32` that overflows has no result.

The comparisons with floating-point factors can come out in any way.
-/

set_option autoImplicit false

namespace TriforceAFL.Spec

namespace Machine

/-- The results of the comparisons in `calculate_score`: seven of `exec_us` with its average and six
of `bitmap_size`, in the order of the source. -/
structure ScoreTests where
  speed : Nat → Bool
  bitmap : Nat → Bool

/-- `perf_score *= x` for a `double` with the value `num / den`. The product is truncated. -/
def times (perfScore : U32) (num den : Nat) : U32 :=
  BitVec.ofNat 32 (perfScore.toNat * num / den)

/-- The score for the execution speed. -/
def speedScore (tests : ScoreTests) : U32 :=
  if tests.speed 0 then 10
  else if tests.speed 1 then 25
  else if tests.speed 2 then 50
  else if tests.speed 3 then 75
  else if tests.speed 4 then 300
  else if tests.speed 5 then 200
  else if tests.speed 6 then 150
  else 100

/-- The adjustment for the size of the bitmap. -/
def bitmapScore (tests : ScoreTests) (perfScore : U32) : U32 :=
  if tests.bitmap 0 then perfScore * 3
  else if tests.bitmap 1 then perfScore * 2
  else if tests.bitmap 2 then times perfScore 3 2
  else if tests.bitmap 3 then times perfScore 1 4
  else if tests.bitmap 4 then times perfScore 1 2
  else if tests.bitmap 5 then times perfScore 3 4
  else perfScore

/-- The adjustment for the handicap. -/
def handicapScore (handicap : Nat) (perfScore : U32) : U32 :=
  if handicap ≥ 4 then perfScore * 4 else if handicap ≠ 0 then perfScore * 2 else perfScore

/-- The adjustment for the depth of the input. -/
def depthScore (depth : Nat) (perfScore : U32) : U32 :=
  if depth ≤ 3 then perfScore
  else if depth ≤ 7 then perfScore * 2
  else if depth ≤ 13 then perfScore * 4
  else if depth ≤ 25 then perfScore * 6
  else perfScore * 8

/-- `calculate_score`, up to the new handicap of the entry. -/
def calculateScore (tests : ScoreTests) (handicap depth : Nat) : U32 :=
  let perfScore := depthScore depth (handicapScore handicap (bitmapScore tests (speedScore tests)))
  if perfScore.toNat > HAVOC_MAX_MULT * 100 then BitVec.ofNat 32 (HAVOC_MAX_MULT * 100)
  else perfScore

/-! ### The havoc loop -/

/-- The value of an operation on `s32`, unless it overflows. -/
def s32 (v : Int) : Option Int := if -2 ^ 31 ≤ v ∧ v < 2 ^ 31 then some v else none

/-- The variables that control the havoc loop. -/
structure HavocVars where
  stageCur : Int
  stageMax : Int
  perfScore : U32
  havocQueued : U32

/-- `stage_max` before the loop. -/
def stageMaxStart (splicing : Bool) (perfScore havocDiv : U32) : Int :=
  let cycles := BitVec.ofNat 32 (if splicing then SPLICE_HAVOC else HAVOC_CYCLES)
  let stageMax := (cycles * perfScore / havocDiv / 100).toInt
  if stageMax < HAVOC_MIN then HAVOC_MIN else stageMax

/-- The variables before the loop. -/
def havocStart (splicing : Bool) (perfScore havocDiv queuedPaths : U32) : HavocVars where
  stageCur := 0
  stageMax := stageMaxStart splicing perfScore havocDiv
  perfScore := perfScore
  havocQueued := queuedPaths

/-- The end of a turn, with the number of paths that are queued then. -/
def HavocVars.turn (h : HavocVars) (queuedPaths : U32) : Option HavocVars := do
  let h ← if queuedPaths ≠ h.havocQueued then do
      let h ← if h.perfScore.toNat ≤ HAVOC_MAX_MULT * 100 then do
          let stageMax ← s32 (h.stageMax * 2)
          pure { h with stageMax, perfScore := h.perfScore * 2 }
        else pure h
      pure { h with havocQueued := queuedPaths }
    else pure h
  let stageCur ← s32 (h.stageCur + 1)
  pure { h with stageCur }

/-- The variables after `n` turns, or when the loop has been left before. `queued` gives the number
of paths at the end of each turn. -/
def havocVars (queued : Nat → U32) (h : HavocVars) : Nat → Option HavocVars
  | 0 => some h
  | n + 1 => do
      let h ← havocVars queued h n
      if h.stageCur < h.stageMax then h.turn (queued n) else pure h

end Machine

end TriforceAFL.Spec
