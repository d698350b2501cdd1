import TriforceAFL.Lib.Meter
import TriforceAFL.Spec.Overwrite

/-!
# `TriforceAFL.Spec.StageMax`: what the deterministic stages account for

`stage_max` starts as the number of candidates of a stage. A candidate that is skipped is taken off,
and what remains at the end is added to `stage_cycles`. `calibrate_case` uses the variable for its
own runs, and restores it.

`TriforceAFL.Spec.Deterministic` has `stage_max` for the bitflip, arithmetic and interesting-value
stages, and `TriforceAFL.Spec.Overwrite` for those that overwrite with dictionary tokens. The stage
"user extras (insert)" follows here.

With `AFL_POST_LIBRARY`, `common_fuzz_stuff` first gives the test case to `post_handler`. It returns
without an execution if the handler rejects the test case, that is, if the handler returns `NULL` or
sets the length to 0. So a logged `exec` is a call of `common_fuzz_stuff`, and `executions` counts
those that run the target.
-/

set_option autoImplicit false

namespace TriforceAFL.Spec

open Lib

/-! ### Calls and executions -/

/-- A call of `common_fuzz_stuff`. -/
def Event.isCall : Event → Bool
  | .exec .. => true
  | .skip .. => false

/-- A call of `common_fuzz_stuff`. -/
def OverAsk.isCall : OverAsk → Bool
  | .exec .. => true
  | .setCurByte _ | .ur _ | .redundant .. | .inspect .. | .restored .. => false

section Post
variable {ε : Type} (isCall : ε → Bool) (rejects : List ε → Bool)

/-- The calls that run the target, after the events `before`. The handler knows what came before,
and `rejects` is about the last call. -/
def executions (before events : List ε) : Nat :=
  countSince (fun before e => isCall e && !rejects (before ++ [e])) before events

/-- The calls whose test case the handler rejects. -/
def rejections (before events : List ε) : Nat :=
  countSince (fun before e => isCall e && rejects (before ++ [e])) before events

end Post

/-- `common_fuzz_stuff` with a post-processor. -/
def commonFuzzStuffPost (env : DetEnv) (rejects : List Event → Bool) (stage : Stage)
    (s : DetState) : StageM DetState :=
  let s := { s with
    log := s.log ++ [.exec stage s.stageCurByte s.stageValType s.stageCurVal s.outBuf] }
  -- `if (!out_buf || !len) return 0;`
  if rejects s.log then .ok s
  else if env.abandon s.log then .error s else .ok s

/-- A test case that the post-processor rejects does not abandon the entry. -/
def DetEnv.withPost (env : DetEnv) (rejects : List Event → Bool) : DetEnv :=
  { env with abandon := fun log => !rejects log && env.abandon log }

/-! ### The stages with dictionary tokens -/

namespace Counted

open Overwrite

/-- Insertion of all tokens at offset `i`. The accumulator is `stage_max`. -/
def insertOffset (tokens : List (List U8)) (outBuf : List U8) (stageMax : U32) (i : Nat) :
    Over (Option U32) := do
  ask (.setCurByte i)
  Asks.foldUntil (fun stageMax data => do
    let bail : Bool ← ask (.exec i data (Session.insertAt outBuf i data))
    pure (if bail then none else some stageMax)) tokens stageMax

/-- Insertion of tokens at every offset. The result is `stage_max`. -/
def insertExtras (tokens : List (List U8)) (outBuf : List U8) : Over (Option U32) :=
  Asks.foldUntil (insertOffset tokens outBuf) (List.range outBuf.length)
    (BitVec.ofNat 32 (tokens.length * outBuf.length))

/-- `stage_max` after the stage "user extras (over)". -/
def userExtrasOver (d : Dictionary) (effMap : List Bool) (inBuf : List U8) : Over (Option U32) := do
  let r ← Overwrite.userExtrasOver d effMap inBuf
  pure (r.map Prod.snd)

/-- `stage_max` after the stage "user extras (insert)". -/
def userExtrasInsert (d : Dictionary) (outBuf : List U8) : Over (Option U32) :=
  insertExtras (d.extras.map (·.data)) outBuf

/-- `stage_max` after the stage "auto extras (over)". -/
def autoExtrasOver (d : Dictionary) (effMap : List Bool) (inBuf : List U8) : Over (Option U32) := do
  let r ← Overwrite.autoExtrasOver d effMap inBuf
  pure (r.map Prod.snd)

end Counted

end TriforceAFL.Spec
