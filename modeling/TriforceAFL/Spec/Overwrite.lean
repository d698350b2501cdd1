import TriforceAFL.Lib.Asks
import TriforceAFL.Spec.FuzzOne

/-!
# `TriforceAFL.Spec.Overwrite`: the stages that overwrite with dictionary tokens

The stages "user extras (over)" and "auto extras (over)", as programs that ask for what they do not
know: the dice and the outcome of an execution. They also report a token that `memcmp` skips, the
entries of the effector map that `memchr` looks at, and `out_buf` after the restore at an offset.
`stage_max` starts as the number of candidates, and a candidate that is skipped is taken off.

`TriforceAFL.Spec.FuzzOne` has the same stages as processes of a session, without `stage_max`.
-/

set_option autoImplicit false

namespace TriforceAFL.Spec

open Lib

/-- What the stages ask and report. -/
inductive OverAsk
  /-- `stage_cur_byte = i`. -/
  | setCurByte (i : Nat)
  /-- `UR(limit)`. -/
  | ur (limit : Nat)
  /-- The token is what `out_buf` has at offset `i`. -/
  | redundant (i : Nat) (data : List U8)
  /-- `memchr` searches `n` entries of the effector map from `pos` on. -/
  | inspect (pos n : Nat)
  /-- `common_fuzz_stuff`, after the token was written at offset `i`. -/
  | exec (i : Nat) (data buf : List U8)
  /-- The clobbered memory at offset `i` has been restored. -/
  | restored (i : Nat) (outBuf : List U8)
deriving DecidableEq

/-- The answers. An execution says whether the entry is abandoned. -/
@[reducible]
def OverAsk.Answer : OverAsk → Type
  | .ur _ => Nat
  | .exec _ _ _ => Bool
  | .setCurByte _ | .redundant _ _ | .inspect _ _ | .restored _ _ => Unit

namespace Overwrite

/-- The programs of this module. -/
abbrev Over (α : Type) : Type := Asks OverAsk OverAsk.Answer α

/-- Ask one question. -/
def ask (x : OverAsk) : Over x.Answer := Asks.query x

/-- `extras_cnt > MAX_DET_EXTRAS && UR(extras_cnt) >= MAX_DET_EXTRAS`, if there is a limit. -/
def unlucky (manyLimit : Option Nat) (cnt : Nat) : Over Bool :=
  match manyLimit with
  | some limit =>
    if cnt > limit then do
      let r : Nat ← ask (.ur cnt)
      pure (decide (r ≥ limit))
    else pure false
  | none => pure false

/-- One token at offset `i`. The accumulator is `out_buf` and `last_len`, and `stage_max`. -/
def overwriteTurn (manyLimit : Option Nat) (cnt : Nat) (effMap : List Bool) (i : Nat)
    (acc : (List U8 × Nat) × U32) (data : List U8) : Over (Option ((List U8 × Nat) × U32)) := do
  let skip ← unlucky manyLimit cnt
  if skip then pure (some (acc.1, acc.2 - 1))
  -- There is no room for the token.
  else if data.length > acc.1.1.length - i then pure (some (acc.1, acc.2 - 1))
  else if data = Session.slice acc.1.1 i data.length then do
    ask (.redundant i data)
    pure (some (acc.1, acc.2 - 1))
  else do
    ask (.inspect (effApos i) (effApos (i + data.length - 1) - effApos i + 1))
    if Session.effSpan effMap i data.length then do
      let outBuf := Session.overwrite acc.1.1 i data
      let bail : Bool ← ask (.exec i data outBuf)
      pure (if bail then none else some ((outBuf, data.length), acc.2))
    else pure (some (acc.1, acc.2 - 1))

/-- All tokens at offset `i`; then the clobbered memory is restored. The accumulator is `out_buf`
and `stage_max`. -/
def overwriteOffset (manyLimit : Option Nat) (tokens : List (List U8)) (effMap : List Bool)
    (inBuf : List U8) (acc : List U8 × U32) (i : Nat) : Over (Option (List U8 × U32)) := do
  ask (.setCurByte i)
  let r ← Asks.foldUntil (overwriteTurn manyLimit tokens.length effMap i) tokens
    ((acc.1, 0), acc.2)
  match r with
  | none => pure none
  | some ((outBuf, lastLen), stageMax) => do
      let outBuf := Session.overwrite outBuf i (Session.slice inBuf i lastLen)
      ask (.restored i outBuf)
      pure (some (outBuf, stageMax))

/-- Overwrite with tokens at every offset. The result is `out_buf` and `stage_max`, or `none` if the
entry is abandoned. -/
def overwriteExtras (manyLimit : Option Nat) (tokens : List (List U8)) (effMap : List Bool)
    (inBuf : List U8) : Over (Option (List U8 × U32)) :=
  Asks.foldUntil (overwriteOffset manyLimit tokens effMap inBuf) (List.range inBuf.length)
    (inBuf, BitVec.ofNat 32 (tokens.length * inBuf.length))

/-- The stage "user extras (over)". -/
def userExtrasOver (d : Dictionary) (effMap : List Bool) (inBuf : List U8) :
    Over (Option (List U8 × U32)) :=
  overwriteExtras (some MAX_DET_EXTRAS) (d.extras.map (·.data)) effMap inBuf

/-- The stage "auto extras (over)". -/
def autoExtrasOver (d : Dictionary) (effMap : List Bool) (inBuf : List U8) :
    Over (Option (List U8 × U32)) :=
  overwriteExtras none ((d.aExtras.take USE_AUTO_EXTRAS).map (·.data)) effMap inBuf

end Overwrite

end TriforceAFL.Spec
