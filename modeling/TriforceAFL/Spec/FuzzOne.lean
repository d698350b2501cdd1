import TriforceAFL.Lib.Logged
import TriforceAFL.Spec.Havoc

/-!
# `TriforceAFL.Spec.FuzzOne`: fuzzing one queue entry

`fuzz_one` takes the current entry through its stages: a new calibration if the first one failed,
trimming, the score, the deterministic stages, the dictionary stages, and the random stages of
`Spec.Havoc`. `abandon_entry` closes every path except the early returns for skipped entries.

The deterministic stages are those of `Spec.Deterministic`, which logs the executions that it asks
for. `runEvents` carries them out. The answers that the stages need on the way, whether to bail out
and the checksum of the trace, are read off the same executions (`detEnv`).

Every stage restores `out_buf`: the deterministic ones after each candidate, the dictionary ones
after each offset, since tokens are sorted by size. So the next stage starts from the input again.
-/

set_option autoImplicit false

namespace TriforceAFL.Spec

open Lib

/-- `stage_short` of a deterministic stage. -/
def Stage.short : Stage → Text
  | .flip1 => "flip1".toList
  | .flip2 => "flip2".toList
  | .flip4 => "flip4".toList
  | .flip8 => "flip8".toList
  | .flip16 => "flip16".toList
  | .flip32 => "flip32".toList
  | .arith8 => "arith8".toList
  | .arith16 => "arith16".toList
  | .arith32 => "arith32".toList
  | .int8 => "int8".toList
  | .int16 => "int16".toList
  | .int32 => "int32".toList

namespace Session

variable {mapSize : Nat}

/-! ### Skipping and calibration -/

/-- Is the entry skipped, possibly in favor of new arrivals? -/
def skipEntry (w : World mapSize) (q : Ptr) : Fuzz mapSize Bool := do
  let s ← Process.get
  let g := s.globals
  let e := g.entry q
  if g.pendingFavored ≠ 0 then
    if e.wasFuzzed || !e.favored then chance w SKIP_TO_NEW_PROB else pure false
  else if !g.dumbMode && !e.favored && decide (g.queuedPaths > 10) then
    if decide (g.queueCycle > 1) && !e.wasFuzzed then chance w SKIP_NFAV_NEW_PROB
    else chance w SKIP_NFAV_OLD_PROB
  else pure false

/-- Another chance for an entry, unless it has used them up. -/
def calibrateAgain (w : World mapSize) (q : Ptr) (calFailed queueCycle : Nat) :
    Fuzz mapSize Fault :=
  if calFailed < CAL_CHANCES then calibrate w q ((queueCycle + (2 ^ 32 - 1)) % 2 ^ 32)
  else pure .hang

/-- Calibrate the entry again if it failed earlier on. Returns whether it is abandoned. -/
def recalibrate (w : World mapSize) (q : Ptr) : Fuzz mapSize Bool := do
  let s ← Process.get
  let calFailed := (s.globals.entry q).calFailed
  if calFailed = 0 then pure false
  else do
    let res ← calibrateAgain w q calFailed s.globals.queueCycle
    if res = .error then Process.exit .unableToExecute
    else do
      let stop ← checkStop w
      pure (stop || decide (res ≠ s.globals.crashMode))

/-! ### Trimming -/

/-- The locals of `trim_case`. `buf` is `in_buf`, of length `q->len`. -/
structure TrimState (mapSize : Nat) where
  buf : List U8
  lenP2 : Nat
  /-- The trace of the first deletion that had no impact. -/
  cleanTrace : Option (TraceMap mapSize) := none
  fault : Fault := .none

/-- One pass over the input, from `removePos` on. The flag is set on a jump to `abort_trimming`.
Every turn brings `removePos` and the end of the buffer closer together. -/
def trimPass (w : World mapSize) (q : Ptr) (removeLen : Nat) :
    Nat → Nat → TrimState mapSize → Fuzz mapSize (Bool × TrimState mapSize)
  | 0, _, t => pure (false, t)
  | fuel + 1, removePos, t =>
    if removePos < t.buf.length then do
      let trimAvail := min removeLen (t.buf.length - removePos)
      let fault ← runTarget w
      let s ← Process.get
      if s.stopSoon || decide (fault = .error) then pure (true, { t with fault })
      else if w.env.hash32 s.globals.traceBits = (s.globals.entry q).execCksum then do
        -- The deletion had no impact on the trace, so it is made permanent.
        let buf := deleteAt t.buf removePos trimAvail
        setGlobals fun g => g.updateEntry q fun e => { e with len := buf.length }
        trimPass w q removeLen fuel removePos {
          buf
          lenP2 := nextP2 buf.length
          cleanTrace := t.cleanTrace.or (some s.globals.traceBits)
          fault }
      else trimPass w q removeLen fuel (removePos + removeLen) { t with fault }
    else pure (false, t)

/-- The passes, with smaller and smaller chunks. -/
def trimPasses (w : World mapSize) (q : Ptr) :
    Nat → Nat → TrimState mapSize → Fuzz mapSize (Bool × TrimState mapSize)
  | 0, _, t => pure (false, t)
  | fuel + 1, removeLen, t =>
    if removeLen ≥ max (t.lenP2 / TRIM_END_STEPS) TRIM_MIN_BYTES then do
      let (abort, t) ← trimPass w q removeLen t.buf.length removeLen t
      if abort then pure (true, t) else trimPasses w q fuel (removeLen >>> 1) t
    else pure (false, t)

/-- The globals after the file of an entry was removed. -/
def dropFile (g : FuzzState mapSize) (q : Ptr) : FuzzState mapSize :=
  { g with queueFiles := g.queueFiles.filter (·.1 ≠ (g.entry q).fname) }

/-- The globals after the file of an entry was replaced. -/
def replaceFile (g : FuzzState mapSize) (q : Ptr) (buf : List U8) : FuzzState mapSize :=
  { g with queueFiles := (dropFile g q).queueFiles ++ [((g.entry q).fname, buf)] }

/-- Update the on-disk version of the test case, and score it with the clean trace. The old file is
gone even if the new one cannot be created. -/
def writeTrimmed (w : World mapSize) (q : Ptr) (buf : List U8) (trace : TraceMap mapSize) :
    Fuzz mapSize Unit := do
  let created ← Process.step fun s => .ok (w.canCreate s.clock, s.tick)
  if created then
    setGlobals fun g => updateBitmapScore { replaceFile g q buf with traceBits := trace } q
  else do
    setGlobals fun g => dropFile g q
    let s ← Process.get
    Process.exit (.unableToCreate (s.globals.entry q).fname)

/-- Trim the entry. Returns the last fault and what is left of the input. -/
def trimCase (w : World mapSize) (q : Ptr) (inBuf : List U8) :
    Fuzz mapSize (Fault × List U8) :=
  if inBuf.length < 5 then pure (.none, inBuf)
  else do
    let lenP2 := nextP2 inBuf.length
    let removeLen := max (lenP2 / TRIM_START_STEPS) TRIM_MIN_BYTES
    let (abort, t) ← trimPasses w q removeLen removeLen { buf := inBuf, lenP2 }
    match abort, t.cleanTrace with
    | false, some trace => do
        writeTrimmed w q t.buf trace
        pure (t.fault, t.buf)
    | _, _ => pure (t.fault, t.buf)

/-- The trimming stage. `none` if the entry is abandoned. -/
def trimStage (w : World mapSize) (q : Ptr) (inBuf : List U8) :
    Fuzz mapSize (Option (List U8)) := do
  let s ← Process.get
  if s.globals.dumbMode || s.trimmed.contains q then pure (some inBuf)
  else do
    let (res, buf) ← trimCase w q inBuf
    if res = .error then Process.exit .unableToExecute
    else do
      let stop ← checkStop w
      if stop then pure none
      else do
        -- Don't retry trimming, even if it failed.
        Process.modify fun s => { s with trimmed := q :: s.trimmed }
        pure (some buf)

/-! ### The deterministic stages -/

/-- Carry out the executions of a log, until one of them bails out. -/
def runEvents (w : World mapSize) : List Event → Fuzz mapSize Bool
  | [] => pure false
  | .skip _ _ _ :: events => runEvents w events
  | .exec stage curByte valType curVal buf :: events => do
      setOp fun op => { op with
        stageShort := stage.short
        stageCurByte := curByte
        stageValType := valType
        stageCurVal := curVal }
      let bail ← commonFuzzStuff w buf
      if bail then pure true else runEvents w events

/-- What the deterministic stages learn from their executions, when they start in state `s`. -/
def detEnv (w : World mapSize) (s : Session mapSize) (q : Ptr) : DetEnv where
  dumbMode := s.globals.dumbMode
  passedDet := (s.globals.entry q).passedDet
  execCksum := (s.globals.entry q).execCksum
  abandon log := match (runEvents w log s).result with
    | .ok bail => bail
    | .error _ => true
  cksum log := w.env.hash32 (runEvents w log s).final.globals.traceBits

/-- Pass the detected tokens to `maybe_add_auto`. -/
def addTokens (w : World mapSize) (tokens : List (List U8)) : Fuzz mapSize Unit :=
  tokens.forM fun token => Process.modify fun s => { s.tick with
    dict := maybeAddAuto w.dictEnv s.dict token (w.random s.clock) }

/-- The bitflip, arithmetic and interesting-value stages. The result is the effector map, or `none`
if the entry is abandoned. -/
def simpleStages (w : World mapSize) (q : Ptr) (inBuf : List U8) :
    Fuzz mapSize (Option (List Bool)) := do
  let s ← Process.get
  let final := finalState (deterministic (detEnv w s q) inBuf.length { outBuf := inBuf })
  let bail ← runEvents w final.log
  addTokens w final.autoTokens
  if bail then pure none else pure (some final.effMap)

/-! ### The dictionary stages -/

/-- `memchr(eff_map + EFF_APOS(i), 1, EFF_SPAN_ALEN(i, n))`. -/
def effSpan (effMap : List Bool) (i n : Nat) : Bool :=
  ((effMap.drop (effApos i)).take (effApos (i + n - 1) - effApos i + 1)).contains true

/-- Are the dice against a token? Tokens are used probabilistically if there are more than
`manyLimit`. -/
def unlucky (w : World mapSize) (manyLimit : Option Nat) (cnt : Nat) : Fuzz mapSize Bool :=
  match manyLimit with
  | some limit =>
    if cnt > limit then do
      let r ← ur w cnt
      pure (decide (r ≥ limit))
    else pure false
  | none => pure false

/-- One token at offset `i`. The accumulator is `out_buf` and `last_len`. -/
def overwriteTurn (w : World mapSize) (manyLimit : Option Nat) (cnt : Nat) (effMap : List Bool)
    (i : Nat) (acc : List U8 × Nat) (data : List U8) :
    Fuzz mapSize (Option (List U8 × Nat)) := do
  let skip ← unlucky w manyLimit cnt
  if skip || decide (data.length > acc.1.length - i) || decide (data = slice acc.1 i data.length) ||
      !effSpan effMap i data.length then pure (some acc)
  else do
    let outBuf := overwrite acc.1 i data
    let bail ← commonFuzzStuff w outBuf
    pure (if bail then none else some (outBuf, data.length))

/-- All tokens at offset `i`; then the clobbered memory is restored. -/
def overwriteOffset (w : World mapSize) (manyLimit : Option Nat) (tokens : List (List U8))
    (effMap : List Bool) (inBuf outBuf : List U8) (i : Nat) :
    Fuzz mapSize (Option (List U8)) := do
  setOp fun op => { op with stageCurByte := i }
  let r ← Process.foldUntil (overwriteTurn w manyLimit tokens.length effMap i) tokens (outBuf, 0)
  match r with
  | none => pure none
  | some (outBuf, lastLen) => pure (some (overwrite outBuf i (slice inBuf i lastLen)))

/-- Overwrite with extras. The result is `out_buf`, or `none` if the entry is abandoned. -/
def overwriteExtras (w : World mapSize) (short : Text) (manyLimit : Option Nat)
    (tokens : List (List U8)) (effMap : List Bool) (inBuf : List U8) :
    Fuzz mapSize (Option (List U8)) := do
  setOp fun op => { op with stageShort := short, stageValType := .none }
  Process.foldUntil (overwriteOffset w manyLimit tokens effMap inBuf) (List.range inBuf.length)
    inBuf

/-- Insertion of all tokens at offset `i`. -/
def insertOffset (w : World mapSize) (tokens : List (List U8)) (outBuf : List U8) (i : Nat) :
    Fuzz mapSize (Option Unit) := do
  setOp fun op => { op with stageCurByte := i }
  Process.foldUntil (fun _ data => do
    let bail ← commonFuzzStuff w (insertAt outBuf i data)
    pure (if bail then none else some ())) tokens ()

/-- Insertion of user-supplied extras. -/
def insertExtras (w : World mapSize) (tokens : List (List U8)) (outBuf : List U8) :
    Fuzz mapSize (Option Unit) := do
  setOp fun op => { op with stageShort := "ext_UI".toList }
  Process.foldUntil (fun _ i => insertOffset w tokens outBuf i) (List.range outBuf.length) ()

/-- The stages "user extras (over)" and "user extras (insert)". -/
def userExtras (w : World mapSize) (effMap : List Bool) (inBuf : List U8) :
    Fuzz mapSize (Option (List U8)) := do
  let s ← Process.get
  let tokens := s.dict.extras.map (·.data)
  if tokens.isEmpty then pure (some inBuf)
  else do
    let r ← overwriteExtras w "ext_UO".toList (some MAX_DET_EXTRAS) tokens effMap inBuf
    match r with
    | none => pure none
    | some outBuf => do
        let r ← insertExtras w tokens outBuf
        pure (r.map fun _ => outBuf)

/-- The stage "auto extras (over)". -/
def autoExtras (w : World mapSize) (effMap : List Bool) (inBuf : List U8) :
    Fuzz mapSize (Option (List U8)) := do
  let s ← Process.get
  let tokens := (s.dict.aExtras.take USE_AUTO_EXTRAS).map (·.data)
  if tokens.isEmpty then pure (some inBuf)
  else overwriteExtras w "ext_AO".toList none tokens effMap inBuf

/-- `mark_as_det_done`. -/
def markAsDetDone (w : World mapSize) (q : Ptr) : Fuzz mapSize Unit := do
  let s ← Process.get
  createFile w (s.globals.outDir ++ "/queue/.state/deterministic_done/".toList ++
    fileNameOf (s.globals.entry q).fname)
  setGlobals fun g => g.updateEntry q fun e => { e with passedDet := true }

/-- Everything between the score and the label `havoc_stage`. Returns whether the entry is
abandoned. -/
def detStages (w : World mapSize) (q : Ptr) (inBuf : List U8) : Fuzz mapSize Bool := do
  let s ← Process.get
  let e := s.globals.entry q
  if w.options.skipDeterministic || e.wasFuzzed || e.passedDet then pure false
  else do
    let r ← simpleStages w q inBuf
    match r with
    | none => pure true
    | some effMap => do
        let r ← userExtras w effMap inBuf
        match r with
        | none => pure true
        | some _ => do
            let r ← autoExtras w effMap inBuf
            match r with
            | none => pure true
            | some _ => do
                markAsDetDone w q
                pure false

/-! ### `fuzz_one` -/

/-- The stages, after the test case has been mapped into memory. Returns whether they jumped to
`abandon_entry`. -/
def fuzzStages (w : World mapSize) (q : Ptr) (inBuf : List U8) : Fuzz mapSize Bool := do
  let failed ← recalibrate w q
  if failed then pure true
  else do
    let r ← trimStage w q inBuf
    match r with
    | none => pure true
    | some inBuf => do
        let perfScore ← calculateScore w q
        let bail ← detStages w q inBuf
        if bail then pure true else randomStages w q inBuf perfScore

/-- The code at the label `abandon_entry`. -/
def abandonCase (w : World mapSize) (q : Ptr) : Fuzz mapSize Unit := do
  setOp fun op => { op with splicingWith := -1 }
  let stop ← checkStop w
  setGlobals fun g => abandonEntry g q stop

/-- Take the current entry from the queue and fuzz it for a while. Returns 0 if fuzzed successfully,
1 if skipped or bailed out. -/
def fuzzOne (w : World mapSize) : Fuzz mapSize Bool := do
  let s ← Process.get
  match s.queueCur with
  | none => Process.exit .nullPointer
  | some q => do
      let skip ← skipEntry w q
      if skip then pure true
      else do
        let s ← Process.get
        let e := s.globals.entry q
        let inBuf ← readCase e.fname e.len
        Process.modify fun s => { s with
          subseqHangs := 0
          globals := { s.globals with curDepth := e.depth } }
        let bail ← fuzzStages w q inBuf
        abandonCase w q
        pure bail

end Session

end TriforceAFL.Spec
