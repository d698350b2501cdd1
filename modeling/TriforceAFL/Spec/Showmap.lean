import TriforceAFL.Lib.Logged
import TriforceAFL.Spec.ForkServer

/-!
# `TriforceAFL.Spec.Showmap`: trace files of `afl-showmap.c`

afl-showmap runs the target and writes the tuples of its trace to a file. Without input files on
its command line it does so once (`showmapSingle`). With input files it does so for each of them, in
one process, and writes one trace file for each input (`showmapBatch`). The flags `child_timed_out`
and `child_crashed` are globals of that process.

What a run of the target does is given by a `TargetRun`; the fork server is up, and nobody presses
Ctrl-C. A computation `Except σ σ` that ends with `.error` has called `FATAL`.
-/

set_option autoImplicit false

namespace TriforceAFL.Spec

open Lib

/-- The options and the environment of afl-showmap. -/
structure ShowmapOpts where
  /-- `-Z` -/
  cminMode : Bool := false
  /-- `-q` -/
  quiet : Bool := false
  /-- `-e` -/
  edgesOnly : Bool := false
  /-- `-t`; zero stands for no timeout. -/
  execTmout : Nat := 0
  /-- `AFL_CMIN_CRASHES_ONLY` is set. -/
  cco : Bool := false
  /-- `AFL_CMIN_ALLOW_ANY` is set. -/
  caa : Bool := false

/-- `quiet_mode`, which `-Z` sets too. -/
def ShowmapOpts.quietMode (o : ShowmapOpts) : Bool := o.quiet || o.cminMode

/-- What `run_target` meets. -/
structure TargetRun (mapSize : Nat) where
  /-- What the target leaves in the shared memory. -/
  trace : TraceMap mapSize
  /-- The timer fires before the status is there, if it was armed. -/
  alarm : Bool
  status : WaitStatus

/-- The globals. -/
structure ShowmapState (mapSize : Nat) where
  childTimedOut : Bool := false
  childCrashed : Bool := false
  /-- Goes to the fork server with the next request. -/
  prevTimedOut : Bool := false
  stopSoon : Bool := false
  traceBits : TraceMap mapSize := .fill mapSize 0
  /-- The trace files that were written, with their paths, in that order. -/
  written : List (Text × Text) := []
  /-- What `FATAL` has printed. -/
  fatal : Option Text := none

variable {mapSize : Nat}

/-! ### `run_target` -/

/-- `count_class_lookup[256]`. -/
def countClassLookup : List U8 :=
  [0, 1, 2, 3] ++ List.replicate 4 4 ++ List.replicate 8 5 ++ List.replicate 16 6 ++
    List.replicate 64 7 ++ List.replicate 32 7 ++ List.replicate 128 8

/-- What `classify_counts` makes of a byte. -/
def classifyCount (edgesOnly : Bool) (b : U8) : U8 :=
  if edgesOnly then (if b ≠ 0 then 1 else b) else byteOf countClassLookup b.toNat

/-- `classify_counts(mem)`. -/
def classifyCounts (edgesOnly : Bool) (mem : TraceMap mapSize) : TraceMap mapSize :=
  ⟨mem.bytes.map (classifyCount edgesOnly), (List.length_map _).trans mem.length_eq⟩

/-- `run_target(argv)`; `cmd` is `argv[0]`. -/
def showmapRunTarget (o : ShowmapOpts) (cmd : Text) (r : TargetRun mapSize)
    (s : ShowmapState mapSize) : Except (ShowmapState mapSize) (ShowmapState mapSize) :=
  -- Without a timeout the flag is not reset, and no timer sets it.
  let childTimedOut := if o.execTmout ≠ 0 then r.alarm else s.childTimedOut
  if load 4 r.trace.bytes 0 = EXEC_FAIL_SIG then
    .error { s with
      childTimedOut
      traceBits := r.trace
      fatal := some ("Unable to execute '".toList ++ cmd ++ "'".toList) }
  else
    .ok { s with
      childTimedOut
      traceBits := classifyCounts o.edgesOnly r.trace
      prevTimedOut := childTimedOut
      -- There is no assignment of zero.
      childCrashed :=
        if !childTimedOut && !s.stopSoon && r.status.wifSignaled then true else s.childCrashed }

/-! ### `write_results` -/

/-- `"%u%u\n"` of the hit count and the tuple, or `"%06u:%u\n"` of the tuple and the hit count. -/
def tupleLine (cminMode : Bool) (i : Nat) (count : U8) : Text :=
  if cminMode then padDec 0 count.toNat ++ padDec 0 i ++ ['\n']
  else padDec 6 i ++ ':' :: padDec 0 count.toNat ++ ['\n']

/-- One turn of the loop, on `ret` and the text so far. `.error` is the `break`. -/
def writeTuple (o : ShowmapOpts) (s : ShowmapState mapSize) (w : Nat × Text) (i : Nat) :
    Except (Nat × Text) (Nat × Text) :=
  let count := s.traceBits.byte i
  if count = 0 then .ok w
  -- `ret` counts the tuple at which the loop breaks, too.
  else if o.cminMode && s.childTimedOut then .error (w.1 + 1, w.2)
  else if o.cminMode && (!o.caa && s.childCrashed != o.cco) then .error (w.1 + 1, w.2)
  else .ok (w.1 + 1, w.2 ++ tupleLine o.cminMode i count)

/-- `write_results()`: the return value and the state after the file is written. -/
def writeResults (o : ShowmapOpts) (outFile : Text) (s : ShowmapState mapSize) :
    Nat × ShowmapState mapSize :=
  let w := finalState ((List.range mapSize).foldlM (writeTuple o s) (0, []))
  (w.1, { s with written := s.written ++ [(outFile, w.2)] })

/-! ### `main` -/

/-- Run the target and write its trace file. -/
def capture (o : ShowmapOpts) (cmd outFile : Text) (r : TargetRun mapSize)
    (s : ShowmapState mapSize) : Except (ShowmapState mapSize) (ShowmapState mapSize) :=
  showmapRunTarget o cmd r s >>= fun s =>
    let (tcnt, s) := writeResults o outFile s
    if !o.quietMode && tcnt == 0 then
      .error { s with fatal := some "No instrumentation detected".toList }
    else .ok s

/-- `basename(path)` of `<libgen.h>`. -/
def basename (path : Text) : Text :=
  match path with
  | [] => ['.']
  | _ =>
    match (path.reverse.dropWhile (· == '/')).takeWhile (· != '/') with
    | [] => ['/']
    | name => name.reverse

/-- A single-file run. -/
def showmapSingle (o : ShowmapOpts) (cmd outFile : Text) (r : TargetRun mapSize) :
    Except (ShowmapState mapSize) (ShowmapState mapSize) :=
  capture o cmd outFile r {}

/-- One turn of the batch loop: an input file, and what the target does on it. -/
def batchTurn (o : ShowmapOpts) (cmd outDir : Text) (s : ShowmapState mapSize)
    (input : Text × TargetRun mapSize) : Except (ShowmapState mapSize) (ShowmapState mapSize) :=
  capture o cmd (outDir ++ '/' :: basename input.1) input.2 s

/-- A batch run. -/
def showmapBatch (o : ShowmapOpts) (cmd outDir : Text) (inputs : List (Text × TargetRun mapSize)) :
    Except (ShowmapState mapSize) (ShowmapState mapSize) :=
  inputs.foldlM (batchTurn o cmd outDir) {}

/-- The content of the trace file that a run writes for its `k`-th input, if it gets there. -/
def traceFile (run : Except (ShowmapState mapSize) (ShowmapState mapSize)) (k : Nat) :
    Option Text :=
  (finalState run).written[k]?.map (·.2)

/-- The exit status of the process. -/
def exitStatus : Except (ShowmapState mapSize) (ShowmapState mapSize) → Nat
  | .ok s => s.childCrashed.toNat * 2 + s.childTimedOut.toNat
  | .error _ => 1

end TriforceAFL.Spec
