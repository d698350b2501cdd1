import TriforceAFL.Spec.State

/-!
# `TriforceAFL.Spec.Queue`: the queue and its favored entries

`add_to_queue`, `minimize_bits`, `update_bitmap_score`, `cull_queue`, and the bookkeeping at the
end of `fuzz_one` (the `abandon_entry` label). For every byte of the map, `top_rated[]` names the
cheapest entry seen with that byte; `cull_queue` walks the slots and picks a favored entry for
every byte that the entries picked so far do not cover in their cached `trace_mini`.

`mark_as_redundant` also creates or removes a marker file under `queue/.state`, which no function
of this module reads; here it is its `fs_redundant` flag, and `Spec.RedundantEdges` adds the files.
`last_path_time` is a display value and is left out.
-/

set_option autoImplicit false

namespace TriforceAFL.Spec

open Lib

variable {mapSize : Nat}

/-- Allocate the entry of a new test case. Its pointer is the length of the heap so far. -/
def allocEntry (s : FuzzState mapSize) (fname : Text) (len : Nat) (passedDet : Bool) :
    FuzzState mapSize :=
  let e : QueueEntry := { fname, len, depth := s.curDepth + 1, passedDet }
  { s with
    entries := s.entries ++ [e]
    maxDepth := if e.depth > s.maxDepth then e.depth else s.maxDepth }

/-- Link the new entry `q` behind `queue_top`, or start the queue with it. -/
def linkTop (s : FuzzState mapSize) (q : Ptr) : FuzzState mapSize :=
  match s.queueTop with
  | some top => { s.updateEntry top (fun t => { t with next := some q }) with queueTop := some q }
  | none => { s with qPrev100 := some q, queue := some q, queueTop := some q }

/-- Every hundredth entry is also linked through `next_100`. -/
def linkHundred (s : FuzzState mapSize) (q : Ptr) : FuzzState mapSize :=
  if s.queuedPaths % 100 = 0 then
    match s.qPrev100 with
    | some prev =>
      { s.updateEntry prev (fun t => { t with next100 := some q }) with qPrev100 := some q }
    | none => s
  else s

/-- Append a new test case to the queue. -/
def addToQueue (s : FuzzState mapSize) (fname : Text) (len : Nat) (passedDet : Bool) :
    FuzzState mapSize :=
  let q : Ptr := s.entries.length
  let s := linkTop (allocEntry s fname len passedDet) q
  let s := { s with
    queuedPaths := s.queuedPaths + 1
    pendingNotFuzzed := s.pendingNotFuzzed + 1
    cyclesWoFinds := 0 }
  -- The counter that decides about `next_100` has been raised already.
  linkHundred s q

/-- Is bit `i` of a compacted map set (`map[i >> 3] & (1 << (i & 7))`)? -/
def miniBit (mini : List U8) (i : Nat) : Bool :=
  byteOf mini (i >>> 3) &&& (1#8 <<< (i &&& 7)) != 0

/-- One turn of the `minimize_bits` loop. -/
def minimizeStep (src : List U8) (dst : List U8) (i : Nat) : List U8 :=
  if byteOf src i ≠ 0 then
    dst.set (i >>> 3) (byteOf dst (i >>> 3) ||| (1#8 <<< (i &&& 7)))
  else dst

/-- Compact trace bytes into a smaller bitmap, dropping the count information. `dst` comes zeroed
from `ck_alloc(MAP_SIZE >> 3)`. -/
def minimizeBits (src : TraceMap mapSize) : List U8 :=
  (List.range mapSize).foldl (minimizeStep src.bytes) (List.replicate (mapSize >>> 3) 0)

/-- The cost of an entry, `exec_us * len` as a 64-bit product. -/
def favFactor (e : QueueEntry) : Nat := e.execUs * e.len % 2 ^ 64

/-- The previous winner of a slot loses one reference, and its `trace_mini` with the last one. -/
def releaseSlot (s : FuzzState mapSize) (p : Ptr) : FuzzState mapSize :=
  s.updateEntry p fun e => { e with
    tcRef := e.tcRef - 1
    traceMini := if e.tcRef - 1 = 0 then .none else e.traceMini }

/-- Entry `q` becomes the winner of slot `i`. Its `trace_mini` is filled from the current trace
only when there is none yet. -/
def winSlot (s : FuzzState mapSize) (q : Ptr) (i : Nat) : FuzzState mapSize :=
  let s := s.updateEntry q fun e => { e with
    tcRef := e.tcRef + 1
    traceMini := some (e.traceMini.getD (minimizeBits s.traceBits)) }
  { s with topRated := s.topRated.set i (some q), scoreChanged := true }

/-- One turn of the `update_bitmap_score` loop, on map byte `i`. `fav` is computed once, before
the loop. -/
def scoreSlot (q : Ptr) (fav : Nat) (s : FuzzState mapSize) (i : Nat) : FuzzState mapSize :=
  if s.traceBits.byte i = 0 then s
  else match s.topRated.getD i none with
    | some p =>
      -- Faster-executing or smaller test cases are favored.
      if fav > favFactor (s.entry p) then s
      else winSlot (releaseSlot s p) q i
    | none => winSlot s q i

/-- Let `q` compete for every byte set in `trace_bits[]`. -/
def updateBitmapScore (s : FuzzState mapSize) (q : Ptr) : FuzzState mapSize :=
  (List.range mapSize).foldl (scoreSlot q (favFactor (s.entry q))) s

/-- `while (q) { f(q); q = q->next; }`. The fuel is the number of entries. -/
def walkQueue (f : QueueEntry → QueueEntry) :
    Nat → Option Ptr → List QueueEntry → List QueueEntry
  | 0, _, entries => entries
  | _, none, entries => entries
  | fuel + 1, some p, entries =>
    let entries := entries.modify p f
    walkQueue f fuel (entries.getD p default).next entries

/-- Remove all bits of `mini` from `temp_v` (`while (j--) if (mini[j]) temp_v[j] &= ~mini[j]`). -/
def removeBits (mini tempV : List U8) : List U8 :=
  (List.range tempV.length).reverse.foldl
    (fun v j => if byteOf mini j ≠ 0 then v.set j (byteOf v j &&& ~~~byteOf mini j) else v) tempV

/-- One turn of the selection loop of `cull_queue`, on slot `i`. The state is `temp_v` and the
globals. -/
def cullSlot (t : List U8 × FuzzState mapSize) (i : Nat) : List U8 × FuzzState mapSize :=
  match t.2.topRated.getD i none with
  | some p =>
    -- The byte is not covered by an entry that was picked before.
    if miniBit t.1 i then
      let e := t.2.entry p
      let s := t.2.updateEntry p fun e => { e with favored := true }
      (removeBits (e.traceMini.getD []) t.1,
        { s with
          queuedFavored := s.queuedFavored + 1
          pendingFavored := if e.wasFuzzed then s.pendingFavored else s.pendingFavored + 1 })
    else t
  | none => t

/-- The part of `cull_queue` that runs when the scores have changed. -/
def recomputeFavored (s : FuzzState mapSize) : FuzzState mapSize :=
  let s := { s with
    scoreChanged := false
    queuedFavored := 0
    pendingFavored := 0
    entries := walkQueue (fun e => { e with favored := false }) s.entries.length s.queue
      s.entries }
  let s := ((List.range mapSize).foldl cullSlot
    (List.replicate (mapSize >>> 3) 0xff, s)).2
  -- `mark_as_redundant(q, !q->favored)`
  { s with
    entries := walkQueue (fun e => { e with fsRedundant := !e.favored }) s.entries.length s.queue
      s.entries }

/-- Does this call of `cull_queue` recompute the favored set? -/
def cullRecomputes (s : FuzzState mapSize) : Bool := !s.dumbMode && s.scoreChanged

/-- Pick the favored entries anew when the scores have changed. -/
def cullQueue (s : FuzzState mapSize) : FuzzState mapSize :=
  if cullRecomputes s then recomputeFavored s else s

/-- The bookkeeping at the `abandon_entry` label of `fuzz_one`, for `queue_cur = q`. -/
def abandonEntry (s : FuzzState mapSize) (q : Ptr) (stopSoon : Bool) : FuzzState mapSize :=
  -- Only an entry that made it through calibration counts as fuzzed.
  let e := s.entry q
  if !stopSoon && e.calFailed == 0 && !e.wasFuzzed then
    let s := s.updateEntry q fun e => { e with wasFuzzed := true }
    { s with
      pendingNotFuzzed := s.pendingNotFuzzed - 1
      pendingFavored := if e.favored then s.pendingFavored - 1 else s.pendingFavored }
  else s

end TriforceAFL.Spec
