import TriforceAFL.Spec.Session

/-!
# `TriforceAFL.Spec.Havoc`: the random stages of `fuzz_one`

The havoc stage takes the input, makes a random number of stacked random tweaks and executes the
result. It runs for longer while it finds new paths. Splicing joins the input with another queue
entry at a random place between their first and last differing byte, and runs the havoc stage on
the result.

A buffer of the model has the length that `temp_len` says. Operands of one C expression draw their
random numbers from left to right.
-/

set_option autoImplicit false

namespace TriforceAFL.Spec

open Lib

namespace Session

variable {mapSize : Nat}

/-! ### Blocks -/

/-- `len` bytes from position `start` on. -/
def slice (buf : List U8) (start len : Nat) : List U8 := (buf.drop start).take len

/-- `memcpy(buf + pos, data, len)`. -/
def overwrite (buf : List U8) (pos : Nat) (data : List U8) : List U8 :=
  buf.take pos ++ data ++ buf.drop (pos + data.length)

/-- Insert `data` before position `pos`. -/
def insertAt (buf : List U8) (pos : Nat) (data : List U8) : List U8 :=
  buf.take pos ++ data ++ buf.drop pos

/-- Delete `len` bytes from position `pos` on. -/
def deleteAt (buf : List U8) (pos len : Nat) : List U8 := buf.take pos ++ buf.drop (pos + len)

/-- Smallest and largest block length, for the case that `choose_block_len` has drawn. -/
def blockRange : Nat → Nat × Nat
  | 0 => (1, HAVOC_BLK_SMALL)
  | 1 => (HAVOC_BLK_SMALL, HAVOC_BLK_MEDIUM)
  | _ => (HAVOC_BLK_MEDIUM, HAVOC_BLK_LARGE)

/-- Choose a random block length for block operations. -/
def chooseBlockLen (w : World mapSize) (limit : Nat) : Fuzz mapSize Nat := do
  let s ← Process.get
  let over10m ← Process.step fun s => .ok (w.over10m s.clock, s.tick)
  let case ← ur w (if over10m then min s.globals.queueCycle 3 else 1)
  let minValue := if (blockRange case).1 ≥ limit then 1 else (blockRange case).1
  let r ← ur w (min (blockRange case).2 limit - minValue + 1)
  pure (minValue + r)

/-! ### The tweaks -/

/-- A random value of a table. -/
def pickInteresting (w : World mapSize) (table : List Int) : Fuzz mapSize Int := do
  let i ← ur w table.length
  pure (table.getD i 0)

/-- Set a word to an interesting value, randomly choosing endian. -/
def setInteresting (w : World mapSize) (n : Nat) (swap : BitVec (8 * n) → BitVec (8 * n))
    (table : List Int) (buf : List U8) : Fuzz mapSize (List U8) :=
  if buf.length < n then pure buf
  else do
    let native ← ur w 2
    let pos ← ur w (buf.length - (n - 1))
    let v ← pickInteresting w table
    let word := BitVec.ofInt (8 * n) v
    pure (store n buf pos (if native ≠ 0 then word else swap word))

/-- Randomly add to a word or subtract from it, random endian. -/
def randomArith (w : World mapSize) (n : Nat) (swap : BitVec (8 * n) → BitVec (8 * n))
    (f : BitVec (8 * n) → BitVec (8 * n) → BitVec (8 * n)) (buf : List U8) :
    Fuzz mapSize (List U8) :=
  if buf.length < n then pure buf
  else do
    let native ← ur w 2
    let pos ← ur w (buf.length - (n - 1))
    let r ← ur w ARITH_MAX
    let num := BitVec.ofNat (8 * n) (1 + r)
    let orig := load n buf pos
    pure (store n buf pos (if native ≠ 0 then f orig num else swap (f (swap orig) num)))

/-- Change a random byte. -/
def changeByte (w : World mapSize) (limit : Nat) (f : U8 → U8 → U8) (buf : List U8) :
    Fuzz mapSize (List U8) := do
  let pos ← ur w buf.length
  let r ← ur w limit
  pure (buf.modify pos fun b => f b (BitVec.ofNat 8 (1 + r)))

/-- Delete bytes. -/
def deleteBlock (w : World mapSize) (buf : List U8) : Fuzz mapSize (List U8) :=
  if buf.length < 2 then pure buf
  else do
    -- Don't delete too much.
    let delLen ← chooseBlockLen w (buf.length - 1)
    let delFrom ← ur w (buf.length - delLen + 1)
    pure (deleteAt buf delFrom delLen)

/-- A block of the buffer (75%) or of constant bytes (25%). -/
def randomBlock (w : World mapSize) (buf : List U8) (start len : Nat) :
    Fuzz mapSize (List U8) := do
  let copy ← ur w 4
  if copy ≠ 0 then pure (slice buf start len)
  else do
    let value ← ur w 256
    pure (List.replicate len (BitVec.ofNat 8 value))

/-- Clone bytes or insert a block of constant bytes, limits permitting. -/
def cloneBlock (w : World mapSize) (buf : List U8) : Fuzz mapSize (List U8) :=
  if buf.length + HAVOC_BLK_LARGE < MAX_FILE then do
    let cloneLen ← chooseBlockLen w buf.length
    let cloneFrom ← ur w (buf.length - cloneLen + 1)
    let cloneTo ← ur w buf.length
    let block ← randomBlock w buf cloneFrom cloneLen
    pure (insertAt buf cloneTo block)
  else pure buf

/-- Overwrite bytes with a randomly selected chunk or fixed bytes. -/
def overwriteBlock (w : World mapSize) (buf : List U8) : Fuzz mapSize (List U8) :=
  if buf.length < 2 then pure buf
  else do
    let copyLen ← chooseBlockLen w (buf.length - 1)
    let copyFrom ← ur w (buf.length - copyLen + 1)
    let copyTo ← ur w (buf.length - copyLen + 1)
    let block ← randomBlock w buf copyFrom copyLen
    pure (overwrite buf copyTo block)

/-- Use an auto-detected token? The dice are rolled only if there are tokens of both kinds. -/
def chooseAuto (w : World mapSize) (d : Dictionary) : Fuzz mapSize Bool :=
  if d.extras.length = 0 then pure true
  else if d.aExtras.length = 0 then pure false
  else do
    let r ← ur w 2
    pure (decide (r ≠ 0))

/-- A random token. -/
def pickExtra (w : World mapSize) : Fuzz mapSize (List U8) := do
  let s ← Process.get
  let useAuto ← chooseAuto w s.dict
  let tokens := if useAuto then s.dict.aExtras else s.dict.extras
  let i ← ur w tokens.length
  pure ((tokens.map (·.data)).getD i [])

/-- Overwrite bytes with an extra. -/
def overwriteExtra (w : World mapSize) (buf : List U8) : Fuzz mapSize (List U8) := do
  let data ← pickExtra w
  if data.length > buf.length then pure buf
  else do
    let pos ← ur w (buf.length - data.length + 1)
    pure (overwrite buf pos data)

/-- Insert an extra. -/
def insertExtra (w : World mapSize) (buf : List U8) : Fuzz mapSize (List U8) := do
  let pos ← ur w buf.length
  let data ← pickExtra w
  if buf.length + data.length ≥ MAX_FILE then pure buf
  else pure (insertAt buf pos data)

/-- One stacked tweak: the cases of the switch. -/
def havocTweak (w : World mapSize) (buf : List U8) : Fuzz mapSize (List U8) := do
  let s ← Process.get
  -- Values 15 and 16 can be selected only if there are any extras.
  let case ← ur w (15 + if s.dict.extras.length + s.dict.aExtras.length ≠ 0 then 2 else 0)
  match case with
  | 0 => do
      let b ← ur w (buf.length <<< 3)
      pure (flipBit buf b)
  | 1 => do
      let pos ← ur w buf.length
      let v ← pickInteresting w interesting8
      pure (buf.set pos (BitVec.ofInt 8 v))
  | 2 => setInteresting w 2 swap16 interesting16 buf
  | 3 => setInteresting w 4 swap32 interesting32 buf
  | 4 => changeByte w ARITH_MAX (· - ·) buf
  | 5 => changeByte w ARITH_MAX (· + ·) buf
  | 6 => randomArith w 2 swap16 (· - ·) buf
  | 7 => randomArith w 2 swap16 (· + ·) buf
  | 8 => randomArith w 4 swap32 (· - ·) buf
  | 9 => randomArith w 4 swap32 (· + ·) buf
  | 10 => changeByte w 255 (· ^^^ ·) buf
  | 11 | 12 => deleteBlock w buf
  | 13 => cloneBlock w buf
  | 14 => overwriteBlock w buf
  | 15 => overwriteExtra w buf
  | _ => insertExtra w buf

/-- `n` stacked tweaks. -/
def havocStack (w : World mapSize) : Nat → List U8 → Fuzz mapSize (List U8)
  | 0, buf => pure buf
  | n + 1, buf => do
      let buf ← havocTweak w buf
      havocStack w n buf

/-! ### The havoc stage -/

/-- The locals of the havoc loop. -/
structure HavocState where
  stageCur : Nat := 0
  stageMax : Nat
  perfScore : Nat
  havocQueued : Nat

/-- If we are finding new stuff, run for a bit longer, limits permitting. -/
def HavocState.next (h : HavocState) (queuedPaths : Nat) : HavocState :=
  let h := { h with stageCur := h.stageCur + 1 }
  if queuedPaths ≠ h.havocQueued then
    let h := if h.perfScore ≤ HAVOC_MAX_MULT * 100 then
        { h with stageMax := h.stageMax * 2, perfScore := h.perfScore * 2 }
      else h
    { h with havocQueued := queuedPaths }
  else h

/-- The havoc loop. The result is whether the entry is abandoned. -/
def havocLoop (w : World mapSize) (inBuf : List U8) : Nat → HavocState → Fuzz mapSize Bool
  | 0, _ => Process.exit .outOfBudget
  | budget + 1, h =>
    if h.stageCur < h.stageMax then do
      let pow ← ur w HAVOC_STACK_POW2
      let useStacking := 1 <<< (1 + pow)
      setOp fun op => { op with stageCurVal := useStacking }
      let outBuf ← havocStack w useStacking inBuf
      let bail ← commonFuzzStuff w outBuf
      if bail then pure true
      else do
        let s ← Process.get
        havocLoop w inBuf budget (h.next s.globals.queuedPaths)
    else pure false

/-- The havoc stage, on the input itself or on a spliced one. -/
def havocStage (w : World mapSize) (splicing : Bool) (inBuf : List U8) (perfScore : Nat) :
    Fuzz mapSize Bool := do
  setOp fun op => { op with
    stageCurByte := -1
    stageShort := if splicing then "splice".toList else "havoc".toList }
  let s ← Process.get
  let cycles := if splicing then SPLICE_HAVOC else HAVOC_CYCLES
  havocLoop w inBuf w.budget {
    stageMax := max (cycles * perfScore / s.havocDiv / 100) HAVOC_MIN
    perfScore
    havocQueued := s.globals.queuedPaths }

/-! ### Splicing -/

/-- `do { tid = UR(queued_paths); } while (tid == current_entry)`. -/
def pickOther (w : World mapSize) (queuedPaths currentEntry : Nat) : Nat → Fuzz mapSize Nat
  | 0 => Process.exit .outOfBudget
  | budget + 1 => do
      let tid ← ur w queuedPaths
      if tid = currentEntry then pickOther w queuedPaths currentEntry budget else pure tid

/-- Follow a pointer of the entries `n` times. -/
def follow (next : QueueEntry → Option Ptr) (g : FuzzState mapSize) :
    Nat → Option Ptr → Fuzz mapSize (Option Ptr)
  | 0, p => pure p
  | _ + 1, none => Process.exit .nullPointer
  | n + 1, some p => follow next g n (next (g.entry p))

/-- The entry that `tid` leads to, by steps of hundred and of one. -/
def seekTarget (g : FuzzState mapSize) (tid : Nat) : Fuzz mapSize (Option Ptr) := do
  let p ← follow (·.next100) g (tid / 100) g.queue
  follow (·.next) g (tid % 100) p

/-- Pass over targets that are too short and over the current entry. -/
def skipTargets (g : FuzzState mapSize) (queueCur : Ptr) : Nat → Option Ptr → Int →
    Option Ptr × Int
  | 0, target, splicingWith => (target, splicingWith)
  | _ + 1, none, splicingWith => (none, splicingWith)
  | fuel + 1, some p, splicingWith =>
    if (g.entry p).len < 2 ∨ p = queueCur then
      skipTargets g queueCur fuel (g.entry p).next (splicingWith + 1)
    else (some p, splicingWith)

/-- First and last position at which two buffers differ, if there is one. -/
def locateDiffs (buf1 buf2 : List U8) : Option (Nat × Nat) :=
  let diffs := (List.range (min buf1.length buf2.length)).filter fun pos =>
    byteOf buf1 pos ≠ byteOf buf2 pos
  match diffs.head?, diffs.getLast? with
  | some first, some last => some (first, last)
  | _, _ => none

/-- `locate_diffs(ptr1, ptr2, len, &first, &last)` with its loop. `-1` stands for no difference. -/
def locateDiffsLoop (buf1 buf2 : List U8) (len : Nat) : Int × Int :=
  (List.range len).foldl
    (fun (loc : Int × Int) pos =>
      if byteOf buf1 pos ≠ byteOf buf2 pos then (if loc.1 = -1 then pos else loc.1, pos) else loc)
    (-1, -1)

/-- Splice the input with a random other entry. `none` asks for a retry. -/
def splice (w : World mapSize) (q : Ptr) (origIn : List U8) :
    Fuzz mapSize (Option (List U8)) := do
  let s ← Process.get
  let g := s.globals
  let tid ← pickOther w g.queuedPaths s.op.currentEntry w.budget
  let target ← seekTarget g tid
  let (target, splicingWith) := skipTargets g q g.entries.length target tid
  setOp fun op => { op with splicingWith }
  match target with
  | none => pure none
  | some p => do
      let newBuf ← readCase (g.entry p).fname (g.entry p).len
      match locateDiffs origIn newBuf with
      | none => pure none
      | some (fDiff, lDiff) =>
        if lDiff < 2 ∨ fDiff = lDiff then pure none
        else do
          -- Split somewhere between the first and last differing byte.
          let r ← ur w (lDiff - fDiff)
          pure (some (origIn.take (fDiff + r) ++ newBuf.drop (fDiff + r)))

/-- The splicing rounds; the argument is how many are left. -/
def spliceRounds (w : World mapSize) (q : Ptr) (origIn : List U8) (origPerf : Nat) :
    Nat → Fuzz mapSize Bool
  | 0 => pure false
  | rounds + 1 => do
      let s ← Process.get
      if s.useSplicing && decide (s.globals.queuedPaths > 1) &&
          decide ((s.globals.entry q).len > 1) then do
        let spliced ← splice w q origIn
        match spliced with
        | none => spliceRounds w q origIn origPerf rounds
        | some inBuf => do
            let bail ← havocStage w true inBuf origPerf
            if bail then pure true else spliceRounds w q origIn origPerf rounds
      else pure false

/-- The part of `fuzz_one` from the label `havoc_stage` on. -/
def randomStages (w : World mapSize) (q : Ptr) (inBuf : List U8) (perfScore : Nat) :
    Fuzz mapSize Bool := do
  let bail ← havocStage w false inBuf perfScore
  if bail then pure true else spliceRounds w q inBuf perfScore SPLICE_CYCLES

end Session

end TriforceAFL.Spec
