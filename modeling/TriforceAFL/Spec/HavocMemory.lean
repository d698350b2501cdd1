import TriforceAFL.Lib.Asks
import TriforceAFL.Spec.Havoc

/-!
# `TriforceAFL.Spec.HavocMemory`: the random stages on memory blocks

The havoc stage and the splicing of `fuzz_one` with the blocks that they allocate. The block behind
`out_buf` can be longer than `temp_len`. A deletion only shortens `temp_len`, and an insertion moves
to a new block. The block is reallocated before the next round if `temp_len` has fallen below `len`.

The programs ask for what they do not know: random numbers, globals, the contents of fresh memory,
the outcome of an execution. They also report every access to a block of memory (`access`), the
lengths between two tweaks (`lengths`) and before the refill from `in_buf` (`refill`).

The arguments of `UR` are zero here whenever the 32-bit expressions of the source are: `x - y + 1`
is written `x + 1 - y`, and a shift is cut to 32 bits. `TriforceAFL.Spec.Havoc` has the same stages
as processes of a session, on lists that have the length `temp_len`.
-/

set_option autoImplicit false

namespace TriforceAFL.Spec

open Lib

/-- The globals that decide about a splicing round. -/
structure SpliceGlobals where
  useSplicing : Bool
  queuedPaths : Nat
  currentEntry : Nat
  /-- `queue_cur->len`. -/
  curLen : Nat

/-- What the stages ask and report. -/
inductive HavocAsk
  /-- `UR(limit)`. -/
  | ur (limit : Nat)
  | over10m
  | queueCycle
  /-- `extras[]` and `a_extras[]`. -/
  | dict
  /-- The contents of a fresh block. -/
  | alloc (size : Nat)
  /-- The elements `pos` to `pos + n` of a block of `size` elements are read or written. -/
  | access (size pos n : Nat)
  /-- The size of the block behind `out_buf`, `temp_len` and `len`, between two tweaks. -/
  | lengths (size tempLen len : Nat)
  /-- The size of the block behind `out_buf` and `len`, before the refill. -/
  | refill (size len : Nat)
  /-- `stage_cur_val = use_stacking`. -/
  | setStacking (useStacking : Nat)
  /-- `common_fuzz_stuff`. -/
  | exec (buf : List U8)
  | queuedPaths
  | havocDiv
  /-- `stage_cur_byte` and `stage_short` at the label `havoc_stage`. -/
  | enterStage (splicing : Bool)
  | spliceGlobals
  /-- The file of the entry that `tid` leads to, unless the queue ends before a suitable one. -/
  | target (tid : Nat)
  /-- The bound of a loop is reached. -/
  | outOfBudget

/-- The answers. An execution says whether the entry is abandoned. -/
@[reducible]
def HavocAsk.Answer : HavocAsk → Type
  | .ur _ | .queueCycle | .queuedPaths | .havocDiv => Nat
  | .over10m | .exec _ => Bool
  | .dict => Dictionary
  | .alloc _ => List U8
  | .spliceGlobals => SpliceGlobals
  | .target _ => Option (List U8)
  | .access _ _ _ | .lengths _ _ _ | .refill _ _ | .setStacking _ | .enterStage _ => Unit
  | .outOfBudget => Empty

/-- `out_buf` and `temp_len`. -/
structure OutBuf where
  /-- The allocated block. -/
  mem : List U8
  tempLen : Nat

/-- The bytes that are executed. -/
def OutBuf.bytes (b : OutBuf) : List U8 := b.mem.take b.tempLen

namespace HavocMemory

/-- The programs of this module. -/
abbrev Havoc (α : Type) : Type := Asks HavocAsk HavocAsk.Answer α

/-- Ask one question. -/
def ask (x : HavocAsk) : Havoc x.Answer := Asks.query x

/-- `UR(limit)`. -/
def ur (limit : Nat) : Havoc Nat := ask (.ur limit)

/-- Access `n` elements of a block from `pos` on. -/
def access {α : Type} (block : List α) (pos n : Nat) : Havoc Unit :=
  ask (.access block.length pos n)

/-! ### Memory -/

/-- `ck_alloc_nozero`. -/
def ckAllocNozero (size : Nat) : Havoc (List U8) := ask (.alloc size)

/-- `ck_realloc`. What it keeps is refilled by its caller, so the rest of the block can be
anything. -/
def ckRealloc (block : List U8) (size : Nat) : Havoc (List U8) := do
  let fresh : List U8 ← ask (.alloc size)
  pure (block.take size ++ fresh.drop block.length)

/-- `memcpy(dst + dstPos, src + srcPos, n)`, or `memmove` within one block. -/
def memcpy (dst : List U8) (dstPos : Nat) (src : List U8) (srcPos n : Nat) :
    Havoc (List U8) := do
  access src srcPos n
  access dst dstPos n
  pure (Session.overwrite dst dstPos (Session.slice src srcPos n))

/-- `memset(dst + pos, value, n)`. -/
def memset (dst : List U8) (pos : Nat) (value : U8) (n : Nat) : Havoc (List U8) := do
  access dst pos n
  pure (Session.overwrite dst pos (List.replicate n value))

/-- Choose a random block length for block operations. -/
def chooseBlockLen (limit : Nat) : Havoc Nat := do
  let queueCycle : Nat ← ask .queueCycle
  let over10m : Bool ← ask .over10m
  let case ← ur (if over10m then min queueCycle 3 else 1)
  let minValue := if (Session.blockRange case).1 ≥ limit then 1 else (Session.blockRange case).1
  let r ← ur (min (Session.blockRange case).2 limit + 1 - minValue)
  pure (minValue + r)

/-! ### The tweaks -/

/-- A random value of a table. -/
def pickInteresting (table : List Int) : Havoc Int := do
  let i ← ur table.length
  access table i 1
  pure (table.getD i 0)

/-- Set a word to an interesting value, randomly choosing endian. -/
def setInteresting (n : Nat) (swap : BitVec (8 * n) → BitVec (8 * n)) (table : List Int)
    (b : OutBuf) : Havoc OutBuf :=
  if b.tempLen < n then pure b
  else do
    let native ← ur 2
    let pos ← ur (b.tempLen - (n - 1))
    let v ← pickInteresting table
    let word := BitVec.ofInt (8 * n) v
    access b.mem pos n
    pure { b with mem := store n b.mem pos (if native ≠ 0 then word else swap word) }

/-- Randomly add to a word or subtract from it, random endian. -/
def randomArith (n : Nat) (swap : BitVec (8 * n) → BitVec (8 * n))
    (f : BitVec (8 * n) → BitVec (8 * n) → BitVec (8 * n)) (b : OutBuf) : Havoc OutBuf :=
  if b.tempLen < n then pure b
  else do
    let native ← ur 2
    let pos ← ur (b.tempLen - (n - 1))
    let r ← ur ARITH_MAX
    let num := BitVec.ofNat (8 * n) (1 + r)
    access b.mem pos n
    let orig := load n b.mem pos
    pure { b with
      mem := store n b.mem pos (if native ≠ 0 then f orig num else swap (f (swap orig) num)) }

/-- Change a random byte. -/
def changeByte (limit : Nat) (f : U8 → U8 → U8) (b : OutBuf) : Havoc OutBuf := do
  let pos ← ur b.tempLen
  let r ← ur limit
  access b.mem pos 1
  pure { b with mem := b.mem.modify pos fun x => f x (BitVec.ofNat 8 (1 + r)) }

/-- Delete bytes. The block keeps its size. -/
def deleteBlock (b : OutBuf) : Havoc OutBuf :=
  if b.tempLen < 2 then pure b
  else do
    -- Don't delete too much.
    let delLen ← chooseBlockLen (b.tempLen - 1)
    let delFrom ← ur (b.tempLen + 1 - delLen)
    let mem ← memcpy b.mem delFrom b.mem (delFrom + delLen) (b.tempLen - delFrom - delLen)
    pure { mem, tempLen := b.tempLen - delLen }

/-- Insert `len` bytes before `pos` in a new block; `fill` writes them. -/
def insertBlock (b : OutBuf) (pos len : Nat) (fill : List U8 → Havoc (List U8)) :
    Havoc OutBuf := do
  let newBuf ← ckAllocNozero (b.tempLen + len)
  -- Head
  let newBuf ← memcpy newBuf 0 b.mem 0 pos
  -- Inserted part
  let newBuf ← fill newBuf
  -- Tail
  let newBuf ← memcpy newBuf (pos + len) b.mem pos (b.tempLen - pos)
  pure { mem := newBuf, tempLen := b.tempLen + len }

/-- Clone bytes (75%) or insert a block of constant bytes (25%), limits permitting. -/
def cloneBlock (b : OutBuf) : Havoc OutBuf :=
  if b.tempLen + HAVOC_BLK_LARGE < MAX_FILE then do
    let cloneLen ← chooseBlockLen b.tempLen
    let cloneFrom ← ur (b.tempLen + 1 - cloneLen)
    let cloneTo ← ur b.tempLen
    insertBlock b cloneTo cloneLen fun newBuf => do
      let copy ← ur 4
      if copy ≠ 0 then memcpy newBuf cloneTo b.mem cloneFrom cloneLen
      else do
        let value ← ur 256
        memset newBuf cloneTo (BitVec.ofNat 8 value) cloneLen
  else pure b

/-- Overwrite bytes with a randomly selected chunk (75%) or fixed bytes (25%). -/
def overwriteBlock (b : OutBuf) : Havoc OutBuf :=
  if b.tempLen < 2 then pure b
  else do
    let copyLen ← chooseBlockLen (b.tempLen - 1)
    let copyFrom ← ur (b.tempLen + 1 - copyLen)
    let copyTo ← ur (b.tempLen + 1 - copyLen)
    let copy ← ur 4
    if copy ≠ 0 then
      if copyFrom ≠ copyTo then do
        let mem ← memcpy b.mem copyTo b.mem copyFrom copyLen
        pure { b with mem }
      else pure b
    else do
      let value ← ur 256
      let mem ← memset b.mem copyTo (BitVec.ofNat 8 value) copyLen
      pure { b with mem }

/-- `!extras_cnt || (a_extras_cnt && UR(2))`. -/
def chooseAuto (d : Dictionary) : Havoc Bool :=
  if d.extras.length = 0 then pure true
  else if d.aExtras.length = 0 then pure false
  else do
    let r ← ur 2
    pure (decide (r ≠ 0))

/-- A random token. -/
def pickExtra (d : Dictionary) : Havoc (List U8) := do
  let useAuto ← chooseAuto d
  let tokens := if useAuto then d.aExtras else d.extras
  let i ← ur tokens.length
  access tokens i 1
  pure ((tokens.map (·.data)).getD i [])

/-- Overwrite bytes with an extra. -/
def overwriteExtra (d : Dictionary) (b : OutBuf) : Havoc OutBuf := do
  let data ← pickExtra d
  if data.length > b.tempLen then pure b
  else do
    let pos ← ur (b.tempLen + 1 - data.length)
    let mem ← memcpy b.mem pos data 0 data.length
    pure { b with mem }

/-- Insert an extra. -/
def insertExtra (d : Dictionary) (b : OutBuf) : Havoc OutBuf := do
  let pos ← ur b.tempLen
  let data ← pickExtra d
  if b.tempLen + data.length ≥ MAX_FILE then pure b
  else insertBlock b pos data.length fun newBuf => memcpy newBuf pos data 0 data.length

/-- One stacked tweak: the cases of the switch. -/
def havocTweak (b : OutBuf) : Havoc OutBuf := do
  let d : Dictionary ← ask .dict
  -- Values 15 and 16 can be selected only if there are any extras.
  let case ← ur (15 + if d.extras.length + d.aExtras.length ≠ 0 then 2 else 0)
  match case with
  | 0 => do
      let bit ← ur ((b.tempLen <<< 3) % 2 ^ 32)
      access b.mem (bit >>> 3) 1
      pure { b with mem := flipBit b.mem bit }
  | 1 => do
      let pos ← ur b.tempLen
      let v ← pickInteresting interesting8
      access b.mem pos 1
      pure { b with mem := b.mem.set pos (BitVec.ofInt 8 v) }
  | 2 => setInteresting 2 swap16 interesting16 b
  | 3 => setInteresting 4 swap32 interesting32 b
  | 4 => changeByte ARITH_MAX (· - ·) b
  | 5 => changeByte ARITH_MAX (· + ·) b
  | 6 => randomArith 2 swap16 (· - ·) b
  | 7 => randomArith 2 swap16 (· + ·) b
  | 8 => randomArith 4 swap32 (· - ·) b
  | 9 => randomArith 4 swap32 (· + ·) b
  | 10 => changeByte 255 (· ^^^ ·) b
  | 11 | 12 => deleteBlock b
  | 13 => cloneBlock b
  | 14 => overwriteBlock b
  | 15 => overwriteExtra d b
  | _ => insertExtra d b

/-- `n` stacked tweaks, on an input of `len` bytes. -/
def havocStack (len : Nat) : Nat → OutBuf → Havoc OutBuf
  | 0, b => do
      ask (.lengths b.mem.length b.tempLen len)
      pure b
  | n + 1, b => do
      ask (.lengths b.mem.length b.tempLen len)
      let b ← havocTweak b
      havocStack len n b

/-! ### The havoc stage -/

/-- Restore `out_buf` to its original size and shape. -/
def refill (inBuf : List U8) (b : OutBuf) : Havoc OutBuf := do
  let mem ← (if b.tempLen < inBuf.length then ckRealloc b.mem inBuf.length else pure b.mem)
  ask (.refill mem.length inBuf.length)
  let mem ← memcpy mem 0 inBuf 0 inBuf.length
  pure { mem, tempLen := inBuf.length }

/-- The havoc loop. The result is `out_buf`, or `none` if the entry is abandoned. -/
def havocLoop (inBuf : List U8) : Nat → Session.HavocState → OutBuf → Havoc (Option OutBuf)
  | 0, _, _ => do
      let e : Empty ← ask .outOfBudget
      nomatch e
  | budget + 1, h, b =>
    if h.stageCur < h.stageMax then do
      let pow ← ur HAVOC_STACK_POW2
      let useStacking := 1 <<< (1 + pow)
      ask (.setStacking useStacking)
      let b ← havocStack inBuf.length useStacking b
      access b.mem 0 b.tempLen
      let bail : Bool ← ask (.exec b.bytes)
      if bail then pure none
      else do
        let b ← refill inBuf b
        let queuedPaths : Nat ← ask .queuedPaths
        havocLoop inBuf budget (h.next queuedPaths) b
    else pure (some b)

/-- The havoc stage, on the input itself or on a spliced one. `mem` is the block behind
`out_buf`. -/
def havocStage (budget : Nat) (splicing : Bool) (inBuf mem : List U8) (perfScore : Nat) :
    Havoc (Option OutBuf) := do
  ask (.enterStage splicing)
  let havocDiv : Nat ← ask .havocDiv
  let havocQueued : Nat ← ask .queuedPaths
  let cycles := if splicing then SPLICE_HAVOC else HAVOC_CYCLES
  let h : Session.HavocState := {
    stageMax := max (cycles * perfScore / havocDiv / 100) HAVOC_MIN
    perfScore
    havocQueued }
  havocLoop inBuf budget h { mem, tempLen := inBuf.length }

/-! ### Splicing -/

/-- `do { tid = UR(queued_paths); } while (tid == current_entry)`. -/
def pickOther (queuedPaths currentEntry : Nat) : Nat → Havoc Nat
  | 0 => do
      let e : Empty ← ask .outOfBudget
      nomatch e
  | budget + 1 => do
      let tid ← ur queuedPaths
      if tid = currentEntry then pickOther queuedPaths currentEntry budget else pure tid

/-- Splice the input with the file of another entry. `none` asks for a retry. -/
def spliceFile (origIn file : List U8) : Havoc (Option (List U8)) := do
  -- Read the test case into a new buffer.
  let newBuf ← ckAllocNozero file.length
  let newBuf ← memcpy newBuf 0 file 0 file.length
  -- What `locate_diffs` compares.
  access origIn 0 (min origIn.length file.length)
  access newBuf 0 (min origIn.length file.length)
  match Session.locateDiffs origIn newBuf with
  | none => pure none
  | some (fDiff, lDiff) =>
    if lDiff < 2 ∨ fDiff = lDiff then pure none
    else do
      -- Split somewhere between the first and last differing byte.
      let r ← ur (lDiff - fDiff)
      let newBuf ← memcpy newBuf 0 origIn 0 (fDiff + r)
      pure (some newBuf)

/-- Pick a random other entry and splice with it. -/
def splice (budget : Nat) (g : SpliceGlobals) (origIn : List U8) :
    Havoc (Option (List U8)) := do
  let tid ← pickOther g.queuedPaths g.currentEntry budget
  let target : Option (List U8) ← ask (.target tid)
  match target with
  | none => pure none
  | some file => spliceFile origIn file

/-- The splicing rounds; the argument is how many are left. `mem` is the block behind `out_buf`. The
result is whether the entry is abandoned. -/
def spliceRounds (budget : Nat) (origIn : List U8) (origPerf : Nat) :
    Nat → List U8 → Havoc Bool
  | 0, _ => pure false
  | rounds + 1, mem => do
      let g : SpliceGlobals ← ask .spliceGlobals
      if g.useSplicing && decide (g.queuedPaths > 1) && decide (g.curLen > 1) then do
        let spliced ← splice budget g origIn
        match spliced with
        | none => spliceRounds budget origIn origPerf rounds mem
        | some inBuf => do
            let mem ← ckAllocNozero inBuf.length
            let mem ← memcpy mem 0 inBuf 0 inBuf.length
            let r ← havocStage budget true inBuf mem origPerf
            match r with
            | none => pure true
            | some b => spliceRounds budget origIn origPerf rounds b.mem
      else pure false

/-- The part of `fuzz_one` from the label `havoc_stage` on. -/
def randomStages (budget : Nat) (inBuf mem : List U8) (perfScore : Nat) : Havoc Bool := do
  let r ← havocStage budget false inBuf mem perfScore
  match r with
  | none => pure true
  | some b => spliceRounds budget inBuf perfScore SPLICE_CYCLES b.mem

end HavocMemory

end TriforceAFL.Spec
