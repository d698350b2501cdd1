import TriforceAFL.Lib.Heap
import TriforceAFL.Spec.Config

/-!
# `TriforceAFL.Spec.Alloc`: the checking allocator (`alloc-inl.h`)

Every block of the allocator has a head of eight bytes before the pointer that the caller gets, with
a magic word and the size, and one magic byte after its end. `CHECK_PTR` compares both magic values
when the block is freed or reallocated.

Pointers are addresses of a byte memory, with `0` for `NULL`, and sizes are `u32` values with their
arithmetic. `debug` says whether `DEBUG_BUILD` is defined. Each function takes as its last argument
what the C library does in it, and ends with the new heap or with one of the `ABORT`s.
-/

set_option autoImplicit false

namespace TriforceAFL.Spec

open Lib

def MAX_ALLOC : Nat := 0x40000000

/-! ### Magic tokens and their places -/

def ALLOC_MAGIC_C1 : U32 := 0xFF00FF00

def ALLOC_MAGIC_F : U32 := 0xFE00FE00

def ALLOC_MAGIC_C2 : U8 := 0xF0

def ALLOC_OFF_HEAD : Nat := 8

def ALLOC_OFF_TOTAL : U32 := 9

def ALLOC_BLK_INC : U32 := 256

def allocC1 (m : Memory) (ptr : Nat) : U32 := m.loadWord 4 (ptr - 8)

def allocS (m : Memory) (ptr : Nat) : U32 := m.loadWord 4 (ptr - 4)

def allocC2 (m : Memory) (ptr : Nat) : U8 := m (ptr + (allocS m ptr).toNat)

/-- The assignment `ALLOC_C1(ptr) = v`. -/
def setC1 (m : Memory) (ptr : Nat) (v : U32) : Memory := m.storeWord 4 (ptr - 8) v

/-- The three assignments to `ALLOC_C1`, `ALLOC_S` and `ALLOC_C2` that every function makes for a
new block. -/
def setGuards (m : Memory) (ptr : Nat) (size : U32) : Memory :=
  let m := setC1 m ptr ALLOC_MAGIC_C1
  let m := m.storeWord 4 (ptr - 4) size
  m.write (ptr + (allocS m ptr).toNat) ALLOC_MAGIC_C2

/-! ### Checks -/

/-- The `ABORT`s of the allocator. -/
inductive AllocAbort where
  | badRequest (size : U32)
  | outOfMemory (size : U32)
  | useAfterFree
  | corruptedHead
  | corruptedTail
  deriving DecidableEq, Repr

/-- The aborts of `CHECK_PTR`. -/
def AllocAbort.isCheckPtr : AllocAbort → Bool
  | .badRequest _ | .outOfMemory _ => false
  | .useAfterFree | .corruptedHead | .corruptedTail => true

def allocCheckSize (size : U32) : Except AllocAbort Unit :=
  if size.toNat > MAX_ALLOC then .error (.badRequest size) else .ok ()

def allocCheckResult (r : Nat) (size : U32) : Except AllocAbort Unit :=
  if r = 0 then .error (.outOfMemory size) else .ok ()

def checkPtr (m : Memory) (ptr : Nat) : Except AllocAbort Unit :=
  if ptr = 0 then .ok ()
  else if allocC1 m ptr ≠ ALLOC_MAGIC_C1 then
    if allocC1 m ptr = ALLOC_MAGIC_F then .error .useAfterFree else .error .corruptedHead
  else if allocC2 m ptr ≠ ALLOC_MAGIC_C2 then .error .corruptedTail
  else .ok ()

/-! ### The functions -/

/-- What the C library does in one call: the place it chooses for a new block, and the bytes it
leaves outside of the blocks when it hands one out and when it takes one back. -/
structure Libc where
  place : Nat
  garbage : Memory
  freed : Memory

/-- A call that returns gives a pointer and the heap after it. -/
abbrev Allocated := Except AllocAbort (Nat × Heap)

/-- The part that is common to the functions that make a new block: `malloc` of the size, the head,
the tail and `spare` bytes, and then the magic tokens. -/
def newBlock (h : Heap) (size spare : U32) (c : Libc) : Allocated := do
  allocCheckSize size
  let (ret, h) := h.malloc (size + ALLOC_OFF_TOTAL + spare).toNat c.place c.garbage
  allocCheckResult ret size
  let ret := ret + ALLOC_OFF_HEAD
  return (ret, { h with mem := setGuards h.mem ret size })

def ckAllocNozero (h : Heap) (size : U32) (c : Libc) : Allocated :=
  if size = 0 then .ok (0, h) else newBlock h size 0 c

def ckAlloc (h : Heap) (size : U32) (c : Libc) : Allocated :=
  if size = 0 then .ok (0, h)
  else do
    let (mem, h) ← ckAllocNozero h size c
    return (mem, { h with mem := h.mem.fill mem 0 size.toNat })

def ckFree (debug : Bool) (h : Heap) (mem : Nat) (c : Libc) : Except AllocAbort Heap :=
  if mem = 0 then .ok h
  else do
    checkPtr h.mem mem
    let m := if debug then h.mem.fill mem 0xFF (allocS h.mem mem).toNat else h.mem
    let m := setC1 m mem ALLOC_MAGIC_F
    return Heap.free { h with mem := m } (mem - ALLOC_OFF_HEAD) c.freed

/-- What `ck_realloc` does with an original block before it asks for the new one: the size of the
block is read, and in a normal build its head is marked as freed. -/
def leaveOrig (debug : Bool) (h : Heap) (orig : Nat) : Except AllocAbort (U32 × Heap) :=
  if orig = 0 then .ok (0, h)
  else do
    checkPtr h.mem orig
    let m := if debug then h.mem else setC1 h.mem orig ALLOC_MAGIC_F
    let oldSize := allocS m orig
    allocCheckSize oldSize
    return (oldSize, { h with mem := m })

/-- The move of a debug build: the contents are copied to the new block, and the old one is wiped
and freed. -/
def moveBlock (h : Heap) (orig ret : Nat) (size oldSize : U32) (c : Libc) : Heap :=
  let m := h.mem.copy (ret + ALLOC_OFF_HEAD) (fun i => h.mem (orig + i))
    (min size.toNat oldSize.toNat)
  let m := m.fill orig 0xFF oldSize.toNat
  let m := setC1 m orig ALLOC_MAGIC_F
  Heap.free { h with mem := m } (orig - ALLOC_OFF_HEAD) c.freed

/-- The newly added tail of a block is zeroed. -/
def zeroTail (m : Memory) (ret : Nat) (size oldSize : U32) : Memory :=
  if size.toNat > oldSize.toNat then
    m.fill (ret + oldSize.toNat) 0 (size.toNat - oldSize.toNat)
  else m

def ckRealloc (debug : Bool) (h : Heap) (orig : Nat) (size : U32) (c : Libc) : Allocated :=
  if size = 0 then do
    let h ← ckFree debug h orig c
    return (0, h)
  else do
    let (oldSize, h) ← leaveOrig debug h orig
    allocCheckSize size
    let total := (size + ALLOC_OFF_TOTAL).toNat
    let (ret, h) := if debug then h.malloc total c.place c.garbage
      else h.realloc (orig - ALLOC_OFF_HEAD) total c.place c.garbage
    allocCheckResult ret size
    let h := if debug && orig != 0 then moveBlock h orig ret size oldSize c else h
    let ret := ret + ALLOC_OFF_HEAD
    return (ret, { h with mem := zeroTail (setGuards h.mem ret size) ret size oldSize })

def ckReallocBlock (debug : Bool) (h : Heap) (orig : Nat) (size : U32) (c : Libc) : Allocated :=
  if debug || orig == 0 then ckRealloc debug h orig size c
  else do
    checkPtr h.mem orig
    if (allocS h.mem orig).toNat ≥ size.toNat then return (orig, h)
    ckRealloc debug h orig (size + ALLOC_BLK_INC) c

/-- The argument is the text before its terminator, or `none` for `NULL`. -/
def ckStrdup (h : Heap) (str : Option (List U8)) (c : Libc) : Allocated :=
  match str with
  | none => .ok (0, h)
  | some str => do
    let size := BitVec.ofNat 32 (str.length + 1)
    let (ret, h) ← newBlock h size 0 c
    return (ret, { h with mem := h.mem.copy ret (byteOf (str ++ [0])) size.toNat })

/-- `mem` gives the bytes behind the pointer, or is `none` for `NULL`. -/
def ckMemdup (h : Heap) (mem : Option (Nat → U8)) (size : U32) (c : Libc) : Allocated :=
  match mem with
  | none => .ok (0, h)
  | some mem =>
    if size = 0 then .ok (0, h)
    else do
      let (ret, h) ← newBlock h size 0 c
      return (ret, { h with mem := h.mem.copy ret mem size.toNat })

@[inherit_doc ckMemdup]
def ckMemdupStr (h : Heap) (mem : Option (Nat → U8)) (size : U32) (c : Libc) : Allocated :=
  match mem with
  | none => .ok (0, h)
  | some mem =>
    if size = 0 then .ok (0, h)
    else do
      let (ret, h) ← newBlock h size 1 c
      let m := h.mem.copy ret mem size.toNat
      return (ret, { h with mem := m.write (ret + size.toNat) 0 })

/-! ### Programs that use the allocator -/

/-- A call of the allocator, or a write of the program into a block. -/
inductive AllocOp where
  | alloc (size : U32)
  | allocNozero (size : U32)
  | realloc (orig : Nat) (size : U32)
  | reallocBlock (orig : Nat) (size : U32)
  | strdup (str : Option (List U8))
  | memdup (mem : Option (Nat → U8)) (size : U32)
  | memdupStr (mem : Option (Nat → U8)) (size : U32)
  | free (mem : Nat)
  | write (ptr offset : Nat) (v : U8)

/-- The heap, and for each pointer that the program holds the size it last asked for. -/
structure AllocState where
  heap : Heap
  live : Nat → Option Nat

/-- The program holds `ret`, for `size` bytes, and not `orig` any more. -/
def AllocState.hold (s : AllocState) (orig ret size : Nat) (heap : Heap) : AllocState :=
  { heap
    live := fun p => if p = ret ∧ ret ≠ 0 then some size else if p = orig then none else s.live p }

/-- One step of the program. -/
def AllocState.step (debug : Bool) (s : AllocState) (op : AllocOp) (c : Libc) :
    Except AllocAbort AllocState :=
  match op with
  | .alloc size => do
    let (ret, h) ← ckAlloc s.heap size c
    return s.hold 0 ret size.toNat h
  | .allocNozero size => do
    let (ret, h) ← ckAllocNozero s.heap size c
    return s.hold 0 ret size.toNat h
  | .realloc orig size => do
    let (ret, h) ← ckRealloc debug s.heap orig size c
    return s.hold orig ret size.toNat h
  | .reallocBlock orig size => do
    let (ret, h) ← ckReallocBlock debug s.heap orig size c
    return s.hold orig ret size.toNat h
  | .strdup str => do
    let (ret, h) ← ckStrdup s.heap str c
    return s.hold 0 ret ((str.map (·.length + 1)).getD 0) h
  | .memdup mem size => do
    let (ret, h) ← ckMemdup s.heap mem size c
    return s.hold 0 ret size.toNat h
  | .memdupStr mem size => do
    let (ret, h) ← ckMemdupStr s.heap mem size c
    return s.hold 0 ret size.toNat h
  | .free mem => do
    let h ← ckFree debug s.heap mem c
    return s.hold mem 0 0 h
  | .write ptr offset v =>
    .ok { s with heap := { s.heap with mem := s.heap.mem.write (ptr + offset) v } }

end TriforceAFL.Spec
