import TriforceAFL.Spec.Alloc

/-!
# `TriforceAFL.Spec.Tracker`: the allocation tracker of debug builds (`alloc-inl.h`)

With `DEBUG_BUILD`, the functions of the allocator are wrapped by `TRK_ck_*`, which keep a table of
the blocks in use with the place of the call that made each. The table has a list of entries per
bucket. An entry of a block that is freed stays in its list, with a null pointer, and is reused.

The lists are arrays on the heap that the tracker watches, and are grown by `DFL_ck_realloc_block`.
Their entries are lists here: the block of a grown array keeps its contents, as
`Proofs.GrownArray` shows.
-/

set_option autoImplicit false

namespace TriforceAFL.Spec

open Lib

def ALLOC_BUCKETS : Nat := 4096

/-- `__FILE__`, `__FUNCTION__` and `__LINE__` of a call. -/
structure CallSite where
  file : String
  func : String
  line : Nat
  deriving DecidableEq, Repr

/-- `struct TRK_obj`. -/
structure TrkObj where
  ptr : Nat
  site : CallSite
  deriving DecidableEq, Repr

/-- `sizeof(struct TRK_obj)`: three pointers and a `u32`, with padding. -/
def sizeofTrkObj : Nat := 32

/-- A bucket: its array, and the entries of it. -/
structure TrkBucket where
  base : Nat := 0
  objs : List TrkObj := []

structure Tracker where
  heap : Heap
  trk : Nat → TrkBucket := fun _ => {}
  /-- Where non-allocated memory was freed. -/
  warnings : List CallSite := []

/-- The bucket of a pointer. -/
def trkh (ptr : Nat) : Nat :=
  let p := BitVec.ofNat 32 ptr
  (p >>> 16 ^^^ p).toNat % ALLOC_BUCKETS

/-- Put an entry in the first free slot. -/
def reuseSlot (obj : TrkObj) : List TrkObj → Option (List TrkObj)
  | [] => none
  | o :: os => if o.ptr = 0 then some (obj :: os) else (reuseSlot obj os).map (o :: ·)

/-- Clear the first slot with the pointer. -/
def clearSlot (ptr : Nat) : List TrkObj → Option (List TrkObj)
  | [] => none
  | o :: os =>
    if o.ptr = ptr then some ({ o with ptr := 0 } :: os) else (clearSlot ptr os).map (o :: ·)

def Tracker.setBucket (t : Tracker) (bucket : Nat) (b : TrkBucket) : Tracker :=
  { t with trk := fun k => if k = bucket then b else t.trk k }

def trkAllocBuf (t : Tracker) (obj : TrkObj) (c : Libc) : Except AllocAbort Tracker :=
  if obj.ptr = 0 then .ok t
  else
    let b := t.trk (trkh obj.ptr)
    match reuseSlot obj b.objs with
    | some objs => .ok (t.setBucket (trkh obj.ptr) { b with objs })
    | none => do
      let size := BitVec.ofNat 32 ((b.objs.length + 1) * sizeofTrkObj)
      let (base, heap) ← ckReallocBlock true t.heap b.base size c
      return { t with heap }.setBucket (trkh obj.ptr) ⟨base, b.objs ++ [obj]⟩

def trkFreeBuf (t : Tracker) (ptr : Nat) (site : CallSite) : Tracker :=
  if ptr = 0 then t
  else
    let b := t.trk (trkh ptr)
    match clearSlot ptr b.objs with
    | some objs => t.setBucket (trkh ptr) { b with objs }
    | none => { t with warnings := t.warnings ++ [site] }

/-- The entries that `TRK_report` prints. -/
def trkReport (t : Tracker) : List TrkObj :=
  (List.range ALLOC_BUCKETS).flatMap fun k => (t.trk k).objs.filter fun o => o.ptr ≠ 0

/-! ### Wrappers -/

/-- A wrapper that returns gives a pointer and the tracker after it. -/
abbrev Tracked := Except AllocAbort (Nat × Tracker)

/-- The part that is common to the wrappers that return a pointer. -/
def trkAdd (t : Tracker) (ret : Nat) (site : CallSite) (c : Libc) : Tracked := do
  let t ← trkAllocBuf t ⟨ret, site⟩ c
  return (ret, t)

def trkCkAlloc (t : Tracker) (size : U32) (site : CallSite) (c d : Libc) : Tracked := do
  let (ret, heap) ← ckAlloc t.heap size c
  trkAdd { t with heap } ret site d

def trkCkRealloc (t : Tracker) (orig : Nat) (size : U32) (site : CallSite) (c d : Libc) :
    Tracked := do
  let (ret, heap) ← ckRealloc true t.heap orig size c
  trkAdd (trkFreeBuf { t with heap } orig site) ret site d

def trkCkReallocBlock (t : Tracker) (orig : Nat) (size : U32) (site : CallSite) (c d : Libc) :
    Tracked := do
  let (ret, heap) ← ckReallocBlock true t.heap orig size c
  trkAdd (trkFreeBuf { t with heap } orig site) ret site d

def trkCkStrdup (t : Tracker) (str : Option (List U8)) (site : CallSite) (c d : Libc) :
    Tracked := do
  let (ret, heap) ← ckStrdup t.heap str c
  trkAdd { t with heap } ret site d

def trkCkMemdup (t : Tracker) (mem : Option (Nat → U8)) (size : U32) (site : CallSite)
    (c d : Libc) : Tracked := do
  let (ret, heap) ← ckMemdup t.heap mem size c
  trkAdd { t with heap } ret site d

def trkCkFree (t : Tracker) (ptr : Nat) (site : CallSite) (c : Libc) :
    Except AllocAbort Tracker := do
  let t := trkFreeBuf t ptr site
  let heap ← ckFree true t.heap ptr c
  return { t with heap }

/-! ### Programs that use the wrappers -/

inductive TrkOp where
  | alloc (size : U32)
  | realloc (orig : Nat) (size : U32)
  | reallocBlock (orig : Nat) (size : U32)
  | strdup (str : Option (List U8))
  | memdup (mem : Option (Nat → U8)) (size : U32)
  | free (ptr : Nat)

/-- The pointer that is passed back, or null. -/
def TrkOp.orig : TrkOp → Nat
  | .realloc orig _ | .reallocBlock orig _ | .free orig => orig
  | .alloc _ | .strdup _ | .memdup _ _ => 0

/-- The tracker, and the blocks that the program has got and not passed back, each with the call
that returned it. -/
structure TrkState where
  tracker : Tracker
  live : List TrkObj

/-- The program has passed back `orig`, and got `ret`. -/
def TrkState.hold (s : TrkState) (orig ret : Nat) (site : CallSite) (t : Tracker) : TrkState :=
  let kept := s.live.filter fun o => o.ptr ≠ orig
  ⟨t, if ret = 0 then kept else ⟨ret, site⟩ :: kept⟩

/-- One call. The C library acts twice, in the allocation and where a list of the tracker grows. -/
def TrkState.step (s : TrkState) (op : TrkOp) (site : CallSite) (c d : Libc) :
    Except AllocAbort TrkState := do
  let (ret, t) ← match op with
    | .alloc size => trkCkAlloc s.tracker size site c d
    | .realloc orig size => trkCkRealloc s.tracker orig size site c d
    | .reallocBlock orig size => trkCkReallocBlock s.tracker orig size site c d
    | .strdup str => trkCkStrdup s.tracker str site c d
    | .memdup mem size => trkCkMemdup s.tracker mem size site c d
    | .free ptr => (trkCkFree s.tracker ptr site c).map fun t => (0, t)
  return s.hold op.orig ret site t

end TriforceAFL.Spec
