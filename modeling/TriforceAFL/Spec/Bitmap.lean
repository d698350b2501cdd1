import TriforceAFL.Lib.Words
import TriforceAFL.Spec.Config

/-!
# `TriforceAFL.Spec.Bitmap`: the word-wise bitmap helpers of `afl-fuzz.c`

`has_new_bits` compares the trace of the last run with a virgin map and clears the bits it has
seen. `simplify_trace` replaces hit counts by `0x80` and missing tuples by `0x01`, and
`classify_counts` replaces a hit count by the bit of its class. They walk the map in machine words,
8 bytes at a time on x86_64 and 4 bytes elsewhere. The two flavours differ only in the word size, so
each is one definition over the number `n` of bytes in a word, and the flavours are its instances.
`count_bits`, `count_bytes` and `count_non_255_bytes` have one flavour, with 4-byte words.

afl-tmin and afl-analyze have a `classify_counts` of their own, which goes byte by byte.

A map is a byte list together with a proof of its length, as the C arrays have the fixed size
`MAP_SIZE`.
-/

set_option autoImplicit false

namespace TriforceAFL.Spec

open Lib

/-- A `u8[MAP_SIZE]` array: `trace_bits` or one of the virgin maps. -/
structure TraceMap (mapSize : Nat) where
  bytes : List U8
  length_eq : bytes.length = mapSize
deriving DecidableEq

namespace TraceMap

variable {mapSize : Nat}

/-- The byte at position `b`, that is, the hit count of tuple `b`. -/
def byte (m : TraceMap mapSize) (b : Nat) : U8 := byteOf m.bytes b

/-- A map filled with one byte value (`memset`). -/
def fill (mapSize : Nat) (v : U8) : TraceMap mapSize :=
  ⟨List.replicate mapSize v, List.length_replicate⟩

end TraceMap

/-! ### `has_new_bits` -/

/-- Does the word hold a byte that is non-zero in `cur` while it is `0xff` in `vir`? The cascade
of `FFL(0)` to `FFL(7)` tests (`FF(0)` to `FF(3)` for 4-byte words). `FF(3)` is a negative `int`;
as a `u32` it has the same bits. -/
def hasNewByte (n : Nat) (cur vir : BitVec (8 * n)) : Bool :=
  (List.range n).any fun b =>
    cur &&& byteMask n b != 0 && vir &&& byteMask n b == byteMask n b

/-- One turn of the `while (i--)` loop, on the word with index `i`. The state is `ret` and the
virgin map. -/
def hasNewBitsStep (n : Nat) (trace : List U8) (s : Nat × List U8) (i : Nat) :
    Nat × List U8 :=
  let cur := load n trace (n * i)
  let vir := load n s.2 (n * i)
  -- Optimized for `*current == ~*virgin`: a word with nothing new is left alone.
  if cur &&& vir ≠ 0 then
    let ret := if s.1 < 2 then (if hasNewByte n cur vir then 2 else 1) else s.1
    (ret, store n s.2 (n * i) (vir &&& ~~~cur))
  else s

/-- The loop of `has_new_bits` over words of `n` bytes, `mapSize / n` of them. -/
def hasNewBitsLoop (n mapSize : Nat) (trace virgin : List U8) : Nat × List U8 :=
  (List.range (mapSize / n)).foldl (hasNewBitsStep n trace) (0, virgin)

theorem length_hasNewBitsStep (n : Nat) (trace : List U8) (s : Nat × List U8) (i : Nat) :
    (hasNewBitsStep n trace s i).2.length = s.2.length := by
  unfold hasNewBitsStep
  simp only
  split
  · exact length_store n s.2 _ _
  · rfl

theorem length_hasNewBitsLoop (n mapSize : Nat) (trace virgin : List U8) :
    (hasNewBitsLoop n mapSize trace virgin).2.length = virgin.length :=
  List.foldlRecOn (motive := fun s => s.2.length = virgin.length) _ _ rfl
    fun s hs i _ => (length_hasNewBitsStep n trace s i).trans hs

/-- `has_new_bits(virgin_map)` for the given `trace_bits`: the return value (2 for a new tuple,
1 for a new hit count, 0 otherwise) and the updated virgin map. `x86_64` selects the flavour. -/
def hasNewBits (x86_64 : Bool) {mapSize : Nat} (trace virgin : TraceMap mapSize) :
    Nat × TraceMap mapSize :=
  let n := if x86_64 then 8 else 4
  ((hasNewBitsLoop n mapSize trace.bytes virgin.bytes).1,
    ⟨(hasNewBitsLoop n mapSize trace.bytes virgin.bytes).2,
      (length_hasNewBitsLoop n mapSize _ _).trans virgin.length_eq⟩)

/-- A sequence of calls `has_new_bits(virgin_map)`, one after each run of the target. The list
holds the `trace_bits` of the runs; the result is the list of return values and the final map. -/
def hasNewBitsRun (x86_64 : Bool) {mapSize : Nat} :
    List (TraceMap mapSize) → TraceMap mapSize → List Nat × TraceMap mapSize
  | [], virgin => ([], virgin)
  | trace :: traces, virgin =>
    let (ret, virgin) := hasNewBits x86_64 trace virgin
    let (rets, virgin) := hasNewBitsRun x86_64 traces virgin
    (ret :: rets, virgin)

/-! ### `count_bytes` -/

/-- Count the non-zero bytes of a map, 4 bytes at a time. -/
def countBytes {mapSize : Nat} (mem : TraceMap mapSize) : Nat :=
  (List.range (mapSize / 4)).foldl
    (fun ret i =>
      let v := load 4 mem.bytes (4 * i)
      if v = 0 then ret
      else (List.range 4).foldl (fun ret b => if v &&& byteMask 4 b ≠ 0 then ret + 1 else ret) ret)
    0

/-! ### `count_bits` and `count_non_255_bytes` -/

/-- Count the bits of a word in parallel: in fields of two, four and eight bits, and then the four
bytes by a multiplication. -/
def bitsOfWord (v : U32) : U32 :=
  let v := v - ((v >>> 1) &&& 0x55555555#32)
  let v := (v &&& 0x33333333#32) + ((v >>> 2) &&& 0x33333333#32)
  (((v + (v >>> 4)) &&& 0xF0F0F0F#32) * 0x01010101#32) >>> 24

/-- Count the bits that are set in a map, 4 bytes at a time. -/
def countBits {mapSize : Nat} (mem : TraceMap mapSize) : U32 :=
  (List.range (mapSize / 4)).foldl
    (fun ret i =>
      let v := load 4 mem.bytes (4 * i)
      -- This gets called on the inverse, virgin bitmap.
      if v = 0xffffffff then ret + 32 else ret + bitsOfWord v)
    0

/-- Count the bytes of a map other than 255, 4 bytes at a time. -/
def countNon255Bytes {mapSize : Nat} (mem : TraceMap mapSize) : Nat :=
  (List.range (mapSize / 4)).foldl
    (fun ret i =>
      let v := load 4 mem.bytes (4 * i)
      if v = 0xffffffff then ret
      else (List.range 4).foldl
        (fun ret b => if v &&& byteMask 4 b ≠ byteMask 4 b then ret + 1 else ret) ret)
    0

/-! ### `simplify_trace` -/

/-- `simplify_lookup[256]`. -/
def simplifyLookup : List U8 :=
  [1, 128, 128, 128] ++ List.replicate 4 128 ++ List.replicate 8 128 ++ List.replicate 16 128 ++
    List.replicate 32 128 ++ List.replicate 64 128 ++ List.replicate 128 128

/-- One turn of the loop on the word with index `i`: a word with a hit is mapped byte by byte,
a word without one is overwritten by `ones` (`0x01` in every byte). -/
def simplifyStep (n : Nat) (ones : BitVec (8 * n)) (mem : List U8) (i : Nat) : List U8 :=
  if load n mem (n * i) ≠ 0 then
    (List.range n).foldl
      (fun mem j => mem.set (n * i + j) (byteOf simplifyLookup (byteOf mem (n * i + j)).toNat)) mem
  else store n mem (n * i) ones

/-- The loop of `simplify_trace` over words of `n` bytes. -/
def simplifyLoop (n : Nat) (ones : BitVec (8 * n)) (mapSize : Nat) (mem : List U8) : List U8 :=
  (List.range (mapSize / n)).foldl (simplifyStep n ones) mem

theorem length_simplifyStep (n : Nat) (ones : BitVec (8 * n)) (mem : List U8) (i : Nat) :
    (simplifyStep n ones mem i).length = mem.length := by
  unfold simplifyStep
  split
  · exact List.foldlRecOn (motive := fun m : List U8 => m.length = mem.length) _ _ rfl
      fun m hm j _ => (List.length_set).trans hm
  · exact length_store n mem _ _

theorem length_simplifyLoop (n : Nat) (ones : BitVec (8 * n)) (mapSize : Nat) (mem : List U8) :
    (simplifyLoop n ones mapSize mem).length = mem.length :=
  List.foldlRecOn (motive := fun m : List U8 => m.length = mem.length) _ _ rfl
    fun m hm i _ => (length_simplifyStep n ones m i).trans hm

/-- `simplify_trace(mem)`. `x86_64` selects the flavour. -/
def simplifyTrace (x86_64 : Bool) {mapSize : Nat} (mem : TraceMap mapSize) : TraceMap mapSize :=
  if x86_64 then
    ⟨simplifyLoop 8 0x0101010101010101#64 mapSize mem.bytes,
      (length_simplifyLoop 8 _ mapSize _).trans mem.length_eq⟩
  else
    ⟨simplifyLoop 4 0x01010101#32 mapSize mem.bytes,
      (length_simplifyLoop 4 _ mapSize _).trans mem.length_eq⟩

/-! ### `classify_counts` -/

/-- `count_class_lookup[256]` of afl-fuzz. -/
def fuzzCountClassLookup : List U8 :=
  [0, 1, 2, 4] ++ List.replicate 4 8 ++ List.replicate 8 16 ++ List.replicate 16 32 ++
    List.replicate 64 64 ++ List.replicate 32 64 ++ List.replicate 128 128

/-- One turn of the loop on the word with index `i`: a word with a hit is mapped byte by byte. -/
def classifyStep (n : Nat) (mem : List U8) (i : Nat) : List U8 :=
  if load n mem (n * i) ≠ 0 then
    (List.range n).foldl
      (fun mem j =>
        mem.set (n * i + j) (byteOf fuzzCountClassLookup (byteOf mem (n * i + j)).toNat)) mem
  else mem

/-- The loop of `classify_counts` over words of `n` bytes. -/
def classifyLoop (n mapSize : Nat) (mem : List U8) : List U8 :=
  (List.range (mapSize / n)).foldl (classifyStep n) mem

theorem length_classifyStep (n : Nat) (mem : List U8) (i : Nat) :
    (classifyStep n mem i).length = mem.length := by
  unfold classifyStep
  split
  · exact List.foldlRecOn (motive := fun m : List U8 => m.length = mem.length) _ _ rfl
      fun m hm j _ => (List.length_set).trans hm
  · rfl

theorem length_classifyLoop (n mapSize : Nat) (mem : List U8) :
    (classifyLoop n mapSize mem).length = mem.length :=
  List.foldlRecOn (motive := fun m : List U8 => m.length = mem.length) _ _ rfl
    fun m hm i _ => (length_classifyStep n m i).trans hm

/-- `classify_counts(mem)` of afl-fuzz. `x86_64` selects the flavour. -/
def fuzzClassifyCounts (x86_64 : Bool) {mapSize : Nat} (mem : TraceMap mapSize) :
    TraceMap mapSize :=
  let n := if x86_64 then 8 else 4
  ⟨classifyLoop n mapSize mem.bytes, (length_classifyLoop n mapSize _).trans mem.length_eq⟩

/-- `classify_counts(mem)` as afl-tmin and afl-analyze have it, byte by byte with a table. -/
def classifyBytes (lookup : List U8) (edgesOnly : Bool) {mapSize : Nat} (mem : TraceMap mapSize) :
    TraceMap mapSize :=
  ⟨mem.bytes.map fun b =>
      if edgesOnly then (if b ≠ 0 then 1 else b) else byteOf lookup b.toNat,
    (List.length_map _).trans mem.length_eq⟩

/-- `count_class_lookup[256]` of afl-tmin. -/
def tminCountClassLookup : List U8 :=
  [0, 1, 2, 4] ++ List.replicate 4 8 ++ List.replicate 8 16 ++ List.replicate 16 32 ++
    List.replicate 64 64 ++ List.replicate 32 64 ++ List.replicate 128 128

/-- `classify_counts(mem)` of afl-tmin. -/
def tminClassifyCounts (edgesOnly : Bool) {mapSize : Nat} (mem : TraceMap mapSize) :
    TraceMap mapSize :=
  classifyBytes tminCountClassLookup edgesOnly mem

/-- `count_class_lookup[256]` of afl-analyze. -/
def analyzeCountClassLookup : List U8 :=
  [0, 1, 2, 4] ++ List.replicate 4 8 ++ List.replicate 8 16 ++ List.replicate 16 32 ++
    List.replicate 64 64 ++ List.replicate 32 64 ++ List.replicate 128 128

/-- `classify_counts(mem)` of afl-analyze. -/
def analyzeClassifyCounts (edgesOnly : Bool) {mapSize : Nat} (mem : TraceMap mapSize) :
    TraceMap mapSize :=
  classifyBytes analyzeCountClassLookup edgesOnly mem

end TriforceAFL.Spec
