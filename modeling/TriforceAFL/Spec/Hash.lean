import TriforceAFL.Lib.Mixing
import TriforceAFL.Spec.Save

/-!
# `TriforceAFL.Spec.Hash`: the checksum of a trace (`hash.h`)

`hash32` has two variants, for 64-bit and for 32-bit words. Both mix the words of a buffer into a
state of one word, and then mix the state itself. They differ in the width and in the constants
(`HashVariant`). The 64-bit variant returns the lower half of its state.

`buildEnv` is the environment of the other modules with this checksum in it.
-/

set_option autoImplicit false

namespace TriforceAFL.Spec

open Lib

/-- The constants of a variant with words of `n` bytes. -/
structure HashVariant (n : Nat) where
  /-- `k1 *= mul1; k1 = ROL(k1, rot1); k1 *= mul2`. -/
  mul1 : BitVec (8 * n)
  rot1 : Nat
  mul2 : BitVec (8 * n)
  /-- `h1 = ROL(h1, rot2); h1 = h1 * 5 + add`. -/
  rot2 : Nat
  add : BitVec (8 * n)
  /-- The shifts and factors of the final mixing steps. -/
  shift1 : Nat
  final1 : BitVec (8 * n)
  shift2 : Nat
  final2 : BitVec (8 * n)
  shift3 : Nat

namespace HashVariant

variable {n : Nat}

/-- A word, before it meets the state. -/
def scramble (v : HashVariant n) (k1 : BitVec (8 * n)) : BitVec (8 * n) :=
  rol (k1 * v.mul1) v.rot1 * v.mul2

/-- The body of the loop. -/
def absorb (v : HashVariant n) (h1 k1 : BitVec (8 * n)) : BitVec (8 * n) :=
  rol (h1 ^^^ v.scramble k1) v.rot2 * 5 + v.add

/-- The final mixing steps. -/
def finish (v : HashVariant n) (h1 : BitVec (8 * n)) : BitVec (8 * n) :=
  let h1 := h1 ^^^ (h1 >>> v.shift1)
  let h1 := h1 * v.final1
  let h1 := h1 ^^^ (h1 >>> v.shift2)
  let h1 := h1 * v.final2
  h1 ^^^ (h1 >>> v.shift3)

/-- `h1` at the end, for `count` words and the value that `h1` starts with. -/
def mix (v : HashVariant n) (key : List U8) (count : Nat) (h1 : BitVec (8 * n)) :
    BitVec (8 * n) :=
  v.finish ((List.range count).foldl (fun h1 i => v.absorb h1 (load n key (n * i))) h1)

end HashVariant

/-- The variant for x86_64. -/
def wideHash : HashVariant 8 where
  mul1 := 0x87c37b91114253d5#64
  rot1 := 31
  mul2 := 0x4cf5ad432745937f#64
  rot2 := 27
  add := 0x52dce729#64
  shift1 := 33
  final1 := 0xff51afd7ed558ccd#64
  shift2 := 33
  final2 := 0xc4ceb9fe1a85ec53#64
  shift3 := 33

/-- The variant for all other builds. -/
def narrowHash : HashVariant 4 where
  mul1 := 0xcc9e2d51#32
  rot1 := 15
  mul2 := 0x1b873593#32
  rot2 := 13
  add := 0xe6546b64#32
  shift1 := 16
  final1 := 0x85ebca6b#32
  shift2 := 13
  final2 := 0xc2b2ae35#32
  shift3 := 16

/-- `h1` after the final mixing steps of the 64-bit variant. -/
def hashState64 (key : List U8) (len seed : U32) : BitVec 64 :=
  wideHash.mix key (len >>> 3).toNat ((seed ^^^ len).setWidth 64)

/-- `hash32` of the 64-bit variant. -/
def hash32Wide (key : List U8) (len seed : U32) : U32 := (hashState64 key len seed).setWidth 32

/-- `hash32` of the 32-bit variant. -/
def hash32Narrow (key : List U8) (len seed : U32) : U32 :=
  narrowHash.mix key (len >>> 2).toNat (seed ^^^ len)

def HASH_CONST : U32 := 0xa5b35705

/-- `hash32(trace_bits, MAP_SIZE, HASH_CONST)`. -/
def traceCksum (x86_64 : Bool) {mapSize : Nat} (traceBits : TraceMap mapSize) : U32 :=
  if x86_64 then hash32Wide traceBits.bytes (BitVec.ofNat 32 mapSize) HASH_CONST
  else hash32Narrow traceBits.bytes (BitVec.ofNat 32 mapSize) HASH_CONST

/-- What is fixed for a run of the fuzzer, in a build of the given kind. -/
def buildEnv (x86_64 : Bool) (mapSize : Nat) : Env mapSize where
  x86_64
  hash32 := traceCksum x86_64

end TriforceAFL.Spec
