import TriforceAFL.Lib.Words
import TriforceAFL.Spec.Config

/-!
# `TriforceAFL.Spec.Redundant`: helpers that detect repeated mutations

The deterministic stages of `fuzz_one` skip a candidate when an earlier stage has already tried
it. `could_be_bitflip`, `could_be_arith` and `could_be_interest` decide that from the old and the
new value of the word in question, both widened to 32 bits.
-/

set_option autoImplicit false

namespace TriforceAFL.Spec

open Lib

/-- `SWAP16`. -/
def swap16 (x : U16) : U16 := x <<< 8 ||| x >>> 8

/-- `SWAP32`. -/
def swap32 (x : U32) : U32 :=
  x <<< 24 ||| x >>> 24 ||| (x <<< 8 &&& 0x00ff0000) ||| (x >>> 8 &&& 0x0000ff00)

/-! ### The tables of interesting values -/

/-- `INTERESTING_8`. -/
def INTERESTING_8 : List Int := [-128, -1, 0, 1, 16, 32, 64, 100, 127]

/-- `INTERESTING_16`. -/
def INTERESTING_16 : List Int :=
  [-32768, -129, 128, 255, 256, 512, 1000, 1024, 4096, 32767]

/-- `INTERESTING_32`. -/
def INTERESTING_32 : List Int :=
  [-2147483648, -100663046, -32769, 32768, 65535, 65536, 100663045, 2147483647]

/-- The table for one-byte values. -/
def interesting8 : List Int := INTERESTING_8

/-- The table for two-byte values. -/
def interesting16 : List Int := INTERESTING_8 ++ INTERESTING_16

/-- The table for four-byte values. -/
def interesting32 : List Int := INTERESTING_8 ++ INTERESTING_16 ++ INTERESTING_32

/-! ### `could_be_bitflip` -/

/-- The loop `while (!(xor_val & 1)) { sh++; xor_val >>= 1; }`. A non-zero value has its first bit
among 32, which bounds the number of turns. -/
def shiftToFirstBit : Nat → Nat → U32 → Nat × U32
  | 0, sh, x => (sh, x)
  | fuel + 1, sh, x => if x &&& 1 = 0 then shiftToFirstBit fuel (sh + 1) (x >>> 1) else (sh, x)

/-- Could the change `xor_val = old ^ new` be a product of the deterministic bit flips? -/
def couldBeBitflip (xorVal : U32) : Bool :=
  if xorVal = 0 then true
  else
    let (sh, x) := shiftToFirstBit 32 0 xorVal
    -- 1-, 2-, and 4-bit patterns are taken anywhere.
    if x = 1 ∨ x = 3 ∨ x = 15 then true
    -- 8-, 16-, and 32-bit patterns only at a multiple of the stepover.
    else if sh % 8 ≠ 0 then false
    else x = 0xff ∨ x = 0xffff ∨ x = 0xffffffff

/-! ### `could_be_arith` -/

/-- The units of `n` bytes in which the values differ, among the first `cnt`: how many there are,
and the last of them. -/
def differingUnits (n cnt : Nat) (oldVal newVal : U32) : Nat × BitVec (8 * n) × BitVec (8 * n) :=
  (List.range cnt).foldl
    (fun (diffs, ov, nv) i =>
      let a := (oldVal >>> (8 * n * i)).setWidth (8 * n)
      let b := (newVal >>> (8 * n * i)).setWidth (8 * n)
      if a ≠ b then (diffs + 1, a, b) else (diffs, ov, nv))
    (0, 0, 0)

/-- Do two words differ by at most `ARITH_MAX`, in either direction? -/
def withinArith {w : Nat} (ov nv : BitVec w) : Bool :=
  decide ((ov - nv).toNat ≤ ARITH_MAX) || decide ((nv - ov).toNat ≤ ARITH_MAX)

/-- Could the new value be reached through arithmetic operations of at most `blen` bytes? -/
def couldBeArith (oldVal newVal : U32) (blen : Nat) : Bool :=
  if oldVal = newVal then true
  else
    -- One-byte adjustments to any byte.
    let (diffs, ov, nv) := differingUnits 1 blen oldVal newVal
    if diffs = 1 && withinArith ov nv then true
    else if blen = 1 then false
    else
      -- Two-byte adjustments, in both byte orders.
      let (diffs, ov, nv) := differingUnits 2 (blen / 2) oldVal newVal
      if diffs = 1 && (withinArith ov nv || withinArith (swap16 ov) (swap16 nv)) then true
      else
        -- The same thing for dwords.
        blen = 4 && (withinArith oldVal newVal || withinArith (swap32 oldVal) (swap32 newVal))

/-! ### `could_be_interest` -/

/-- The value with the bits of `mask` at byte `i` replaced by `v`. -/
def insertAt (oldVal mask : U32) (i : Nat) (v : U32) : U32 :=
  (oldVal &&& ~~~(mask <<< (i * 8))) ||| v <<< (i * 8)

/-- Is the new value redundant given the insertions of interesting values that were done for
shorter `blen`, and for the same `blen` in little-endian order if `checkLe` is set? -/
def couldBeInterest (oldVal newVal : U32) (blen : Nat) (checkLe : Bool) : Bool :=
  if oldVal = newVal then true
  else if (List.range blen).any fun i => interesting8.any fun v =>
      newVal = insertAt oldVal 0xff i ((BitVec.ofInt 8 v).setWidth 32) then true
  else if blen = 2 && !checkLe then false
  else if (List.range (blen - 1)).any fun i => interesting16.any fun v =>
      newVal = insertAt oldVal 0xffff i ((BitVec.ofInt 16 v).setWidth 32) ||
        (blen > 2 && newVal = insertAt oldVal 0xffff i
          ((swap16 (BitVec.ofInt 16 v)).setWidth 32)) then true
  else blen = 4 && checkLe && interesting32.any fun v => newVal = BitVec.ofInt 32 v

end TriforceAFL.Spec
