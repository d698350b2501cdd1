import Mathlib.Tactic.Common

/-!
# `TriforceAFL.Spec.Config`: fixed-width types and tunables

The integer types of `types.h` and the constants of `config.h` that the modelled functions read.
A constant keeps its name from the header. `MAP_SIZE` is the one exception: the word-wise bitmap
helpers work for every map size that is a multiple of the word size, so the model takes the map
size as a parameter, and `MAP_SIZE` is the value this build uses. `next_p2`, of which afl-fuzz and
afl-tmin have a copy each, is here too.
-/

set_option autoImplicit false

namespace TriforceAFL.Spec

abbrev U8 := BitVec 8
abbrev U16 := BitVec 16
abbrev U32 := BitVec 32

/-- Size of the trace map in bytes (`1 << MAP_SIZE_POW2`). -/
def MAP_SIZE : Nat := 1 <<< 21

/-- Maximum number of unique hangs to record. -/
def KEEP_UNIQUE_HANG : Nat := 500

/-- Maximum number of unique crashes to record. -/
def KEEP_UNIQUE_CRASH : Nat := 5000

/-- Number of calibration cycles, for a new test case and for one that varies. -/
def CAL_CYCLES : Nat := 10

def CAL_CYCLES_LONG : Nat := 40

/-- The same, when variable-behavior checks are off. -/
def CAL_CYCLES_NO_VAR : Nat := 4

/-- Maximum offset for integer addition and subtraction stages. -/
def ARITH_MAX : Nat := 35

/-- Minimum and maximum length of an auto-detected dictionary token. -/
def MIN_AUTO_EXTRA : Nat := 3

def MAX_AUTO_EXTRA : Nat := 32

/-- Maximum size of a dictionary token given with `-x`. -/
def MAX_DICT_FILE : Nat := 128

/-- Number of auto-detected tokens that are used in fuzzing, and that are kept as candidates. -/
def USE_AUTO_EXTRAS : Nat := 50

@[inherit_doc USE_AUTO_EXTRAS] def MAX_AUTO_EXTRAS : Nat := USE_AUTO_EXTRAS * 10

/-- Maximum line length of a dictionary file. -/
def MAX_LINE : Nat := 8192

/-- Scaling factor of the effector map: one block for `2 ^ EFF_MAP_SCALE2` bytes. -/
def EFF_MAP_SCALE2 : Nat := 3

/-- Minimum input length at which the effector logic kicks in. -/
def EFF_MIN_LEN : Nat := 128

/-- Maximum effector density past which everything is fuzzed unconditionally, in percent. -/
def EFF_MAX_PERC : Nat := 90

/-- Maximum size of an input file, in bytes. -/
def MAX_FILE : Nat := 1 * 1024 * 1024

/-- Maximum size of an input file of afl-tmin, in bytes. -/
def TMIN_MAX_FILE : Nat := 10 * 1024 * 1024

/-- Block normalization of afl-tmin: smallest block, and number of blocks. -/
def TMIN_SET_MIN_SIZE : Nat := 4

@[inherit_doc TMIN_SET_MIN_SIZE] def TMIN_SET_STEPS : Nat := 128

/-- Number of steps in which an input is trimmed, to begin with. -/
def TRIM_START_STEPS : Nat := 16

/-- Number of steps in which an input is trimmed at the end, and the smallest chunk removed. -/
def TRIM_END_STEPS : Nat := 1024

@[inherit_doc TRIM_END_STEPS] def TRIM_MIN_BYTES : Nat := 4

/-- Number of chances to calibrate a test case before giving up. -/
def CAL_CHANCES : Nat := 3

/-- Number of subsequent hangs before abandoning an input file. -/
def HANG_LIMIT : Nat := 250

/-- Baseline number of random tweaks during a single havoc stage, its limit as a multiple of the
score, and its absolute minimum. -/
def HAVOC_CYCLES : Nat := 5000

@[inherit_doc HAVOC_CYCLES] def HAVOC_MAX_MULT : Nat := 16

@[inherit_doc HAVOC_CYCLES] def HAVOC_MIN : Nat := 10

/-- Maximum stacking for havoc-stage tweaks, as a power of two. -/
def HAVOC_STACK_POW2 : Nat := 7

/-- Caps on block sizes for cloning and deletion operations. -/
def HAVOC_BLK_SMALL : Nat := 32

@[inherit_doc HAVOC_BLK_SMALL] def HAVOC_BLK_MEDIUM : Nat := 128

@[inherit_doc HAVOC_BLK_SMALL] def HAVOC_BLK_LARGE : Nat := 1500

/-- Probabilities of skipping non-favored entries in the queue, in percent. -/
def SKIP_TO_NEW_PROB : Nat := 99

@[inherit_doc SKIP_TO_NEW_PROB] def SKIP_NFAV_OLD_PROB : Nat := 95

@[inherit_doc SKIP_TO_NEW_PROB] def SKIP_NFAV_NEW_PROB : Nat := 75

/-- Splicing cycle count, and the nominal number of tweaks per splicing cycle. -/
def SPLICE_CYCLES : Nat := 20

@[inherit_doc SPLICE_CYCLES] def SPLICE_HAVOC : Nat := 500

/-- Number of dictionary tokens past which they are used probabilistically. -/
def MAX_DET_EXTRAS : Nat := 200

/-- Sync interval, in fuzzed entries. -/
def SYNC_INTERVAL : Nat := 5

/-- Distinctive exit code used to indicate MSAN trip condition. -/
def MSAN_ERROR : Nat := 86

/-- Distinctive bitmap signature used to indicate failed execution. -/
def EXEC_FAIL_SIG : U32 := 0xfee1dead

/-! ### A helper that several programs have -/

/-- The loop `while (val > ret) ret <<= 1`. A 32-bit value is reached within 32 turns. -/
def nextP2From (val : Nat) : Nat → Nat → Nat
  | 0, ret => ret
  | turns + 1, ret => if val > ret then nextP2From val turns (ret <<< 1) else ret

/-- `next_p2(val)`: the first power of two greater or equal to `val`. -/
def nextP2 (val : Nat) : Nat := nextP2From val 32 1

end TriforceAFL.Spec
