import TriforceAFL.Spec.Dictionary

/-!
# `TriforceAFL.Spec.Timeout`: the `-t` option and the start of the fork server

`afl-fuzz`, `afl-tmin` and `afl-showmap` take the execution timeout in milliseconds with `-t`, and
wait `FORK_WAIT_MULT` times as long for the fork server to come up. The product is a `u32`.
-/

set_option autoImplicit false

namespace TriforceAFL.Spec

open Lib

/-- Fork server init timeout multiplier. -/
def FORK_WAIT_MULT : U32 := 100000

/-- The programs that start a fork server. -/
inductive Tool
  | fuzz
  | tmin
  | showmap
deriving DecidableEq

/-! ### The option -/

/-- Why the option is refused. -/
inductive TimeoutFatal
  | badSyntax
  | dangerouslyLow
deriving DecidableEq

/-- `sscanf(s, "%u", &x)`. The number is read by `strtoul`, which saturates, and cut to 32 bits. -/
def scanUInt (s : List U8) : Option U32 :=
  let cut (negate : Bool) (v : Nat) : U32 :=
    if v ≥ 2 ^ 64 then BitVec.ofNat 32 (2 ^ 64 - 1)
    else if negate then -BitVec.ofNat 32 v
    else BitVec.ofNat 32 v
  match (s.map charOf).dropWhile isSpace with
  | '-' :: ds => (scanDigits ds).map (cut true)
  | '+' :: ds => (scanDigits ds).map (cut false)
  | ds => (scanDigits ds).map (cut false)

/-- The smallest timeout that a program takes. -/
def Tool.minTimeout : Tool → Nat
  | .fuzz => 5
  | .tmin => 10
  | .showmap => 20

/-- The check that follows: `exec_tmout < min`, together with `optarg[0] == '-'` except in
afl-fuzz, where the sign is bad syntax. -/
def Tool.checkTimeout (tool : Tool) (execTmout : U32) (sign : Bool) : Except TimeoutFatal U32 :=
  if execTmout.toNat < tool.minTimeout ∨ sign then .error .dangerouslyLow else .ok execTmout

/-- The `case 't'` of the programs: the value of `exec_tmout` afterwards. -/
def Tool.timeoutOption (optarg : List U8) : Tool → Except TimeoutFatal U32
  | .fuzz =>
    match scanUInt optarg with
    | none => .error .badSyntax
    | some execTmout =>
      if optarg.head?.map charOf = some '-' then .error .badSyntax
      else Tool.fuzz.checkTimeout execTmout false
  | .tmin => Tool.tmin.checkTimeout (atoi optarg) (optarg.head?.map charOf = some '-')
  | .showmap =>
    if optarg.map charOf = "none".toList then .ok 0
    else Tool.showmap.checkTimeout (atoi optarg) (optarg.head?.map charOf = some '-')

/-! ### The timer -/

/-- `struct timeval` -/
structure Timeval where
  tvSec : Nat
  tvUsec : Nat
deriving DecidableEq

/-- What `init_forkserver` arms the timer with. Zero seconds and microseconds disarm it. -/
def Tool.forkTimer (execTmout : U32) : Tool → Timeval
  | .fuzz => multiplied execTmout
  | .tmin | .showmap => if execTmout ≠ 0 then multiplied execTmout else ⟨0, 0⟩
where
  multiplied (execTmout : U32) : Timeval :=
    ⟨(execTmout * FORK_WAIT_MULT / 1000).toNat, (execTmout * FORK_WAIT_MULT % 1000 * 1000).toNat⟩

/-- The time in milliseconds. -/
def Timeval.ms (t : Timeval) : Nat := t.tvSec * 1000 + t.tvUsec / 1000

end TriforceAFL.Spec
