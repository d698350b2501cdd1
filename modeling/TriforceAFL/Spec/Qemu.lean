import TriforceAFL.Spec.ForkServer

/-!
# `TriforceAFL.Spec.Qemu`: full-system emulation under the fork server

The AFL patches of QEMU (`afl-qemu-cpu-inl.h`, `cpu-exec.c`, `cpus.c` and
`target-i386/translate.c`), and what `run_target` makes of a test case that runs in them.

`Qemu` holds the globals of one emulator process. The guest acts on them by running translation
blocks, by its `aflCall` instruction and by writing memory; `GuestAct` lists these acts, and any
sequence of them is a guest. `target_ulong` has 32 or 64 bits, as the emulated machine has it, and
the hash of a block address differs between the two.

`afl_entry_point` is zero unless a user-mode ELF loader sets it, so the first half of
`AFL_QEMU_CPU_SNIPPET2` does nothing here. The requests that a child sends to have a block
translated in its parent change nothing (`if(0 && env)`) and are left out, as is the text that
`helper_aflInterceptLog` writes to `logstore.txt`.
-/

set_option autoImplicit false

namespace TriforceAFL.Spec

open Lib

/-- The emulated machines, by their word size. -/
inductive Target
  | bits32
  | bits64
deriving DecidableEq

/-- `TARGET_LONG_BITS` -/
def Target.longBits : Target → Nat
  | .bits32 => 32
  | .bits64 => 64

/-- `target_ulong` -/
abbrev TargetUlong (t : Target) := BitVec t.longBits

/-- The globals of an emulator process, as far as the AFL patches use them. -/
structure Qemu (t : Target) where
  /-- Has `startWork` been called? -/
  aflStart : Bool := false
  /-- The range of traced addresses. Both ends belong to it. -/
  aflStartCode : TargetUlong t := 0
  aflEndCode : TargetUlong t := 0
  aflGotLog : Bool := false
  /-- Is this a child of the fork server? -/
  aflForkChild : Bool := false
  aflEnableTicks : BitVec 32 := 0
  aflWantsCpuToStop : Bool := false
  /-- The instrumentation ratio, as a threshold for hashes. -/
  aflInstRms : Nat := MAP_SIZE
  aflPanicAddr : BitVec 64 := -1
  aflDmesgAddr : BitVec 64 := -1
  /-- The content of `aflFile`, if it can be opened. -/
  aflFile : Option (List U8) := none
  /-- The memory behind `afl_area_ptr`; `none` is the null pointer. -/
  area : Option (TraceMap MAP_SIZE) := none
  /-- `prev_loc` of the CPU thread. -/
  prevLoc : TargetUlong t := 0
  mem : TargetUlong t → U8 := fun _ => 0

/-- How a guest comes to an end. -/
inductive GuestEnd (t : Target)
  /-- The process is gone, and this was its last state. -/
  | gone (status : WaitStatus) (q : Qemu t)
  /-- A write outside of the shared memory. -/
  | outOfMap

/-- The result of a piece of emulator code: it returns, or the guest comes to an end. -/
abbrev Guest (t : Target) := Except (GuestEnd t)

/-- SIGABRT, by which a failed `assert` ends the process. -/
def SIGABRT : Nat := 6

/-- `exit(arg)` with an `int`, of which `waitpid` delivers the low byte. -/
def WaitStatus.ofExit (arg : BitVec 32) : WaitStatus := .exited (arg &&& 0xff).toNat

namespace Qemu

variable {t : Target}

/-! ### Setting up -/

/-- The environment variables of `afl_setup`. -/
structure SetupEnv where
  /-- What `SHM_ENV_VAR` names. -/
  shm : Option (TraceMap MAP_SIZE)
  /-- `atoi` of `AFL_INST_RATIO`. -/
  instRatio : Option (BitVec 32)
  /-- `AFL_INST_LIBS` -/
  instLibs : Bool

/-- `r`, in percent: at most 100, at least 1. -/
def instPercent (r : BitVec 32) : Nat :=
  let r := if r.toNat > 100 then 100 else r.toNat
  if r = 0 then 1 else r

/-- `afl_setup()` -/
def aflSetup (env : SetupEnv) (q : Qemu t) : Qemu t :=
  let q := match env.instRatio with
    | some r => { q with aflInstRms := MAP_SIZE * instPercent r / 100 }
    | none => q
  let q := match env.shm with
    | some shm =>
      -- A low ratio could leave the map empty, and the parent would give up.
      if env.instRatio.isSome then
        { q with area := some ⟨shm.bytes.set 0 1, List.length_set.trans shm.length_eq⟩ }
      else { q with area := some shm }
    | none => q
  if env.instLibs then { q with aflStartCode := 0, aflEndCode := -1 } else q

/-! ### Tracing -/

/-- The mixing steps of `aflHash`. -/
def mix : (t : Target) → TargetUlong t → TargetUlong t
  | .bits32, curLoc =>
    let h : BitVec 32 := curLoc ^^^ (curLoc >>> 16)
    let h := h * 0x85ebca6b
    let h := h ^^^ (h >>> 13)
    let h := h * 0xc2b2ae35
    h ^^^ (h >>> 16)
  | .bits64, curLoc =>
    let h : BitVec 64 := curLoc ^^^ (curLoc >>> 33)
    let h := h * 0xff51afd7ed558ccd
    let h := h ^^^ (h >>> 33)
    let h := h * 0xc4ceb9fe1a85ec53
    h ^^^ (h >>> 33)

/-- The hash before the ratio is applied: `h &= MAP_SIZE - 1`. -/
def maskedHash (curLoc : TargetUlong t) : TargetUlong t :=
  mix t curLoc &&& BitVec.ofNat t.longBits (MAP_SIZE - 1)

/-- `aflHash(cur_loc)`. Zero stands for a block that is not traced. -/
def aflHash (q : Qemu t) (curLoc : TargetUlong t) : TargetUlong t :=
  if !q.aflStart then 0
  else if q.aflEndCode < curLoc || curLoc < q.aflStartCode || q.area.isNone then 0
  else
    let h := maskedHash curLoc
    if h.toNat ≥ q.aflInstRms then 0 else h

/-- `afl_area_ptr[i]++` -/
def increment (m : TraceMap MAP_SIZE) (i : Nat) : TraceMap MAP_SIZE :=
  ⟨m.bytes.modify i (· + 1), (List.length_modify ..).trans m.length_eq⟩

/-- `helper_aflMaybeLog(cur_loc)` -/
def helperAflMaybeLog (q : Qemu t) (curLoc : TargetUlong t) : Guest t (Qemu t) :=
  let i := (curLoc ^^^ q.prevLoc).toNat
  match q.area with
  | some m =>
    if i < MAP_SIZE then .ok { q with area := some (increment m i), prevLoc := curLoc >>> 1 }
    else .error .outOfMap
  | none => .error .outOfMap

/-- `afl_maybe_log(cur_loc)` -/
def aflMaybeLog (q : Qemu t) (curLoc : TargetUlong t) : Guest t (Qemu t) :=
  let h := q.aflHash curLoc
  if h ≠ 0 then q.helperAflMaybeLog h else .ok q

/-! ### The `aflCall` instruction -/

/-- `cpu_ldq_data(env, ptr)` -/
def cpuLdq (q : Qemu t) (ptr : TargetUlong t) : BitVec 64 :=
  load 8 ((List.range 8).map fun i => q.mem (ptr + BitVec.ofNat _ i)) 0

/-- `cpu_stb_data(env, ptr, ch)` -/
def cpuStb (q : Qemu t) (ptr : TargetUlong t) (ch : U8) : Qemu t :=
  { q with mem := fun a => if a = ptr then ch else q.mem a }

/-- The process ends by `exit(arg)`. -/
def exit {α : Type} (q : Qemu t) (arg : BitVec 32) : Guest t α := .error (.gone (.ofExit arg) q)

/-- `assert(cond)` -/
def assert (q : Qemu t) (cond : Bool) : Guest t Unit :=
  if cond then .ok () else .error (.gone (.signaled SIGABRT) q)

/-- `startForkserver(env, enableTicks)`. In the process that becomes the fork server, the CPU thread
stops and the I/O thread goes on (`Qemu.forkChild`). -/
def startForkserver (q : Qemu t) (enableTicks : TargetUlong t) :
    Guest t (TargetUlong t × Qemu t) :=
  -- A test case has triggered it again. It ends without an error.
  if q.aflForkChild then q.exit 0
  else .ok (0, { q with aflEnableTicks := enableTicks.setWidth 32, aflWantsCpuToStop := true })

/-- The loop of `getWork`, over the bytes that are left in the file. -/
def copyWork : List U8 → TargetUlong t → TargetUlong t → TargetUlong t → Qemu t →
    TargetUlong t × Qemu t
  | [], _, _, retsz, q => (retsz, q)
  | ch :: rest, ptr, sz, retsz, q =>
    if retsz < sz then copyWork rest (ptr + 1) sz (retsz + 1) (q.cpuStb ptr ch) else (retsz, q)

/-- `getWork(env, ptr, sz)` -/
def getWork (q : Qemu t) (ptr sz : TargetUlong t) : Guest t (TargetUlong t × Qemu t) := do
  q.assert !q.aflStart
  match q.aflFile with
  | none => .ok (-1, q)
  | some content => .ok (copyWork content ptr sz 0 q)

/-- `startWork(env, ptr)`. The two words are loaded with eight bytes each, a word's size apart. -/
def startWork (q : Qemu t) (ptr : TargetUlong t) : Guest t (TargetUlong t × Qemu t) :=
  let start := (q.cpuLdq ptr).setWidth t.longBits
  let stop := (q.cpuLdq (ptr + BitVec.ofNat _ (t.longBits / 8))).setWidth t.longBits
  .ok (0, { q with
    aflStartCode := start
    aflEndCode := stop
    aflGotLog := false
    aflStart := true })

/-- `doneWork(val)` -/
def doneWork (q : Qemu t) (val : TargetUlong t) : Guest t (TargetUlong t × Qemu t) := do
  q.assert q.aflStart
  q.exit (val.setWidth 32)

/-- `helper_aflCall(env, code, a0, a1)` -/
def helperAflCall (q : Qemu t) (code a0 a1 : TargetUlong t) : Guest t (TargetUlong t × Qemu t) :=
  match code.toNat with
  | 1 => q.startForkserver a0
  | 2 => q.getWork a0 a1
  | 3 => q.startWork a0
  | 4 => q.doneWork a0
  | _ => .ok (-1, q)

/-! ### Interception of kernel functions -/

/-- `helper_aflInterceptPanic()` -/
def helperAflInterceptPanic (q : Qemu t) : Guest t (Qemu t) :=
  if q.aflStart then q.exit 32 else .ok q

/-- `helper_aflInterceptLog(env)` -/
def helperAflInterceptLog (q : Qemu t) : Qemu t := { q with aflGotLog := q.aflStart || q.aflGotLog }

/-- The code that `gen_aflBBlock(pc)` puts in front of a block. -/
def aflBBlock (q : Qemu t) (pc : TargetUlong t) : Guest t (Qemu t) := do
  let q ← if pc.setWidth 64 = q.aflPanicAddr then q.helperAflInterceptPanic else .ok q
  .ok (if pc.setWidth 64 = q.aflDmesgAddr then q.helperAflInterceptLog else q)

end Qemu

/-! ### The guest -/

/-- What a guest does. -/
inductive GuestAct (t : Target)
  /-- A translation block is entered. It may be left by an exception at any point. -/
  | enter (pc : TargetUlong t)
  /-- The end of `cpu_tb_exec` for a block that was executed. -/
  | executed (pc : TargetUlong t)
  /-- The pseudo-instruction `0x0f 0x24`. -/
  | aflCall (code a0 a1 : TargetUlong t)
  | store (addr : TargetUlong t) (val : U8)

namespace Qemu

variable {t : Target}

/-- An act of the guest. What `aflCall` returns goes to a register of the guest. -/
def act (q : Qemu t) : GuestAct t → Guest t (Qemu t)
  | .enter pc => q.aflBBlock pc
  | .executed pc => q.aflMaybeLog pc
  | .aflCall code a0 a1 => (q.helperAflCall code a0 a1).map Prod.snd
  | .store addr val => .ok (q.cpuStb addr val)

/-- The guest runs. -/
def guest (q : Qemu t) (acts : List (GuestAct t)) : Guest t (Qemu t) := acts.foldlM act q

/-! ### The fork server and its client -/

/-- The child that the fork server forks: its I/O thread starts a CPU thread of its own, in which
`prev_loc` is zero. -/
def forkChild (server : Qemu t) : Qemu t :=
  { server with
    aflForkChild := true
    aflWantsCpuToStop := false
    prevLoc := 0 }

/-- A turn of the loop in `afl_forkserver`, for a test case that ends: what it writes to its
client, and the shared memory afterwards. -/
def forkserverTurn (server : Qemu t) (pid run : Nat) (test : List (GuestAct t)) :
    Option (List Msg × Option (TraceMap MAP_SIZE)) :=
  match server.forkChild.guest test with
  | .error (.gone status q) => some ([.pid pid, .status ⟨status, run, false⟩], q.area)
  | _ => none

/-- `memset(trace_bits, 0, MAP_SIZE)`, on the client's side of the shared memory. -/
def clearTrace (server : Qemu t) : Qemu t :=
  { server with area := server.area.map fun _ => TraceMap.fill MAP_SIZE 0 }

/-- `run_target` of afl-fuzz with this fork server, without a timeout: the fault that it returns,
and the map that the run has left. -/
def runTarget (o : VerdictFlags) (server : Qemu t) (pid run : Nat) (stopSoon : Bool)
    (test : List (GuestAct t)) : Option (Fault × TraceMap MAP_SIZE) :=
  match server.clearTrace.forkserverTurn pid run test with
  | some ([.pid _, .status report], some traceBits) =>
    some (fuzzFault o ⟨run, report, false, stopSoon⟩, traceBits)
  | _ => none

end Qemu

end TriforceAFL.Spec
