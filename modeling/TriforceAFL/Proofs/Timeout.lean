import TriforceAFL.Proofs.Dictionary
import TriforceAFL.Spec.Timeout

/-!
# `TriforceAFL.Proofs.Timeout`: how long the start of the fork server may take

The timer of `init_forkserver` shows the product of `exec_tmout` and `FORK_WAIT_MULT` as a `u32`
exactly (`forkTimer_ms`), so it is the intended time as long as the product has 32 bits
(`fork_timer_iff`).
-/

set_option autoImplicit false

namespace TriforceAFL.Proofs

open Lib Spec

/-- Seconds and microseconds add up to the product again. -/
theorem forkTimer_ms (tool : Tool) (execTmout : U32) :
    (tool.forkTimer execTmout).ms = execTmout.toNat * 100000 % 2 ^ 32 := by
  have hfactor : FORK_WAIT_MULT.toNat = 100000 := by decide
  have hsum : ∀ p : U32, (p / 1000).toNat * 1000 + (p % 1000 * 1000).toNat / 1000 = p.toNat := by
    intro p
    have hthousand : (1000 : U32).toNat = 1000 := by decide
    rw [BitVec.toNat_udiv, BitVec.toNat_mul, BitVec.toNat_umod, hthousand]
    omega
  have hmult : (Tool.forkTimer.multiplied execTmout).ms = execTmout.toNat * 100000 % 2 ^ 32 := by
    rw [Timeval.ms, Tool.forkTimer.multiplied, hsum, BitVec.toNat_mul, hfactor]
  cases tool with
  | fuzz => exact hmult
  | tmin | showmap =>
    by_cases hzero : execTmout = 0
    · rw [hzero]
      rfl
    · rw [← hmult]
      exact congrArg Timeval.ms (if_pos hzero)

/-- For every timeout that a program accepts, the timer is armed with `FORK_WAIT_MULT` times the
timeout, and so not with zero and not with less than one timeout, exactly if the timeout is at most
42949 milliseconds. -/
theorem fork_timer_iff (tool : Tool) (execTmout : U32)
    (haccepted : tool.minTimeout ≤ execTmout.toNat) :
    ((tool.forkTimer execTmout).ms = execTmout.toNat * FORK_WAIT_MULT.toNat ∧
        (tool.forkTimer execTmout).ms ≠ 0 ∧ execTmout.toNat ≤ (tool.forkTimer execTmout).ms) ↔
      execTmout.toNat ≤ 42949 := by
  have hmin : 5 ≤ tool.minTimeout := by cases tool <;> decide
  have hfactor : FORK_WAIT_MULT.toNat = 100000 := by decide
  rw [forkTimer_ms, hfactor]
  constructor
  · rintro ⟨hexact, _, _⟩
    have hsmall := Nat.mod_lt (execTmout.toNat * 100000) (Nat.two_pow_pos 32)
    omega
  · intro hle
    rw [Nat.mod_eq_of_lt (by omega)]
    omega

/-- The smallest timeout of afl-showmap, 20 ms, and the largest that is multiplied correctly. -/
theorem fork_timer_iff_bounds :
    (Tool.showmap.forkTimer 20).ms = 20 * 100000 ∧
      (Tool.fuzz.forkTimer 42949).ms = 42949 * 100000 :=
  ⟨((fork_timer_iff .showmap 20 (by decide)).mpr (by decide)).1,
    ((fork_timer_iff .fuzz 42949 (by decide)).mpr (by decide)).1⟩

/-- With `-t 42950` the programs wait for less than one timeout, and with `-t 134217728` they do not
limit the time at all. -/
theorem fork_timer_wraps :
    ([Tool.fuzz, .tmin, .showmap].all fun tool =>
      tool.timeoutOption (bytesOf "42950") = .ok 42950 ∧ (tool.forkTimer 42950).ms = 32704 ∧
        tool.timeoutOption (bytesOf "134217728") = .ok 134217728 ∧
        tool.forkTimer 134217728 = ⟨0, 0⟩) = true ∧
      42950 * FORK_WAIT_MULT.toNat = 4295000000 := by
  decide +kernel

end TriforceAFL.Proofs
