import TriforceAFL.Proofs.HavocRefines
import TriforceAFL.Spec.Alloc
import TriforceAFL.Spec.Trim

/-!
# `TriforceAFL.Proofs.Trim`: trimming keeps the trace and the file

The candidate on the disk and the buffer in memory are edited by different code, `write_with_gap`
and `memmove`. Both come down to `Session.deleteAt` on the test case (`writeWithGap_eq`,
`take_overwrite_slice`), so a candidate whose trace is the right one is also the next test case in
memory.

`Kept` is the invariant of both loops. The inner loop ends because every turn brings the position
and the end of the test case closer together, the outer one because the block size is halved. The
end of `next_p2` depends on the length: above `2 ^ 31` there is no power of two left in a `u32`.
-/

set_option autoImplicit false

namespace TriforceAFL.Proofs

open Lib Spec

/-! ### `next_p2` -/

theorem nextP2From_of_le {val ret : Nat} (h : val ≤ ret) (turns : Nat) :
    nextP2From val turns ret = ret := by
  cases turns with
  | zero => rfl
  | succ turns => exact if_neg (Nat.not_lt.mpr h)

/-- The loop of `next_p2` ends, and the result is not more than twice the argument. -/
theorem ends_nextP2 {val : Nat} (hpos : 0 < val) (hval : val ≤ 2 ^ 31) :
    Ends (Trim.nextP2 val) fun ret => ret = nextP2 val ∧ ret < 2 * val := by
  -- As long as the loop goes on, the candidate is a power of two below the argument. The turns that
  -- are left would be enough to reach `2 ^ 32`.
  refine Ends.repeatStep (fun ret => (0 < ret ∧ ret < 2 * val) ∧
      ∃ turns, 2 ^ 32 ≤ ret * 2 ^ turns ∧ nextP2From val turns ret = nextP2 val)
    (fun ret => val - ret) ?_ 1 ⟨⟨Nat.one_pos, by omega⟩, 32, by decide, rfl⟩
  rintro ret ⟨hret, turns, henough, hrest⟩
  refine Ends.pure ?_
  unfold Trim.nextP2Turn
  split
  · rename_i hlt
    have hshift : ret <<< 1 = 2 * ret := by rw [Nat.shiftLeft_eq, Nat.mul_comm]
    have hmod : (ret <<< 1) % 2 ^ 32 = 2 * ret := by rw [hshift, Nat.mod_eq_of_lt (by omega)]
    rw [hmod]
    refine ⟨⟨⟨by omega, by omega⟩, ?_⟩, by omega⟩
    cases turns with
    | zero => omega
    | succ turns =>
      refine ⟨turns, ?_, ?_⟩
      · rw [Nat.mul_comm 2, Nat.mul_assoc, Nat.mul_comm 2, ← Nat.pow_succ]
        exact henough
      · rw [nextP2From, if_pos hlt, hshift] at hrest
        exact hrest
  · rename_i hle
    rw [nextP2From_of_le (Nat.le_of_not_lt hle)] at hrest
    exact ⟨hrest, hret.2⟩

/-! ### One block less, on the disk and in memory -/

section Gap
variable {inBuf : List U8} {len pos n : Nat}

/-- The two parts around a gap. -/
theorem deleteAt_take (hin : pos + n ≤ len) :
    Session.deleteAt (inBuf.take len) pos n
      = Session.slice inBuf 0 pos ++ Session.slice inBuf (pos + n) (len - pos - n) := by
  unfold Session.deleteAt Session.slice
  rw [List.take_take, Nat.min_eq_left (by omega), List.drop_take, Nat.sub_sub]
  rfl

/-- The two writes, over what the file held. -/
theorem twoWrites_eq (file : List U8) (hin : pos + n ≤ len)
    (hlen : len ≤ inBuf.length) :
    (if len - pos - n ≠ 0 then
        Session.overwrite (Session.overwrite file 0 (Session.slice inBuf 0 pos)) pos
          (Session.slice inBuf (pos + n) (len - pos - n))
      else Session.overwrite file 0 (Session.slice inBuf 0 pos))
      = Session.deleteAt (inBuf.take len) pos n ++ (file.drop pos).drop (len - pos - n) := by
  have hhead : (Session.slice inBuf 0 pos).length = pos := length_slice inBuf (by omega)
  have htail : (Session.slice inBuf (pos + n) (len - pos - n)).length = len - pos - n :=
    length_slice inBuf (by omega)
  have hfirst : Session.overwrite file 0 (Session.slice inBuf 0 pos)
      = Session.slice inBuf 0 pos ++ file.drop pos := overwrite_head (by omega)
  rw [deleteAt_take hin, hfirst]
  split
  · have hsecond := overwrite_at_length (Session.slice inBuf 0 pos) (file.drop pos)
      (Session.slice inBuf (pos + n) (len - pos - n))
    rwa [hhead, htail] at hsecond
  · rename_i hnone
    have hzero : len - pos - n = 0 := by omega
    rw [hzero, List.drop_zero]
    show _ = Session.slice inBuf 0 pos ++ [] ++ file.drop pos
    rw [List.append_nil]

/-- `write_with_gap` leaves the test case without the block for the target, whatever the target was
given before. -/
theorem writeWithGap_eq (outFile : Bool) (old : List U8) (hpos : 0 < pos) (hin : pos + n ≤ len)
    (hlen : len ≤ inBuf.length) :
    Trim.writeWithGap outFile old inBuf len pos n = Session.deleteAt (inBuf.take len) pos n := by
  have hgap : (Session.deleteAt (inBuf.take len) pos n).length = len - n := by
    rw [length_deleteAt _ (by rw [List.length_take]; omega), List.length_take]
    omega
  unfold Trim.writeWithGap
  dsimp only
  rw [if_pos (Nat.ne_of_gt hpos), twoWrites_eq _ hin hlen]
  cases outFile with
  | true =>
    -- The file is new, so there is nothing behind the two parts.
    show _ ++ ([].drop pos).drop _ = _
    rw [List.drop_nil, List.drop_nil, List.append_nil]
  | false =>
    show Trim.ftruncate (_ ++ (old.drop pos).drop (len - pos - n)) (len - n) = _
    unfold Trim.ftruncate
    have hfits : len - n - (Session.deleteAt (inBuf.take len) pos n
        ++ (old.drop pos).drop (len - pos - n)).length = 0 := by
      rw [List.length_append]
      omega
    rw [hfits, List.take_left' hgap]
    exact List.append_nil _

/-- `memmove` and the new length do the same to the test case in memory. -/
theorem take_overwrite_slice (hin : pos + n ≤ len) (hlen : len ≤ inBuf.length) :
    (Session.overwrite inBuf pos (Session.slice inBuf (pos + n) (len - pos - n))).take (len - n)
      = Session.deleteAt (inBuf.take len) pos n := by
  have hgap : (Session.slice inBuf 0 pos
      ++ Session.slice inBuf (pos + n) (len - pos - n)).length = len - n := by
    rw [← deleteAt_take hin, length_deleteAt _ (by rw [List.length_take]; omega),
      List.length_take]
    omega
  rw [deleteAt_take hin]
  exact List.take_left' hgap

end Gap

/-! ### The loops -/

section Loops
variable {mapSize : Nat} {env : Trim.Env mapSize} {execCksum : U32} {orig : List U8}
variable {t : Trim.State mapSize}

/-- What holds of a turn: the candidate is the test case without one block behind its first
`TRIM_MIN_BYTES` bytes, and the block is removed if and only if the checksum of the candidate's
trace is the one of the entry. -/
structure TurnOk (env : Trim.Env mapSize) (execCksum : U32) (turn : Trim.Turn) : Prop where
  gap : ∃ pos n, TRIM_MIN_BYTES ≤ pos ∧ 0 < n ∧ pos + n ≤ turn.before.length ∧
    turn.candidate = turn.before.take pos ++ turn.before.drop (pos + n)
  cksum : turn.cksum = env.cksum turn.candidate
  after : turn.after = if turn.cksum = execCksum then turn.candidate else turn.before

/-- The turns lead from one test case to another. -/
def Leads : List U8 → List Trim.Turn → List U8 → Prop
  | x, [], y => x = y
  | x, turn :: turns, y => turn.before = x ∧ Leads turn.after turns y

theorem Leads.snoc {x y : List U8} {turns : List Trim.Turn} (h : Leads x turns y)
    {turn : Trim.Turn} (hbefore : turn.before = y) : Leads x (turns ++ [turn]) turn.after := by
  induction turns generalizing x with
  | nil => exact ⟨hbefore.trans (Eq.symm h), rfl⟩
  | cons t turns ih => exact ⟨h.1, ih h.2⟩

/-- The invariant of trimming, for an entry with the content `orig`. -/
structure Kept (env : Trim.Env mapSize) (execCksum : U32) (orig : List U8)
    (t : Trim.State mapSize) : Prop where
  fits : t.len ≤ t.inBuf.length
  least : TRIM_MIN_BYTES ≤ t.len
  sublist : t.content.Sublist orig
  head : t.content.take TRIM_MIN_BYTES = orig.take TRIM_MIN_BYTES
  cksum : env.cksum t.content = execCksum
  turns : ∀ turn ∈ t.turns, TurnOk env execCksum turn
  leads : Leads orig t.turns t.content
  /-- A clean trace has been taken if and only if something was removed. -/
  clean : t.cleanTrace = none ∧ t.content = orig ∨
    ∃ trace, t.cleanTrace = some trace ∧ env.hash32 trace = execCksum ∧
      t.content.length < orig.length

/-- The block of `n` bytes at `removePos` lies in the test case. -/
structure AtBlock (t : Trim.State mapSize) (n : Nat) : Prop where
  pos : TRIM_MIN_BYTES ≤ t.removePos
  some : 0 < n
  inside : t.removePos + n ≤ t.len

section Turn
variable {t t' : Trim.State mapSize} {n : Nat} {turn : Trim.Turn} (h : Kept env execCksum orig t)
include h

theorem Kept.length_content : t.content.length = t.len := by
  unfold Trim.State.content
  rw [List.length_take, Nat.min_eq_left h.fits]

theorem Kept.len_le : t.len ≤ orig.length :=
  h.length_content ▸ h.sublist.length_le

/-- What the target is given. -/
theorem Kept.candidate (hat : AtBlock t n) :
    Trim.writeWithGap env.outFile t.target t.inBuf t.len t.removePos n
      = Session.deleteAt t.content t.removePos n := by
  have hmin : 0 < TRIM_MIN_BYTES := by decide
  exact writeWithGap_eq env.outFile t.target (Nat.lt_of_lt_of_le hmin hat.pos) hat.inside h.fits

/-- The turn that is logged, whatever becomes of the block. -/
theorem Kept.turnOk (hat : AtBlock t n) (hbefore : turn.before = t.content)
    (hcandidate : turn.candidate = Session.deleteAt t.content t.removePos n)
    (hcksum : turn.cksum = env.cksum turn.candidate)
    (hafter : turn.after = if turn.cksum = execCksum then turn.candidate else turn.before) :
    TurnOk env execCksum turn := by
  refine ⟨⟨t.removePos, n, hat.pos, hat.some, ?_, ?_⟩, hcksum, hafter⟩
  · rw [hbefore, h.length_content]
    exact hat.inside
  · rw [hcandidate, hbefore]
    rfl

/-- The other variables do not matter. -/
theorem Kept.of_same (hbuf : t'.inBuf = t.inBuf) (hlen : t'.len = t.len)
    (hclean : t'.cleanTrace = t.cleanTrace) (hturns : t'.turns = t.turns) :
    Kept env execCksum orig t' := by
  have hcontent : t'.content = t.content := by
    unfold Trim.State.content
    rw [hbuf, hlen]
  refine ⟨?_, ?_, ?_, ?_, ?_, ?_, ?_, ?_⟩
  · rw [hbuf, hlen]
    exact h.fits
  · rw [hlen]
    exact h.least
  · rw [hcontent]
    exact h.sublist
  · rw [hcontent]
    exact h.head
  · rw [hcontent]
    exact h.cksum
  · rw [hturns]
    exact h.turns
  · rw [hturns, hcontent]
    exact h.leads
  · rw [hclean, hcontent]
    exact h.clean

/-- The block stays. -/
theorem Kept.reject (hturn : TurnOk env execCksum turn) (hbefore : turn.before = t.content)
    (hafter : turn.after = t.content) :
    Kept env execCksum orig { t with turns := t.turns ++ [turn] } where
  fits := h.fits
  least := h.least
  sublist := h.sublist
  head := h.head
  cksum := h.cksum
  turns := List.forall_mem_append.mpr ⟨h.turns, List.forall_mem_singleton.mpr hturn⟩
  leads := by
    have hleads := h.leads.snoc hbefore
    rwa [hafter] at hleads
  clean := h.clean

/-- The block is removed. -/
theorem Kept.accept (hat : AtBlock t n) (hturn : TurnOk env execCksum turn)
    (hbefore : turn.before = t.content)
    (hafter : turn.after = Session.deleteAt t.content t.removePos n) {trace : TraceMap mapSize}
    (htrace : env.hash32 trace = execCksum)
    (hcksum : env.cksum (Session.deleteAt t.content t.removePos n) = execCksum)
    (hcontent : t'.content = Session.deleteAt t.content t.removePos n) (hlen : t'.len = t.len - n)
    (hclean : t'.cleanTrace = t.cleanTrace.or (some trace))
    (hturns : t'.turns = t.turns ++ [turn]) :
    Kept env execCksum orig t' := by
  have hpos := hat.pos
  have hsome := hat.some
  have hinside := hat.inside
  have hold := h.length_content
  have hgap : t'.content.length = t.len - n := by
    rw [hcontent, length_deleteAt _ (by omega), hold]
  refine ⟨?_, by omega, ?_, ?_, ?_, ?_, ?_, ?_⟩
  · -- The buffer has at least the bytes that were counted.
    have hbuf : t'.content.length ≤ t'.inBuf.length := List.length_take_le' _ _
    omega
  · rw [hcontent]
    refine List.Sublist.trans ?_ h.sublist
    have hwhole := List.take_append_drop t.removePos t.content
    unfold Session.deleteAt
    conv_rhs => rw [← hwhole]
    refine List.Sublist.append_left ?_ _
    rw [← List.drop_drop]
    exact List.drop_sublist n _
  · rw [hcontent, ← h.head]
    unfold Session.deleteAt
    rw [List.take_append_of_le_length (by rw [List.length_take]; omega), List.take_take,
      Nat.min_eq_left hpos]
  · rw [hcontent]
    exact hcksum
  · rw [hturns]
    exact List.forall_mem_append.mpr ⟨h.turns, List.forall_mem_singleton.mpr hturn⟩
  · rw [hturns, hcontent, ← hafter]
    exact h.leads.snoc hbefore
  · -- Only the first trace is taken.
    have hless : t'.content.length < orig.length := by
      have := h.len_le
      omega
    rw [hclean]
    rcases h.clean with ⟨hnone, _⟩ | ⟨first, hfirst, hhash, _⟩
    · rw [hnone]
      exact Or.inr ⟨trace, rfl, htrace, hless⟩
    · rw [hfirst]
      exact Or.inr ⟨first, rfl, hhash, hless⟩

/-- The second half of a turn that removes its block. -/
theorem ends_remove (hat : AtBlock t n) (hsmall : orig.length ≤ 2 ^ 31) (trace : TraceMap mapSize) :
    Ends (Trim.remove t n trace) fun t' => ∃ inBuf,
      t' = { t with
        inBuf
        len := t.len - n
        lenP2 := nextP2 (t.len - n)
        cleanTrace := t.cleanTrace.or (some trace) } ∧
      inBuf.take (t.len - n) = Session.deleteAt t.content t.removePos n := by
  have hpos := hat.pos
  have hinside := hat.inside
  have hle := h.len_le
  have hmin : TRIM_MIN_BYTES = 4 := rfl
  refine Ends.bind (ends_nextP2 (by omega) (by omega)) ?_
  rintro _ ⟨rfl, _⟩
  exact Ends.pure ⟨_, rfl, take_overwrite_slice hinside h.fits⟩

end Turn

/-- The invariant of the inner loop, which leaves the block size alone. -/
structure InRound (env : Trim.Env mapSize) (execCksum : U32) (orig : List U8) (removeLen : Nat)
    (t : Trim.State mapSize) : Prop where
  kept : Kept env execCksum orig t
  size : t.removeLen = removeLen
  pos : TRIM_MIN_BYTES ≤ t.removePos

theorem Kept.inRound (h : Kept env execCksum orig t) (hmin : TRIM_MIN_BYTES ≤ t.removeLen) :
    InRound env execCksum orig t.removeLen { t with removePos := t.removeLen } :=
  ⟨h.of_same rfl rfl rfl rfl, rfl, hmin⟩

/-- How a loop can be left: for good, or because trimming is aborted. -/
def LoopEnd (env : Trim.Env mapSize) (Q : Trim.State mapSize → Prop) :
    Bool × Trim.State mapSize → Prop
  | (false, t) => Q t
  | (true, t) => env.stopSoon t.trimExecs = true ∨ t.fault = .error

/-- One turn of the inner loop. -/
theorem ends_trimTurn {removeLen : Nat} (hmin : TRIM_MIN_BYTES ≤ removeLen)
    (hmax : removeLen ≤ orig.length) (hsmall : orig.length ≤ 2 ^ 30)
    (h : InRound env execCksum orig removeLen t) :
    Ends (fun budget => Trim.trimTurn env execCksum budget t)
      (Sum.elim (fun t' => InRound env execCksum orig removeLen t' ∧
          t'.len - t'.removePos < t.len - t.removePos)
        (LoopEnd env (InRound env execCksum orig removeLen))) := by
  have hfour : TRIM_MIN_BYTES = 4 := rfl
  have hle := h.kept.len_le
  by_cases hmore : t.removePos < t.len
  · -- The target runs on the test case without the block.
    have hat : AtBlock t (min t.removeLen (t.len - t.removePos)) := by
      have hsize := h.size
      exact ⟨h.pos, by omega, by omega⟩
    unfold Trim.trimTurn
    simp only [if_pos hmore, h.kept.candidate hat]
    generalize hn : min t.removeLen (t.len - t.removePos) = n at hat
    generalize hcand : Session.deleteAt t.content t.removePos n = candidate
    set t₁ : Trim.State mapSize := { t with
      target := candidate
      fault := (env.run candidate).1
      trimExecs := t.trimExecs + 1 } with ht₁
    have hkept : Kept env execCksum orig t₁ := h.kept.of_same rfl rfl rfl rfl
    have hat₁ : AtBlock t₁ n := ⟨hat.pos, hat.some, hat.inside⟩
    by_cases hstop : (env.stopSoon (t.trimExecs + 1)
        || decide ((env.run candidate).1 = .error)) = true
    · simp only [if_pos hstop]
      rw [Bool.or_eq_true, decide_eq_true_iff] at hstop
      exact Ends.pure hstop
    · simp only [if_neg hstop]
      by_cases heq : env.hash32 (env.run candidate).2 = execCksum
      · simp only [if_pos heq]
        refine Ends.bind (ends_remove hkept hat₁ (by omega) (env.run candidate).2) ?_
        rintro _ ⟨inBuf, rfl, hcontent⟩
        refine Ends.pure ⟨⟨?_, h.size, h.pos⟩, ?_⟩
        · have hturn : TurnOk env execCksum
              ⟨t.content, candidate, env.hash32 (env.run candidate).2,
                inBuf.take (t.len - n)⟩ := by
            refine hkept.turnOk hat₁ rfl hcand.symm rfl ?_
            exact (hcontent.trans hcand).trans (if_pos heq).symm
          exact hkept.accept hat₁ hturn rfl hcontent heq (hcand ▸ heq) hcontent rfl rfl rfl
        · have hinside := hat.inside
          have hsome := hat.some
          show t.len - n - t.removePos < t.len - t.removePos
          omega
      · simp only [if_neg heq]
        have hturn : TurnOk env execCksum
            ⟨t.content, candidate, env.hash32 (env.run candidate).2, t.content⟩ :=
          hkept.turnOk hat₁ rfl hcand.symm rfl (if_neg heq).symm
        have hsize := h.size
        have hpos := h.pos
        have hnext : (t.removePos + t.removeLen) % 2 ^ 32 = t.removePos + t.removeLen :=
          Nat.mod_eq_of_lt (by omega)
        rw [hnext]
        refine Ends.pure ⟨⟨?_, hsize, ?_⟩, ?_⟩
        · exact Kept.reject (t := { t₁ with removePos := t.removePos + t.removeLen })
            (hkept.of_same rfl rfl rfl rfl) hturn rfl rfl
        · show TRIM_MIN_BYTES ≤ t.removePos + t.removeLen
          omega
        · show t.len - (t.removePos + t.removeLen) < t.len - t.removePos
          omega
  · unfold Trim.trimTurn
    simp only [if_neg hmore]
    exact Ends.pure h

/-- The inner loop. -/
theorem ends_trimRound (h : Kept env execCksum orig t) (hmin : TRIM_MIN_BYTES ≤ t.removeLen)
    (hmax : t.removeLen ≤ orig.length) (hsmall : orig.length ≤ 2 ^ 30) :
    Ends (fun budget => Trim.trimRound env execCksum budget t)
      (LoopEnd env (InRound env execCksum orig t.removeLen)) := by
  refine Ends.repeatStep (InRound env execCksum orig t.removeLen)
    (fun t => t.len - t.removePos) ?_ _ (h.inRound hmin)
  intro t' ht'
  exact ends_trimTurn hmin hmax hsmall ht'

/-- The outer loop. -/
theorem ends_trimSteps (h : Kept env execCksum orig t) (hmax : t.removeLen ≤ orig.length)
    (hsmall : orig.length ≤ 2 ^ 30) :
    Ends (fun budget => repeatStep (Trim.trimStep env execCksum budget) budget t)
      (LoopEnd env (Kept env execCksum orig)) := by
  refine Ends.repeatStep (fun t => Kept env execCksum orig t ∧ t.removeLen ≤ orig.length)
    (fun t => t.removeLen) ?_ t ⟨h, hmax⟩
  rintro t ⟨hkept, hsize⟩
  unfold Trim.trimStep
  by_cases hmore : t.removeLen ≥ max (t.lenP2 / TRIM_END_STEPS) TRIM_MIN_BYTES
  · have hmin : TRIM_MIN_BYTES ≤ t.removeLen := (Nat.le_max_right _ _).trans hmore
    simp only [if_pos hmore]
    refine Ends.bind (ends_trimRound hkept hmin hsize hsmall) ?_
    rintro ⟨abort, t'⟩ hend
    cases abort with
    | true => exact Ends.pure hend
    | false =>
      have hround : InRound env execCksum orig t.removeLen t' := hend
      have hfour : TRIM_MIN_BYTES = 4 := rfl
      have hhalf : t'.removeLen >>> 1 = t.removeLen / 2 := by
        rw [hround.size, Nat.shiftRight_eq_div_pow]
      refine Ends.pure ⟨⟨hround.kept.of_same rfl rfl rfl rfl, ?_⟩, ?_⟩
      · show t'.removeLen >>> 1 ≤ orig.length
        omega
      · show t'.removeLen >>> 1 < t.removeLen
        omega
  · simp only [if_neg hmore]
    exact Ends.pure hkept

/-- What `trim_case` has done when it is over. -/
def TrimOk (env : Trim.Env mapSize) (execCksum : U32) (inBuf file : List U8) :
    Trim.Result mapSize → Prop
  | .aborted t => env.stopSoon t.trimExecs = true ∨ t.fault = .error
  | .unableToCreate => env.canCreate = false
  | .trimmed t file' scored =>
    (∀ turn ∈ t.turns, TurnOk env execCksum turn) ∧ Leads inBuf t.turns t.content ∧
    t.content.length = t.len ∧ t.content.Sublist inBuf ∧
    TRIM_MIN_BYTES ≤ t.len ∧ t.content.take TRIM_MIN_BYTES = inBuf.take TRIM_MIN_BYTES ∧
    env.cksum t.content = execCksum ∧
    (t.content = inBuf ∧ file' = file ∧ scored = none ∨
      t.content.length < inBuf.length ∧ file' = t.content ∧
        ∃ trace, scored = some trace ∧ env.hash32 trace = execCksum)

/-- Before the first turn. -/
theorem kept_start {lenP2 removeLen : Nat} {target : List U8}
    (hlen : TRIM_MIN_BYTES ≤ orig.length) (hcksum : env.cksum orig = execCksum) :
    Kept env execCksum orig { inBuf := orig, len := orig.length, lenP2, removeLen, target } := by
  have hcontent : Trim.State.content
      ({ inBuf := orig, len := orig.length, lenP2, removeLen, target } : Trim.State mapSize)
      = orig := List.take_length
  refine ⟨Nat.le_refl _, hlen, ?_, ?_, ?_, ?_, ?_, Or.inl ⟨rfl, hcontent⟩⟩
  · rw [hcontent]
  · rw [hcontent]
  · rw [hcontent]
    exact hcksum
  · intro turn hturn
    cases hturn
  · exact hcontent.symm

theorem trimOk_finish (h : Kept env execCksum orig t) (file : List U8) :
    TrimOk env execCksum orig file (Trim.finish env file t) := by
  unfold Trim.finish
  rcases h.clean with ⟨hnone, hsame⟩ | ⟨trace, hsome, htrace, hless⟩
  · rw [hnone]
    exact ⟨h.turns, h.leads, h.length_content, h.sublist, h.least, h.head, h.cksum,
      Or.inl ⟨hsame, rfl, rfl⟩⟩
  · rw [hsome]
    dsimp only
    split
    · exact ⟨h.turns, h.leads, h.length_content, h.sublist, h.least, h.head, h.cksum,
        Or.inr ⟨hless, rfl, trace, rfl, htrace⟩⟩
    · rename_i hfails
      exact (Bool.not_eq_true _).mp hfails

/-- `trim_case` on a test case that is not too long for `next_p2`. -/
theorem ends_trimCase {inBuf file target : List U8} (hlen : 5 ≤ inBuf.length)
    (hsmall : inBuf.length ≤ 2 ^ 30) (hcksum : env.cksum inBuf = execCksum) :
    Ends (Trim.trimCase env execCksum inBuf file target) (TrimOk env execCksum inBuf file) := by
  have hlong : ¬ inBuf.length < 5 := by omega
  unfold Trim.trimCase
  simp only [if_neg hlong]
  refine Ends.bind (ends_nextP2 (by omega) (by omega)) ?_
  rintro lenP2 ⟨_, hp2⟩
  have hfour : TRIM_MIN_BYTES = 4 := rfl
  have hstart : lenP2 / TRIM_START_STEPS = lenP2 / 16 := rfl
  have hkept : Kept env execCksum inBuf
      { inBuf, len := inBuf.length, lenP2, target
        removeLen := max (lenP2 / TRIM_START_STEPS) TRIM_MIN_BYTES } :=
    kept_start (by omega) hcksum
  have hmax : max (lenP2 / TRIM_START_STEPS) TRIM_MIN_BYTES ≤ inBuf.length := by omega
  refine Ends.bind (ends_trimSteps hkept hmax hsmall) ?_
  rintro ⟨abort, t⟩ hend
  cases abort with
  | true => exact Ends.pure hend
  | false => exact Ends.pure (trimOk_finish hend file)

end Loops

/-- `trim_case` on an entry of at least five bytes, whose `exec_cksum` is that of its content and
for which `fuzz_one` could allocate `out_buf`. It ends with any target that is deterministic.
Unless it is aborted, each candidate was the test case at that time without one block, and each
block that was removed had been left out of a candidate with the same checksum. What remains is a
subsequence of the content that begins with the same `TRIM_MIN_BYTES` bytes and has the same
checksum, and if it is shorter then it is also what the file holds. -/
theorem trimCase_ends {mapSize : Nat} (env : Trim.Env mapSize) (execCksum : U32)
    (inBuf file target : List U8) (hlen : 5 ≤ inBuf.length) (hu32 : inBuf.length < 2 ^ 32)
    (halloc : allocCheckSize (BitVec.ofNat 32 inBuf.length) = .ok ())
    (hcksum : env.cksum inBuf = execCksum) :
    Ends (Trim.trimCase env execCksum inBuf file target) (TrimOk env execCksum inBuf file) := by
  have hsmall : inBuf.length ≤ 2 ^ 30 := by
    unfold allocCheckSize at halloc
    split at halloc
    · cases halloc
    · rename_i hle
      rw [BitVec.toNat_ofNat, Nat.mod_eq_of_lt hu32] at hle
      exact Nat.le_of_not_lt hle
  exact ends_trimCase hlen hsmall hcksum

/-- A target whose trace depends on the first four bytes alone. -/
def headTarget : Trim.Env 1 where
  run mem := (.none, TraceMap.fill 1 ((mem.take 4).foldl (· + ·) 0))
  hash32 trace := (byteOf trace.bytes 0).setWidth 32

theorem trimCase_ends_six :
    Ends (Trim.trimCase headTarget (headTarget.cksum [1, 2, 3, 4, 5, 6]) [1, 2, 3, 4, 5, 6]
        [1, 2, 3, 4, 5, 6] []) (TrimOk headTarget (headTarget.cksum [1, 2, 3, 4, 5, 6])
        [1, 2, 3, 4, 5, 6] [1, 2, 3, 4, 5, 6]) ∧
      ∃ t trace, Trim.trimCase headTarget (headTarget.cksum [1, 2, 3, 4, 5, 6])
        [1, 2, 3, 4, 5, 6] [1, 2, 3, 4, 5, 6] [] 9 = some (.trimmed t [1, 2, 3, 4] trace) :=
  ⟨trimCase_ends headTarget _ [1, 2, 3, 4, 5, 6] [1, 2, 3, 4, 5, 6] [] (by decide) (by decide) rfl
    rfl, _, _, rfl⟩

end TriforceAFL.Proofs
