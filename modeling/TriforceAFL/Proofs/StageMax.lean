import Mathlib.Data.BitVec
import TriforceAFL.Proofs.DeterministicFrame
import TriforceAFL.Proofs.Overwrite
import TriforceAFL.Spec.StageMax

/-!
# `TriforceAFL.Proofs.StageMax`: the accounting of the deterministic stages

Every stage takes a candidate off `stage_max` exactly where it skips one. So `stage_max` ends as the
number of calls of `common_fuzz_stuff`, modulo 2^32, and this is added to `stage_cycles`.

* `Completed` states this for the stages on bits, bytes and words. `takes_*` give the cost of each
  part of a stage, and `completed_of_takes` puts them together.
* `counts_overwriteExtras` and `counts_insertExtras` state it for the stages with dictionary tokens,
  which are those of a session (`overwriteExtras_eq`, `insertExtras_eq`).

The calls are executions, unless a post-processor rejects the test case. `stage_max` is not
corrected then, and the result is off by the number of rejections (`stage_accounting_iff`).
-/

set_option autoImplicit false

namespace TriforceAFL.Proofs

open Lib Spec Spec.Overwrite

/-! ### Calls and executions -/

/-- The early return for a rejected test case, as an outcome. -/
theorem commonFuzzStuff_withPost (env : DetEnv) (rejects : List Event → Bool) (stage : Stage)
    (s : DetState) :
    commonFuzzStuff (env.withPost rejects) stage s = commonFuzzStuffPost env rejects stage s := by
  unfold commonFuzzStuff commonFuzzStuffPost
  by_cases h : rejects (s.log ++
      [.exec stage s.stageCurByte s.stageValType s.stageCurVal s.outBuf]) = true
  · simp [DetEnv.withPost, h]
  · simp [DetEnv.withPost, h]

section Rejections
variable {ε : Type} (isCall : ε → Bool) (rejects : List ε → Bool) (before events : List ε)

/-- A call of `common_fuzz_stuff` ends in an execution or a rejection. -/
theorem executions_add_rejections :
    executions isCall rejects before events + rejections isCall rejects before events =
      events.countP isCall :=
  countSince_add isCall (fun before e => rejects (before ++ [e])) before events

/-- The calls are as many as the executions if the rejections wrap around to 0. -/
theorem calls_eq_executions_iff :
    BitVec.ofNat 32 (events.countP isCall) =
        BitVec.ofNat 32 (executions isCall rejects before events) ↔
      2 ^ 32 ∣ rejections isCall rejects before events := by
  rw [← executions_add_rejections isCall rejects before events, ← BitVec.toNat_inj,
    BitVec.toNat_ofNat, BitVec.toNat_ofNat]
  omega

end Rejections

/-! ### Stages on bits, bytes and words -/

/-- The calls of `common_fuzz_stuff` are measured by `stage_max`. -/
def stageMeter : Meter DetState Event (List (Stage × U32)) U32 where
  log := DetState.log
  counts := Event.isCall
  budget := DetState.stageMax
  kept := DetState.stageCycles

section Bits
variable (env : DetEnv) (stage : Stage)

/-- `common_fuzz_stuff` is a call itself. -/
theorem takes_commonFuzzStuff (s : DetState) :
    stageMeter.Takes 1 (commonFuzzStuff env stage s) s := by
  intro s' hs'
  simp only [commonFuzzStuff] at hs'
  split at hs'
  · cases hs'
  · obtain rfl := Except.ok.inj hs'
    exact Meter.Spends.event rfl rfl rfl rfl

/-- One bit position. -/
theorem takes_walkBitsTurn (k : Nat) (s : DetState) (b : Nat) :
    stageMeter.Takes 1 (walkBitsTurn env stage k s b) s :=
  .after (.same rfl rfl rfl) ((takes_commonFuzzStuff env stage _).map fun _ => .same rfl rfl rfl)

/-- The detection of tokens calls nothing and leaves `stage_max` alone. -/
theorem spends_flushToken (s : DetState) : stageMeter.Spends 0 s (flushToken s) := by
  unfold flushToken
  split <;> exact .same rfl rfl rfl

/-- A byte for the token that is being collected. -/
theorem spends_collectByte (s : DetState) (pos : Nat) :
    stageMeter.Spends 0 s (collectByte s pos) := .same rfl rfl rfl

/-- All of it after one bit. -/
theorem spends_collectTokens (max : Nat) (s : DetState) (b : Nat) :
    stageMeter.Spends 0 s (collectTokens env max s b) := by
  have hlast : ∀ c, stageMeter.Spends 0 s
      (if b = max - 1 && c = s.prevCksum then flushToken (collectByte s (b >>> 3))
        else if c ≠ s.prevCksum then { flushToken s with aLen := 0, prevCksum := c }
        else s) := by
    intro c
    split
    · exact (spends_collectByte s _).trans (spends_flushToken _)
    · split
      · exact (spends_flushToken s).trans (.same rfl rfl rfl)
      · exact .same rfl rfl rfl
  unfold collectTokens
  split
  · dsimp only
    split
    · exact (hlast _).trans (spends_collectByte _ _)
    · exact hlast _
  · exact .same rfl rfl rfl

/-- Nor does the effector map of "bitflip 8/8". -/
theorem spends_flagEffector (len : Nat) (s : DetState) (b : Nat) :
    stageMeter.Spends 0 s (flagEffector env len s b) := by
  unfold flagEffector
  dsimp only
  split_ifs <;> exact .same rfl rfl rfl

/-- Its density test. -/
theorem spends_closeEffMap (len : Nat) (s : DetState) :
    stageMeter.Spends 0 s (closeEffMap len s) := by
  simp only [closeEffMap]
  split <;> exact .same rfl rfl rfl

/-- A word costs the same, whether it is passed over or not. -/
theorem takes_walkWords {n cost : Nat} {body : DetState → Nat → StageM DetState}
    (hbody : ∀ s i, stageMeter.Takes cost (body s i) s) (len : Nat) (s : DetState) :
    stageMeter.Takes ((len - (n - 1)) * cost) (walkWords len n cost body s) s := by
  have h := Meter.Takes.foldlM (M := stageMeter) (c := cost)
    (f := fun s i => if (List.range n).all fun t => !s.effective (i + t) then
      pure { s with stageMax := s.stageMax - BitVec.ofNat 32 cost }
      else body { s with stageCurByte := i } i) ?_ (List.range (len - (n - 1))) s
  · rwa [List.length_range] at h
  · intro s i
    split
    · exact .pure (.skip (l := []) rfl (List.append_nil _).symm rfl rfl)
    · exact .after (.same rfl rfl rfl) (hbody _ i)

/-! ### Words with a new value -/

section Words
variable (n i : Nat)

/-- A candidate that is executed. -/
theorem takes_execWord (new : BitVec (8 * n)) (s : DetState) :
    stageMeter.Takes 1 (execWord env stage n i new s) s :=
  .after (.same rfl rfl rfl) (takes_commonFuzzStuff env stage _)

/-- A candidate that is skipped is taken off `stage_max`. -/
theorem spends_skipWord (new : BitVec (8 * n)) (reason : SkipReason) (s : DetState) :
    stageMeter.Spends 1 s (skipWord stage n i new reason s) :=
  .skip (l := [_]) rfl rfl rfl rfl

/-- An arithmetic candidate, executed or skipped. -/
theorem takes_tryArith (carry : Bool) (old new : BitVec (8 * n)) (val : Int) (s : DetState) :
    stageMeter.Takes 1 (tryArith env stage n i carry old new val s) s := by
  simp only [tryArith]
  split
  · exact .pure (spends_skipWord stage n i new _ s)
  · split
    · exact .pure (spends_skipWord stage n i new _ s)
    · exact .after (.same rfl rfl rfl) (takes_execWord env stage n i new _)

/-- An insertion, executed or skipped. -/
theorem takes_tryInterest (valType : StageValType) (new : BitVec (8 * n))
    (skip : Option SkipReason) (s : DetState) :
    stageMeter.Takes 1 (tryInterest env stage n i valType new skip s) s := by
  cases skip with
  | some reason => exact .pure (spends_skipWord stage n i new reason s)
  | none => exact .after (.same rfl rfl rfl) (takes_execWord env stage n i new _)

/-- A value in both byte orders. -/
theorem takes_intTurn (swap : BitVec (8 * n) → BitVec (8 * n)) (orig : BitVec (8 * n))
    (s : DetState) (v : Int) : stageMeter.Takes 2 (intTurn env stage n swap i orig s v) s :=
  .after (.same rfl rfl rfl) ((takes_tryInterest env stage n i _ _ _ _).bind fun t =>
    takes_tryInterest env stage n i _ _ _ t)

end Words

/-- One `j` of "arith 8/8": add and subtract. -/
theorem takes_arith8Turn (i : Nat) (orig : U8) (s : DetState) (j : Nat) :
    stageMeter.Takes 2 (arith8Turn env i orig s j) s := by
  refine Meter.Takes.bind (c := 1) (d := 1) (takes_tryArith env .arith8 1 i _ _ _ _ s) fun t => ?_
  exact Meter.Takes.map (takes_tryArith env .arith8 1 i _ _ _ _ t) fun _ => .same rfl rfl rfl

/-- The four candidates of a wider stage. -/
theorem takes_bothOrders (n i j : Nat) (orig : BitVec (8 * n)) (c₁ c₂ c₃ c₄ : Bool)
    (x₁ x₂ x₃ x₄ : BitVec (8 * n)) (s : DetState) :
    stageMeter.Takes 4 (do
        let s ← tryArith env stage n i c₁ orig x₁ j { s with stageValType := .le }
        let s ← tryArith env stage n i c₂ orig x₂ (-j) s
        let s ← tryArith env stage n i c₃ orig x₃ j { s with stageValType := .be }
        let s ← tryArith env stage n i c₄ orig x₄ (-j) s
        pure { s with outBuf := store n s.outBuf i orig }) s := by
  refine .after (.same rfl rfl rfl)
    (.bind (c := 1) (d := 3) (takes_tryArith env stage n i c₁ orig x₁ j _) fun t => ?_)
  refine .bind (c := 1) (d := 2) (takes_tryArith env stage n i c₂ orig x₂ (-j) t) fun t => ?_
  refine .after (.same rfl rfl rfl)
    (.bind (c := 1) (d := 1) (takes_tryArith env stage n i c₃ orig x₃ j _) fun t => ?_)
  exact .map (takes_tryArith env stage n i c₄ orig x₄ (-j) t) fun _ => .same rfl rfl rfl

/-- One `j` of "arith 16/8": add and subtract in both byte orders. -/
theorem takes_arith16Turn (i : Nat) (orig : U16) (s : DetState) (j : Nat) :
    stageMeter.Takes 4 (arith16Turn env i orig s j) s :=
  takes_bothOrders env .arith16 2 i j orig _ _ _ _ _ _ _ _ s

/-- One `j` of "arith 32/8". -/
theorem takes_arith32Turn (i : Nat) (orig : U32) (s : DetState) (j : Nat) :
    stageMeter.Takes 4 (arith32Turn env i orig s j) s :=
  takes_bothOrders env .arith32 4 i j orig _ _ _ _ _ _ _ _ s

/-- One value of "interest 8/8". -/
theorem takes_int8Turn (i : Nat) (orig : U8) (s : DetState) (v : Int) :
    stageMeter.Takes 1 (int8Turn env i orig s v) s := by
  simp only [int8Turn]
  split
  · exact .pure (spends_skipWord .int8 1 i _ _ s)
  · exact .after (.same rfl rfl rfl) ((takes_execWord env .int8 1 i _ _).map fun _ =>
      .same rfl rfl rfl)

/-- A loop at one word: `k` calls for each value. -/
theorem takes_values {α : Type} {k : Nat} {turn : DetState → α → StageM DetState}
    (h : ∀ s v, stageMeter.Takes k (turn s v) s) (values : List α) (s : DetState) :
    stageMeter.Takes (k * values.length) (values.foldlM turn s) s := by
  rw [Nat.mul_comm]
  exact Meter.Takes.foldlM h values s

/-- The values of `j` in an arithmetic stage. -/
theorem takes_range {k : Nat} {turn : DetState → Nat → StageM DetState}
    (h : ∀ s j, stageMeter.Takes k (turn s j) s) (s : DetState) :
    stageMeter.Takes (k * ARITH_MAX) ((List.range' 1 ARITH_MAX).foldlM turn s) s := by
  have hall := takes_values h (List.range' 1 ARITH_MAX) s
  rwa [List.length_range'] at hall

end Bits

/-! ### Whole stages -/

/-- What a stage leaves that was not abandoned. -/
structure Completed (stage : Stage) (s s' : DetState) : Prop where
  stageCycles_eq : s'.stageCycles = s.stageCycles ++ [(stage, s'.stageMax)]
  stageMax_eq : ∃ events, s'.log = s.log ++ events ∧
    s'.stageMax = BitVec.ofNat 32 (events.countP Event.isCall)

/-- A stage that starts with the cost of its loop. -/
theorem completed_of_takes {stage : Stage} {max c : Nat} {s s' t : DetState}
    {loop : StageM DetState} {g : DetState → DetState}
    (h : (loop >>= fun u => pure (endStage stage (g u))) = .ok s')
    (hloop : stageMeter.Takes c loop (beginStage max t)) (hmax : max = c)
    (hlog : t.log = s.log) (hcycles : t.stageCycles = s.stageCycles)
    (hg : ∀ u, stageMeter.Spends 0 u (g u)) : Completed stage s s' := by
  cases hrun : loop with
  | error u =>
    rw [hrun] at h
    exact nomatch h
  | ok u =>
    rw [hrun] at h
    obtain rfl := Except.ok.inj h
    have hspent := (hloop u hrun).trans (hg u)
    obtain ⟨events, hevents, hbudget⟩ := hspent.exact (congrArg (BitVec.ofNat 32) hmax)
    have hkept : (g u).stageCycles = s.stageCycles := hspent.1.trans hcycles
    refine ⟨congrArg (· ++ [(stage, (g u).stageMax)]) hkept, events, ?_, hbudget⟩
    rw [← hlog]
    exact hevents

section Stages
variable {env : DetEnv} {len : Nat} {s s' : DetState} {stage : Stage}

/-- Stage "bitflip 1/1", with its tokens. -/
theorem completed_flip1 (h : flip1 env len s = .ok s') : Completed .flip1 s s' := by
  refine completed_of_takes (g := id) h (takes_values (k := 1) (fun t b => ?_) _ _) ?_ rfl rfl
    fun _ => .same rfl rfl rfl
  · exact (takes_walkBitsTurn env .flip1 1 t b).map fun u => spends_collectTokens env _ u b
  · rw [List.length_range, Nat.one_mul]

/-- Stages "bitflip 2/1" and "bitflip 4/1". -/
theorem completed_walkBits {k : Nat} (h : walkBits env stage k len s = .ok s') :
    Completed stage s s' := by
  refine completed_of_takes (g := id) h
    (takes_values (fun t b => takes_walkBitsTurn env stage k t b) _ _) ?_ rfl rfl
    fun _ => .same rfl rfl rfl
  rw [List.length_range, Nat.one_mul]

/-- Stage "bitflip 8/8", with its effector map. -/
theorem completed_flip8 (h : flip8 env len s = .ok s') : Completed .flip8 s s' := by
  have hframe : (initEffMap len s).log = s.log ∧
      (initEffMap len s).stageCycles = s.stageCycles := by
    simp only [initEffMap]
    split <;> exact ⟨rfl, rfl⟩
  refine completed_of_takes h (takes_values (k := 1) (fun t b => ?_) _ _) ?_ hframe.1 hframe.2
    (spends_closeEffMap len)
  · refine .after (.same rfl rfl rfl) ((takes_commonFuzzStuff env .flip8 _).map fun u => ?_)
    exact (spends_flagEffector env len u b).trans (.same rfl rfl rfl)
  · rw [List.length_range, Nat.one_mul]

/-- Stages "bitflip 16/8" and "bitflip 32/8". -/
theorem completed_flipWords {n : Nat} (h : flipWords env stage n len s = .ok s') :
    Completed stage s s' := by
  refine completed_of_takes (g := id) h (takes_walkWords (fun t i => ?_) len _) (Nat.mul_one _).symm
    rfl rfl fun _ => .same rfl rfl rfl
  exact .after (.same rfl rfl rfl) ((takes_commonFuzzStuff env stage _).map fun _ =>
    .same rfl rfl rfl)

/-- `k` calls for each of `m` values at each of `n` words. -/
theorem calls_comm (k n m : Nat) : k * n * m = n * (k * m) := by
  rw [Nat.mul_comm k n, Nat.mul_assoc]

/-- Stage "arith 8/8". -/
theorem completed_arith8 (h : arith8 env len s = .ok s') : Completed .arith8 s s' :=
  completed_of_takes (g := id) h
    (takes_walkWords (fun t i => takes_range (takes_arith8Turn env i _) t) len _)
    (calls_comm 2 len ARITH_MAX) rfl rfl fun _ => .same rfl rfl rfl

/-- Stage "arith 16/8". -/
theorem completed_arith16 (h : arith16 env len s = .ok s') : Completed .arith16 s s' :=
  completed_of_takes (g := id) h
    (takes_walkWords (fun t i => takes_range (takes_arith16Turn env i _) t) len _)
    (calls_comm 4 (len - 1) ARITH_MAX) rfl rfl fun _ => .same rfl rfl rfl

/-- Stage "arith 32/8". -/
theorem completed_arith32 (h : arith32 env len s = .ok s') : Completed .arith32 s s' :=
  completed_of_takes (g := id) h
    (takes_walkWords (fun t i => takes_range (takes_arith32Turn env i _) t) len _)
    (calls_comm 4 (len - 3) ARITH_MAX) rfl rfl fun _ => .same rfl rfl rfl

/-- Stage "interest 8/8". -/
theorem completed_int8 (h : int8 env len s = .ok s') : Completed .int8 s s' := by
  refine completed_of_takes (g := id) h (takes_walkWords (fun t i => ?_) len _) rfl rfl rfl
    fun _ => .same rfl rfl rfl
  have hvalues := takes_values (takes_int8Turn env i (load 1 t.outBuf i)) interesting8 t
  rwa [Nat.one_mul] at hvalues

/-- Stages "interest 16/8" and "interest 32/8". -/
theorem completed_intWords {n : Nat} {swap : BitVec (8 * n) → BitVec (8 * n)} {table : List Int}
    (h : intWords env stage n swap table len s = .ok s') :
    Completed stage s s' := by
  refine completed_of_takes (g := id) h (takes_walkWords (fun t i => ?_) len _)
    (calls_comm 2 (len - (n - 1)) table.length) rfl rfl fun _ => .same rfl rfl rfl
  exact (takes_values (takes_intTurn env stage n i swap _) table t).map fun _ => .same rfl rfl rfl

/-- Any of the twelve stages. -/
theorem completed_runStage (h : runStage env len s stage = .ok s') :
    Completed stage s s' := by
  cases stage with
  | flip1 => exact completed_flip1 h
  | flip2 | flip4 => exact completed_walkBits h
  | flip8 => exact completed_flip8 h
  | flip16 | flip32 => exact completed_flipWords h
  | arith8 => exact completed_arith8 h
  | arith16 => exact completed_arith16 h
  | arith32 => exact completed_arith32 h
  | int8 => exact completed_int8 h
  | int16 | int32 => exact completed_intWords h

end Stages

/-! ### Stages with dictionary tokens -/

/-- The calls among the questions are measured by `stage_max`. -/
def askMeter : Meter (U32 × List OverAsk) OverAsk Unit U32 where
  log := Prod.snd
  counts := OverAsk.isCall
  budget := Prod.fst
  kept := fun _ => ()

/-- Every question is fine. -/
abbrev AnyAsk (_ : List OverAsk) (_ : OverAsk) : Prop := True

/-- Questions without a call. -/
def NoCall (asked asked' : List OverAsk) : Prop :=
  ∃ events, asked' = asked ++ events ∧ events.countP OverAsk.isCall = 0

namespace NoCall

variable {asked asked' : List OverAsk} {stageMax : U32}

/-- Nothing was asked. -/
theorem refl (asked : List OverAsk) : NoCall asked asked := ⟨[], by simp, rfl⟩

/-- One question more that is no call. -/
theorem ask (h : NoCall asked asked') {x : OverAsk} (hx : x.isCall = false) :
    NoCall asked (asked' ++ [x]) := by
  obtain ⟨events, rfl, hnone⟩ := h
  exact ⟨events ++ [x], by simp, by simp [hnone, hx]⟩

/-- Without a call, `stage_max` stays as it is. -/
theorem spends (h : NoCall asked asked') :
    askMeter.Spends 0 (stageMax, asked) (stageMax, asked') := by
  obtain ⟨events, hasked, hnone⟩ := h
  exact .skip hnone hasked (by simp [askMeter]) rfl

/-- A token is skipped. -/
theorem spends_skip (h : NoCall asked asked') :
    askMeter.Spends 1 (stageMax, asked) (stageMax - 1, asked') := by
  obtain ⟨events, hasked, hnone⟩ := h
  exact .skip hnone hasked rfl rfl

/-- A token is used. -/
theorem spends_call (h : NoCall asked asked') (i : Nat) (data buf : List U8) :
    askMeter.Spends 1 (stageMax, asked) (stageMax, asked' ++ [.exec i data buf]) := by
  have hcall : askMeter.Spends 1 (stageMax, asked') (stageMax, asked' ++ [.exec i data buf]) :=
    .event rfl rfl rfl rfl
  have hall := h.spends.trans hcall
  rwa [Nat.zero_add] at hall

end NoCall

/-- A stage that starts with the cost of its loop. -/
theorem stageMax_eq_of_spends {stageMax c : Nat} {final : U32} {asked : List OverAsk}
    (h : askMeter.Spends c (BitVec.ofNat 32 stageMax, []) (final, asked)) (hmax : stageMax = c) :
    final = BitVec.ofNat 32 (asked.countP OverAsk.isCall) := by
  obtain ⟨events, hevents, hbudget⟩ := h.exact (congrArg (BitVec.ofNat 32) hmax)
  obtain rfl : asked = events := hevents
  exact hbudget

section Over
variable (manyLimit : Option Nat) (effMap : List Bool) (asked : List OverAsk)

/-- A token at an offset: a call, or `stage_max--`. -/
theorem counts_overwriteTurn (cnt i : Nat) (acc : (List U8 × Nat) × U32) (data : List U8) :
    Asks.Safe AnyAnswer AnyAsk (overwriteTurn manyLimit cnt effMap i acc data) asked
      fun r asked' => ∀ acc' ∈ r, askMeter.Spends 1 (acc.2, asked) (acc'.2, asked') := by
  -- Every skip takes the token off.
  have hskip : ∀ asked', NoCall asked asked' → ∀ acc' ∈ some (acc.1, acc.2 - 1),
      askMeter.Spends 1 (acc.2, asked) (acc'.2, asked') := by
    intro asked' hasked acc' hacc'
    rw [← Option.mem_some_iff.mp hacc']
    exact hasked.spends_skip
  refine (safe_unlucky manyLimit cnt trivial).bind fun skip asked' hasked => ?_
  have hquiet : NoCall asked asked' := by
    rcases hasked with rfl | rfl
    · exact .refl _
    · exact (NoCall.refl asked).ask rfl
  refine Asks.Safe.ite (fun _ => hskip asked' hquiet) fun _ => ?_
  refine Asks.Safe.ite (fun _ => hskip asked' hquiet) fun _ => ?_
  refine Asks.Safe.ite (fun _ => ⟨trivial, fun _ _ => hskip _ (hquiet.ask rfl)⟩) fun _ => ?_
  refine ⟨trivial, fun _ _ => ?_⟩
  refine Asks.Safe.ite (fun _ => ?_) fun _ => hskip _ (hquiet.ask rfl)
  refine ⟨trivial, fun bail _ acc' hacc' => ?_⟩
  cases bail with
  | true => exact absurd hacc' (Option.not_mem_none acc')
  | false =>
    rw [← Option.mem_some_iff.mp hacc']
    exact (hquiet.ask rfl).spends_call i data _

/-- All tokens at an offset. -/
theorem counts_overwriteOffset (tokens : List (List U8)) (inBuf : List U8)
    (acc : List U8 × U32) (i : Nat) :
    Asks.Safe AnyAnswer AnyAsk (overwriteOffset manyLimit tokens effMap inBuf acc i) asked
      fun r asked' => ∀ acc' ∈ r,
        askMeter.Spends tokens.length (acc.2, asked) (acc'.2, asked') := by
  refine ⟨trivial, fun _ _ => ?_⟩
  have hstart : NoCall asked (asked ++ [.setCurByte i]) := (NoCall.refl asked).ask rfl
  refine (Meter.safe_foldUntil Prod.snd (fun acc data asked =>
    counts_overwriteTurn manyLimit effMap asked tokens.length i acc data) tokens
    ((acc.1, 0), acc.2) (asked ++ [.setCurByte i])).bind fun r asked' hr => ?_
  cases r with
  | none => exact fun acc' hacc' => absurd hacc' (Option.not_mem_none acc')
  | some final =>
    refine ⟨trivial, fun _ _ acc' hacc' => ?_⟩
    rw [← Option.mem_some_iff.mp hacc']
    have hall := hstart.spends.trans (hr final rfl)
    rw [Nat.zero_add, Nat.mul_one] at hall
    exact hall.trans (NoCall.spends ((NoCall.refl asked').ask rfl))

/-- All offsets. In the end `stage_max` is the number of calls. -/
theorem counts_overwriteExtras (tokens : List (List U8)) (inBuf : List U8) :
    Asks.Safe AnyAnswer AnyAsk (overwriteExtras manyLimit tokens effMap inBuf) []
      fun r asked => ∀ acc ∈ r, acc.2 = BitVec.ofNat 32 (asked.countP OverAsk.isCall) := by
  refine (Meter.safe_foldUntil Prod.snd (fun acc i asked =>
    counts_overwriteOffset manyLimit effMap asked tokens inBuf acc i)
    (List.range inBuf.length) _ []).mono fun r asked hr acc hacc => ?_
  exact stageMax_eq_of_spends (hr acc hacc) (by rw [List.length_range, Nat.mul_comm])

end Over

section Insert
variable (tokens : List (List U8)) (outBuf : List U8)

/-- All tokens inserted at an offset. -/
theorem counts_insertOffset (stageMax : U32) (i : Nat) (asked : List OverAsk) :
    Asks.Safe AnyAnswer AnyAsk (Counted.insertOffset tokens outBuf stageMax i) asked
      fun r asked' => ∀ stageMax' ∈ r,
        askMeter.Spends tokens.length (stageMax, asked) (stageMax', asked') := by
  refine ⟨trivial, fun _ _ => ?_⟩
  have hstart : NoCall asked (asked ++ [.setCurByte i]) := (NoCall.refl asked).ask rfl
  refine Asks.Safe.mono (Meter.safe_foldUntil (M := askMeter) (c := 1) id
    (fun stageMax data asked => ?_) tokens stageMax (asked ++ [.setCurByte i])) ?_
  · refine ⟨trivial, fun bail _ stageMax' hmax => ?_⟩
    cases bail with
    | true => exact absurd hmax (Option.not_mem_none stageMax')
    | false =>
      rw [← Option.mem_some_iff.mp hmax]
      exact (NoCall.refl asked).spends_call i data _
  · intro r asked' hr stageMax' hmax
    have hall := hstart.spends.trans (hr stageMax' hmax)
    rwa [Nat.zero_add, Nat.mul_one] at hall

/-- The stage "user extras (insert)". -/
theorem counts_insertExtras :
    Asks.Safe AnyAnswer AnyAsk (Counted.insertExtras tokens outBuf) []
      fun r asked => ∀ stageMax ∈ r,
        stageMax = BitVec.ofNat 32 (asked.countP OverAsk.isCall) := by
  refine (Meter.safe_foldUntil id (fun stageMax i asked =>
    counts_insertOffset tokens outBuf stageMax i asked)
    (List.range outBuf.length) _ []).mono fun r asked hr stageMax hmax => ?_
  exact stageMax_eq_of_spends (hr stageMax hmax) (by rw [List.length_range, Nat.mul_comm])

end Insert

/-! ### The insertion stage of a session -/

section Session
variable {mapSize : Nat} (w : World mapSize) (tokens : List (List U8)) (outBuf : List U8)

/-- The program without `stage_max` is the one of a session. -/
theorem interp_insertOffset (stageMax : U32) (i : Nat) :
    Option.map (fun _ => ()) <$>
        Asks.interp (overAnswer w) (Counted.insertOffset tokens outBuf stageMax i) =
      Session.insertOffset w tokens outBuf i := by
  unfold Counted.insertOffset Session.insertOffset
  rw [Asks.interp_bind, interp_ask, map_bind]
  refine bind_congr fun _ => ?_
  rw [Asks.interp_foldUntil]
  refine Process.map_foldUntil (fun stageMax data => ?_) tokens stageMax
  rw [Asks.interp_bind, interp_ask, map_bind]
  refine bind_congr fun bail => ?_
  cases bail <;> rfl

/-- The stage of a session is the program, with the answers of the session. -/
theorem insertExtras_eq :
    Session.insertExtras w tokens outBuf =
      Session.setOp (fun op => { op with stageShort := "ext_UI".toList }) >>= fun _ =>
        Option.map (fun _ => ()) <$>
          Asks.interp (overAnswer w) (Counted.insertExtras tokens outBuf) := by
  unfold Counted.insertExtras Session.insertExtras
  rw [Asks.interp_foldUntil, Process.map_foldUntil (k := fun _ i =>
    Session.insertOffset w tokens outBuf i) (interp_insertOffset w tokens outBuf)]

end Session

/-! ### Executions -/

/-- If the stage is not abandoned, its `stage_max` is the number of executions just if the
post-processor rejects a multiple of 2^32 test cases. -/
def AccountsUnlessRejected (rejects : List OverAsk → Bool) (p : Over (Option U32)) : Prop :=
  Asks.Safe AnyAnswer AnyAsk p [] fun r asked => ∀ stageMax ∈ r,
    (stageMax = BitVec.ofNat 32 (executions OverAsk.isCall rejects [] asked) ↔
      2 ^ 32 ∣ rejections OverAsk.isCall rejects [] asked)

/-- With as many calls as `stage_max` says, rejections alone make the difference. -/
theorem accounts_of_calls {rejects : List OverAsk → Bool} {p : Over (Option U32)}
    (h : Asks.Safe AnyAnswer AnyAsk p [] fun r asked => ∀ stageMax ∈ r,
      stageMax = BitVec.ofNat 32 (asked.countP OverAsk.isCall)) :
    AccountsUnlessRejected rejects p := by
  refine h.mono fun r asked hr stageMax hmax => ?_
  rw [hr stageMax hmax]
  exact calls_eq_executions_iff OverAsk.isCall rejects [] asked

/-- The two stages that overwrite. -/
theorem accounts_overwriteExtras (rejects : List OverAsk → Bool) (manyLimit : Option Nat)
    (tokens : List (List U8)) (effMap : List Bool) (inBuf : List U8) :
    AccountsUnlessRejected rejects (do
      let r ← overwriteExtras manyLimit tokens effMap inBuf
      pure (r.map Prod.snd)) := by
  refine accounts_of_calls ?_
  refine (counts_overwriteExtras manyLimit effMap tokens inBuf).bind fun r asked hr => ?_
  intro stageMax hmax
  obtain ⟨acc, hacc, rfl⟩ := Option.mem_map.mp hmax
  exact hr acc hacc

/-- For every input, effector map, dictionary and outcome of the executions: a stage that is not
abandoned adds its `stage_max` to `stage_cycles`, and this is the number of its executions modulo
2^32, just if the number of test cases that the post-processor rejects is a multiple of 2^32. -/
theorem stage_accounting_iff (env : DetEnv) (rejects : List Event → Bool) (stage : Stage)
    (len : Nat) (s s' : DetState) (d : Dictionary) (rejectsToken : List OverAsk → Bool)
    (effMap : List Bool) (inBuf : List U8) :
    (runStage (env.withPost rejects) len s stage = .ok s' →
        ∃ events, s'.log = s.log ++ events ∧
          s'.stageCycles = s.stageCycles ++ [(stage, s'.stageMax)] ∧
          (s'.stageMax = BitVec.ofNat 32 (executions Event.isCall rejects s.log events) ↔
            2 ^ 32 ∣ rejections Event.isCall rejects s.log events)) ∧
      AccountsUnlessRejected rejectsToken (Counted.userExtrasOver d effMap inBuf) ∧
      AccountsUnlessRejected rejectsToken (Counted.userExtrasInsert d inBuf) ∧
      AccountsUnlessRejected rejectsToken (Counted.autoExtrasOver d effMap inBuf) := by
  refine ⟨fun h => ?_, accounts_overwriteExtras rejectsToken _ _ effMap inBuf,
    accounts_of_calls (counts_insertExtras _ inBuf),
    accounts_overwriteExtras rejectsToken _ _ effMap inBuf⟩
  obtain ⟨hcycles, events, hlog, hmax⟩ := completed_runStage h
  refine ⟨events, hlog, hcycles, ?_⟩
  rw [hmax]
  exact calls_eq_executions_iff Event.isCall rejects s.log events

/-- Without a post-processor nothing is rejected. -/
theorem rejections_none {ε : Type} (isCall : ε → Bool) (before events : List ε) :
    rejections isCall (fun _ => false) before events = 0 := by
  have hnone : (fun (_ : List ε) (e : ε) => isCall e && false) = fun _ _ => false := by
    simp only [Bool.and_false]
  unfold rejections
  rw [hnone]
  exact countSince_false before events

/-- Stage "arith 16/8" on three bytes, without a post-processor. -/
theorem stage_accounting_iff_bytes :
    ∃ s', runStage (DetEnv.withPost {} fun _ => false) 3 { outBuf := [7, 8, 9] } .arith16 = .ok s' ∧
      ∃ events, s'.log = [] ++ events ∧ s'.stageCycles = [] ++ [(.arith16, s'.stageMax)] ∧
        s'.stageMax = BitVec.ofNat 32 (executions Event.isCall (fun _ => false) [] events) := by
  refine ⟨_, rfl, ?_⟩
  obtain ⟨events, hlog, hcycles, hiff⟩ := (stage_accounting_iff {} (fun _ => false) .arith16 3
    { outBuf := [7, 8, 9] } _ {} (fun _ => false) [] []).1 rfl
  refine ⟨events, hlog, hcycles, hiff.mpr ?_⟩
  rw [rejections_none]
  exact Nat.dvd_zero _

/-- A post-processor that rejects the test case of one zero byte. -/
def rejectsZero (log : List Event) : Bool :=
  match log.getLast? with
  | some (.exec _ _ _ _ buf) => buf == [0]
  | _ => false

/-- Stage "bitflip 1/1" on the byte 128. The first of the eight test cases is a zero byte and is not
executed, but `stage_cycles` grows by 8. -/
theorem stage_accounting_rejected :
    ∃ s', runStage (DetEnv.withPost {} rejectsZero) 1 { outBuf := [128] } .flip1 = .ok s' ∧
      s'.stageMax = 8 ∧ s'.stageCycles = [(.flip1, 8)] ∧
      executions Event.isCall rejectsZero [] s'.log = 7 := by
  refine ⟨_, rfl, ?_, ?_, ?_⟩
  · decide +kernel
  · decide +kernel
  · decide +kernel

end TriforceAFL.Proofs
