import TriforceAFL.Lib.Loop
import TriforceAFL.Lib.Runs
import TriforceAFL.Proofs.DeterministicPlan

/-!
# `TriforceAFL.Proofs.AutoTokens`: the tokens that "bitflip 1/1" detects

While the least significant bit of each byte is flipped, the stage compares the checksums of the
executions. A stretch of bytes with one and the same checksum, other than that of the entry, is
collected in `a_collect` and given to `maybe_add_auto` once it ends.

`Collecting` is the invariant between two bytes: `a_len` is the length of the run that the stage is
in, and the tokens so far are the runs that have ended (`closedRuns`). The run that reaches the end
of the file is output by a branch of its own. So the tokens are exactly the maximal runs of an
admissible length (`flip1_tokens`).

`a_len` counts on when the buffer is full, but nothing is written any more. So no write is outside
of `a_collect` (`flip1Checked_eq`).
-/

set_option autoImplicit false

namespace TriforceAFL.Proofs

open Lib Spec

/-! ### Writes to the token buffer -/

theorem length_collectByte (s : DetState) (pos : Nat) :
    (collectByte s pos).aCollect.length = s.aCollect.length := by
  unfold collectByte
  dsimp only
  split
  · exact List.length_set
  · rfl

theorem length_flushToken (s : DetState) :
    (flushToken s).aCollect.length = s.aCollect.length := by
  unfold flushToken
  split <;> rfl

theorem length_collectTokens (env : DetEnv) (stageMax : Nat) (s : DetState) (stageCur : Nat) :
    (collectTokens env stageMax s stageCur).aCollect.length = s.aCollect.length := by
  unfold collectTokens
  split
  · dsimp only
    have hcompare : ∀ c : U32, (if stageCur = stageMax - 1 && c = s.prevCksum
        then flushToken (collectByte s (stageCur >>> 3))
        else if c ≠ s.prevCksum then { flushToken s with aLen := 0, prevCksum := c }
        else s).aCollect.length = s.aCollect.length := by
      intro c
      split
      · rw [length_flushToken, length_collectByte]
      · split
        · exact length_flushToken s
        · rfl
    split
    · rw [length_collectByte, hcompare]
    · exact hcompare _
  · rfl

/-- The guard keeps the write in the block. -/
theorem collectByteChecked_eq {s : DetState} (h : s.aCollect.length = MAX_AUTO_EXTRA) (pos : Nat) :
    collectByteChecked s pos = some (collectByte s pos) := by
  unfold collectByteChecked collectByte storeAt
  rw [h]
  split
  · rfl
  · rfl

theorem collectTokensChecked_eq (env : DetEnv) (stageMax : Nat) {s : DetState} (stageCur : Nat)
    (h : s.aCollect.length = MAX_AUTO_EXTRA) :
    collectTokensChecked env stageMax s stageCur
      = some (collectTokens env stageMax s stageCur) := by
  unfold collectTokensChecked collectTokens
  split
  · dsimp only
    -- The state after the comparison still has the whole block.
    have hlast : ∀ t : DetState, t.aCollect.length = MAX_AUTO_EXTRA →
        (if env.cksum s.log ≠ env.execCksum then collectByteChecked t (stageCur >>> 3) else some t)
          = some (if env.cksum s.log ≠ env.execCksum then collectByte t (stageCur >>> 3)
              else t) := by
      intro t ht
      split
      · exact collectByteChecked_eq ht _
      · rfl
    split
    · rw [collectByteChecked_eq h]
      exact hlast _ (by rw [length_flushToken, length_collectByte, h])
    · split
      · exact hlast _ ((length_flushToken s).trans h)
      · exact hlast _ h
  · rfl

theorem walkBitsTurn_collect {env : DetEnv} {stage : Stage} {k b : Nat} {s s' : DetState}
    (h : walkBitsTurn env stage k s b = .ok s') :
    s'.aCollect = s.aCollect ∧ s'.aLen = s.aLen ∧ s'.prevCksum = s.prevCksum ∧
      s'.autoTokens = s.autoTokens := by
  unfold walkBitsTurn commonFuzzStuff at h
  dsimp only at h
  split at h
  · cases h
  · cases h
    exact ⟨rfl, rfl, rfl, rfl⟩

/-- The checked stage is the stage: there is no write outside of `a_collect`. -/
theorem flip1Checked_eq (env : DetEnv) (len : Nat) {s : DetState}
    (h : s.aCollect.length = MAX_AUTO_EXTRA) :
    flip1Checked env len s = (flip1 env len s).mapError some := by
  have hstart : (beginStage (len <<< 3) { s with
      stageValType := .none, prevCksum := env.execCksum }).aCollect.length = MAX_AUTO_EXTRA := h
  unfold flip1Checked flip1 flip1Loop
  dsimp only
  generalize beginStage (len <<< 3) { s with
    stageValType := .none, prevCksum := env.execCksum } = s₀ at hstart ⊢
  rw [foldlM_mapError (g := some) (I := fun s : DetState => s.aCollect.length = MAX_AUTO_EXTRA)
    (f := fun s stageCur => do
      let s ← walkBitsTurn env .flip1 1 s stageCur
      pure (collectTokens env (len <<< 3) s stageCur)) ?_ ?_ _ hstart]
  · cases List.foldlM (m := StageM) _ s₀ (List.range (len <<< 3)) with
    | error s' => rfl
    | ok s' => rfl
  · intro t b t' ht hturn
    cases hwalk : walkBitsTurn env .flip1 1 t b with
    | error t₁ =>
      rw [hwalk] at hturn
      cases hturn
    | ok t₁ =>
      rw [hwalk] at hturn
      cases hturn
      rw [length_collectTokens, (walkBitsTurn_collect hwalk).1, ht]
  · intro t b ht
    cases hwalk : walkBitsTurn env .flip1 1 t b with
    | error t₁ => rfl
    | ok t₁ =>
      have hroom : t₁.aCollect.length = MAX_AUTO_EXTRA := by
        rw [(walkBitsTurn_collect hwalk).1, ht]
      dsimp only [Except.mapError, bind, Except.bind]
      rw [collectTokensChecked_eq env _ b hroom]
      rfl

/-! ### The runs that are tokens -/

section Tokens
variable (c : Nat → U32) (e : U32)

/-- The run differs from the entry and has an admissible length. -/
def isToken (r : Nat × Nat) : Bool :=
  c r.1 ≠ e ∧ MIN_AUTO_EXTRA ≤ r.2 - r.1 ∧ r.2 - r.1 ≤ MAX_AUTO_EXTRA

/-- The bytes of an interval. -/
def intervalBytes (inBuf : List U8) (r : Nat × Nat) : List U8 := (inBuf.drop r.1).take (r.2 - r.1)

/-- The checksum that a byte is compared with. -/
def prevOf : Nat → U32
  | 0 => e
  | m + 1 => c m

theorem prevOf_of_pos {m : Nat} (hm : 0 < m) : prevOf c e m = c (m - 1) := by
  cases m with
  | zero => omega
  | succ m => rfl

/-- The tokens among the given runs. -/
def tokensOf (inBuf : List U8) (runs : List (Nat × Nat)) : List (List U8) :=
  (runs.filter (isToken c e)).map (intervalBytes inBuf)

theorem tokensOf_append (inBuf : List U8) (runs : List (Nat × Nat)) (r : Nat × Nat) :
    tokensOf c e inBuf (runs ++ [r])
      = tokensOf c e inBuf runs ++ if isToken c e r then [intervalBytes inBuf r] else [] := by
  unfold tokensOf
  rw [List.filter_append, List.map_append, List.filter_cons, List.filter_nil]
  cases isToken c e r <;> rfl

theorem not_isToken_of_short {r : Nat × Nat} (h : r.2 - r.1 < MIN_AUTO_EXTRA) :
    isToken c e r = false := by
  refine decide_eq_false ?_
  rintro ⟨_, hlong, _⟩
  omega

/-- The checksum changes: the run before ends, and a new one starts. -/
theorem runs_of_change {m : Nat} (h : c m ≠ prevOf c e m) (inBuf : List U8) :
    runStart c (m + 1) = m ∧
      tokensOf c e inBuf (closedRuns c (m + 1)) = tokensOf c e inBuf (allRuns c m) := by
  rw [runStart, closedRuns]
  rcases Nat.eq_zero_or_pos m with rfl | hm
  · -- Before the first byte there is only the empty run.
    refine ⟨if_pos rfl, ?_⟩
    rw [if_pos rfl]
    show _ = tokensOf c e inBuf ([] ++ [(0, 0)])
    rw [tokensOf_append, not_isToken_of_short c e (by decide)]
    rfl
  · rw [prevOf_of_pos c e hm] at h
    rw [if_neg h, if_neg h]
    exact ⟨rfl, rfl⟩

/-- The checksum stays: the run goes on. -/
theorem runs_of_same {m : Nat} (h : c m = prevOf c e m) :
    runStart c (m + 1) = runStart c m ∧ closedRuns c (m + 1) = closedRuns c m := by
  have hsame : c m = c (m - 1) := by
    rcases Nat.eq_zero_or_pos m with rfl | hm
    · rfl
    · rw [h, prevOf_of_pos c e hm]
  rw [runStart, closedRuns, if_pos hsame, if_pos hsame]
  exact ⟨rfl, rfl⟩

/-- The checksum of the run at the end. -/
theorem runStart_cksum {m : Nat} (hm : 0 < m) : c (runStart c m) = prevOf c e m := by
  rw [runStart_const c (Nat.le_refl _) (runStart_lt c hm), prevOf_of_pos c e hm]

end Tokens

/-! ### Collecting a token -/

section Collect
variable {c : Nat → U32} {e : U32} {inBuf : List U8} {before : List (List U8)} {m : Nat}
  {s : DetState}

/-- What holds before byte `m`. The tokens that were there before the stage are `before`. -/
structure Collecting (c : Nat → U32) (e : U32) (inBuf : List U8) (before : List (List U8)) (m : Nat)
    (s : DetState) : Prop where
  buf : s.outBuf = inBuf
  prev : s.prevCksum = prevOf c e m
  len : s.aLen = if prevOf c e m = e then 0 else m - runStart c m
  room : s.aCollect.length = MAX_AUTO_EXTRA
  /-- The buffer holds the bytes of the run, unless there are too many. -/
  held : s.aLen ≤ MAX_AUTO_EXTRA →
    s.aCollect.take s.aLen = intervalBytes inBuf (m - s.aLen, m)
  tokens : s.autoTokens = before ++ tokensOf c e inBuf (closedRuns c m)

theorem Collecting.len_le (h : Collecting c e inBuf before m s) : s.aLen ≤ m := by
  rw [h.len]
  split
  · exact Nat.zero_le m
  · exact Nat.sub_le m _

/-- One more byte is appended, or the run is too long by now. -/
theorem held_collectByte (hbuf : s.outBuf = inBuf) (hm : m < inBuf.length) (hlen : s.aLen ≤ m)
    (hroom : s.aCollect.length = MAX_AUTO_EXTRA)
    (hheld : s.aLen ≤ MAX_AUTO_EXTRA →
      s.aCollect.take s.aLen = intervalBytes inBuf (m - s.aLen, m)) :
    (collectByte s m).aLen ≤ MAX_AUTO_EXTRA →
      (collectByte s m).aCollect.take (collectByte s m).aLen
        = intervalBytes inBuf (m + 1 - (collectByte s m).aLen, m + 1) := by
  intro hle
  change s.aLen + 1 ≤ MAX_AUTO_EXTRA at hle
  show (if s.aLen < MAX_AUTO_EXTRA then s.aCollect.set s.aLen (byteOf s.outBuf m)
    else s.aCollect).take (s.aLen + 1) = intervalBytes inBuf (m + 1 - (s.aLen + 1), m + 1)
  rw [if_pos (by omega), List.take_add_one, List.take_set_of_le (Nat.le_refl _), hheld (by omega),
    List.getElem?_set_self (by omega), hbuf, Nat.add_sub_add_right]
  -- The interval grows by the byte at its end.
  show (inBuf.drop (m - s.aLen)).take (m - (m - s.aLen)) ++ [byteOf inBuf m]
    = (inBuf.drop (m - s.aLen)).take (m + 1 - (m - s.aLen))
  have hgrow : m + 1 - (m - s.aLen) = m - (m - s.aLen) + 1 := by omega
  have hindex : m - s.aLen + (m - (m - s.aLen)) = m := by omega
  have hbyte : byteOf inBuf m = inBuf[m] := List.getD_eq_getElem _ _ hm
  rw [hgrow, List.take_add_one, List.getElem?_drop, hindex, List.getElem?_eq_getElem hm, hbyte]
  rfl

/-- Flushing outputs the run if it is a token. -/
theorem autoTokens_flushToken {lo : Nat}
    (hheld : s.aLen ≤ MAX_AUTO_EXTRA → s.aCollect.take s.aLen = intervalBytes inBuf (lo, m))
    (htoken : isToken c e (lo, m) = true ↔ MIN_AUTO_EXTRA ≤ s.aLen ∧ s.aLen ≤ MAX_AUTO_EXTRA) :
    (flushToken s).autoTokens
      = s.autoTokens ++ if isToken c e (lo, m) then [intervalBytes inBuf (lo, m)] else [] := by
  unfold flushToken
  split
  · rename_i hlen
    rw [if_pos (htoken.mpr hlen), ← hheld hlen.2]
  · rename_i hlen
    rw [if_neg fun h => hlen (htoken.mp h), List.append_nil]

/-- A run other than that of the entry is a token if its length is admissible. -/
theorem isToken_iff {lo hi : Nat} (hlo : c lo ≠ e) :
    isToken c e (lo, hi) = true ↔ MIN_AUTO_EXTRA ≤ hi - lo ∧ hi - lo ≤ MAX_AUTO_EXTRA := by
  unfold isToken
  rw [decide_eq_true_iff]
  exact ⟨fun h => h.2, fun h => ⟨hlo, h⟩⟩

theorem isToken_of_eq {lo hi : Nat} (hlo : c lo = e) : isToken c e (lo, hi) = false := by
  refine decide_eq_false ?_
  rintro ⟨hne, _⟩
  exact hne hlo

/-- The run ends before byte `m`. -/
theorem Collecting.flush (h : Collecting c e inBuf before m s) :
    (flushToken s).autoTokens = before ++ tokensOf c e inBuf (allRuns c m) := by
  show _ = before ++ tokensOf c e inBuf (closedRuns c m ++ [(runStart c m, m)])
  rw [tokensOf_append, ← List.append_assoc, ← h.tokens]
  have hlen := h.len
  split at hlen
  · rename_i hprev
    -- Nothing has been collected.
    have hnot : isToken c e (runStart c m, m) = false := by
      rcases Nat.eq_zero_or_pos m with rfl | hm
      · exact not_isToken_of_short c e (r := (0, 0)) (by decide)
      · exact isToken_of_eq ((runStart_cksum c e hm).trans hprev)
    unfold flushToken
    rw [if_neg (by rw [hlen]; decide), hnot]
    exact (List.append_nil _).symm
  · rename_i hprev
    have hm : 0 < m := by
      rcases Nat.eq_zero_or_pos m with rfl | hm
      · exact absurd rfl hprev
      · exact hm
    have hlo : m - s.aLen = runStart c m := by
      have hle := runStart_le c m
      omega
    have hheld := h.held
    rw [hlo] at hheld
    refine autoTokens_flushToken hheld ?_
    rw [isToken_iff (by rw [runStart_cksum c e hm]; exact hprev), hlen]

/-- The state between the comparison and the collection of byte `m`: `a_len` is the length of the
run without that byte. -/
structure Compared (c : Nat → U32) (e : U32) (inBuf : List U8) (before : List (List U8)) (m : Nat)
    (t : DetState) : Prop where
  buf : t.outBuf = inBuf
  prev : t.prevCksum = c m
  room : t.aCollect.length = MAX_AUTO_EXTRA
  len_of_eq : c m = e → t.aLen = 0
  len_of_ne : c m ≠ e → t.aLen = m - runStart c (m + 1)
  len_le : t.aLen ≤ m
  held : t.aLen ≤ MAX_AUTO_EXTRA → t.aCollect.take t.aLen = intervalBytes inBuf (m - t.aLen, m)
  tokens : t.autoTokens = before ++ tokensOf c e inBuf (closedRuns c (m + 1))

theorem intervalBytes_empty (inBuf : List U8) (m : Nat) : intervalBytes inBuf (m - 0, m) = [] := by
  unfold intervalBytes
  rw [Nat.sub_zero, Nat.sub_self, List.take_zero]

/-- A change of the checksum outputs the run. -/
theorem Collecting.compare (h : Collecting c e inBuf before m s) :
    Compared c e inBuf before m
      (if c m ≠ s.prevCksum then { flushToken s with aLen := 0, prevCksum := c m } else s) := by
  rw [h.prev]
  split
  · rename_i hchange
    obtain ⟨hstart, htokens⟩ := runs_of_change c e hchange inBuf
    have hbuf : (flushToken s).outBuf = s.outBuf := by
      unfold flushToken
      split <;> rfl
    refine ⟨hbuf.trans h.buf, rfl, (length_flushToken s).trans h.room, fun _ => rfl, ?_,
      Nat.zero_le m, fun _ => (intervalBytes_empty inBuf m).symm, ?_⟩
    · intro _
      rw [hstart, Nat.sub_self]
    · rw [htokens]
      exact h.flush
  · rename_i hsame
    have hsame := not_not.mp hsame
    obtain ⟨hstart, hclosed⟩ := runs_of_same c e hsame
    have hlen := h.len
    rw [← hsame] at hlen
    refine ⟨h.buf, h.prev.trans hsame.symm, h.room, ?_, ?_, h.len_le, h.held, ?_⟩
    · intro heq
      rw [hlen, if_pos heq]
    · intro hne
      rw [hlen, if_neg hne, hstart]
    · rw [hclosed]
      exact h.tokens

/-- A byte is collected if the checksum is not that of the entry. -/
theorem Compared.collect {t : DetState} (h : Compared c e inBuf before m t)
    (hm : m < inBuf.length) :
    Collecting c e inBuf before (m + 1) (if c m ≠ e then collectByte t m else t) := by
  split
  · rename_i hne
    refine ⟨h.buf, h.prev, ?_, (length_collectByte t m).trans h.room,
      held_collectByte h.buf hm h.len_le h.room h.held, h.tokens⟩
    show t.aLen + 1 = if c m = e then 0 else m + 1 - runStart c (m + 1)
    have hstart : runStart c (m + 1) ≤ m := Nat.le_of_lt_succ (runStart_lt c (Nat.succ_pos m))
    rw [if_neg hne, h.len_of_ne hne]
    omega
  · rename_i heq
    have heq := not_not.mp heq
    have hempty := h.len_of_eq heq
    refine ⟨h.buf, h.prev, ?_, h.room, ?_, h.tokens⟩
    · show t.aLen = if c m = e then 0 else m + 1 - runStart c (m + 1)
      rw [if_pos heq, hempty]
    · intro _
      rw [hempty, intervalBytes_empty]
      rfl

/-- One byte that is not the last one. -/
theorem Collecting.step (h : Collecting c e inBuf before m s) (hm : m < inBuf.length) :
    Collecting c e inBuf before (m + 1)
      (let s := if c m ≠ s.prevCksum then { flushToken s with aLen := 0, prevCksum := c m } else s
      if c m ≠ e then collectByte s m else s) :=
  h.compare.collect hm

/-- Collecting a byte outputs nothing. -/
theorem autoTokens_collectLast {t : DetState} {p : Prop} [Decidable p] :
    (if p then collectByte t m else t).autoTokens = t.autoTokens := by
  split <;> rfl

/-- The last byte. A run that reaches the end is output with it. -/
theorem Collecting.last (h : Collecting c e inBuf before m s) (hm : m < inBuf.length) :
    (let s := if c m = s.prevCksum then flushToken (collectByte s m)
        else { flushToken s with aLen := 0, prevCksum := c m }
      if c m ≠ e then collectByte s m else s).autoTokens
      = before ++ tokensOf c e inBuf (allRuns c (m + 1)) := by
  dsimp only
  rw [autoTokens_collectLast, h.prev]
  show _ = before ++ tokensOf c e inBuf (closedRuns c (m + 1) ++ [(runStart c (m + 1), m + 1)])
  rw [tokensOf_append, ← List.append_assoc]
  split
  · rename_i hsame
    obtain ⟨hstart, hclosed⟩ := runs_of_same c e hsame
    have hcksum : c (runStart c (m + 1)) = c m := runStart_cksum c e (Nat.succ_pos m)
    have htokens : (collectByte s m).autoTokens
        = before ++ tokensOf c e inBuf (closedRuns c (m + 1)) := by
      rw [hclosed]
      exact h.tokens
    have hlen := h.len
    rw [← hsame] at hlen
    rw [← htokens]
    by_cases heq : c m = e
    · -- The byte that is grabbed makes a token of length one, which is too short.
      rw [if_pos heq] at hlen
      rw [isToken_of_eq (hcksum.trans heq)]
      unfold flushToken
      rw [if_neg]
      · exact (List.append_nil _).symm
      · show ¬ (MIN_AUTO_EXTRA ≤ s.aLen + 1 ∧ s.aLen + 1 ≤ MAX_AUTO_EXTRA)
        rw [hlen]
        decide
    · rw [if_neg heq] at hlen
      have hle := runStart_le c m
      have hlo : m + 1 - (s.aLen + 1) = runStart c (m + 1) := by omega
      have hheld := held_collectByte h.buf hm h.len_le h.room h.held
      change _ → _ = intervalBytes inBuf (m + 1 - (s.aLen + 1), m + 1) at hheld
      rw [hlo] at hheld
      refine autoTokens_flushToken hheld ?_
      rw [isToken_iff (by rw [hcksum]; exact heq)]
      show _ ↔ MIN_AUTO_EXTRA ≤ s.aLen + 1 ∧ s.aLen + 1 ≤ MAX_AUTO_EXTRA
      have hcount : m + 1 - runStart c (m + 1) = s.aLen + 1 := by omega
      rw [hcount]
  · rename_i hchange
    obtain ⟨hstart, htokens⟩ := runs_of_change c e hchange inBuf
    -- The last byte alone is too short for a token.
    have hshort : isToken c e (runStart c (m + 1), m + 1) = false := by
      refine not_isToken_of_short c e ?_
      show m + 1 - runStart c (m + 1) < MIN_AUTO_EXTRA
      rw [hstart, Nat.add_sub_cancel_left]
      decide
    rw [htokens, hshort]
    exact h.flush.trans (List.append_nil _).symm

end Collect

/-! ### The turns of the stage -/

section Turns
variable (env : DetEnv) (stageMax : Nat) (s : DetState) (stageCur : Nat)

/-- Nothing is collected but at the least significant bit of a byte. -/
theorem collectTokens_of_other_bit (h : stageCur % 8 ≠ 7) :
    collectTokens env stageMax s stageCur = s := by
  unfold collectTokens
  rw [decide_eq_false h, Bool.and_false]
  rfl

theorem collectTokens_of_middle (hdumb : env.dumbMode = false) (hbit : stageCur % 8 = 7)
    (hmiddle : stageCur ≠ stageMax - 1) :
    collectTokens env stageMax s stageCur
      = (let s' := if env.cksum s.log ≠ s.prevCksum then
          { flushToken s with aLen := 0, prevCksum := env.cksum s.log } else s
        if env.cksum s.log ≠ env.execCksum then collectByte s' (stageCur >>> 3) else s') := by
  unfold collectTokens
  rw [hdumb, decide_eq_true hbit]
  dsimp only
  rw [decide_eq_false hmiddle, Bool.false_and]
  rfl

theorem collectTokens_of_end (hdumb : env.dumbMode = false) (hbit : stageCur % 8 = 7)
    (hend : stageCur = stageMax - 1) :
    collectTokens env stageMax s stageCur
      = (let s' := if env.cksum s.log = s.prevCksum then
          flushToken (collectByte s (stageCur >>> 3))
        else { flushToken s with aLen := 0, prevCksum := env.cksum s.log }
        if env.cksum s.log ≠ env.execCksum then collectByte s' (stageCur >>> 3) else s') := by
  unfold collectTokens
  rw [hdumb, decide_eq_true hbit]
  dsimp only
  rw [decide_eq_true hend, Bool.true_and]
  by_cases hsame : env.cksum s.log = s.prevCksum
  · rw [if_pos hsame, decide_eq_true hsame]
    rfl
  · rw [if_neg hsame, decide_eq_false hsame, if_pos hsame]
    rfl

end Turns

section Stage
variable {inBuf : List U8} {val : Int}

theorem walkBitsTurn_ok {env : DetEnv} {stage : Stage} {k b : Nat} {s : DetState}
    (hs : FlipInv inBuf val s)
    (hgo : env.abandon (s.log ++ [.exec stage (b >>> 3) .none val (flipBits k b inBuf)]) = false) :
    ∃ s', walkBitsTurn env stage k s b = .ok s' := by
  unfold walkBitsTurn commonFuzzStuff
  dsimp only
  rw [hs.buf, hs.valType, hs.curVal, hgo]
  exact ⟨_, rfl⟩

theorem take_succ_bitsPlan (val : Int) {n : Nat} (hn : n < 8 * inBuf.length) :
    (bitsPlan inBuf .flip1 1 val).take (n + 1)
      = (bitsPlan inBuf .flip1 1 val).take n
        ++ [.exec .flip1 (n >>> 3) .none val (flipBits 1 n inBuf)] := by
  have hlt : n < inBuf.length <<< 3 - (1 - 1) := by
    rw [Nat.shiftLeft_eq]
    omega
  rw [List.take_add_one]
  unfold bitsPlan
  rw [List.getElem?_map, List.getElem?_range hlt]
  rfl

/-- What holds before turn `n` of a stage that was entered in `s₀`. -/
structure StageInv (env : DetEnv) (c : Nat → U32) (inBuf : List U8) (val : Int) (s₀ : DetState)
    (n : Nat) (s : DetState) : Prop where
  flip : FlipInv inBuf val s
  log : s.log = s₀.log ++ (bitsPlan inBuf .flip1 1 val).take n
  collecting : n < 8 * inBuf.length →
    Collecting c env.execCksum inBuf s₀.autoTokens (n / 8) s
  done : n = 8 * inBuf.length →
    s.autoTokens = s₀.autoTokens ++ tokensOf c env.execCksum inBuf (allRuns c inBuf.length)

theorem StageInv.turn {env : DetEnv} (hdumb : env.dumbMode = false) {c : Nat → U32}
    {s₀ s : DetState} {n : Nat} (h : StageInv env c inBuf val s₀ n s) (hn : n < 8 * inBuf.length)
    (hc : ∀ i < inBuf.length,
      env.cksum (s₀.log ++ (bitsPlan inBuf .flip1 1 val).take (8 * i + 8)) = c i)
    (hgo : env.abandon (s₀.log ++ (bitsPlan inBuf .flip1 1 val).take (n + 1)) = false) :
    ∃ s', (do
      let s ← walkBitsTurn env .flip1 1 s n
      pure (collectTokens env (inBuf.length <<< 3) s n)) = .ok s' ∧
      StageInv env c inBuf val s₀ (n + 1) s' := by
  have hplan := take_succ_bitsPlan val hn
  rw [hplan, ← List.append_assoc, ← h.log] at hgo
  obtain ⟨t, ht⟩ := walkBitsTurn_ok h.flip hgo
  have hlogs := walkBitsTurn_logs env .flip1 1 s n h.flip
  rw [ht] at hlogs
  obtain ⟨hlog, hflip⟩ := hlogs
  obtain ⟨hcollect, haLen, hprev, htokens⟩ := walkBitsTurn_collect ht
  have hlog' : t.log = s₀.log ++ (bitsPlan inBuf .flip1 1 val).take (n + 1) := by
    rw [hlog, h.log, hplan, List.append_assoc]
  have hframe := collectTokens_frame env (inBuf.length <<< 3) t n hflip
  -- The execution leaves the token alone.
  have hcoll : Collecting c env.execCksum inBuf s₀.autoTokens (n / 8) t := by
    have hold := h.collecting hn
    exact ⟨hflip.buf, hprev.trans hold.prev, haLen.trans hold.len,
      (congrArg List.length hcollect).trans hold.room, by rw [haLen, hcollect]; exact hold.held,
      htokens.trans hold.tokens⟩
  have hshift : inBuf.length <<< 3 = 8 * inBuf.length := by
    rw [Nat.shiftLeft_eq]
    omega
  have hbyte : n >>> 3 = n / 8 := Nat.shiftRight_eq_div_pow n 3
  have hcksum : n % 8 = 7 → env.cksum t.log = c (n / 8) := by
    intro hbit
    have hcount : n + 1 = 8 * (n / 8) + 8 := by omega
    rw [hlog', hcount]
    exact hc (n / 8) (by omega)
  rw [ht]
  refine ⟨_, rfl, hframe.2, hframe.1.trans hlog', ?_, ?_⟩
  · intro hmore
    by_cases hbit : n % 8 = 7
    · -- A byte is complete, and it is not the last one.
      have hstep := hcoll.step (m := n / 8) (by omega)
      have hnext : (n + 1) / 8 = n / 8 + 1 := by omega
      rw [collectTokens_of_middle env _ t n hdumb hbit (by omega), hcksum hbit, hbyte, hnext]
      exact hstep
    · have hnext : (n + 1) / 8 = n / 8 := by omega
      rw [collectTokens_of_other_bit env _ t n hbit, hnext]
      exact hcoll
  · intro hlast
    have hbit : n % 8 = 7 := by omega
    have hbytes : n / 8 + 1 = inBuf.length := by omega
    have hend := hcoll.last (m := n / 8) (by omega)
    rw [hbytes] at hend
    rw [collectTokens_of_end env _ t n hdumb hbit (by omega), hcksum hbit, hbyte]
    exact hend

/-- The maximal runs of checksums that make a token: constant, different from that of the entry, and
of an admissible length. -/
structure TokenRun (c : Nat → U32) (e : U32) (len lo hi : Nat) : Prop where
  run : IsRun c len lo hi
  differs : c lo ≠ e
  min : MIN_AUTO_EXTRA ≤ hi - lo
  max : hi - lo ≤ MAX_AUTO_EXTRA

theorem mem_tokenRuns_iff {c : Nat → U32} {e : U32} {len : Nat} (hlen : 0 < len) (r : Nat × Nat) :
    r ∈ (allRuns c len).filter (isToken c e) ↔ TokenRun c e len r.1 r.2 := by
  rw [List.mem_filter, mem_allRuns_iff c hlen]
  unfold isToken
  rw [decide_eq_true_iff]
  constructor
  · rintro ⟨hrun, hdiffers, hmin, hmax⟩
    exact ⟨hrun, hdiffers, hmin, hmax⟩
  · rintro ⟨hrun, hdiffers, hmin, hmax⟩
    exact ⟨hrun, hdiffers, hmin, hmax⟩

/-- The checksums that are observed after the least significant bit of each byte has been flipped
are `c`. If no execution asks to abandon the entry, then the stage outputs the bytes of exactly the
runs that make a token, in their order. There is no write outside of `a_collect`, whether the
entry is abandoned or not. -/
theorem flip1_tokens {env : DetEnv} (hdumb : env.dumbMode = false) (hlen : 0 < inBuf.length)
    {s : DetState} (hbuf : s.outBuf = inBuf) (hroom : s.aCollect.length = MAX_AUTO_EXTRA)
    (haLen : s.aLen = 0) {c : Nat → U32}
    (hc : ∀ i < inBuf.length, env.cksum
      (s.log ++ (bitsPlan inBuf .flip1 1 s.stageCurVal).take (8 * i + 8)) = c i) :
    flip1Checked env inBuf.length s = (flip1 env inBuf.length s).mapError some ∧
    ((∀ n ≤ 8 * inBuf.length, env.abandon
        (s.log ++ (bitsPlan inBuf .flip1 1 s.stageCurVal).take n) = false) →
      ∃ (s' : DetState) (runs : List (Nat × Nat)), flip1 env inBuf.length s = .ok s' ∧
        (∀ r, r ∈ runs ↔ TokenRun c env.execCksum inBuf.length r.1 r.2) ∧
        runs.Pairwise (fun a b => a.2 ≤ b.1) ∧
        s'.autoTokens = s.autoTokens ++ runs.map fun r => (inBuf.drop r.1).take (r.2 - r.1)) := by
  refine ⟨flip1Checked_eq env inBuf.length hroom, ?_⟩
  intro hgo
  have hshift : inBuf.length <<< 3 = 8 * inBuf.length := by
    rw [Nat.shiftLeft_eq]
    omega
  obtain ⟨t, hloop, hinv⟩ := foldlM_range_ok
    (P := StageInv env c inBuf s.stageCurVal s) (n := inBuf.length <<< 3)
    (s := beginStage (inBuf.length <<< 3)
      { s with stageValType := .none, prevCksum := env.execCksum })
    (f := fun s stageCur => do
      let s ← walkBitsTurn env .flip1 1 s stageCur
      pure (collectTokens env (inBuf.length <<< 3) s stageCur))
    { flip := ⟨hbuf, rfl, rfl⟩
      log := (List.append_nil _).symm
      collecting := fun _ =>
        { buf := hbuf
          prev := rfl
          len := haLen.trans (if_pos rfl).symm
          room := hroom
          held := fun _ => by
            show s.aCollect.take s.aLen = intervalBytes inBuf (0 - s.aLen, 0)
            rw [haLen]
            rfl
          tokens := (List.append_nil _).symm }
      done := fun h => by omega }
    fun n hn t ht => ht.turn hdumb (by omega) hc (hgo (n + 1) (by omega))
  refine ⟨endStage .flip1 t, (allRuns c inBuf.length).filter (isToken c env.execCksum), ?_,
    mem_tokenRuns_iff hlen, (pairwise_allRuns c _).filter _, hinv.done hshift⟩
  unfold flip1 flip1Loop
  dsimp only
  rw [hloop]
  rfl

/-- Three bytes with one checksum are a token. -/
theorem flip1_tokens_three :
    ∃ (s' : DetState) (runs : List (Nat × Nat)),
      flip1 { cksum := fun _ => 7 } 3 { outBuf := [1, 2, 3] } = .ok s' ∧
        (∀ r, r ∈ runs ↔ TokenRun (fun _ => 7) 0 3 r.1 r.2) ∧
        runs.Pairwise (fun a b => a.2 ≤ b.1) ∧
        s'.autoTokens = [] ++ runs.map fun r => (([1, 2, 3] : List U8).drop r.1).take (r.2 - r.1) :=
  have hdumb : ({ cksum := fun _ => 7 } : DetEnv).dumbMode = false := rfl
  have hlen : 0 < ([1, 2, 3] : List U8).length := by decide
  (flip1_tokens hdumb hlen (s := { outBuf := [1, 2, 3] }) (c := fun _ => 7) rfl rfl rfl
    fun _ _ => rfl).2 fun _ _ => rfl

end Stage

end TriforceAFL.Proofs
