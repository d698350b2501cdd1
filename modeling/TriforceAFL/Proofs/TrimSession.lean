import TriforceAFL.Proofs.Trim

/-!
# `TriforceAFL.Proofs.TrimSession`: the trimming stage of a session

`Session.trimCase` asks the world how an execution ends, and does not keep the test case that the
target is given. `Trim.trimCase` keeps it, for a target that depends on it. When the answers of the
world are those of the target (`Answered`), the stage of the session removes the same blocks and
leaves the same test case and the same file (`trimCase_follows`). So what is proved about
`Trim.trimCase` holds for the stage.

The inner loops are compared in `meets_trimPass`, the outer loops in `meets_trimPasses`.
-/

set_option autoImplicit false

namespace TriforceAFL.Proofs

open Lib Lib.Process Spec

variable {mapSize : Nat}

/-- The variables of `trim_case`, as `Session.trimCase` has them. -/
def varsOf (t : Trim.State mapSize) : Session.TrimState mapSize where
  buf := t.content
  lenP2 := t.lenP2
  cleanTrace := t.cleanTrace
  fault := t.fault

/-! ### One turn -/

section Turn
variable {env : Trim.Env mapSize} {execCksum : U32} {orig : List U8} {removeLen budget : Nat}
  {t : Trim.State mapSize} {r : Trim.State mapSize ⊕ (Bool × Trim.State mapSize)}

/-- The block that a turn leaves out. -/
def blockLen (t : Trim.State mapSize) : Nat := min t.removeLen (t.len - t.removePos)

/-- The test case that a turn gives to the target. -/
def gapAt (t : Trim.State mapSize) : List U8 :=
  Session.deleteAt t.content t.removePos (blockLen t)

/-- What the target does with it. -/
def outcomeAt (env : Trim.Env mapSize) (t : Trim.State mapSize) : RunOutcome mapSize where
  fault := (env.run (gapAt t)).1
  trace := (env.run (gapAt t)).2
  stopSoon := env.stopSoon (t.trimExecs + 1)

/-- Does the turn jump to `abort_trimming`? -/
def aborts (env : Trim.Env mapSize) (t : Trim.State mapSize) : Bool :=
  (outcomeAt env t).stopSoon || decide ((outcomeAt env t).fault = .error)

/-- What a turn does when there is a block left. -/
inductive AfterTurn (env : Trim.Env mapSize) (execCksum : U32) (t : Trim.State mapSize) :
    Trim.State mapSize ⊕ (Bool × Trim.State mapSize) → Prop
  | aborted {t' : Trim.State mapSize} (stop : aborts env t = true)
      (vars : varsOf t' = { varsOf t with fault := (outcomeAt env t).fault })
      (len : t'.len = t.len) (execs : t'.trimExecs = t.trimExecs + 1) :
      AfterTurn env execCksum t (.inr (true, t'))
  | removed {t' : Trim.State mapSize} (going : ¬ aborts env t = true)
      (same : env.cksum (gapAt t) = execCksum)
      (vars : varsOf t' =
        { buf := gapAt t
          lenP2 := nextP2 (gapAt t).length
          cleanTrace := t.cleanTrace.or (some (outcomeAt env t).trace)
          fault := (outcomeAt env t).fault })
      (len : t'.len = (gapAt t).length) (pos : t'.removePos = t.removePos)
      (execs : t'.trimExecs = t.trimExecs + 1) : AfterTurn env execCksum t (.inl t')
  | kept {t' : Trim.State mapSize} (going : ¬ aborts env t = true)
      (differs : env.cksum (gapAt t) ≠ execCksum)
      (vars : varsOf t' = { varsOf t with fault := (outcomeAt env t).fault })
      (len : t'.len = t.len) (pos : t'.removePos = t.removePos + t.removeLen)
      (execs : t'.trimExecs = t.trimExecs + 1) : AfterTurn env execCksum t (.inl t')

theorem afterTurn_of_trimTurn (hmin : TRIM_MIN_BYTES ≤ removeLen) (hmax : removeLen ≤ orig.length)
    (hsmall : orig.length ≤ 2 ^ 30) (h : InRound env execCksum orig removeLen t)
    (hmore : t.removePos < t.len) (hturn : Trim.trimTurn env execCksum budget t = some r) :
    AfterTurn env execCksum t r := by
  have hfour : TRIM_MIN_BYTES = 4 := rfl
  have hsize := h.size
  have hle := h.kept.len_le
  have hlen := h.kept.length_content
  have hat : AtBlock t (blockLen t) := by
    unfold blockLen
    exact ⟨h.pos, by omega, by omega⟩
  have hinside := hat.inside
  have hgap : (gapAt t).length = t.len - blockLen t := by
    unfold gapAt
    rw [length_deleteAt _ (by omega), hlen]
  unfold Trim.trimTurn at hturn
  simp only [if_pos hmore] at hturn
  -- The file that the target reads, without the copy of the test case in memory.
  have hcand : Trim.writeWithGap env.outFile t.target t.inBuf t.len t.removePos
      (min t.removeLen (t.len - t.removePos)) = gapAt t := h.kept.candidate hat
  rw [hcand] at hturn
  split at hturn
  · rename_i hstop
    cases hturn
    exact .aborted hstop rfl rfl rfl
  · rename_i hgoing
    split at hturn
    · rename_i hsame
      obtain ⟨t'', hremove, hr⟩ := Option.bind_eq_some_iff.mp hturn
      have hkept : Kept env execCksum orig { t with
          target := gapAt t
          fault := (env.run (gapAt t)).1
          trimExecs := t.trimExecs + 1 } := h.kept.of_same rfl rfl rfl rfl
      obtain ⟨inBuf, rfl, hcontent⟩ :=
        (ends_remove hkept ⟨hat.pos, hat.some, hat.inside⟩ (by omega) _).of_eq_some hremove
      cases hr
      -- After the `memmove`, the test case in memory is the one that was given to the target.
      have hcut : inBuf.take (t.len - blockLen t) = gapAt t := hcontent
      refine .removed hgoing hsame ?_ hgap.symm rfl rfl
      show (⟨inBuf.take (t.len - blockLen t), nextP2 (t.len - blockLen t), _, _⟩ :
        Session.TrimState mapSize) = _
      rw [hcut, hgap]
      rfl
    · rename_i hdiffers
      -- The sum does not wrap, since both are below the length of the test case or equal to it.
      have hnext : (t.removePos + t.removeLen) % 2 ^ 32 = t.removePos + t.removeLen :=
        Nat.mod_eq_of_lt (by have := h.pos; omega)
      cases hturn
      exact .kept hgoing hdiffers rfl rfl hnext rfl

/-- The other way to end a turn. -/
theorem trimTurn_over (hover : ¬ t.removePos < t.len) :
    Trim.trimTurn env execCksum budget t = some (.inr (false, t)) := by
  unfold Trim.trimTurn
  rw [if_neg hover]

/-- Are the blocks large enough for another round? -/
abbrev MoreRounds (t : Trim.State mapSize) : Prop :=
  t.removeLen ≥ max (t.lenP2 / TRIM_END_STEPS) TRIM_MIN_BYTES

theorem MoreRounds.least (h : MoreRounds t) : TRIM_MIN_BYTES ≤ t.removeLen :=
  (Nat.le_max_right _ _).trans h

/-- A turn of the outer loop is a run of the inner one, unless the blocks are too small. -/
inductive AfterStep (env : Trim.Env mapSize) (execCksum : U32) (budget : Nat)
    (t : Trim.State mapSize) : Trim.State mapSize ⊕ (Bool × Trim.State mapSize) → Prop
  | finished (few : ¬ MoreRounds t) : AfterStep env execCksum budget t (.inr (false, t))
  | aborted {t' : Trim.State mapSize} (more : MoreRounds t)
      (round : Trim.trimRound env execCksum budget t = some (true, t')) :
      AfterStep env execCksum budget t (.inr (true, t'))
  | halved {t' : Trim.State mapSize} (more : MoreRounds t)
      (round : Trim.trimRound env execCksum budget t = some (false, t')) :
      AfterStep env execCksum budget t (.inl { t' with removeLen := t'.removeLen >>> 1 })

theorem afterStep_of_trimStep (hstep : Trim.trimStep env execCksum budget t = some r) :
    AfterStep env execCksum budget t r := by
  unfold Trim.trimStep at hstep
  split at hstep
  · rename_i hmore
    obtain ⟨⟨abort, t'⟩, hround, hr⟩ := Option.bind_eq_some_iff.mp hstep
    cases abort with
    | true =>
      cases hr
      exact .aborted hmore hround
    | false =>
      cases hr
      exact .halved hmore hround
  · rename_i hfew
    cases hstep
    exact .finished hfew

/-- What the outer loop keeps. -/
structure InSteps (env : Trim.Env mapSize) (execCksum : U32) (orig : List U8)
    (t : Trim.State mapSize) : Prop where
  kept : Kept env execCksum orig t
  size : t.removeLen ≤ orig.length

theorem InSteps.halved (hsmall : orig.length ≤ 2 ^ 30) (h : InSteps env execCksum orig t)
    (hmore : MoreRounds t) {t' : Trim.State mapSize}
    (hround : Trim.trimRound env execCksum budget t = some (false, t')) :
    InSteps env execCksum orig { t' with removeLen := t'.removeLen >>> 1 } ∧
      t'.removeLen = t.removeLen := by
  have hinner : InRound env execCksum orig t.removeLen t' :=
    (ends_trimRound h.kept hmore.least h.size hsmall).of_eq_some hround
  refine ⟨⟨hinner.kept.of_same rfl rfl rfl rfl, ?_⟩, hinner.size⟩
  show t'.removeLen >>> 1 ≤ orig.length
  rw [hinner.size, Nat.shiftRight_eq_div_pow]
  exact (Nat.div_le_self _ _).trans h.size

/-- A loop goes from one state to another. -/
def Goes {σ ρ : Type} (f : σ → Option (σ ⊕ ρ)) : σ → σ → Prop :=
  Relation.ReflTransGen fun t t' => f t = some (.inl t')

/-- In a run of the inner loop, the world answers as the target does. -/
def TurnsAnswered (w : World mapSize) (env : Trim.Env mapSize) (execCksum : U32)
    (budget clock : Nat) (t : Trim.State mapSize) : Prop :=
  ∀ t', Goes (Trim.trimTurn env execCksum budget) t t' → t'.removePos < t'.len →
    w.exec (clock + t'.trimExecs) = outcomeAt env t'

/-- In a run of the two loops that begins at `clock`. -/
def Answered (w : World mapSize) (env : Trim.Env mapSize) (execCksum : U32) (budget clock : Nat)
    (t : Trim.State mapSize) : Prop :=
  ∀ t', Goes (Trim.trimStep env execCksum budget) t t' → MoreRounds t' →
    TurnsAnswered w env execCksum budget clock { t' with removePos := t'.removeLen }

end Turn

/-! ### The stage of the session -/

/-- From a state with `P`, the program returns, with `Q`. -/
abbrev Returning {α : Type} (P : Session mapSize → Prop) (p : Fuzz mapSize α)
    (Q : α → Session mapSize → Prop) : Prop :=
  Meets P p (fun _ => True) Q fun _ _ => False

/-- The entry that is trimmed, and the clock at the start. -/
structure Job where
  q : Ptr
  cksum : U32
  fname : Text
  clock : Nat

/-- The entry after some executions. -/
structure AtClock (j : Job) (execs len : Nat) (s : Session mapSize) : Prop where
  clock : s.clock = j.clock + execs
  valid : j.q < s.globals.entries.length
  cksum : (s.globals.entry j.q).execCksum = j.cksum
  fname : (s.globals.entry j.q).fname = j.fname
  len : (s.globals.entry j.q).len = len

section Stage
variable {w : World mapSize} {env : Trim.Env mapSize} {orig : List U8} {j : Job}
  {removeLen budget : Nat} {t : Trim.State mapSize} {r : Bool × Trim.State mapSize}

/-- The session is where `trim_case` is. -/
def InTime (j : Job) (r : Bool × Trim.State mapSize) (s : Session mapSize) : Prop :=
  AtClock j r.2.trimExecs r.2.len s ∧ (r.1 = false → s.stopSoon = false)

/-- The session, after the target was given the test case of a turn. -/
structure Ran (env : Trim.Env mapSize) (j : Job) (t : Trim.State mapSize) (s : Session mapSize) :
    Prop where
  at_ : AtClock j (t.trimExecs + 1) t.len s
  stopSoon : s.stopSoon = (outcomeAt env t).stopSoon
  trace : s.globals.traceBits = (outcomeAt env t).trace

theorem meets_runTarget (hanswer : w.exec (j.clock + t.trimExecs) = outcomeAt env t) :
    Returning (InTime j (false, t)) (Session.runTarget w)
      fun fault s => fault = (outcomeAt env t).fault ∧ Ran env j t s := by
  refine Meets.step (fun _ _ => trivial) ?_ fun s e _ hg => by cases hg
  rintro s fault s' ⟨hat, hgoing⟩ hg
  cases hg
  -- The number of the question is the number of executions so far.
  have hclock : s.clock = j.clock + t.trimExecs := hat.clock
  rw [hclock, hanswer]
  refine ⟨rfl, ⟨?_, hat.valid, hat.cksum, hat.fname, hat.len⟩, ?_, rfl⟩
  · show s.clock + 1 = j.clock + (t.trimExecs + 1)
    omega
  · show (s.stopSoon || (outcomeAt env t).stopSoon) = (outcomeAt env t).stopSoon
    rw [hgoing rfl, Bool.false_or]

theorem Ran.going {s : Session mapSize} (h : Ran env j t s)
    (hgoing : ¬ aborts env t = true) : s.stopSoon = false := by
  unfold aborts at hgoing
  rw [Bool.not_eq_true, Bool.or_eq_false_iff] at hgoing
  exact h.stopSoon.trans hgoing.1

/-- The new length is written to the entry. -/
theorem meets_setLen (hgoing : ¬ aborts env t = true) {t' : Trim.State mapSize} {len : Nat}
    (hexecs : t'.trimExecs = t.trimExecs + 1) (hlen : t'.len = len) :
    Returning (Ran env j t)
      (Session.setGlobals fun g => g.updateEntry j.q fun e => { e with len })
      fun _ => InTime j (false, t') := by
  refine Meets.modify (fun _ _ => trivial) ?_
  intro s hs
  have hat := hs.at_
  have hentry : (s.globals.updateEntry j.q fun e => { e with len }).entry j.q
      = { s.globals.entry j.q with len } := entry_updateEntry_self hat.valid
  refine ⟨⟨?_, ?_, ?_, ?_, ?_⟩, fun _ => hs.going hgoing⟩
  · rw [hexecs]
    exact hat.clock
  · show j.q < (s.globals.updateEntry j.q fun e => { e with len }).entries.length
    rw [length_updateEntry]
    exact hat.valid
  · rw [hentry]
    exact hat.cksum
  · rw [hentry]
    exact hat.fname
  · rw [hentry]
    exact hlen.symm

/-- A turn starts with an execution and a look at its outcome. -/
theorem meets_turn (hanswer : w.exec (j.clock + t.trimExecs) = outcomeAt env t) {α : Type}
    {f : Fault → Session mapSize → Fuzz mapSize α} {Q : α → Session mapSize → Prop}
    (hf : ∀ s, Ran env j t s →
      Returning (Ran env j t) (f (outcomeAt env t).fault s) Q) :
    Returning (InTime j (false, t))
      (Session.runTarget w >>= fun fault => Process.get >>= fun s => f fault s) Q := by
  refine (meets_runTarget hanswer).bind_of_fact ?_
  rintro _ rfl
  exact Meets.bind_of_fact (Meets.get fun s hs => ⟨hs, hs⟩) hf

/-- The file of an entry that was replaced. -/
theorem lookup_replaceFile (g : FuzzState mapSize) (q : Ptr) (buf : List U8) :
    (Session.replaceFile g q buf).queueFiles.lookup (g.entry q).fname = some buf := by
  have hgone : (Session.dropFile g q).queueFiles.lookup (g.entry q).fname = none := by
    rw [List.lookup_eq_none_iff]
    intro f hf
    have hne := of_decide_eq_true (List.mem_filter.mp hf).2
    exact bne_iff_ne.mpr (Ne.symm hne)
  unfold Session.replaceFile
  rw [List.lookup_append, hgone, Option.none_or]
  exact List.lookup_cons_self

theorem meets_writeTrimmed {execs len : Nat} (hcreate : ∀ n, w.canCreate n = true) (buf : List U8)
    (trace : TraceMap mapSize) :
    Returning (AtClock j execs len) (Session.writeTrimmed w j.q buf trace)
      fun _ s => (s.globals.entry j.q).len = len ∧
        s.globals.queueFiles.lookup j.fname = some buf := by
  have hcreated : Returning (AtClock j execs len)
      (Process.step fun s : Session mapSize => .ok (w.canCreate s.clock, s.tick))
      fun created s => created = true ∧ AtClock j (execs + 1) len s := by
    refine Meets.step (fun _ _ => trivial) ?_ fun s e _ hg => by cases hg
    intro s created s' hs hg
    cases hg
    exact ⟨hcreate _, congrArg (· + 1) hs.clock, hs.valid, hs.cksum, hs.fname, hs.len⟩
  refine hcreated.bind_of_fact ?_
  rintro _ rfl
  refine Meets.modify (fun _ _ => trivial) ?_
  intro s hs
  -- Scoring the entry changes neither its length nor the files.
  have htouched := touched_updateBitmapScore
    { Session.replaceFile s.globals j.q buf with traceBits := trace } j.q
  refine ⟨?_, ?_⟩
  · have hcore := field_eq_of_fields_eq htouched.core j.q
    exact (congrArg (·.2.1) hcore).trans hs.len
  · have hfiles := congrArg QueueFrame.files htouched.frame
    have hlookup := lookup_replaceFile s.globals j.q buf
    rw [hs.fname] at hlookup
    exact (congrArg (List.lookup j.fname) hfiles).trans hlookup

variable (hhash : w.env.hash32 = env.hash32) (hsmall : orig.length ≤ 2 ^ 30)

include hhash in
/-- One turn of the inner loop. The rest of the loop is a hypothesis. -/
theorem meets_trimPass_turn (h : InRound env j.cksum orig removeLen t)
    (hmore : t.removePos < t.len) {next : Trim.State mapSize ⊕ (Bool × Trim.State mapSize)}
    (hafter : AfterTurn env j.cksum t next)
    (hanswer : w.exec (j.clock + t.trimExecs) = outcomeAt env t) {fuel : Nat}
    {Q : Bool × Session.TrimState mapSize → Session mapSize → Prop} (hrest : Sum.elim
      (fun t' => Returning (InTime j (false, t'))
        (Session.trimPass w j.q removeLen fuel t'.removePos (varsOf t')) Q)
      (fun r' => ∀ s, InTime j r' s → Q (r'.1, varsOf r'.2) s) next) :
    Returning (InTime j (false, t))
      (Session.trimPass w j.q removeLen (fuel + 1) t.removePos (varsOf t)) Q := by
  have hlen : (varsOf t).buf.length = t.len := h.kept.length_content
  have hblock : min removeLen ((varsOf t).buf.length - t.removePos) = blockLen t := by
    unfold blockLen
    rw [hlen, h.size]
  unfold Session.trimPass
  rw [hblock, hlen, if_pos hmore]
  refine meets_turn hanswer fun s₀ hs₀ => ?_
  -- Both sides now branch on the same three conditions.
  have haborts : ((outcomeAt env t).stopSoon || decide ((outcomeAt env t).fault = .error))
      = aborts env t := rfl
  have hcksum : env.hash32 (outcomeAt env t).trace = env.cksum (gapAt t) := rfl
  rw [hs₀.stopSoon, haborts, hhash, hs₀.trace, hs₀.at_.cksum, hcksum]
  cases hafter with
  | aborted stop vars len execs =>
    rw [if_pos stop]
    refine Meets.pure fun s hs => ?_
    rw [← vars]
    refine hrest s ⟨?_, nofun⟩
    rw [execs, len]
    exact hs.at_
  | removed going same vars len pos execs =>
    rw [Sum.elim_inl, pos, vars] at hrest
    rw [if_neg going, if_pos same]
    exact (meets_setLen going execs len).bind fun _ => hrest
  | kept going differs vars len pos execs =>
    rw [Sum.elim_inl, pos, vars, h.size] at hrest
    rw [if_neg going, if_neg differs]
    refine hrest.of_pre ?_
    intro s hs
    refine ⟨?_, fun _ => hs.going going⟩
    rw [execs, len]
    exact hs.at_

include hhash hsmall

/-- The inner loop. -/
theorem meets_trimPass (hmin : TRIM_MIN_BYTES ≤ removeLen) (hmax : removeLen ≤ orig.length)
    {n fuel : Nat} (h : InRound env j.cksum orig removeLen t)
    (hrun : repeatStep (Trim.trimTurn env j.cksum budget) n t = some r)
    (hanswers : TurnsAnswered w env j.cksum budget j.clock t) (hfuel : t.len - t.removePos ≤ fuel) :
    Returning (InTime j (false, t))
      (Session.trimPass w j.q removeLen fuel t.removePos (varsOf t))
      fun out s => out = (r.1, varsOf r.2) ∧ InTime j r s := by
  -- On the turns that `trim_case` takes. The session counts down another number, which is at least
  -- the distance of the position from the end.
  induction n generalizing t fuel with
  | zero => cases hrun
  | succ n ih =>
    by_cases hmore : t.removePos < t.len
    · obtain ⟨fuel, rfl⟩ : ∃ f, fuel = f + 1 := ⟨fuel - 1, by omega⟩
      cases hturn : Trim.trimTurn env j.cksum budget t with
      | none =>
        rw [repeatStep_of_none hturn] at hrun
        cases hrun
      | some next =>
        have hends := (ends_trimTurn hmin hmax hsmall h).of_eq_some hturn
        have hafter := afterTurn_of_trimTurn hmin hmax hsmall h hmore hturn
        refine meets_trimPass_turn hhash h hmore hafter (hanswers t .refl hmore) ?_
        cases next with
        | inl t' =>
          rw [repeatStep_of_inl hturn] at hrun
          have hless : t'.len - t'.removePos < t.len - t.removePos := hends.2
          exact ih hends.1 hrun (fun t'' hgoes => hanswers t'' (.head hturn hgoes)) (by omega)
        | inr r' =>
          rw [repeatStep_of_inr hturn] at hrun
          cases hrun
          exact fun s hs => ⟨rfl, hs⟩
    · rw [repeatStep_of_inr (trimTurn_over hmore)] at hrun
      cases hrun
      have hover : ¬ t.removePos < (varsOf t).buf.length := by
        show ¬ t.removePos < t.content.length
        rwa [h.kept.length_content]
      cases fuel with
      | zero => exact Meets.pure fun s hs => ⟨rfl, hs⟩
      | succ fuel =>
        unfold Session.trimPass
        rw [if_neg hover]
        exact Meets.pure fun s hs => ⟨rfl, hs⟩

/-- One turn of the outer loop, with a run of the inner one. The rest is a hypothesis. -/
theorem meets_trimPasses_round (h : InSteps env j.cksum orig t) (hmore : MoreRounds t)
    (hround : Trim.trimRound env j.cksum budget t = some r)
    (hanswers : Answered w env j.cksum budget j.clock t) {fuel : Nat}
    {Q : Bool × Session.TrimState mapSize → Session mapSize → Prop}
    (hrest : Returning (InTime j r)
      (if r.1 then pure (true, varsOf r.2)
        else Session.trimPasses w j.q fuel (t.removeLen >>> 1) (varsOf r.2)) Q) :
    Returning (InTime j (false, t))
      (Session.trimPasses w j.q (fuel + 1) t.removeLen (varsOf t)) Q := by
  have hlen : (varsOf t).buf.length = t.len := h.kept.length_content
  have hmore' : t.removeLen ≥ max ((varsOf t).lenP2 / TRIM_END_STEPS) TRIM_MIN_BYTES := hmore
  unfold Session.trimPasses
  rw [if_pos hmore', hlen]
  refine Meets.bind_of_fact (meets_trimPass hhash hsmall hmore.least h.size
    (h.kept.inRound hmore.least) hround (hanswers t .refl hmore) (Nat.sub_le _ _)) ?_
  rintro _ rfl
  exact hrest

/-- The outer loop. -/
theorem meets_trimPasses {n fuel : Nat} (h : InSteps env j.cksum orig t)
    (hrun : repeatStep (Trim.trimStep env j.cksum budget) n t = some r)
    (hanswers : Answered w env j.cksum budget j.clock t) (hfuel : t.removeLen ≤ fuel) :
    Returning (InTime j (false, t))
      (Session.trimPasses w j.q fuel t.removeLen (varsOf t))
      fun out s => out = (r.1, varsOf r.2) ∧ InTime j r s := by
  have hfour : TRIM_MIN_BYTES = 4 := rfl
  -- As for the inner loop; the block size bounds the number of rounds.
  induction n generalizing t fuel with
  | zero => cases hrun
  | succ n ih =>
    cases hstep : Trim.trimStep env j.cksum budget t with
    | none =>
      rw [repeatStep_of_none hstep] at hrun
      cases hrun
    | some next =>
      cases afterStep_of_trimStep hstep with
      | finished few =>
        rw [repeatStep_of_inr hstep] at hrun
        cases hrun
        have hfew : ¬ t.removeLen ≥ max ((varsOf t).lenP2 / TRIM_END_STEPS)
          TRIM_MIN_BYTES := few
        cases fuel with
        | zero => exact Meets.pure fun s hs => ⟨rfl, hs⟩
        | succ fuel =>
          unfold Session.trimPasses
          rw [if_neg hfew]
          exact Meets.pure fun s hs => ⟨rfl, hs⟩
      | aborted more round =>
        rw [repeatStep_of_inr hstep] at hrun
        cases hrun
        have hleast := more.least
        obtain ⟨fuel, rfl⟩ : ∃ f, fuel = f + 1 := ⟨fuel - 1, by omega⟩
        exact meets_trimPasses_round hhash hsmall h more round hanswers
          (Meets.pure fun s hs => ⟨rfl, hs⟩)
      | @halved t' more round =>
        rw [repeatStep_of_inl hstep] at hrun
        have hleast := more.least
        obtain ⟨fuel, rfl⟩ : ∃ f, fuel = f + 1 := ⟨fuel - 1, by omega⟩
        obtain ⟨hsteps, hhalf⟩ := h.halved hsmall more round
        have hless : t'.removeLen >>> 1 ≤ fuel := by
          rw [hhalf, Nat.shiftRight_eq_div_pow]
          omega
        have hrest := ih hsteps hrun
          (fun t'' hgoes => hanswers t'' (.head hstep hgoes)) hless
        rw [hhalf] at hrest
        exact meets_trimPasses_round hhash hsmall h more round hanswers hrest

/-- The stage of the session ends as `trim_case` does. -/
def EndsAs (j : Job) : Trim.Result mapSize → Fault × List U8 → Session mapSize → Prop
  | .aborted t, out, s => out = (t.fault, t.content) ∧ (s.globals.entry j.q).len = t.len
  | .unableToCreate, _, _ => False
  | .trimmed t file scored, out, s =>
    out = (t.fault, t.content) ∧ (s.globals.entry j.q).len = t.len ∧
      ∀ trace, scored = some trace → s.globals.queueFiles.lookup j.fname = some file

variable (hcreate : ∀ n, w.canCreate n = true) (henv : env.canCreate = true)

omit hhash hsmall in
include hcreate henv in
/-- The last part of `trim_case`. -/
theorem meets_finish {file : List U8} {abort : Bool} :
    Returning (InTime j (abort, t))
      (match abort, (varsOf t).cleanTrace with
        | false, some trace => do
            Session.writeTrimmed w j.q (varsOf t).buf trace
            pure ((varsOf t).fault, (varsOf t).buf)
        | _, _ => pure ((varsOf t).fault, (varsOf t).buf))
      (EndsAs j (if abort then .aborted t else Trim.finish env file t)) := by
  cases abort with
  | true => exact Meets.pure fun s hs => ⟨rfl, hs.1.len⟩
  | false =>
    have hvars : (varsOf t).cleanTrace = t.cleanTrace := rfl
    rw [if_neg Bool.false_ne_true, hvars]
    unfold Trim.finish
    cases t.cleanTrace with
    | none => exact Meets.pure fun s hs => ⟨rfl, hs.1.len, nofun⟩
    | some trace =>
      rw [henv]
      refine Meets.bind (R := fun _ s => (s.globals.entry j.q).len = t.len ∧
        s.globals.queueFiles.lookup j.fname = some t.content) ?_ fun _ => ?_
      · exact (meets_writeTrimmed hcreate t.content trace).of_pre
          fun s (hs : InTime j (false, t) s) => hs.1
      · exact Meets.pure fun s hs => ⟨rfl, hs.1, fun _ _ => hs.2⟩

/-- The variables of `trim_case` at the first turn of the outer loop. -/
def trimStart (inBuf target : List U8) : Trim.State mapSize where
  inBuf
  len := inBuf.length
  lenP2 := nextP2 inBuf.length
  removeLen := max (nextP2 inBuf.length / TRIM_START_STEPS) TRIM_MIN_BYTES
  target

include hcreate henv

/-- The stage of the session returns what `trim_case` leaves, writes the length to the entry, and
replaces its file if something was removed. -/
theorem trimCase_follows {file target : List U8} (hcksum : env.cksum orig = j.cksum)
    (hanswers : Answered w env j.cksum budget j.clock (trimStart orig target))
    {result : Trim.Result mapSize}
    (hrun : Trim.trimCase env j.cksum orig file target budget = some result) :
    Returning (fun s => AtClock j 0 orig.length s ∧ s.stopSoon = false)
      (Session.trimCase w j.q orig) (EndsAs j result) := by
  unfold Trim.trimCase at hrun
  unfold Session.trimCase
  dsimp only at hrun ⊢
  by_cases hshort : orig.length < 5
  · rw [if_pos hshort] at hrun ⊢
    cases hrun
    refine Meets.pure fun s hs => ⟨?_, hs.1.len, nofun⟩
    exact congrArg (Prod.mk Fault.none) List.take_length.symm
  · rw [if_neg hshort] at hrun ⊢
    obtain ⟨lenP2, hp2, hrest⟩ := Option.bind_eq_some_iff.mp hrun
    obtain ⟨⟨abort, t⟩, hloops, hresult⟩ := Option.bind_eq_some_iff.mp hrest
    obtain ⟨rfl, hpow⟩ := (ends_nextP2 (by omega) (by omega)).of_eq_some hp2
    cases hresult
    have hfour : TRIM_MIN_BYTES = 4 := rfl
    have hsixteenth : nextP2 orig.length / TRIM_START_STEPS = nextP2 orig.length / 16 := rfl
    have hsteps : InSteps env j.cksum orig (trimStart orig target) :=
      ⟨kept_start (by omega) hcksum, by
        show max (nextP2 orig.length / TRIM_START_STEPS) TRIM_MIN_BYTES ≤ orig.length
        omega⟩
    have hvars : varsOf (trimStart orig target : Trim.State mapSize)
        = { buf := orig, lenP2 := nextP2 orig.length } := by
      unfold varsOf Trim.State.content trimStart
      rw [List.take_length]
    refine Meets.bind_of_fact (φ := fun out => out = (abort, varsOf t))
      (R := InTime j (abort, t)) ?_ ?_
    · rw [← hvars]
      exact (meets_trimPasses hhash hsmall hsteps hloops hanswers (Nat.le_refl _)).of_pre
        fun s hs => ⟨hs.1, fun _ => hs.2⟩
    · rintro _ rfl
      exact meets_finish hcreate henv

end Stage

end TriforceAFL.Proofs
