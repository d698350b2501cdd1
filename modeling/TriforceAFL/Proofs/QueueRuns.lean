import TriforceAFL.Proofs.Favored

/-!
# `TriforceAFL.Proofs.QueueRuns`: the favored counters over whole runs

The cached trace of an entry is filled once, while `update_bitmap_score` may be called again for
the same entry with another trace. `favored_counters` states that the counters are exact in every
run whose scoring calls meet `ScoreOk`, and `favored_counters_wrong` that they are not exact in
every run.
-/

set_option autoImplicit false

namespace TriforceAFL.Proofs

open Lib Spec

/-! ### One entry with two traces -/

section Rescored
variable {k : Nat}

/-- A trace in which only tuple `i` is hit. -/
def singleTrace (i : Nat) : TraceMap (8 * k) :=
  ⟨(List.replicate (8 * k) 0).set i 1, by rw [List.length_set, List.length_replicate]⟩

theorem byte_singleTrace {i : Nat} (hi : i < 8 * k) (j : Nat) :
    (singleTrace i : TraceMap (8 * k)).byte j = if j = i then 1 else 0 := by
  show byteOf ((List.replicate (8 * k) 0).set i 1) j = _
  rw [byteOf_set _ _ _ _ (by rwa [List.length_replicate])]
  split
  · rfl
  · unfold byteOf
    rw [List.getD_eq_getElem?_getD, List.getElem?_replicate]
    split <;> rfl

/-- Scoring with such a trace gives the entry that slot when nobody owns it, and nothing else. -/
theorem score_singleTrace {s : FuzzState (8 * k)} {i : Nat} (hi : i < 8 * k)
    (hfree : slot s i = none) (q : Nat) :
    (QueueOp.score q (singleTrace i)).apply s =
      winSlot { s with traceBits := singleTrace i } q i := by
  show updateBitmapScore { s with traceBits := singleTrace i } q = _
  have hslot : slot { s with traceBits := singleTrace i } i = none := hfree
  have htrace : ({ s with traceBits := singleTrace i } : FuzzState (8 * k)).traceBits =
    singleTrace i := rfl
  generalize ({ s with traceBits := singleTrace i } : FuzzState (8 * k)) = t at hslot htrace ⊢
  have hidle : ∀ j, j ≠ i → ∀ u : FuzzState (8 * k), u.traceBits = singleTrace i →
      scoreSlot q (favFactor (t.entry q)) u j = u := by
    intro j hj u hu
    unfold scoreSlot
    rw [if_pos]
    rw [hu, byte_singleTrace hi, if_neg hj]
  have hwin : scoreSlot q (favFactor (t.entry q)) t i = winSlot t q i := by
    unfold scoreSlot
    unfold slot at hslot
    rw [if_neg, hslot]
    rw [htrace, byte_singleTrace hi, if_pos rfl]
    decide
  -- Before turn `i` the state is `t`, and after it `winSlot t q i`.
  have hloop := foldl_range_induct (n := 8 * k) (f := scoreSlot q (favFactor (t.entry q))) (s := t)
    (P := fun n u => u = if i < n then winSlot t q i else t) (if_neg (Nat.not_lt_zero i)).symm
    (fun n _ u hu => by
      subst hu
      rcases Nat.lt_trichotomy n i with hlt | rfl | hgt
      · rw [if_neg (by omega), if_neg (by omega), hidle n (by omega) t htrace]
      · rw [if_neg (by omega), if_pos (by omega), hwin]
      · rw [if_pos (by omega), if_pos (by omega)]
        exact hidle n (by omega) _ htrace)
  rw [if_pos hi] at hloop
  exact hloop

/-- The first entry of a run. -/
def oneEntry : FuzzState (8 * k) := addToQueue {} [] 1 false

/-- It is scored with tuple 0. -/
def scoredOnce : FuzzState (8 * k) :=
  (QueueOp.score 0 (singleTrace 0)).apply oneEntry

/-- It is scored again, with tuple 1. -/
def scoredTwice : FuzzState (8 * k) :=
  (QueueOp.score 0 (singleTrace 1)).apply scoredOnce

theorem slot_oneEntry (i : Nat) : slot (oneEntry : FuzzState (8 * k)) i = none := by
  show (List.replicate (8 * k) (none : Option Ptr)).getD i none = none
  rw [List.getD_eq_getElem?_getD, List.getElem?_replicate]
  split <;> rfl

theorem scoredOnce_eq (hk : 0 < k) : (scoredOnce : FuzzState (8 * k)) =
    winSlot { oneEntry with traceBits := singleTrace 0 } 0 0 :=
  score_singleTrace (by omega) (slot_oneEntry 0) 0

theorem slot_scoredOnce (hk : 0 < k) (i : Nat) :
    slot (scoredOnce : FuzzState (8 * k)) i = if i = 0 then some 0 else none := by
  rw [scoredOnce_eq hk, slot_winSlot]
  · split
    · rfl
    · exact slot_oneEntry i
  · show 0 < (List.replicate (8 * k) (none : Option Ptr)).length
    rw [List.length_replicate]
    omega

theorem scoredTwice_eq (hk : 0 < k) : (scoredTwice : FuzzState (8 * k)) =
    winSlot { (scoredOnce : FuzzState (8 * k)) with traceBits := singleTrace 1 } 0 1 :=
  score_singleTrace (by omega) (slot_scoredOnce hk 1) 0

theorem slot_scoredTwice (hk : 0 < k) (i : Nat) :
    slot (scoredTwice : FuzzState (8 * k)) i = if i < 2 then some 0 else none := by
  have hlen : 1 < ({ (scoredOnce : FuzzState (8 * k)) with
      traceBits := singleTrace 1 } : FuzzState (8 * k)).topRated.length := by
    rw [scoredOnce_eq hk]
    show 1 < ((List.replicate (8 * k) (none : Option Ptr)).set 0 (some 0)).length
    rw [List.length_set, List.length_replicate]
    omega
  rw [scoredTwice_eq hk, slot_winSlot _ _ hlen]
  change (if i = 1 then some 0 else slot (scoredOnce : FuzzState (8 * k)) i) = _
  rw [slot_scoredOnce hk]
  rcases i with _ | _ | i <;> rfl

/-- The entry keeps the trace of the first call. -/
theorem entries_scoredTwice (hk : 0 < k) : ∃ e : QueueEntry,
    (scoredTwice : FuzzState (8 * k)).entries = [e] ∧
      e.traceMini = some (minimizeBits (singleTrace 0 : TraceMap (8 * k))) := by
  rw [scoredTwice_eq hk, scoredOnce_eq hk]
  exact ⟨_, rfl, rfl⟩

/-- The owner of a slot whose bit is left is picked. -/
theorem cullSlot_eq_pick {t : List U8 × FuzzState (8 * k)} {i p : Nat}
    (hslot : slot t.2 i = some p) (hbit : miniBit t.1 i = true) : cullSlot t i = pick t p := by
  unfold cullSlot
  unfold slot at hslot
  rw [hslot]
  dsimp only
  rw [if_pos hbit]
  rfl

/-- The selection loop picks the entry at slot 0 and, since the cached trace has no tuple 1, once
more at slot 1. -/
theorem selection_rescored {s : FuzzState (8 * k)} {e : QueueEntry} (hk : 0 < k)
    (hentries : s.entries = [e])
    (hslots : ∀ i, slot s i = if i < 2 then some 0 else none)
    (hmini : e.traceMini = some (minimizeBits (singleTrace 0 : TraceMap (8 * k)))) :
    (List.range (8 * k)).foldl cullSlot (List.replicate k 0xff, clearFavored s) =
      pick (pick (List.replicate k 0xff, clearFavored s) 0) 0 := by
  have htwo : (List.range (8 * k)).foldl cullSlot (List.replicate k 0xff, clearFavored s) =
      (List.range 2).foldl cullSlot (List.replicate k 0xff, clearFavored s) := by
    refine foldl_range_idle (P := fun t => t.2.topRated = s.topRated) (by omega) rfl
      (fun t i ht => ?_) fun t i ht hi => ?_
    · unfold cullSlot
      split
      · split <;> exact ht
      · exact ht
    · -- Nobody owns a slot from 2 on.
      have hfree := hslots i
      unfold slot at hfree
      unfold cullSlot
      rw [ht, hfree, if_neg (by omega)]
  have hfull : ∀ i < 8, miniBit (List.replicate k 0xff) i = true := by
    intro i hi
    have hinv := ((cullInv_clearFavored s).temp i (by omega)).mpr fun p mini hfav _ => by
      rw [entry_clearFavored_favored] at hfav
      cases hfav
    exact hinv
  have hcached : ((clearFavored s).entry 0).traceMini =
      some (minimizeBits (singleTrace 0 : TraceMap (8 * k))) := by
    show ((s.entries.map fun e : QueueEntry => { e with favored := false }).getD 0
      default).traceMini = _
    rw [hentries]
    exact hmini
  -- What is left after the first pick still has bit 1.
  have hleft : miniBit (pick (List.replicate k 0xff, clearFavored s) 0).1 1 = true := by
    show miniBit (removeBits (((clearFavored s).entry 0).traceMini.getD [])
      (List.replicate k 0xff)) 1 = true
    rw [hcached, (miniBit_removeBits _ _ 1 (by rw [List.length_replicate]; omega)).2,
      hfull 1 (by omega), Bool.true_and, Bool.not_eq_true', ← Bool.not_eq_true]
    intro hset
    rw [Option.getD_some, miniBit_minimizeBits _ 1 (by omega), byte_singleTrace (by omega)] at hset
    exact hset rfl
  rw [htwo]
  show cullSlot (cullSlot (List.replicate k 0xff, clearFavored s) 0) 1 = _
  have hfirst : cullSlot (List.replicate k 0xff, clearFavored s) 0 =
      pick (List.replicate k 0xff, clearFavored s) 0 :=
    cullSlot_eq_pick (hslots 0) (hfull 0 (by omega))
  rw [hfirst]
  exact cullSlot_eq_pick (hslots 1) hleft

/-- Recomputing counts two favored entries where there is one. -/
theorem recomputeFavored_rescored {s : FuzzState (8 * k)} {e : QueueEntry} (hk : 0 < k)
    (hentries : s.entries = [e]) (hqueue : s.queue = some 0)
    (hslots : ∀ i, slot s i = if i < 2 then some 0 else none)
    (hmini : e.traceMini = some (minimizeBits (singleTrace 0 : TraceMap (8 * k)))) :
    (recomputeFavored s).queuedFavored = 2 ∧ favoredCount (recomputeFavored s) = 1 := by
  have hwalk : walkQueue (fun e => { e with favored := false }) s.entries.length s.queue s.entries =
      s.entries.map fun e => { e with favored := false } := by
    rw [hentries, hqueue]
    rfl
  unfold recomputeFavored
  dsimp only
  rw [hwalk, shiftRight_three]
  change ((List.range (8 * k)).foldl cullSlot
    (List.replicate k 0xff, clearFavored s)).2.queuedFavored
    = 2 ∧ List.countP _ (walkQueue _
      ((List.range (8 * k)).foldl cullSlot (List.replicate k 0xff, clearFavored s)).2.entries.length
      ((List.range (8 * k)).foldl cullSlot (List.replicate k 0xff, clearFavored s)).2.queue
      ((List.range (8 * k)).foldl cullSlot (List.replicate k 0xff, clearFavored s)).2.entries) = 1
  rw [selection_rescored hk hentries hslots hmini]
  refine ⟨rfl, ?_⟩
  have hone : (pick (pick (List.replicate k 0xff, clearFavored s) 0) 0).2.entries =
      [{ e with favored := true }] := by
    show ((s.entries.map fun e : QueueEntry => { e with favored := false }).modify 0
      (fun e => { e with favored := true })).modify 0 (fun e => { e with favored := true }) = _
    rw [hentries]
    rfl
  have hstart : (pick (pick (List.replicate k 0xff, clearFavored s) 0) 0).2.queue = some 0 := hqueue
  rw [hone, hstart]
  rfl

/-- A run of three calls after which `cull_queue` counts wrong. -/
theorem scoredTwice_miscounted (hk : 0 < k) :
    Reachable QueueStart QueueStep (scoredTwice : FuzzState (8 * k)) ∧
      cullRecomputes (scoredTwice : FuzzState (8 * k)) = true ∧
      (cullQueue (scoredTwice : FuzzState (8 * k))).queuedFavored = 2 ∧
      favoredCount (cullQueue (scoredTwice : FuzzState (8 * k))) = 1 := by
  have hstart : Reachable QueueStart QueueStep (oneEntry : FuzzState (8 * k)) :=
    .step (.init ⟨false, rfl⟩) ⟨.add [] 1 false, trivial, rfl⟩
  have hone : Reachable QueueStart QueueStep (scoredOnce : FuzzState (8 * k)) :=
    .step hstart ⟨.score 0 (singleTrace 0), Nat.zero_lt_one, rfl⟩
  have htwo : Reachable QueueStart QueueStep (scoredTwice : FuzzState (8 * k)) := by
    refine .step hone ⟨.score 0 (singleTrace 1), ?_, rfl⟩
    rw [scoredOnce_eq hk]
    exact Nat.zero_lt_one
  obtain ⟨e, hentries, hmini⟩ := entries_scoredTwice hk
  have hqueue : (scoredTwice : FuzzState (8 * k)).queue = some 0 := by
    rw [scoredTwice_eq hk, scoredOnce_eq hk]
    rfl
  have hrec : cullRecomputes (scoredTwice : FuzzState (8 * k)) = true := by
    rw [scoredTwice_eq hk, scoredOnce_eq hk]
    rfl
  refine ⟨htwo, hrec, ?_⟩
  unfold cullQueue
  rw [if_pos hrec]
  exact recomputeFavored_rescored hk hentries hqueue (slot_scoredTwice hk) hmini

end Rescored

/-! ### Runs with scoring calls that keep the cover -/

section Runs
variable {k : Nat}

/-- The condition on a call: a scoring call meets `ScoreOk` in the state before it. -/
def CallOk (s : FuzzState (8 * k)) : QueueOp (8 * k) → Prop
  | .score q trace => ScoreOk { s with traceBits := trace } q
  | _ => True

/-- A call that meets its condition. -/
def SafeStep (s s' : FuzzState (8 * k)) : Prop :=
  ∃ op : QueueOp (8 * k), op.Valid s ∧ CallOk s op ∧ op.apply s = s'

theorem QueueInv.step (hk : 8 * k < 2 ^ 32) {s s' : FuzzState (8 * k)} (h : QueueInv s)
    (hstep : SafeStep s s') : QueueInv s' := by
  obtain ⟨op, hvalid, hok, rfl⟩ := hstep
  cases op with
  | add fname len passedDet => exact h.add fname len passedDet
  | measure q execUs len calFailed => exact h.measure q execUs len calFailed
  | score q trace => exact h.score hvalid trace hok
  | cull => exact h.cull hk
  | finish q stopSoon => exact h.finish hvalid stopSoon

theorem QueueInv.reachable (hk : 8 * k < 2 ^ 32) {s : FuzzState (8 * k)}
    (h : Reachable QueueStart SafeStep s) : QueueInv s := by
  refine h.invariant (fun s hs => ?_) fun s s' hs hstep => hs.step hk hstep
  obtain ⟨dumbMode, rfl⟩ := hs
  exact QueueInv.init dumbMode

/-- In every run whose scoring calls meet `ScoreOk`, `pending_favored` is exact in every state, and
`queued_favored` is exact after every `cull_queue` that recomputes the set. -/
theorem favored_counters (hk : 8 * k < 2 ^ 32) {s : FuzzState (8 * k)}
    (h : Reachable QueueStart SafeStep s) :
    s.pendingFavored.toNat = pendingFavoredCount s ∧
      (cullRecomputes s = true →
        (cullQueue s).queuedFavored = favoredCount (cullQueue s)) := by
  have hinv := QueueInv.reachable hk h
  refine ⟨hinv.pending, fun hrec => ?_⟩
  unfold cullQueue
  rw [if_pos hrec]
  exact (recomputeFavored_spec hk hinv.chain hinv.refs hinv.cover).2.1

end Runs

/-- Two entries of a map of eight bytes. -/
def twoEntries : FuzzState (8 * 1) :=
  addToQueue (addToQueue {} "a".toList 4 false) "b".toList 2 false

/-- The traces that they are scored with. They have tuple 1 in common. -/
def firstTrace : TraceMap (8 * 1) := ⟨[1, 8, 0, 0, 0, 0, 0, 0], rfl⟩

@[inherit_doc firstTrace] def secondTrace : TraceMap (8 * 1) := ⟨[0, 1, 4, 0, 0, 0, 0, 0], rfl⟩

/-- Both are scored. The second entry takes tuple 1 from the first. -/
def bothScored (s : FuzzState (8 * 1)) : FuzzState (8 * 1) :=
  (QueueOp.score 1 secondTrace).apply ((QueueOp.score 0 firstTrace).apply s)

/-- A run of four calls. -/
theorem favored_counters_bothScored :
    let s := bothScored twoEntries
    s.pendingFavored.toNat = pendingFavoredCount s ∧
      (cullQueue s).queuedFavored = favoredCount (cullQueue s) := by
  intro s
  have hadd : Reachable QueueStart SafeStep twoEntries :=
    .step (.step (.init ⟨false, rfl⟩) ⟨.add "a".toList 4 false, trivial, trivial, rfl⟩)
      ⟨.add "b".toList 2 false, trivial, trivial, rfl⟩
  -- An entry that was not scored before has no cached trace.
  have hfirst : Reachable QueueStart SafeStep ((QueueOp.score 0 firstTrace).apply twoEntries) :=
    .step hadd ⟨.score 0 firstTrace, Nat.two_pos, nofun, rfl⟩
  have hnone : (((QueueOp.score 0 firstTrace).apply twoEntries).entry 1).traceMini = none := by
    decide +kernel
  have hrun : Reachable QueueStart SafeStep s :=
    .step hfirst ⟨.score 1 secondTrace, Nat.one_lt_two,
      fun _ hmini => absurd (hnone.symm.trans hmini) nofun, rfl⟩
  exact (favored_counters (by decide) hrun).imp_right fun hqueued => hqueued (by decide +kernel)

/-- The counters are not exact in every run of the fuzzer: an entry that is scored with two traces
is counted twice. -/
theorem favored_counters_wrong :
    ¬ ∀ s : FuzzState MAP_SIZE, Reachable QueueStart QueueStep s →
      s.pendingFavored.toNat = pendingFavoredCount s ∧
        (cullRecomputes s = true →
          (cullQueue s).queuedFavored = favoredCount (cullQueue s)) := by
  intro hall
  have hsize : MAP_SIZE = 8 * 2 ^ 18 := by decide
  rw [hsize] at hall
  obtain ⟨hreach, hrec, hqueued, hcount⟩ := scoredTwice_miscounted (k := 2 ^ 18) (by decide)
  have hwrong := (hall scoredTwice hreach).2 hrec
  rw [hqueued, hcount] at hwrong
  cases hwrong

end TriforceAFL.Proofs
