import TriforceAFL.Proofs.Favored
import TriforceAFL.Spec.Havoc

/-!
# `TriforceAFL.Proofs.QueueSeek`: finding a queue entry by its number

`fuzz_one` seeks the entry to splice with along the `next_100` links first and along `next` for the
rest. `add_to_queue` sets a `next_100` link when the number of entries, the new one included, is a
multiple of hundred. The links therefore lead from entry 0 to entries 99, 199, 299 and so on
(`SkipChain.skip`), and the first of them is one entry short. A seek to a number of hundred or more
ends at the entry before the one that was asked for (`seekTarget_eq`).
-/

set_option autoImplicit false

namespace TriforceAFL.Proofs

open Lib Spec Spec.Session

section Shape
variable {k : Nat} {s : FuzzState (8 * k)}

/-- The queue as `add_to_queue` reads and writes it. -/
def queueLinks (s : FuzzState (8 * k)) :
    List (Option Ptr × Option Ptr) × Option Ptr × Option Ptr × Option Ptr × Nat :=
  (s.entries.map fun e => (e.next, e.next100), s.queue, s.queueTop, s.qPrev100, s.queuedPaths)

/-- The states with a queue that is built by any number of `add_to_queue` calls. Between two calls,
everything but the queue itself may change. -/
inductive Built : FuzzState (8 * k) → Prop
  | start {s : FuzzState (8 * k)} : QueueStart s → Built s
  | add {s : FuzzState (8 * k)} (fname : Text) (len : Nat) (passedDet : Bool) :
      Built s → Built (addToQueue s fname len passedDet)
  | other {s s' : FuzzState (8 * k)} : Built s → queueLinks s' = queueLinks s → Built s'

/-- The entry that the `next_100` links reach after `j` steps. -/
def hub (j : Nat) : Nat := 100 * j - 1

/-- The queue with its links of both kinds. -/
structure SkipChain (s : FuzzState (8 * k)) : Prop where
  chain : Chain s
  count : s.queuedPaths = s.entries.length
  prev : s.entries ≠ [] → s.qPrev100 = some (hub (s.entries.length / 100))
  skip : ∀ j, 100 * (j + 1) ≤ s.entries.length →
    (s.entry (hub j)).next100 = some (hub (j + 1))

/-- A field of the entries that is the same in both states. -/
theorem entry_field_congr {β : Type} {s s' : FuzzState (8 * k)} {f : QueueEntry → β}
    (h : s'.entries.map f = s.entries.map f) {p : Nat} (hp : p < s.entries.length) :
    f (s'.entry p) = f (s.entry p) := by
  have hlen : s'.entries.length = s.entries.length := by simpa using congrArg List.length h
  have hget := congrArg (fun l => l[p]?) h
  simpa [FuzzState.entry, List.getD_eq_getElem?_getD, List.getElem?_eq_getElem hp,
    List.getElem?_eq_getElem (hlen ▸ hp : p < s'.entries.length)] using hget

theorem SkipChain.of_queueLinks {s s' : FuzzState (8 * k)} (hs : SkipChain s)
    (h : queueLinks s' = queueLinks s) : SkipChain s' := by
  simp only [queueLinks, Prod.mk.injEq] at h
  obtain ⟨hfields, hqueue, htop, hprev, hcount⟩ := h
  have hlen : s'.entries.length = s.entries.length := by
    simpa using congrArg List.length hfields
  have hnil : s'.entries = [] ↔ s.entries = [] := by
    rw [← List.length_eq_zero_iff, ← List.length_eq_zero_iff, hlen]
  refine ⟨⟨fun p hp => ?_, ?_, ?_⟩, ?_, fun hne => ?_, fun j hj => ?_⟩
  · rw [hlen] at hp ⊢
    rw [← hs.chain.linked p hp]
    exact congrArg Prod.fst (entry_field_congr hfields hp)
  · rw [hqueue, hs.chain.queue]
    simp only [hnil]
  · rw [htop, hs.chain.top, hlen]
    simp only [hnil]
  · rw [hcount, hs.count, hlen]
  · rw [hprev, hs.prev (mt hnil.mpr hne), hlen]
  · rw [hlen] at hj
    rw [← hs.skip j hj]
    exact congrArg Prod.snd (entry_field_congr hfields (by unfold hub; omega))

/-! ### Adding an entry -/

/-- The new entry does not touch the `next_100` links until it is linked itself. -/
theorem next100_linkTop (s : FuzzState (8 * k)) (fname : Text) (len : Nat) (passedDet : Bool)
    (q p : Nat) :
    ((linkTop (allocEntry s fname len passedDet) q).entry p).next100
      = if p = s.entries.length then none else (s.entry p).next100 := by
  have halloc : ((allocEntry s fname len passedDet).entry p).next100
      = if p = s.entries.length then none else (s.entry p).next100 := by
    rw [entry_allocEntry]
    split <;> rfl
  unfold linkTop
  split
  · refine (field_updateEntry (·.next100) ?_ p).trans halloc
    exact fun _ => rfl
  · exact halloc

theorem qPrev100_linkTop (hs : SkipChain s) (fname : Text) (len : Nat) (passedDet : Bool) :
    (linkTop (allocEntry s fname len passedDet) s.entries.length).qPrev100
      = some (hub (s.entries.length / 100)) := by
  by_cases hempty : s.entries = []
  · have htop := hs.chain.top
    rw [if_pos hempty] at htop
    have htop' : (allocEntry s fname len passedDet).queueTop = none := htop
    simp only [linkTop, htop']
    simp [hempty, hub]
  · have htop := hs.chain.top
    rw [if_neg hempty] at htop
    have htop' : (allocEntry s fname len passedDet).queueTop = some (s.entries.length - 1) := htop
    simp only [linkTop, htop']
    exact hs.prev hempty

/-- The `next_100` link that completes a hundred. -/
theorem skipChain_linkHundred {n : Nat} (hlen : s.entries.length = n + 1) (hchain : Chain s)
    (hcount : s.queuedPaths = n + 1) (hprev : s.qPrev100 = some (hub (n / 100)))
    (hskip : ∀ j, 100 * (j + 1) ≤ n → (s.entry (hub j)).next100 = some (hub (j + 1))) :
    SkipChain (linkHundred s n) := by
  have hsame := sameQueue_linkHundred s n
  have hlen' : (linkHundred s n).entries.length = n + 1 := hsame.length_eq.trans hlen
  -- the entry becomes a hub if it is the last of a hundred, that is, if its number ends in 99
  unfold linkHundred at *
  by_cases hmod : s.queuedPaths % 100 = 0
  · rw [hcount] at hmod
    simp only [hcount, hmod, if_true, hprev] at hsame hlen' ⊢
    have hdiv : (n + 1) / 100 = n / 100 + 1 := by omega
    have hn : hub (n / 100 + 1) = n := by unfold hub; omega
    refine ⟨hsame.chain hchain, hcount.trans hlen'.symm, fun _ => ?_, fun j hj => ?_⟩
    · rw [hlen', hdiv, hn]
    · rw [hlen'] at hj
      show ((s.updateEntry (hub (n / 100)) _).entry (hub j)).next100 = _
      by_cases hlast : j = n / 100
      · -- the link that is set now
        subst hlast
        rw [entry_updateEntry_self (by rw [hlen]; unfold hub; omega), hn]
      · have hne : hub j ≠ hub (n / 100) := by unfold hub; omega
        rw [entry_updateEntry_of_ne hne]
        exact hskip j (by omega)
  · rw [hcount] at hmod
    simp only [hcount, hmod, if_false] at hsame hlen' ⊢
    have hdiv : (n + 1) / 100 = n / 100 := by omega
    refine ⟨hchain, hcount.trans hlen.symm, fun _ => ?_, fun j hj => hskip j (by omega)⟩
    rw [hlen, hdiv]
    exact hprev

theorem SkipChain.add (hs : SkipChain s) (fname : Text) (len : Nat) (passedDet : Bool) :
    SkipChain (addToQueue s fname len passedDet) := by
  have happ := appended_linkTop s fname len passedDet s.entries.length
  have hchain := chain_linkTop hs.chain fname len passedDet
  have hprev := qPrev100_linkTop hs fname len passedDet
  have hnext := next100_linkTop s fname len passedDet s.entries.length
  have hcount : (linkTop (allocEntry s fname len passedDet) s.entries.length).queuedPaths
      = s.entries.length := by
    unfold linkTop
    split <;> exact hs.count
  unfold addToQueue
  dsimp only
  -- all that is needed of the queue with the new entry is in the facts above
  generalize linkTop (allocEntry s fname len passedDet) s.entries.length = t at *
  refine skipChain_linkHundred (s := { t with
    queuedPaths := t.queuedPaths + 1
    pendingNotFuzzed := t.pendingNotFuzzed + 1
    cyclesWoFinds := 0 }) happ.length ⟨hchain.1, hchain.2, hchain.3⟩ ?_ hprev fun j hj => ?_
  · rw [hcount]
  · show (t.entry (hub j)).next100 = _
    rw [hnext, if_neg (by unfold hub; omega)]
    exact hs.skip j hj

/-- Every queue that `add_to_queue` builds has its links in place. -/
theorem Built.skipChain (h : Built s) : SkipChain s := by
  induction h with
  | start h =>
    obtain ⟨dumbMode, rfl⟩ := h
    exact ⟨⟨fun p hp => absurd hp (Nat.not_lt_zero p), rfl, rfl⟩, rfl, fun hne => absurd rfl hne,
      fun j hj => absurd hj (by simp)⟩
  | add fname len passedDet _ ih => exact ih.add fname len passedDet
  | other _ hlinks ih => exact ih.of_queueLinks hlinks

end Shape

/-! ### The walk to an entry -/

section Walk
variable {k : Nat} {g : FuzzState (8 * k)}

/-- Steps along `next`. -/
theorem follow_next (hg : SkipChain g) (n : Nat) {p : Nat} (hp : p + n < g.entries.length) :
    follow (·.next) g n (some p) = pure (some (p + n)) := by
  induction n generalizing p with
  | zero => rfl
  | succ n ih =>
    have hnext : (g.entry p).next = some (p + 1) := by
      have hlink := hg.chain.linked p (by omega)
      rwa [if_pos (by omega)] at hlink
    rw [follow, hnext, ih (by omega)]
    congr 2
    omega

/-- Steps along `next_100`, from one hub to another. -/
theorem follow_next100 (hg : SkipChain g) (n : Nat) {j : Nat}
    (hj : 100 * (j + n) ≤ g.entries.length) :
    follow (·.next100) g n (some (hub j)) = pure (some (hub (j + n))) := by
  induction n generalizing j with
  | zero => rfl
  | succ n ih =>
    rw [follow, hg.skip j (by omega), ih (by omega)]
    congr 3
    omega

theorem pure_injective {α : Type} {a b : α} (h : (pure a : Fuzz (8 * k) α) = pure b) : a = b := by
  have hrun := congrFun h { globals := {} }
  exact Except.ok.inj (congrArg Run.result hrun)

/-- Where a seek ends. -/
theorem seekTarget_eq (hg : SkipChain g) {tid : Nat} (htid : tid < g.queuedPaths) :
    seekTarget g tid = pure (some (if tid < 100 then tid else tid - 1)) := by
  have hlen := hg.count
  have hqueue : g.queue = some (hub 0) := by
    have hne : g.entries ≠ [] := by
      rw [← List.length_pos_iff]
      omega
    rw [hg.chain.queue, if_neg hne]
    rfl
  -- tid / 100 links lead to the hub that is one entry short, unless it is entry 0 itself
  have hskip := follow_next100 hg (tid / 100) (j := 0) (by omega)
  have hwalk := follow_next hg (tid % 100) (p := hub (tid / 100)) (by unfold hub; omega)
  have hpos : hub (tid / 100) + tid % 100 = if tid < 100 then tid else tid - 1 := by
    unfold hub
    split <;> omega
  rw [seekTarget, hqueue, hskip, Nat.zero_add]
  show follow (·.next) g (tid % 100) (some (hub (tid / 100))) = _
  rw [hwalk, hpos]

/-- The entries that are passed over are counted: the number that is recorded grows with the
position. -/
theorem skipTargets_spec (hg : SkipChain g) (queueCur : Ptr) (fuel : Nat) {p p' : Nat} {n n' : Int}
    (hp : p < g.entries.length) (h : skipTargets g queueCur fuel (some p) n = (some p', n')) :
    n' - p' = n - p := by
  induction fuel generalizing p n with
  | zero =>
    obtain ⟨rfl, rfl⟩ : p = p' ∧ n = n' := by simpa [skipTargets] using h
    rfl
  | succ fuel ih =>
    unfold skipTargets at h
    split at h
    · have hlink := hg.chain.linked p hp
      change (g.entry p).next = _ at hlink
      by_cases hlast : p + 1 < g.entries.length
      · rw [hlink, if_pos hlast] at h
        have hrec := ih hlast h
        push_cast at hrec
        omega
      · -- the last entry is passed over, and there is no target
        rw [hlink, if_neg hlast] at h
        cases fuel <;> simp [skipTargets] at h
    · obtain ⟨rfl, rfl⟩ : p = p' ∧ n = n' := by simpa using h
      rfl

/-- Seeking by number is exact: the walk ends at the entry that `tid` steps along `next` lead to,
which is entry `tid`, and the number recorded as `splicing_with` is that of the entry used. -/
def SeeksExactly (g : FuzzState (8 * k)) (tid : Nat) : Prop :=
  seekTarget g tid = follow (·.next) g tid g.queue ∧
    seekTarget g tid = pure (some tid) ∧
    ∀ queueCur target p n, seekTarget g tid = pure target →
      skipTargets g queueCur g.entries.length target tid = (some p, n) → n = (p : Int)

/-- A seek is exact if and only if the number is below hundred. -/
theorem seek_exact_iff {g : FuzzState (8 * k)} (hg : Built g) {tid : Nat}
    (htid : tid < g.queuedPaths) : SeeksExactly g tid ↔ tid < 100 := by
  have hchain := hg.skipChain
  have hseek := seekTarget_eq hchain htid
  have hlen := hchain.count
  have hqueue : g.queue = some 0 := by
    have hne : g.entries ≠ [] := by
      rw [← List.length_pos_iff]
      omega
    rw [hchain.chain.queue, if_neg hne]
  have hall := follow_next hchain tid (p := 0) (by omega)
  constructor
  · rintro ⟨-, hexact, -⟩
    by_contra hge
    rw [hseek, if_neg hge] at hexact
    have hpos : tid - 1 = tid := Option.some.inj (pure_injective hexact)
    omega
  · intro hlt
    rw [if_pos hlt] at hseek
    refine ⟨?_, hseek, fun queueCur target p n htarget hskip => ?_⟩
    · rw [hseek, hqueue, hall, Nat.zero_add]
    · obtain rfl := pure_injective (hseek.symm.trans htarget)
      have hspec := skipTargets_spec hchain queueCur _ (by omega) hskip
      omega

/-- A queue of `n` test cases of four bytes. -/
def queueOf : Nat → FuzzState (8 * 1)
  | 0 => {}
  | n + 1 => addToQueue (queueOf n) [] 4 false

theorem built_queueOf (n : Nat) : Built (queueOf n) := by
  induction n with
  | zero => exact Built.start ⟨false, rfl⟩
  | succ n ih => exact ih.add [] 4 false

theorem seek_exact_iff_three : SeeksExactly (queueOf 5) 3 :=
  (seek_exact_iff (built_queueOf 5) (by decide +kernel)).mpr (by decide)

/-- In a queue of 101 entries, a seek to the last one, entry 100, ends at entry 99. -/
theorem seek_hundred : 100 < (queueOf 101).queuedPaths ∧
    seekTarget (queueOf 101) 100 = pure (some 99) ∧ ¬ SeeksExactly (queueOf 101) 100 := by
  have hlt : 100 < (queueOf 101).queuedPaths := by decide +kernel
  have hseek : seekTarget (queueOf 101) 100 = pure (some 99) :=
    seekTarget_eq (built_queueOf 101).skipChain hlt
  refine ⟨hlt, hseek, fun hexact => ?_⟩
  have hpos : 99 = 100 := Option.some.inj (pure_injective (hseek.symm.trans hexact.2.1))
  omega

end Walk

end TriforceAFL.Proofs
