import TriforceAFL.Spec.Queue

/-!
# `TriforceAFL.Proofs.QueueHeap`: reading and writing queue entries

Lemmas about the heap of queue entries: what an entry is after a write through a pointer, how a
write changes the number of entries with a property, and that a walk along `next` visits every
entry once. `Linked` is the shape of the list that `add_to_queue` builds: entry `p` points to entry
`p + 1`.
-/

set_option autoImplicit false

namespace TriforceAFL.Proofs

open Spec

section Heap
variable {m : Nat} {f : QueueEntry → QueueEntry} {s : FuzzState m} {p : Nat}

/-- The entries after a write through `p`. -/
theorem entry_updateEntry (s : FuzzState m) (p : Nat) (f : QueueEntry → QueueEntry) (r : Nat) :
    (s.updateEntry p f).entry r =
      if r = p ∧ p < s.entries.length then f (s.entry p) else s.entry r := by
  unfold FuzzState.entry FuzzState.updateEntry
  simp only [List.getD_eq_getElem?_getD, List.getElem?_modify]
  by_cases hr : r = p
  · subst hr
    by_cases hlt : r < s.entries.length
    · simp [hlt]
    · simp [hlt]
  · have hne : p ≠ r := fun h => hr h.symm
    simp [hr, hne]

theorem entry_updateEntry_self (hp : p < s.entries.length) :
    (s.updateEntry p f).entry p = f (s.entry p) := by
  rw [entry_updateEntry, if_pos ⟨rfl, hp⟩]

theorem entry_updateEntry_of_ne {p r : Nat} (hr : r ≠ p) :
    (s.updateEntry p f).entry r = s.entry r := by
  rw [entry_updateEntry, if_neg fun h => hr h.1]

/-- A write keeps a field that the function keeps. -/
theorem field_updateEntry {β : Type} (field : QueueEntry → β) (hf : ∀ e, field (f e) = field e)
    (r : Nat) :
    field ((s.updateEntry p f).entry r) = field (s.entry r) := by
  rw [entry_updateEntry]
  split
  · rename_i h
    rw [hf, h.1]
  · rfl

@[simp] theorem length_updateEntry (s : FuzzState m) (p : Nat) (f : QueueEntry → QueueEntry) :
    (s.updateEntry p f).entries.length = s.entries.length := by
  simp [FuzzState.updateEntry]

/-- Only what is written into the one entry matters. -/
theorem updateEntry_congr {f f' : QueueEntry → QueueEntry} (hf : f (s.entry p) = f' (s.entry p)) :
    s.updateEntry p f = s.updateEntry p f' := by
  have hentries : s.entries.modify p f = s.entries.modify p f' := by
    apply List.ext_getElem?
    intro r
    rw [List.getElem?_modify, List.getElem?_modify]
    split
    · rename_i hr
      rw [FuzzState.entry, List.getD_eq_getElem?_getD, hr] at hf
      cases hget : s.entries[r]? with
      | none => rfl
      | some e =>
        rw [hget] at hf
        exact congrArg some hf
    · rfl
  rw [FuzzState.updateEntry, hentries]
  rfl

/-- A write that changes nothing. -/
theorem updateEntry_eq_self (hf : f (s.entry p) = s.entry p) :
    s.updateEntry p f = s := by
  have hid : s.updateEntry p f = s.updateEntry p id := updateEntry_congr hf
  rw [hid, FuzzState.updateEntry, List.modify_id]

/-- A write changes the number of entries with a property by what it does to the one entry. -/
theorem countP_updateEntry (s : FuzzState m) (f : QueueEntry → QueueEntry)
    (hp : p < s.entries.length) (c : QueueEntry → Bool) :
    (s.updateEntry p f).entries.countP c + (c (s.entry p)).toNat =
      s.entries.countP c + (c (f (s.entry p))).toNat := by
  have hentry : s.entry p = s.entries[p] := by
    unfold FuzzState.entry
    rw [List.getD_eq_getElem?_getD, List.getElem?_eq_getElem hp, Option.getD_some]
  have hle := List.boole_getElem_le_countP (p := c) hp
  unfold FuzzState.updateEntry
  rw [List.modify_eq_set, List.countP_set hp, hentry, List.getElem?_eq_getElem hp,
    Option.getD_some]
  cases hc : c s.entries[p] <;> rw [hc] at hle <;> cases c (f s.entries[p]) <;>
    simp only [Bool.false_eq_true, if_false, if_true, Bool.toNat_true,
      Bool.toNat_false] at hle ⊢ <;>
    omega

/-- A write that keeps a property keeps the number of entries with it. -/
theorem countP_updateEntry_same (s : FuzzState m) (p : Nat) {c : QueueEntry → Bool}
    (hc : ∀ e, c (f e) = c e) :
    (s.updateEntry p f).entries.countP c = s.entries.countP c := by
  by_cases hp : p < s.entries.length
  · have h := countP_updateEntry s f hp c
    rw [hc] at h
    omega
  · unfold FuzzState.updateEntry
    rw [List.modify_eq_self (Nat.le_of_not_lt hp)]

end Heap

/-! ### Walking along the queue -/

/-- Each entry points to the one that was allocated next. -/
def Linked (entries : List QueueEntry) : Prop :=
  ∀ p < entries.length, (entries.getD p default).next =
    if p + 1 < entries.length then some (p + 1) else none

theorem Linked.modify {entries : List QueueEntry} (h : Linked entries) (p : Nat)
    {f : QueueEntry → QueueEntry} (hf : ∀ e, (f e).next = e.next) :
    Linked (entries.modify p f) := by
  intro r hr
  rw [List.length_modify] at hr ⊢
  rw [← h r hr]
  simp only [List.getD_eq_getElem?_getD, List.getElem?_modify, List.getElem?_eq_getElem hr,
    Option.map_eq_map, Option.map_some, Option.getD_some]
  split
  · exact hf _
  · rfl

/-- The walk from `p` on applies `f` to every entry from `p` on. -/
theorem walkQueue_from {f : QueueEntry → QueueEntry} (hf : ∀ e, (f e).next = e.next) :
    ∀ (fuel : Nat) (p : Nat) (entries : List QueueEntry), Linked entries → p < entries.length →
      entries.length - p ≤ fuel →
      walkQueue f fuel (some p) entries = entries.take p ++ (entries.drop p).map f := by
  -- Induction on the fuel; each step moves on to the next entry.
  intro fuel
  induction fuel with
  | zero =>
    intro p entries _ hp hfuel
    omega
  | succ fuel ih =>
    intro p entries hlinked hp hfuel
    have hlinked' := hlinked.modify p hf
    have hnext := hlinked' p (by rwa [List.length_modify])
    rw [List.length_modify] at hnext
    rw [walkQueue, hnext]
    split
    · rename_i hlt
      rw [ih (p + 1) _ hlinked' (by rwa [List.length_modify])
        (by rw [List.length_modify]; omega)]
      -- The walk has changed entry `p` and goes on behind it.
      have hlen : (entries.take p).length = p := List.length_take_of_le (Nat.le_of_lt hp)
      have hmod := List.modify_eq_take_cons_drop (f := f) hp
      have htake : (entries.modify p f).take (p + 1) = entries.take p ++ [f entries[p]] := by
        rw [hmod, List.take_append, hlen, Nat.add_sub_cancel_left,
          List.take_of_length_le (by omega)]
        rfl
      have hdrop : (entries.modify p f).drop (p + 1) = entries.drop (p + 1) := by
        rw [hmod, List.drop_append, hlen, Nat.add_sub_cancel_left,
          List.drop_eq_nil_of_le (by omega)]
        rfl
      rw [htake, hdrop, List.drop_eq_getElem_cons hp, List.append_assoc]
      rfl
    · rename_i hlast
      have hend : p + 1 = entries.length := by omega
      have hdone : ∀ fuel l, walkQueue f fuel none l = l := by
        intro fuel l
        cases fuel <;> rfl
      rw [hdone]
      have hdrop : entries.drop p = [entries[p]] := by
        rw [List.drop_eq_getElem_cons hp, List.drop_eq_nil_of_le (by omega)]
      rw [hdrop, List.modify_eq_take_cons_drop hp, List.drop_eq_nil_of_le (by omega)]
      rfl

/-- A walk over the whole queue applies `f` to every entry. -/
theorem walkQueue_eq_map {f : QueueEntry → QueueEntry} (hf : ∀ e, (f e).next = e.next)
    {entries : List QueueEntry} {queue : Option Ptr} (hlinked : Linked entries)
    (hqueue : queue = if entries = [] then none else some 0) :
    walkQueue f entries.length queue entries = entries.map f := by
  cases entries with
  | nil => rfl
  | cons e rest =>
    rw [hqueue, if_neg (List.cons_ne_nil e rest)]
    rw [walkQueue_from hf _ 0 _ hlinked (by simp) (by simp)]
    rfl

end TriforceAFL.Proofs
