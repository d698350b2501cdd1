import TriforceAFL.Proofs.QueueHeap
import TriforceAFL.Spec.RedundantEdges

/-!
# `TriforceAFL.Proofs.QueueFields`: which fields of the entries a call leaves alone

Every function that works on the queue writes a few fields of some entries. `fields g s` lists the
part `g` of every entry, in allocation order. The lemmas say that a call leaves this list as it is
when `g` does not look at the fields that the call writes, or, for `add_to_queue`, what it appends.
Facts about other fields then need no proof per function.
-/

set_option autoImplicit false

namespace TriforceAFL.Proofs

open Spec

section Fields
variable {m : Nat} {β : Type} {g : QueueEntry → β} {s s' : FuzzState m}

/-- The part `g` of every entry. -/
def fields (g : QueueEntry → β) (s : FuzzState m) : List β := s.entries.map g

theorem length_fields (g : QueueEntry → β) (s : FuzzState m) :
    (fields g s).length = s.entries.length := List.length_map g

/-- States with the same fields agree entry by entry. -/
theorem field_eq_of_fields_eq (h : fields g s' = fields g s) (p : Nat) :
    g (s'.entry p) = g (s.entry p) := by
  have hp := congrArg (fun l => l[p]?.getD (g default)) h
  simp only [fields, List.getElem?_map] at hp
  simp only [FuzzState.entry, List.getD_eq_getElem?_getD]
  cases hs : s.entries[p]? <;> cases hs' : s'.entries[p]? <;> rw [hs, hs'] at hp <;> exact hp

theorem getElem?_fields {s : FuzzState m} {p : Nat} (hp : p < s.entries.length) :
    (fields g s)[p]? = some (g (s.entry p)) := by
  rw [fields, List.getElem?_map, FuzzState.entry, List.getD_eq_getElem?_getD,
    List.getElem?_eq_getElem hp, Option.getD_some, Option.map_some]

/-- The fields are those of the entries that pointers lead to. -/
theorem mem_fields {s : FuzzState m} {x : β} :
    x ∈ fields g s ↔ ∃ p < s.entries.length, g (s.entry p) = x := by
  rw [List.mem_iff_getElem?]
  constructor
  · rintro ⟨p, hp⟩
    have hlt : p < s.entries.length := by
      rw [← length_fields g s]
      exact (List.getElem?_eq_some_iff.mp hp).1
    rw [getElem?_fields hlt] at hp
    exact ⟨p, hlt, Option.some.inj hp⟩
  · rintro ⟨p, hp, rfl⟩
    exact ⟨p, getElem?_fields hp⟩

theorem length_eq_of_fields_eq (h : fields g s' = fields g s) :
    s'.entries.length = s.entries.length := by
  rw [← length_fields g s', h, length_fields]

/-- What an entry is after one more was appended. -/
theorem field_of_fields_append {x : β} (h : fields g s' = fields g s ++ [x]) {p : Nat}
    (hp : p ≤ s.entries.length) :
    g (s'.entry p) = if p = s.entries.length then x else g (s.entry p) := by
  have hget := congrArg (fun l => l[p]?) h
  simp only [fields, List.getElem?_map] at hget
  split
  · rename_i hlast
    rw [hlast, List.getElem?_append_right (by simp)] at hget
    simp only [List.length_map, Nat.sub_self, List.getElem?_cons_zero,
      Option.map_eq_some_iff] at hget
    obtain ⟨e, he, hge⟩ := hget
    rw [← hge, FuzzState.entry, List.getD_eq_getElem?_getD, hlast, he, Option.getD_some]
  · have hlt : p < s.entries.length := by omega
    rw [List.getElem?_append_left (by simpa using hlt), List.getElem?_map,
      List.getElem?_eq_getElem hlt, Option.map_some, Option.map_eq_some_iff] at hget
    obtain ⟨e, he, hge⟩ := hget
    simp only [FuzzState.entry, List.getD_eq_getElem?_getD, he, List.getElem?_eq_getElem hlt,
      Option.getD_some, hge]

/-- So do the numbers of entries with a property of those fields. -/
theorem countP_eq_of_fields_eq (h : fields g s' = fields g s) (c : β → Bool) :
    s'.entries.countP (c ∘ g) = s.entries.countP (c ∘ g) := by
  rw [← List.countP_map, ← List.countP_map]
  exact congrArg (List.countP c) h

theorem map_modify_same {l : List QueueEntry} {p : Nat} {f : QueueEntry → QueueEntry}
    (hf : ∀ e, g (f e) = g e) : (l.modify p f).map g = l.map g := by
  apply List.ext_getElem?
  intro r
  simp only [List.getElem?_map, List.getElem?_modify]
  split
  · cases l[r]? with
    | none => rfl
    | some e => simp [hf]
  · simp

theorem fields_updateEntry (s : FuzzState m) (p : Nat) {f : QueueEntry → QueueEntry}
    (hf : ∀ e, g (f e) = g e) : fields g (s.updateEntry p f) = fields g s :=
  map_modify_same hf

/-- A write that the field does see. -/
theorem fields_updateEntry_set {s : FuzzState m} {p : Nat} (hp : p < s.entries.length)
    (f : QueueEntry → QueueEntry) :
    fields g (s.updateEntry p f) = (fields g s).set p (g (f (s.entry p))) := by
  apply List.ext_getElem?
  intro r
  simp only [fields, FuzzState.updateEntry, List.getElem?_map, List.getElem?_modify,
    List.getElem?_set]
  split
  · rename_i heq
    subst heq
    rw [List.length_map, if_pos hp, FuzzState.entry, List.getD_eq_getElem?_getD,
      List.getElem?_eq_getElem hp]
    simp
  · simp

/-! ### Scoring and culling -/

theorem fields_scoreSlot (hg : ∀ e r mini, g { e with tcRef := r, traceMini := mini } = g e)
    (q fav : Nat) (s : FuzzState m) (i : Nat) :
    fields g (scoreSlot q fav s i) = fields g s := by
  have hwin : ∀ t : FuzzState m, fields g (winSlot t q i) = fields g t := by
    intro t
    exact fields_updateEntry t q fun e => hg e _ _
  unfold scoreSlot
  split
  · rfl
  · split
    · split
      · rfl
      · exact (hwin _).trans (fields_updateEntry s _ fun e => hg e _ _)
    · exact hwin s

theorem fields_updateBitmapScore
    (hg : ∀ e r mini, g { e with tcRef := r, traceMini := mini } = g e) (s : FuzzState m)
    (q : Nat) : fields g (updateBitmapScore s q) = fields g s := by
  refine List.foldlRecOn (motive := fun t : FuzzState m => fields g t = fields g s) _ _ rfl ?_
  intro t ht i _
  exact (fields_scoreSlot hg q _ t i).trans ht

/-- Besides the entries, `update_bitmap_score` writes the slots and their flag. -/
theorem updateBitmapScore_frame (s : FuzzState m) (q : Nat) : ∃ entries topRated scoreChanged,
    updateBitmapScore s q = { s with entries, topRated, scoreChanged } := by
  refine List.foldlRecOn (motive := fun t : FuzzState m => ∃ entries topRated scoreChanged,
    t = { s with entries, topRated, scoreChanged }) _ _ ⟨_, _, _, rfl⟩ ?_
  rintro _ ⟨entries, topRated, scoreChanged, rfl⟩ i _
  unfold scoreSlot
  split
  · exact ⟨_, _, _, rfl⟩
  · split
    · split <;> exact ⟨_, _, _, rfl⟩
    · exact ⟨_, _, _, rfl⟩

theorem map_walkQueue {f : QueueEntry → QueueEntry} (hf : ∀ e, g (f e) = g e) (fuel : Nat) :
    ∀ (q : Option Ptr) (entries : List QueueEntry),
      (walkQueue f fuel q entries).map g = entries.map g := by
  induction fuel with
  | zero =>
    intro q entries
    rw [walkQueue]
  | succ fuel ih =>
    intro q entries
    cases q with
    | none => rfl
    | some p =>
      rw [walkQueue]
      exact (ih _ _).trans (map_modify_same hf)

/-- The selection loop writes `favored` only. -/
theorem fields_selection (hg : ∀ e b, g { e with favored := b } = g e) (s : FuzzState m)
    (n : Nat) : fields g (selection s n).2 = fields g s := by
  refine List.foldlRecOn
    (motive := fun t : List U8 × FuzzState m => fields g t.2 = fields g s) _ _ ?_ ?_
  · exact map_walkQueue (fun e => hg e false) _ _ _
  · intro t ht i _
    unfold cullSlot
    split
    · split
      · exact (fields_updateEntry t.2 _ fun e => hg e true).trans ht
      · exact ht
    · exact ht

theorem fields_cullQueue (hg : ∀ e b, g { e with favored := b } = g e)
    (hr : ∀ e b, g { e with fsRedundant := b } = g e) (s : FuzzState m) :
    fields g (cullQueue s) = fields g s := by
  unfold cullQueue
  split
  · show (walkQueue (fun e => { e with fsRedundant := !e.favored }) (selection s m).2.entries.length
      (selection s m).2.queue (selection s m).2.entries).map g = fields g s
    exact (map_walkQueue (fun e => hr e _) _ _ _).trans (fields_selection hg s m)
  · rfl

/-! ### Adding and completing an entry -/

theorem fields_addToQueue (hnext : ∀ e q, g { e with next := q } = g e)
    (hnext100 : ∀ e q, g { e with next100 := q } = g e) (s : FuzzState m) (fname : Text)
    (len : Nat) (passedDet : Bool) :
    fields g (addToQueue s fname len passedDet) =
      fields g s ++ [g { fname, len, depth := s.curDepth + 1, passedDet }] := by
  have halloc : fields g (allocEntry s fname len passedDet) =
      fields g s ++ [g { fname, len, depth := s.curDepth + 1, passedDet }] := by
    show (s.entries ++ [_]).map g = s.entries.map g ++ [_]
    rw [List.map_append]
    rfl
  have hlink : ∀ t : FuzzState m, ∀ q, fields g (linkTop t q) = fields g t := by
    intro t q
    unfold linkTop
    split
    · exact fields_updateEntry t _ fun e => hnext e _
    · rfl
  have hhundred : ∀ t : FuzzState m, ∀ q, fields g (linkHundred t q) = fields g t := by
    intro t q
    unfold linkHundred
    split
    · split
      · exact fields_updateEntry t _ fun e => hnext100 e _
      · rfl
    · rfl
  unfold addToQueue
  exact (hhundred _ _).trans ((hlink _ _).trans halloc)

/-- Besides the entries, `add_to_queue` writes the ends of the list and the counters. -/
theorem addToQueue_frame (s : FuzzState m) (fname : Text) (len : Nat) (passedDet : Bool) :
    ∃ entries queue qPrev100, addToQueue s fname len passedDet = { s with
      entries, queue, qPrev100
      queueTop := some s.entries.length
      maxDepth := max (s.curDepth + 1) s.maxDepth
      queuedPaths := s.queuedPaths + 1
      pendingNotFuzzed := s.pendingNotFuzzed + 1
      cyclesWoFinds := 0 } := by
  have hlink : ∀ (t : FuzzState m) (q : Ptr), ∃ entries queue qPrev100,
      linkTop t q = { t with entries, queue, qPrev100, queueTop := some q } := by
    intro t q
    unfold linkTop
    split <;> exact ⟨_, _, _, rfl⟩
  have hhundred : ∀ (t : FuzzState m) (q : Ptr), ∃ entries qPrev100,
      linkHundred t q = { t with entries, qPrev100 } := by
    intro t q
    unfold linkHundred
    split
    · split <;> exact ⟨_, _, rfl⟩
    · exact ⟨_, _, rfl⟩
  have hmax : (allocEntry s fname len passedDet).maxDepth = max (s.curDepth + 1) s.maxDepth := by
    show (if s.curDepth + 1 > s.maxDepth then s.curDepth + 1 else s.maxDepth) = _
    split <;> omega
  obtain ⟨_, queue, _, htop⟩ := hlink (allocEntry s fname len passedDet) s.entries.length
  unfold addToQueue
  dsimp only
  rw [htop, hmax]
  obtain ⟨entries, qPrev100, hlast⟩ := hhundred _ s.entries.length
  exact ⟨entries, queue, qPrev100, hlast⟩

theorem fields_abandonEntry (hg : ∀ e b, g { e with wasFuzzed := b } = g e) (s : FuzzState m)
    (q : Nat) (stopSoon : Bool) : fields g (abandonEntry s q stopSoon) = fields g s := by
  unfold abandonEntry
  dsimp only
  split
  · exact fields_updateEntry s q fun e => hg e true
  · rfl

end Fields

end TriforceAFL.Proofs
