import Mathlib.Data.List.Perm.Basic
import TriforceAFL.Lib.Reachable
import TriforceAFL.Proofs.Alloc
import TriforceAFL.Spec.Tracker

/-!
# `TriforceAFL.Proofs.Tracker`: the allocation tracker is exact

`Table` relates the lists of the tracker to the blocks that the program holds: the entries in use of
a bucket are, up to their order, the blocks that `TRKH` puts there. `Owners` gives every block of
the allocator to the program or to one of the lists, so a block that is new to one owner cannot be
one of another.
-/

set_option autoImplicit false

namespace TriforceAFL.Proofs

open Lib Spec

/-! ### Owners of blocks -/

/-- The heap after a call that has replaced `orig` by `ret`, which was not in use before. -/
def Given (live : Nat → Option Nat) (orig ret : Nat) (h : Heap) : Prop :=
  (∃ r, CallEnds live orig r (.ok (ret, h))) ∧ (ret ≠ 0 → ret ≠ orig → live ret = none)

/-- Every block of the program and every list of the tracker has an owner: `none` is the program,
and `some k` the list of bucket `k`. -/
structure Owners (own : Nat → Option (Option Nat)) (live : Nat → Option Nat) (h : Heap)
    (base : Nat → Nat) (objs : List TrkObj) : Prop where
  sound : Sound h live
  held : ∀ p, own p ≠ none → live p ≠ none
  user : ∀ o ∈ objs, o.ptr ≠ 0 ∧ own o.ptr = some none
  list : ∀ k, base k ≠ 0 → own (base k) = some (some k)

section Owners
variable {own : Nat → Option (Option Nat)} {live : Nat → Option Nat} {h h' : Heap}
  {base : Nat → Nat} {objs : List TrkObj} {orig ret : Nat}

theorem given_of {x : Allocated} {r : Nat} (hx : CallEnds live orig r x ∧ ReturnsFresh live orig x)
    (hok : x = .ok (ret, h)) : Given live orig ret h := by
  subst hok
  exact ⟨⟨r, hx.1⟩, hx.2 ret h rfl⟩

theorem Owners.passes (ho : Owners own live h base objs) {p : Nat} (hp : p = 0 ∨ own p ≠ none) :
    Passes live p :=
  hp.imp_right fun h => Option.ne_none_iff_exists'.mp (ho.held p h)

/-- The result of a call gets the owner `w`, and those of the other blocks stay. -/
theorem Owners.replace (ho : Owners own live h base objs) (hg : Given live orig ret h')
    (w : Option Nat) :
    ∃ (own' : Nat → Option (Option Nat)) (live' : Nat → Option Nat), Sound h' live' ∧
      (∀ p, own' p ≠ none → live' p ≠ none) ∧ (ret ≠ 0 → own' ret = some w) ∧
      ∀ p v, p ≠ orig → own p = some v → own' p = some v := by
  obtain ⟨⟨r, hs⟩, hfresh⟩ := hg
  refine ⟨fun p => if p = ret ∧ ret ≠ 0 then some w else if p = orig then none else own p, _, hs,
    fun p hp => ?_, fun hne => if_pos ⟨rfl, hne⟩, fun p v hp hv => ?_⟩
  · dsimp only at hp ⊢
    split at hp
    · rename_i hnew
      rw [if_pos hnew]
      exact Option.some_ne_none r
    · rename_i hnew
      rw [if_neg hnew]
      split at hp
      · exact absurd rfl hp
      · rename_i horig
        rw [if_neg horig]
        exact ho.held p hp
  · have hnew : ¬ (p = ret ∧ ret ≠ 0) := by
      rintro ⟨rfl, hne⟩
      exact ho.held p (by rw [hv]; exact Option.some_ne_none v) (hfresh hne hp)
    dsimp only
    rw [if_neg hnew, if_neg hp, hv]

/-- A call of the program. -/
theorem Owners.call (ho : Owners own live h base objs) (hp : orig = 0 ∨ ∃ o ∈ objs, o.ptr = orig)
    (hg : Given live orig ret h') :
    ∃ own' live', Owners own' live' h' base (objs.filter fun o => o.ptr ≠ orig) ∧
      (ret ≠ 0 → own' ret = some none) := by
  obtain ⟨own', live', hs', hheld, hret, hkeep⟩ := ho.replace hg none
  refine ⟨own', live', ⟨hs', hheld, fun o hmem => ?_, fun k hk => hkeep _ _ ?_ (ho.list k hk)⟩,
    hret⟩
  · obtain ⟨hobj, hne⟩ := List.mem_filter.mp hmem
    exact ⟨(ho.user o hobj).1, hkeep _ _ (of_decide_eq_true hne) (ho.user o hobj).2⟩
  · rintro rfl
    obtain ⟨o, hmem, hptr⟩ := hp.resolve_left hk
    have huser := (ho.user o hmem).2
    rw [hptr, ho.list k hk] at huser
    cases huser

/-- A list of the tracker grows. -/
theorem Owners.grow (ho : Owners own live h base objs) {k : Nat} (hg : Given live (base k) ret h') :
    ∃ own' live', Owners own' live' h' (fun j => if j = k then ret else base j) objs := by
  obtain ⟨own', live', hs', hheld, hret, hkeep⟩ := ho.replace hg (some k)
  refine ⟨own', live', hs', hheld, fun o hmem => ?_, fun j hj => ?_⟩
  · obtain ⟨hne, huser⟩ := ho.user o hmem
    refine ⟨hne, hkeep _ _ (fun heq => ?_) huser⟩
    rw [heq, ho.list k (heq ▸ hne)] at huser
    cases huser
  · split at hj
    · rename_i heq
      rw [if_pos heq, heq]
      exact hret hj
    · rename_i hjk
      have hlist := ho.list j hj
      rw [if_neg hjk]
      refine hkeep _ _ (fun heq => ?_) hlist
      rw [heq, ho.list k (heq ▸ hj)] at hlist
      exact hjk (Option.some.inj (Option.some.inj hlist)).symm

end Owners

/-! ### The table -/

/-- The entries in use. -/
def inUse (objs : List TrkObj) : List TrkObj := objs.filter fun o => o.ptr ≠ 0

theorem inUse_reuseSlot {obj : TrkObj} (hobj : obj.ptr ≠ 0) {l l' : List TrkObj}
    (h : reuseSlot obj l = some l') : (inUse l').Perm (obj :: inUse l) := by
  induction l generalizing l' with
  | nil => cases h
  | cons o os ih =>
    rw [reuseSlot] at h
    split at h
    · rename_i hfree
      cases h
      simp [inUse, hobj, hfree]
    · rename_i hused
      obtain ⟨os', hos', rfl⟩ := Option.map_eq_some_iff.mp h
      have hrec := (ih hos').cons o
      simpa [inUse, hused] using hrec.trans (List.Perm.swap obj o _)

theorem inUse_clearSlot {p : Nat} (hp : p ≠ 0) {l l' : List TrkObj} (h : clearSlot p l = some l') :
    ∃ o, o.ptr = p ∧ (inUse l).Perm (o :: inUse l') := by
  induction l generalizing l' with
  | nil => cases h
  | cons o os ih =>
    rw [clearSlot] at h
    split at h
    · rename_i hfound
      cases h
      exact ⟨o, hfound, by simp [inUse, hfound, hp]⟩
    · obtain ⟨os', hos', rfl⟩ := Option.map_eq_some_iff.mp h
      obtain ⟨o', hptr, hrec⟩ := ih hos'
      refine ⟨o', hptr, ?_⟩
      by_cases hused : o.ptr = 0
      · simpa [inUse, hused] using hrec
      · simpa [inUse, hused] using (hrec.cons o).trans (List.Perm.swap o' o _)

theorem clearSlot_ne_none {p : Nat} {l : List TrkObj} {o : TrkObj} (ho : o ∈ l) (hptr : o.ptr = p) :
    clearSlot p l ≠ none := by
  induction l with
  | nil => cases ho
  | cons o' os ih =>
    rw [clearSlot]
    split
    · exact Option.some_ne_none _
    · rename_i hne
      rcases List.mem_cons.mp ho with rfl | hmem
      · exact absurd hptr hne
      · simpa using ih hmem

/-- The lists of the tracker hold the blocks in use, and it has never warned. -/
structure Table (t : Tracker) (live : List TrkObj) : Prop where
  entries : ∀ k, (inUse (t.trk k).objs).Perm (live.filter fun o => trkh o.ptr = k)
  nodup : (live.map TrkObj.ptr).Nodup
  quiet : t.warnings = []

section Table
variable {t t' : Tracker} {live : List TrkObj}

/-- An entry is removed, and nothing is if the pointer is null. -/
theorem Table.free (ht : Table t live) {p : Nat} (site : CallSite)
    (hnull : ∀ o ∈ live, o.ptr ≠ 0) (hp : p = 0 ∨ ∃ o ∈ live, o.ptr = p) :
    Table (trkFreeBuf t p site) (live.filter fun o => o.ptr ≠ p) := by
  unfold trkFreeBuf
  split
  · rename_i hzero
    rwa [List.filter_eq_self.mpr fun o ho => decide_eq_true (hzero ▸ hnull o ho)]
  rename_i hne
  obtain ⟨o, hlive, hptr⟩ := hp.resolve_left hne
  have hentry : o ∈ inUse (t.trk (trkh p)).objs :=
    (ht.entries _).mem_iff.mpr (List.mem_filter.mpr ⟨hlive, by simp [hptr]⟩)
  dsimp only
  split
  · rename_i objs hclear
    have hnodup : ((live.filter fun o => o.ptr ≠ p).map TrkObj.ptr).Nodup :=
      ht.nodup.sublist (List.filter_sublist.map _)
    refine ⟨fun k => ?_, hnodup, ht.quiet⟩
    rw [List.filter_comm]
    by_cases hk : k = trkh p
    · obtain ⟨o', hptr', hperm⟩ := inUse_clearSlot hne hclear
      have hall := (ht.entries k).symm.trans (hk ▸ hperm)
      have honce : ((o' :: inUse objs).map TrkObj.ptr).Nodup :=
        (hall.map _).nodup_iff.mp (ht.nodup.sublist (List.filter_sublist.map _))
      have hrest : (inUse objs).filter (fun o => o.ptr ≠ p) = inUse objs := by
        refine List.filter_eq_self.mpr fun q hq => decide_eq_true fun heq => ?_
        refine (List.nodup_cons.mp honce).1 ?_
        rw [hptr', ← heq]
        exact List.mem_map_of_mem hq
      have hfiltered := hall.filter fun o => o.ptr ≠ p
      rw [List.filter_cons_of_neg (by simp [hptr']), hrest] at hfiltered
      simpa [Tracker.setBucket, hk] using hfiltered.symm
    · have hother : (live.filter fun o => trkh o.ptr = k).filter (fun o => o.ptr ≠ p)
          = live.filter fun o => trkh o.ptr = k := by
        refine List.filter_eq_self.mpr fun q hq => decide_eq_true fun heq => hk ?_
        rw [← heq]
        exact (of_decide_eq_true (List.mem_filter.mp hq).2).symm
      rw [hother]
      simpa [Tracker.setBucket, hk] using ht.entries k
  · rename_i hclear
    exact absurd hclear (clearSlot_ne_none (List.mem_filter.mp hentry).1 hptr)

/-- How `TRK_alloc_buf` adds an entry: in a slot that is free, or in a list that has grown. -/
theorem trkAllocBuf_ok {obj : TrkObj} (hobj : obj.ptr ≠ 0) {c : Libc}
    (hok : trkAllocBuf t obj c = .ok t') :
    ∃ heap base objs, t' = { t with heap }.setBucket (trkh obj.ptr) ⟨base, objs⟩ ∧
      (inUse objs).Perm (obj :: inUse (t.trk (trkh obj.ptr)).objs) ∧
      (heap = t.heap ∧ base = (t.trk (trkh obj.ptr)).base ∨
        ∃ size, ckRealloc true t.heap (t.trk (trkh obj.ptr)).base size c = .ok (base, heap)) := by
  rw [trkAllocBuf, if_neg hobj] at hok
  dsimp only at hok
  split at hok
  · rename_i objs hreuse
    cases hok
    exact ⟨t.heap, _, objs, rfl, inUse_reuseSlot hobj hreuse, Or.inl ⟨rfl, rfl⟩⟩
  · cases hcall : ckReallocBlock true t.heap (t.trk (trkh obj.ptr)).base
        (BitVec.ofNat 32 (((t.trk (trkh obj.ptr)).objs.length + 1) * sizeofTrkObj)) c with
    | error e => rw [hcall] at hok; cases hok
    | ok r =>
      rw [hcall] at hok
      cases hok
      refine ⟨r.2, r.1, _, rfl, ?_, Or.inr ⟨_, hcall⟩⟩
      simp [inUse, hobj]

theorem Table.add (ht : Table t live) {obj : TrkObj} (hnew : ∀ o ∈ live, o.ptr ≠ obj.ptr)
    {heap : Heap} {base : Nat} {objs : List TrkObj}
    (hobjs : (inUse objs).Perm (obj :: inUse (t.trk (trkh obj.ptr)).objs)) :
    Table ({ t with heap }.setBucket (trkh obj.ptr) ⟨base, objs⟩) (obj :: live) := by
  refine ⟨fun k => ?_, List.nodup_cons.mpr ⟨fun hmem => ?_, ht.nodup⟩, ht.quiet⟩
  · by_cases hk : k = trkh obj.ptr
    · subst hk
      simpa [Tracker.setBucket] using hobjs.trans ((ht.entries _).cons obj)
    · have hk' : ¬ trkh obj.ptr = k := fun h => hk h.symm
      simpa [Tracker.setBucket, hk, hk'] using ht.entries k
  · obtain ⟨o, ho, heq⟩ := List.mem_map.mp hmem
    exact hnew o ho heq

end Table

/-! ### Runs -/

/-- A call with a pointer that is in use, or null, and that returns. -/
def TrackedCall (s s' : TrkState) : Prop :=
  ∃ op site c d, (op.orig = 0 ∨ ∃ o ∈ s.live, o.ptr = op.orig) ∧ s.step op site c d = .ok s'

/-- Before the first call. -/
def Untracked (s : TrkState) : Prop := ∃ m, s = ⟨{ heap := ⟨m, []⟩ }, []⟩

/-- The arrays of the lists. -/
def bases (t : Tracker) (k : Nat) : Nat := (t.trk k).base

theorem bases_setBucket (t : Tracker) (k : Nat) (b : TrkBucket) :
    bases (t.setBucket k b) = fun j => if j = k then b.base else bases t j := by
  funext j
  unfold bases Tracker.setBucket
  dsimp only
  split <;> rfl

/-- `TRK_free_buf` leaves the heap alone. -/
theorem trkFreeBuf_frame (t : Tracker) (p : Nat) (site : CallSite) (heap : Heap) :
    trkFreeBuf { t with heap } p site = { trkFreeBuf t p site with heap } ∧
      (trkFreeBuf t p site).heap = t.heap ∧ bases (trkFreeBuf t p site) = bases t := by
  unfold trkFreeBuf
  split
  · exact ⟨rfl, rfl, rfl⟩
  · dsimp only
    split
    · refine ⟨rfl, rfl, (bases_setBucket _ _ _).trans (funext fun j => ?_)⟩
      split
      · rename_i heq
        rw [heq]
        rfl
      · rfl
    · exact ⟨rfl, rfl, rfl⟩

/-- A call has replaced `orig` by another pointer, and the tracker has followed it. -/
def Followed (live : Nat → Option Nat) (s : TrkState) (orig : Nat) (site : CallSite) (d : Libc)
    (s' : TrkState) : Prop :=
  ∃ ret heap t', Given live orig ret heap ∧
    trkAllocBuf { trkFreeBuf s.tracker orig site with heap } ⟨ret, site⟩ d = .ok t' ∧
    s' = s.hold orig ret site t'

section Steps
variable {s s' : TrkState} {site : CallSite} {c d : Libc} {live : Nat → Option Nat}

/-- The wrappers make their call, forget the old pointer and note the new one. -/
theorem followed_of_call {orig r : Nat} {x : Allocated}
    (hx : CallEnds live orig r x ∧ ReturnsFresh live orig x)
    (hok : ((do
      let (ret, heap) ← x
      trkAdd (trkFreeBuf { s.tracker with heap } orig site) ret site d) >>= fun y =>
        pure (s.hold orig y.1 site y.2)) = Except.ok s') : Followed live s orig site d s' := by
  rcases x with e | ⟨ret, heap⟩
  · cases hok
  · cases hadd : trkAllocBuf (trkFreeBuf { s.tracker with heap } orig site) ⟨ret, site⟩ d with
    | error e => simp [trkAdd, bind, Except.bind, hadd] at hok
    | ok t' =>
      simp only [trkAdd, bind, Except.bind, hadd] at hok
      cases hok
      rw [(trkFreeBuf_frame _ _ _ _).1] at hadd
      exact ⟨ret, heap, t', given_of hx rfl, hadd, rfl⟩

theorem followed_of_step {op : TrkOp} (hs : Sound s.tracker.heap live) (hp : Passes live op.orig)
    (hok : s.step op site c d = .ok s') : Followed live s op.orig site d s' := by
  cases op with
  | alloc size => exact followed_of_call (ends_ckAlloc hs size c) hok
  | realloc orig size =>
    exact followed_of_call (ends_ckRealloc true hs hp size (Nat.zero_le _) c) hok
  | reallocBlock orig size =>
    exact followed_of_call (ends_ckRealloc true hs hp size (Nat.zero_le _) c) hok
  | strdup str =>
    cases str with
    | none => exact followed_of_call (ends_null hs 0) hok
    | some str => exact followed_of_call (ends_ckStrdup hs str c) hok
  | memdup mem size => exact followed_of_call (ends_ckMemdup hs mem size c) hok
  | free ptr =>
    -- Here the tracker comes first, but it does not look at the heap.
    obtain ⟨heap, hfree, hs'⟩ := ckFree_spec true hs hp c
    have hheap := (trkFreeBuf_frame s.tracker ptr site s.tracker.heap).2.1
    simp only [TrkState.step, trkCkFree, hheap, TrkOp.orig] at hok hfree
    rw [hfree] at hok
    cases hok
    exact ⟨0, heap, _, ⟨⟨0, by simpa [CallEnds] using hs'⟩, fun h => absurd rfl h⟩, rfl, rfl⟩

end Steps

/-- The tracker and the heap are as a program with the blocks `objs` expects. -/
def TrackerInv (t : Tracker) (objs : List TrkObj) : Prop :=
  Table t objs ∧ ∃ own live, Owners own live t.heap (bases t) objs

/-- The program has a new block, and `TRK_alloc_buf` notes it. -/
theorem TrackerInv.add {t t' : Tracker} {objs : List TrkObj} {obj : TrkObj} {c : Libc}
    {own : Nat → Option (Option Nat)} {live : Nat → Option Nat} (ht : Table t objs)
    (ho : Owners own live t.heap (bases t) (obj :: objs)) (hnew : ∀ o ∈ objs, o.ptr ≠ obj.ptr)
    (hadd : trkAllocBuf t obj c = .ok t') : TrackerInv t' (obj :: objs) := by
  obtain ⟨heap, base, slots, rfl, hslots, hgrow⟩ :=
    trkAllocBuf_ok (ho.user obj List.mem_cons_self).1 hadd
  refine ⟨ht.add hnew hslots, ?_⟩
  rw [bases_setBucket]
  rcases hgrow with ⟨rfl, rfl⟩ | ⟨size, hcall⟩
  · have hsame : (fun j => if j = trkh obj.ptr then bases t (trkh obj.ptr) else bases t j)
        = bases t := funext fun j => ite_eq_right_iff.mpr fun heq => heq ▸ rfl
    exact ⟨own, live, hsame.symm ▸ ho⟩
  · have hlist : bases t (trkh obj.ptr) = 0 ∨ own (bases t (trkh obj.ptr)) ≠ none := by
      by_cases hnull : bases t (trkh obj.ptr) = 0
      · exact Or.inl hnull
      · rw [ho.list _ hnull]
        exact Or.inr (Option.some_ne_none _)
    have hend := ends_ckRealloc true ho.sound (ho.passes hlist) size (Nat.zero_le _) c
    exact ho.grow (given_of hend hcall)

theorem TrackerInv.call {s s' : TrkState} (hs : TrackerInv s.tracker s.live)
    (h : TrackedCall s s') : TrackerInv s'.tracker s'.live := by
  obtain ⟨ht, own, live, ho⟩ := hs
  obtain ⟨op, site, c, d, hp, hok⟩ := h
  have horig : op.orig = 0 ∨ own op.orig ≠ none := by
    refine hp.imp_right ?_
    rintro ⟨o, hmem, hptr⟩
    rw [← hptr, (ho.user o hmem).2]
    exact Option.some_ne_none none
  obtain ⟨ret, heap, t', hg, hadd, rfl⟩ := followed_of_step ho.sound (ho.passes horig) hok
  obtain ⟨own₁, live₁, ho₁, hret⟩ := ho.call hp hg
  obtain ⟨-, -, hbases⟩ := trkFreeBuf_frame s.tracker op.orig site heap
  rw [← hbases] at ho₁
  obtain ⟨hentries, hnodup, hquiet⟩ :=
    ht.free site (fun o hmem => (ho.user o hmem).1) hp
  unfold TrkState.hold
  generalize trkFreeBuf s.tracker op.orig site = t at *
  by_cases hzero : ret = 0
  · rw [hzero] at hadd ⊢
    cases hadd
    exact ⟨⟨hentries, hnodup, hquiet⟩, own₁, live₁, ho₁⟩
  · dsimp only
    rw [if_neg hzero]
    refine TrackerInv.add (t := { t with heap }) ⟨hentries, hnodup, hquiet⟩
      ⟨ho₁.sound, ho₁.held, List.forall_mem_cons.mpr ⟨⟨hzero, hret hzero⟩, ho₁.user⟩, ho₁.list⟩ ?_
      hadd
    -- The new block is none of those that the program has kept.
    rintro o hmem rfl
    obtain ⟨hobj, hne⟩ := List.mem_filter.mp hmem
    obtain ⟨hptr, huser⟩ := ho.user o hobj
    exact ho.held _ (by rw [huser]; exact Option.some_ne_none none)
      (hg.2 hptr (of_decide_eq_true hne))

/-- A list is put together from its parts with each key. -/
theorem flatMap_filter_perm {α : Type} (key : α → Nat) (l : List α) (n : Nat) :
    ((List.range n).flatMap fun k => l.filter fun a => key a = k).Perm
      (l.filter fun a => key a < n) := by
  induction n with
  | zero => simp
  | succ n ih =>
    have hsplit := List.filter_append_perm (fun a => decide (key a < n))
      (l.filter fun a => key a < n + 1)
    rw [List.filter_filter, List.filter_filter] at hsplit
    rw [List.range_succ, List.flatMap_append, List.flatMap_singleton]
    refine ((ih.append_right _).trans (List.Perm.of_eq ?_)).trans hsplit
    congr 1 <;> refine List.filter_congr fun a _ => ?_
    · simp only [← Bool.decide_and, decide_eq_decide]
      omega
    · simp only [← decide_not, ← Bool.decide_and, decide_eq_decide]
      omega

/-- After every sequence of calls: the entries in use are in the buckets that `TRKH` gives, no
warning was printed, and the report lists the blocks that were never freed, each of them once and
with the call that made it. -/
theorem tracker_exact {s : TrkState} (h : Reachable Untracked TrackedCall s) :
    (∀ k, ∀ o ∈ (s.tracker.trk k).objs, o.ptr ≠ 0 → trkh o.ptr = k) ∧
      (trkReport s.tracker).Perm s.live ∧ (s.live.map TrkObj.ptr).Nodup ∧
      s.tracker.warnings = [] := by
  have hinv : TrackerInv s.tracker s.live := by
    refine h.invariant (P := fun s => TrackerInv s.tracker s.live) ?_ fun _ _ => TrackerInv.call
    rintro _ ⟨m, rfl⟩
    exact ⟨⟨fun _ => List.Perm.nil, List.nodup_nil, rfl⟩, fun _ => none, fun _ => none,
      ⟨List.Pairwise.nil, nofun⟩, (fun _ h => absurd rfl h), nofun, fun _ h => absurd rfl h⟩
  obtain ⟨ht, _⟩ := hinv
  refine ⟨fun k o ho hptr => ?_, ?_, ht.nodup, ht.quiet⟩
  · have hmem : o ∈ inUse (s.tracker.trk k).objs := List.mem_filter.mpr ⟨ho, decide_eq_true hptr⟩
    exact of_decide_eq_true (List.mem_filter.mp ((ht.entries k).mem_iff.mp hmem)).2
  · have hreport : (trkReport s.tracker).Perm ((List.range ALLOC_BUCKETS).flatMap fun k =>
        s.live.filter fun o => trkh o.ptr = k) :=
      List.Perm.flatMap_left _ fun k _ => ht.entries k
    refine (hreport.trans (flatMap_filter_perm _ _ _)).trans (List.Perm.of_eq ?_)
    refine List.filter_eq_self.mpr fun o _ => decide_eq_true ?_
    exact Nat.mod_lt _ (by decide)

/-- Two blocks are allocated, which makes the lists of their buckets grow, and one is freed. -/
theorem tracker_exact_two : ∃ s, Reachable Untracked TrackedCall s ∧
    (trkReport s.tracker).map TrkObj.ptr = [200] := by
  obtain ⟨s, hs, hlive⟩ : ∃ s, Reachable Untracked TrackedCall s ∧
      s.live = [⟨200, "f.c", "g", 2⟩] :=
    ⟨_, .step (.step (.step (.init ⟨fun _ => 0, rfl⟩)
      ⟨.alloc 4, ⟨"f.c", "f", 1⟩, libcAt64, ⟨128, fun _ => 0, fun _ => 0⟩, Or.inl rfl, rfl⟩)
      ⟨.alloc 8, ⟨"f.c", "g", 2⟩, ⟨192, fun _ => 0, fun _ => 0⟩,
        ⟨256, fun _ => 0, fun _ => 0⟩, Or.inl rfl, rfl⟩)
      ⟨.free 72, ⟨"f.c", "f", 3⟩, libcAt64, libcAt64,
        Or.inr ⟨_, List.mem_cons_of_mem _ List.mem_cons_self, rfl⟩, rfl⟩, rfl⟩
  refine ⟨s, hs, ?_⟩
  have hperm := (tracker_exact hs).2.1
  rw [hlive] at hperm
  rw [List.perm_singleton.mp hperm]
  rfl

end TriforceAFL.Proofs
