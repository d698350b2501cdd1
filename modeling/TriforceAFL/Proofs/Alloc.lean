import TriforceAFL.Spec.Alloc

/-!
# `TriforceAFL.Proofs.Alloc`: the guard tokens of the checking allocator

`Guarded` is what the allocator keeps for a pointer that the program holds: the magic word before
the block, a recorded size of at least what was asked for, and the magic byte after the block.
`Sound` adds what carries it through a run: the pointers have blocks of the C heap of their own,
with room for the head and the tail.

Three rules change a sound heap (`Sound.drop`, `Sound.insert`, `Sound.touch`), and every function
but one is an instance of them. `ck_memdup_str` writes the terminator of its text over the tail
token.
-/

set_option autoImplicit false

namespace TriforceAFL.Proofs

open Lib Spec

variable {s : AllocState} {b : Block}

/-! ### Tokens of one block -/

/-- The tokens that belong to pointer `p`, for which `r` bytes were asked last. -/
structure Guarded (m : Memory) (p r : Nat) : Prop where
  head : allocC1 m p = ALLOC_MAGIC_C1
  size : r ≤ (allocS m p).toNat
  tail : allocC2 m p = ALLOC_MAGIC_C2

/-- The tokens of `p` are in place and inside of block `b`. -/
structure Owned (m : Memory) (b : Block) (p r : Nat) : Prop extends Guarded m p r where
  pos : 0 < b.base
  base : b.base + 8 = p
  room : p + (allocS m p).toNat + 1 ≤ b.base + b.size

/-- The head of a block decides its tokens up to the tail. -/
theorem head_congr {m m' : Memory} {p : Nat} (hp : 8 ≤ p)
    (h : Set.EqOn m' m (Set.Ico (p - 8) p)) :
    allocC1 m' p = allocC1 m p ∧ allocS m' p = allocS m p := by
  constructor
  · exact Memory.loadWord_congr fun a ha => h ⟨ha.1, by have := ha.2; omega⟩
  · exact Memory.loadWord_congr fun a ha => h ⟨by have := ha.1; omega, by have := ha.2; omega⟩

/-- Writes between the head and the tail keep the tokens. -/
theorem Owned.of_eqOn {m m' : Memory} {p r : Nat} (ho : Owned m b p r)
    (hhead : Set.EqOn m' m (Set.Ico (p - 8) p))
    (htail : m' (p + (allocS m p).toNat) = m (p + (allocS m p).toNat)) : Owned m' b p r := by
  have hp : 8 ≤ p := by have := ho.base; omega
  obtain ⟨hc1, hs⟩ := head_congr hp hhead
  refine ⟨⟨hc1.trans ho.head, hs ▸ ho.size, ?_⟩, ho.pos, ho.base, hs ▸ ho.room⟩
  rw [allocC2, hs, htail]
  exact ho.tail

/-- Memory that is the same in the whole block has the same tokens. -/
theorem Owned.of_block {m m' : Memory} {p r : Nat} (ho : Owned m b p r)
    (h : Set.EqOn m' m {a | b.Holds a}) : Owned m' b p r := by
  have hbase := ho.base
  have hroom := ho.room
  refine ho.of_eqOn (fun a ha => h ⟨?_, ?_⟩) (h ⟨?_, ?_⟩)
  · have := ha.1; omega
  · have := ha.2; omega
  · omega
  · omega

/-- A smaller request is met as well. -/
theorem Owned.mono {m : Memory} {p r r' : Nat} (ho : Owned m b p r) (hr : r' ≤ (allocS m p).toNat) :
    Owned m b p r' :=
  ⟨⟨ho.head, hr, ho.tail⟩, ho.pos, ho.base, ho.room⟩

theorem checkPtr_of_guarded {m : Memory} {p r : Nat} (hg : Guarded m p r) :
    checkPtr m p = .ok () := by
  simp [checkPtr, hg.head, hg.tail]

/-- The assignment to `ALLOC_S` is read back. -/
theorem allocS_storeWord (m : Memory) (p : Nat) (size : U32) :
    allocS (m.storeWord 4 (p - 4) size) p = size :=
  Memory.loadWord_storeWord (n := 4) size

/-- The tail token is written last, behind the size just recorded. -/
theorem setGuards_eq (m : Memory) (p : Nat) (size : U32) :
    setGuards m p size = ((setC1 m p ALLOC_MAGIC_C1).storeWord 4 (p - 4) size).write
      (p + size.toNat) ALLOC_MAGIC_C2 := by
  simp only [setGuards, allocS_storeWord]

theorem allocC1_setGuards (m : Memory) {p : Nat} (hp : 8 ≤ p) (size : U32) :
    allocC1 (setGuards m p size) p = ALLOC_MAGIC_C1 := by
  have hkeep : Set.EqOn (setGuards m p size) (setC1 m p ALLOC_MAGIC_C1)
      (Set.Ico (p - 8) (p - 8 + 4)) := fun a ha => by
    have := ha.2
    rw [setGuards_eq, Memory.write_of_ne (by omega), Memory.storeWord_of_not_mem (by omega)]
  exact (Memory.loadWord_congr hkeep).trans (Memory.loadWord_storeWord (n := 4) _)

theorem allocS_setGuards (m : Memory) {p : Nat} (hp : 8 ≤ p) (size : U32) :
    allocS (setGuards m p size) p = size := by
  have hkeep : Set.EqOn (setGuards m p size) ((setC1 m p ALLOC_MAGIC_C1).storeWord 4 (p - 4) size)
      (Set.Ico (p - 4) (p - 4 + 4)) := fun a ha => by
    have := ha.2
    rw [setGuards_eq, Memory.write_of_ne (by omega)]
  exact (Memory.loadWord_congr hkeep).trans (allocS_storeWord _ p size)

/-- The three assignments for a new block put its tokens in place. -/
theorem owned_setGuards (m : Memory) {size : U32} (hpos : 0 < b.base)
    (hroom : size.toNat + 9 ≤ b.size) :
    Owned (setGuards m (b.base + 8) size) b (b.base + 8) size.toNat := by
  have hs := allocS_setGuards m (p := b.base + 8) (by omega) size
  refine ⟨⟨allocC1_setGuards m (by omega) size, by rw [hs], ?_⟩, hpos, rfl, by rw [hs]; omega⟩
  rw [allocC2, hs, setGuards_eq, Memory.write_self]

/-- A new block's tokens lie in the block. -/
theorem setGuards_of_not_holds {m : Memory} {size : U32} (hroom : size.toNat + 9 ≤ b.size) {a : Nat}
    (ha : ¬ b.Holds a) :
    setGuards m (b.base + 8) size a = m a := by
  unfold Block.Holds at ha
  rw [setGuards_eq, Memory.write_of_ne (by omega), Memory.storeWord_of_not_mem (by omega), setC1,
    Memory.storeWord_of_not_mem (by omega)]

/-! ### Sound heaps -/

/-- The blocks of the heap are apart, and every pointer of the program has one with its tokens in
place. -/
structure Sound (h : Heap) (live : Nat → Option Nat) : Prop where
  apart : h.blocks.Pairwise Block.Apart
  owned : ∀ p r, live p = some r → ∃ b ∈ h.blocks, Owned h.mem b p r

section Rules

variable {h : Heap} {live : Nat → Option Nat} {b : Block} {m : Memory} {p r : Nat}

theorem Sound.apart_of_ne (hs : Sound h live) {b b' : Block} (hb : b ∈ h.blocks)
    (hb' : b' ∈ h.blocks) (hne : b ≠ b') : b.Apart b' :=
  hs.apart.forall hb hb' hne

/-- The program forgets a pointer. -/
theorem Sound.forget (hs : Sound h live) (orig : Nat) :
    Sound h fun p => if p = orig then none else live p := by
  refine ⟨hs.apart, fun p r hp => ?_⟩
  split at hp
  · cases hp
  · exact hs.owned p r hp

/-- What happens outside of the blocks does not matter. -/
theorem Sound.of_eqOn (hs : Sound h live) (hm : ∀ b ∈ h.blocks, Set.EqOn m h.mem {a | b.Holds a}) :
    Sound { h with mem := m } live := by
  refine ⟨hs.apart, fun p r hp => ?_⟩
  obtain ⟨b, hb, ho⟩ := hs.owned p r hp
  exact ⟨b, hb, ho.of_block (hm b hb)⟩

/-- A pointer goes away with its block, and the bytes of the block are anyone's. -/
theorem Sound.drop (hs : Sound h live) (hb : b ∈ h.blocks) (hm : ∀ a, ¬ b.Holds a → m a = h.mem a) :
    Sound (Heap.drop { h with mem := m } b.base)
      fun p => if p = b.base + 8 then none else live p := by
  refine ⟨hs.apart.filter _, fun p r hp => ?_⟩
  split at hp
  next => cases hp
  next hne =>
    -- the block of another pointer starts elsewhere, so it is still in the heap and was not written
    obtain ⟨b', hb', ho⟩ := hs.owned p r hp
    have hbase : b'.base ≠ b.base := by have := ho.base; omega
    have hap : b.Apart b' := hs.apart_of_ne hb hb' fun heq => hbase (by rw [heq])
    refine ⟨b', List.mem_filter.mpr ⟨hb', by simpa using hbase⟩, ho.of_block fun a ha => ?_⟩
    exact hm a (hap.not_holds ha)

/-- A new block with its tokens. -/
theorem Sound.insert (hs : Sound h live) (hroom : h.Room b) {r : Nat}
    (hm : ∀ a, ¬ b.Holds a → (∃ b' ∈ h.blocks, b'.Holds a) → m a = h.mem a)
    (ho : Owned m b (b.base + 8) r) :
    Sound { mem := m, blocks := b :: h.blocks }
      fun p => if p = b.base + 8 ∧ b.base + 8 ≠ 0 then some r else live p := by
  refine ⟨List.pairwise_cons.mpr ⟨hroom, hs.apart⟩, fun p r' hp => ?_⟩
  split at hp
  next hp' =>
    obtain rfl := Option.some.inj hp
    exact ⟨b, List.mem_cons_self, hp'.1 ▸ ho⟩
  next =>
    obtain ⟨b', hb', ho'⟩ := hs.owned p r' hp
    exact ⟨b', List.mem_cons_of_mem _ hb', ho'.of_block fun a ha =>
      hm a ((hroom b' hb').not_holds ha) ⟨b', hb', ha⟩⟩

/-- Writes in the block of one pointer that keep its tokens. -/
theorem Sound.touch (hs : Sound h live) (hb : b ∈ h.blocks) (hm : ∀ a, ¬ b.Holds a → m a = h.mem a)
    (ho : Owned m b p r) :
    Sound { h with mem := m } fun q => if q = p then some r else live q := by
  refine ⟨hs.apart, fun q r' hq => ?_⟩
  split at hq
  next heq =>
    obtain rfl := Option.some.inj hq
    exact ⟨b, hb, heq ▸ ho⟩
  next hne =>
    obtain ⟨b', hb', ho'⟩ := hs.owned q r' hq
    have hbase : b ≠ b' := by
      rintro rfl
      exact hne (ho'.base.symm.trans ho.base)
    exact ⟨b', hb', ho'.of_block fun a ha => hm a ((hs.apart_of_ne hb hb' hbase).not_holds ha)⟩

end Rules

/-! ### The functions -/

/-- How a call that replaces pointer `orig` by one for `size` bytes may end in a program that holds
the pointers `live`: the heap is sound with the new pointer, or the call aborts, but not because of
a token. -/
def CallEnds (live : Nat → Option Nat) (orig size : Nat) : Allocated → Prop
  | .ok (ret, h) => Sound h fun p =>
    if p = ret ∧ ret ≠ 0 then some size else if p = orig then none else live p
  | .error e => e.isCheckPtr = false

section Functions

variable {h : Heap} {live : Nat → Option Nat} {b : Block} {m : Memory} {p : Nat} {size : U32}

/-- What a call may return besides `NULL` and the pointer that it replaces: one not in use. -/
def ReturnsFresh (live : Nat → Option Nat) (orig : Nat) (x : Allocated) : Prop :=
  ∀ ret h, x = .ok (ret, h) → ret ≠ 0 → ret ≠ orig → live ret = none

/-- A call that returns `NULL` and does nothing else. -/
theorem ends_null (hs : Sound h live) (size : Nat) :
    CallEnds live 0 size (.ok (0, h)) ∧ ReturnsFresh live 0 (.ok (0, h)) := by
  refine ⟨by simpa [CallEnds] using hs.forget 0, fun ret h' hok hne => ?_⟩
  cases hok
  exact absurd rfl hne

theorem toNat_total {size spare : U32} (hsize : size.toNat ≤ MAX_ALLOC) (hspare : spare.toNat ≤ 1) :
    (size + ALLOC_OFF_TOTAL + spare).toNat = size.toNat + 9 + spare.toNat := by
  have h9 : ALLOC_OFF_TOTAL.toNat = 9 := rfl
  have hmax : MAX_ALLOC = 1073741824 := rfl
  rw [BitVec.toNat_add, BitVec.toNat_add, h9]
  omega

/-- `b` is a new block of the heap for `size` bytes, and `m` the memory with its tokens. -/
structure Fresh (h : Heap) (b : Block) (m : Memory) (size : U32) : Prop where
  room : h.Room b
  keep : ∀ a, ¬ b.Holds a → (∃ b' ∈ h.blocks, b'.Holds a) → m a = h.mem a
  owned : Owned m b (b.base + 8) size.toNat
  recorded : allocS m (b.base + 8) = size

/-- The block meets every request up to its size. -/
theorem Fresh.meets (hf : Fresh h b m size) {r : Nat} (hr : r ≤ size.toNat) :
    Owned m b (b.base + 8) r := by
  apply hf.owned.mono
  rw [hf.recorded]
  exact hr

/-- The user's part of a new block may be filled in. -/
theorem Fresh.fill {m m' : Memory} (hf : Fresh h b m size)
    (hm : ∀ a, a < b.base + 8 ∨ b.base + 8 + size.toNat ≤ a → m' a = m a) :
    Fresh h b m' size := by
  have hroom := hf.owned.room
  rw [hf.recorded] at hroom
  have hhead : Set.EqOn m' m (Set.Ico (b.base + 8 - 8) (b.base + 8)) :=
    fun a ha => hm a (Or.inl ha.2)
  refine ⟨hf.room, fun a ha hin => ?_, ?_, ?_⟩
  · rw [hm a (by unfold Block.Holds at ha; omega)]
    exact hf.keep a ha hin
  · exact hf.owned.of_eqOn hhead (hm _ (by rw [hf.recorded]; omega))
  · exact (head_congr (by omega) hhead).2.trans hf.recorded

/-- The tokens of a new block. -/
theorem fresh_setGuards (hpos : b.base ≠ 0) (hsize : size.toNat + 9 ≤ b.size) (hroom : h.Room b)
    (hkeep : ∀ a, ¬ b.Holds a → (∃ b' ∈ h.blocks, b'.Holds a) → m a = h.mem a) :
    Fresh h b (setGuards m (b.base + 8) size) size where
  room := hroom
  keep a ha hin := by
    rw [setGuards_of_not_holds hsize ha]
    exact hkeep a ha hin
  owned := owned_setGuards m (Nat.pos_of_ne_zero hpos) hsize
  recorded := allocS_setGuards m (by omega) size

theorem newBlock_spec (h : Heap) {size spare : U32} (hsize : size.toNat ≤ MAX_ALLOC)
    (hspare : spare.toNat ≤ 1) (c : Libc) :
    newBlock h size spare c = .error (.outOfMemory size) ∨
      ∃ b m, newBlock h size spare c = .ok (b.base + 8, ⟨m, b :: h.blocks⟩) ∧ Fresh h b m size := by
  have hcheck : allocCheckSize size = .ok () := if_neg (by omega)
  -- a request that passes the check is far from the wrap of the 32-bit sum
  have htotal := toNat_total hsize hspare
  rw [newBlock, hcheck, htotal]
  by_cases hret : (h.malloc (size.toNat + 9 + spare.toNat) c.place c.garbage).1 = 0
  · left
    simp only [bind, Except.bind, allocCheckResult, if_pos hret]
  · right
    obtain ⟨m, heq, hplace, hroom, hkeep⟩ := Heap.malloc_ne_zero hret
    refine ⟨⟨c.place, size.toNat + 9 + spare.toNat⟩, setGuards m (c.place + 8) size, ?_, ?_⟩
    · simp only [bind, Except.bind, heq, allocCheckResult, if_neg hplace]
      rfl
    · exact fresh_setGuards hplace (by simp) hroom fun a _ hin => hkeep a hin

/-- A new block lies where no block in use does. -/
theorem Fresh.not_held (hs : Sound h live) (hf : Fresh h b m size) :
    live (b.base + 8) = none := by
  by_contra hheld
  obtain ⟨r, hr⟩ := Option.ne_none_iff_exists'.mp hheld
  obtain ⟨b', hb', ho⟩ := hs.owned _ _ hr
  have hap := hf.room b' hb'
  have hbase := ho.base
  have hroom := ho.room
  have hroom' := hf.owned.room
  unfold Block.Apart at hap
  omega

/-- The functions that make a new block and write in the user's part of it. -/
theorem ends_newBlock (hs : Sound h live) (size : U32) (c : Libc) (f : Nat → Memory → Memory)
    (hf : ∀ ret m a, a < ret ∨ ret + size.toNat ≤ a → f ret m a = m a) {x : Allocated}
    (hx : x = (do
      let (ret, h) ← newBlock h size 0 c
      return (ret, { h with mem := f ret h.mem }))) :
    CallEnds live 0 size.toNat x ∧ ReturnsFresh live 0 x := by
  by_cases hsize : size.toNat ≤ MAX_ALLOC
  · have hspare : (0 : U32).toNat ≤ 1 := by decide
    rcases newBlock_spec h hsize hspare c with herr | ⟨b, m, hok, hnew⟩
    · rw [hx, herr]
      exact ⟨rfl, nofun⟩
    · rw [hx, hok]
      have hnew' := hnew.fill (hf (b.base + 8) m)
      refine ⟨(hs.forget 0).insert hnew'.room hnew'.keep hnew'.owned, fun ret h' hret _ _ => ?_⟩
      cases hret
      exact hnew'.not_held hs
  · rw [hx, newBlock, allocCheckSize, if_pos (Nat.lt_of_not_le hsize)]
    exact ⟨rfl, nofun⟩

theorem ends_ckAllocNozero (hs : Sound h live) (size : U32) (c : Libc) :
    CallEnds live 0 size.toNat (ckAllocNozero h size c) ∧
      ReturnsFresh live 0 (ckAllocNozero h size c) := by
  unfold ckAllocNozero
  split
  · exact ends_null hs _
  · exact ends_newBlock hs size c (fun _ m => m) (fun _ _ _ _ => rfl) (by simp)

theorem ends_ckAlloc (hs : Sound h live) (size : U32) (c : Libc) :
    CallEnds live 0 size.toNat (ckAlloc h size c) ∧ ReturnsFresh live 0 (ckAlloc h size c) := by
  unfold ckAlloc ckAllocNozero
  split
  · exact ends_null hs _
  · exact ends_newBlock hs size c (fun ret m => m.fill ret 0 size.toNat)
      (fun _ _ _ ha => Memory.fill_of_not_mem ha) rfl

theorem ends_ckMemdup (hs : Sound h live) (mem : Option (Nat → U8)) (size : U32) (c : Libc) :
    CallEnds live 0 size.toNat (ckMemdup h mem size c) ∧
      ReturnsFresh live 0 (ckMemdup h mem size c) := by
  cases mem with
  | none => exact ends_null hs _
  | some mem =>
    unfold ckMemdup
    dsimp only
    split
    · exact ends_null hs _
    · exact ends_newBlock hs size c (fun ret m => m.copy ret mem size.toNat)
        (fun _ _ _ ha => Memory.copy_of_not_mem ha) rfl

theorem ends_ckStrdup (hs : Sound h live) (str : List U8) (c : Libc) :
    CallEnds live 0 (BitVec.ofNat 32 (str.length + 1)).toNat (ckStrdup h (some str) c) ∧
      ReturnsFresh live 0 (ckStrdup h (some str) c) :=
  ends_newBlock hs _ c (fun ret m => m.copy ret (byteOf (str ++ [0])) _)
    (fun _ _ _ ha => Memory.copy_of_not_mem ha) rfl

/-! ### Freeing and reallocation -/

/-- A pointer that the program may pass back: `NULL`, or one that it holds. -/
def Passes (live : Nat → Option Nat) (p : Nat) : Prop := p = 0 ∨ ∃ r, live p = some r

theorem ckFree_spec (debug : Bool) (hs : Sound h live) (hp : Passes live p) (c : Libc) :
    ∃ h', ckFree debug h p c = .ok h' ∧ Sound h' fun q => if q = p then none else live q := by
  obtain rfl | ⟨r, hr⟩ := hp
  · exact ⟨h, rfl, hs.forget 0⟩
  · obtain ⟨b, hb, ho⟩ := hs.owned p r hr
    have hbase := ho.base
    have hroom := ho.room
    have hsub : p - ALLOC_OFF_HEAD = b.base := by unfold ALLOC_OFF_HEAD; omega
    set m := setC1 (if debug then h.mem.fill p 0xFF (allocS h.mem p).toNat else h.mem) p
      ALLOC_MAGIC_F with hm
    refine ⟨Heap.free { h with mem := m } b.base c.freed, ?_, ?_⟩
    · rw [ckFree, if_neg (by omega), checkPtr_of_guarded ho.toGuarded, hsub]
      rfl
    · -- both writes, of the filler and of the mark, stay inside of the block
      have hout : ∀ a, ¬ b.Holds a → m a = h.mem a := by
        intro a ha
        unfold Block.Holds at ha
        rw [hm, setC1, Memory.storeWord_of_not_mem (by omega)]
        split
        · exact Memory.fill_of_not_mem (by omega)
        · rfl
      have hdrop := hs.drop hb hout
      rw [hbase] at hdrop
      exact hdrop.of_eqOn fun b' hb' => Heap.scribble_eqOn c.freed hb'

/-- A reallocation to a size that is not zero, once the original block has been left. -/
theorem ckRealloc_eq {debug : Bool} {h h₁ : Heap} {size oldSize : U32} {c : Libc} (hne : size ≠ 0)
    (hsize : size.toNat ≤ MAX_ALLOC) (hleave : leaveOrig debug h p = .ok (oldSize, h₁))
    {x : Nat × Heap} (hplace : (if debug then h₁.malloc (size.toNat + 9) c.place c.garbage
      else h₁.realloc (p - ALLOC_OFF_HEAD) (size.toNat + 9) c.place c.garbage) = x) :
    ckRealloc debug h p size c = if x.1 = 0 then .error (.outOfMemory size) else
      let h₃ := if debug && p != 0 then moveBlock x.2 p x.1 size oldSize c else x.2
      let m := setGuards h₃.mem (x.1 + 8) size
      .ok (x.1 + 8, { h₃ with mem := zeroTail m (x.1 + 8) size oldSize }) := by
  have hcheck : allocCheckSize size = .ok () := if_neg (by omega)
  have htotal : (size + ALLOC_OFF_TOTAL).toNat = size.toNat + 9 := by
    simpa using toNat_total hsize (show (0 : U32).toNat ≤ 1 by simp)
  rw [ckRealloc, if_neg hne, hleave]
  simp only [bind, Except.bind, hcheck, htotal, hplace, allocCheckResult]
  by_cases hret : x.1 = 0
  · simp only [if_pos hret]
  · simp only [if_neg hret]
    rfl

/-- The zeroed tail lies behind the head. -/
theorem allocS_zeroTail (m : Memory) (hp : 8 ≤ p) (size oldSize : U32) :
    allocS (Spec.zeroTail (setGuards m p size) p size oldSize) p = size := by
  have hkeep : Set.EqOn (Spec.zeroTail (setGuards m p size) p size oldSize) (setGuards m p size)
      (Set.Ico (p - 8) p) := by
    intro a ha
    unfold Spec.zeroTail
    split
    · exact Memory.fill_of_not_mem (Or.inl (Nat.lt_add_right _ ha.2))
    · rfl
  rw [(head_congr hp hkeep).2, allocS_setGuards m hp size]

/-- The tail that a reallocation zeroes is part of the user's block. -/
theorem Fresh.zeroTail (hf : Fresh h b m size) (oldSize : U32) :
    Fresh h b (zeroTail m (b.base + 8) size oldSize) size := by
  unfold Spec.zeroTail
  split
  · exact hf.fill fun a ha => Memory.fill_of_not_mem (by omega)
  · exact hf

/-- What is left of the heap when the block of `p` is given up. -/
def leftBy (h : Heap) (p : Nat) : Heap := if p = 0 then h else h.drop (p - 8)

theorem leftBy_block (h : Heap) (b : Block) : leftBy h (b.base + 8) = h.drop b.base :=
  if_neg (Nat.succ_ne_zero _)

theorem mem_of_mem_leftBy (hb : b ∈ (leftBy h p).blocks) : b ∈ h.blocks := by
  unfold leftBy at hb
  split at hb
  · exact hb
  · exact (List.mem_filter.mp hb).1

theorem sound_leftBy (hs : Sound h live) (hp : Passes live p) :
    Sound (leftBy h p) fun q => if q = p then none else live q := by
  obtain rfl | ⟨r, hr⟩ := hp
  · exact hs.forget 0
  · obtain ⟨b, hb, ho⟩ := hs.owned p r hr
    obtain rfl := ho.base
    rw [leftBy_block]
    exact hs.drop hb fun _ _ => rfl

/-- The size of the block of `p`. -/
def oldSizeOf (m : Memory) (p : Nat) : U32 := if p = 0 then 0 else allocS m p

/-- A reallocation of `p` has found place for block `b`, and `m` is the memory before the tokens of
`b` are written. -/
structure Moved (h : Heap) (p : Nat) (size : U32) (b : Block) (m : Memory) : Prop where
  small : size.toNat ≤ MAX_ALLOC
  pos : b.base ≠ 0
  fits : size.toNat + 9 ≤ b.size
  room : (leftBy h p).Room b
  keep : ∀ a, ¬ b.Holds a → (∃ b' ∈ (leftBy h p).blocks, b'.Holds a) → m a = (leftBy h p).mem a
  copied : (∀ b' ∈ h.blocks, 0 < b'.size) → ∀ i < (oldSizeOf h.mem p).toNat, i < size.toNat →
    m (b.base + 8 + i) = h.mem (p + i)

/-- How a reallocation ends: with an abort that is not about tokens, or with a new block in the
place of the old one, with its tokens and a zeroed tail. -/
def Moves (h : Heap) (p : Nat) (size : U32) (x : Allocated) : Prop :=
  (∃ e, x = .error e ∧ e.isCheckPtr = false) ∨
    ∃ b m, Moved h p size b m ∧ x = .ok (b.base + 8,
      ⟨zeroTail (setGuards m (b.base + 8) size) (b.base + 8) size (oldSizeOf h.mem p),
        b :: (leftBy h p).blocks⟩)

theorem Moved.fresh (hm : Moved h p size b m) (oldSize : U32) :
    Fresh (leftBy h p) b
      (zeroTail (setGuards m (b.base + 8) size) (b.base + 8) size oldSize) size :=
  (fresh_setGuards hm.pos hm.fits hm.room hm.keep).zeroTail oldSize

/-- A reallocation of `NULL` is an allocation. -/
theorem ckRealloc_null (debug : Bool) (hne : size ≠ 0) (hsize : size.toNat ≤ MAX_ALLOC) (c : Libc) :
    Moves h 0 size (ckRealloc debug h 0 size c) := by
  have hplace : (if debug then h.malloc (size.toNat + 9) c.place c.garbage
      else h.realloc (0 - ALLOC_OFF_HEAD) (size.toNat + 9) c.place c.garbage)
      = h.malloc (size.toNat + 9) c.place c.garbage := by
    cases debug <;> rfl
  rw [ckRealloc_eq hne hsize (if_pos rfl) hplace]
  by_cases hret : (h.malloc (size.toNat + 9) c.place c.garbage).1 = 0
  · exact Or.inl ⟨_, if_pos hret, rfl⟩
  · obtain ⟨m, heq, hpos, hroom, hkeep⟩ := Heap.malloc_ne_zero hret
    have hmove : (debug && 0 != 0) = false := by simp
    rw [if_neg hret, heq, hmove]
    exact Or.inr ⟨_, m, ⟨hsize, hpos, le_rfl, hroom, fun a _ hin => hkeep a hin,
      fun _ i hi => absurd hi (Nat.not_lt_zero i)⟩, rfl⟩

/-- Leaving a block in use gives its size, and writes nothing but the magic word of its head. -/
theorem leaveOrig_spec (debug : Bool) {p r : Nat} (ho : Owned h.mem b p r) :
    (∃ e, leaveOrig debug h p = .error e ∧ e.isCheckPtr = false) ∨
      ∃ m, leaveOrig debug h p = .ok (allocS h.mem p, { h with mem := m }) ∧
        ∀ a, a < b.base ∨ b.base + 8 ≤ a → m a = h.mem a := by
  have hbase := ho.base
  have hroom := ho.room
  -- only a normal build marks the block here, and the mark stands before the recorded size
  set m := if debug then h.mem else setC1 h.mem p ALLOC_MAGIC_F with hm
  have hold : allocS m p = allocS h.mem p := by
    rw [hm]
    split
    · rfl
    · exact Memory.loadWord_congr fun a ha =>
        Memory.storeWord_of_not_mem (by have := ha.1; omega)
  have heq : leaveOrig debug h p = (do
      allocCheckSize (allocS h.mem p)
      return (allocS h.mem p, { h with mem := m })) := by
    rw [leaveOrig, if_neg (by omega), checkPtr_of_guarded ho.toGuarded, ← hold]
    rfl
  rw [heq, allocCheckSize]
  split
  · exact Or.inl ⟨_, rfl, rfl⟩
  · refine Or.inr ⟨m, rfl, fun a ha => ?_⟩
    rw [hm]
    split
    · rfl
    · exact Memory.storeWord_of_not_mem (by omega)

/-- The head of a block lies in it. -/
theorem Owned.not_head {p r : Nat} (ho : Owned m b p r) {a : Nat} (ha : ¬ b.Holds a) :
    a < b.base ∨ b.base + 8 ≤ a := by
  have hbase := ho.base
  have hroom := ho.room
  unfold Block.Holds at ha
  omega

/-- The bytes of the blocks other than `b` are not bytes of `b`. -/
theorem Sound.not_holds (hs : Sound h live) (hb : b ∈ h.blocks) {a : Nat}
    (ha : ∃ b' ∈ (h.drop b.base).blocks, b'.Holds a) : ¬ b.Holds a := by
  obtain ⟨b', hb', hin⟩ := ha
  obtain ⟨hb', hbase⟩ := List.mem_filter.mp hb'
  have hap := hs.apart_of_ne hb hb' (by rintro rfl; simp at hbase)
  exact hap.not_holds hin

section Realloc

variable {r : Nat}

/-- The move of a debug build copies the bytes, and takes the old block away. -/
theorem moveBlock_mem {ret : Nat} {oldSize : U32} (c : Libc) (hold : oldSize.toNat + 9 ≤ b.size)
    {a : Nat} (ha : ¬ b.Holds a) (hin : ∃ b' ∈ (h.drop b.base).blocks, b'.Holds a) :
    (moveBlock h (b.base + 8) ret size oldSize c).mem a
      = h.mem.copy (ret + 8) (fun i => h.mem (b.base + 8 + i))
        (min size.toNat oldSize.toNat) a := by
  unfold Block.Holds at ha
  obtain ⟨b', hb', hin⟩ := hin
  set m := h.mem.copy (ret + 8) (fun i => h.mem (b.base + 8 + i)) (min size.toNat oldSize.toNat)
  set m' := setC1 (m.fill (b.base + 8) 0xFF oldSize.toNat) (b.base + 8) ALLOC_MAGIC_F with hm'
  have hfree : (moveBlock h (b.base + 8) ret size oldSize c).mem a = m' a :=
    Heap.scribble_eqOn (h := Heap.drop { h with mem := m' } b.base) c.freed hb' hin
  rw [hfree, hm', setC1, Memory.storeWord_of_not_mem (by omega), Memory.fill_of_not_mem (by omega)]

/-- Both builds end with a new block in the place of the old one, and mark and zero it. -/
theorem moves_of {h' : Heap} {place : Nat} {x : Allocated}
    (hx : x = .ok (place + 8, ⟨zeroTail (setGuards h'.mem (place + 8) size) (place + 8) size
      (allocS h.mem (b.base + 8)), h'.blocks⟩))
    (hblocks : h'.blocks = ⟨place, size.toNat + 9⟩ :: (h.drop b.base).blocks)
    (hsize : size.toNat ≤ MAX_ALLOC) (hplace : place ≠ 0)
    (hroom : (h.drop b.base).Room ⟨place, size.toNat + 9⟩)
    (hkeep : ∀ a, ¬ Block.Holds ⟨place, size.toNat + 9⟩ a →
      (∃ b' ∈ (h.drop b.base).blocks, b'.Holds a) → h'.mem a = h.mem a)
    (hcopied : (∀ b' ∈ h.blocks, 0 < b'.size) → ∀ i < (allocS h.mem (b.base + 8)).toNat,
      i < size.toNat → h'.mem (place + 8 + i) = h.mem (b.base + 8 + i)) :
    Moves h (b.base + 8) size x := by
  rw [hblocks, ← leftBy_block] at hx
  exact Or.inr ⟨⟨place, _⟩, h'.mem, ⟨hsize, hplace, le_rfl, hroom, hkeep, hcopied⟩, hx⟩

/-- In a normal build, `realloc` moves the block. -/
theorem ckRealloc_normal (hs : Sound h live) (hb : b ∈ h.blocks)
    (ho : Owned h.mem b (b.base + 8) r) (hne : size ≠ 0) (hsize : size.toNat ≤ MAX_ALLOC)
    (c : Libc) : Moves h (b.base + 8) size (ckRealloc false h (b.base + 8) size c) := by
  have hpos := ho.pos
  have hold := ho.room
  rcases leaveOrig_spec false ho with ⟨e, he, hkind⟩ | ⟨m₁, hleave, hm₁⟩
  · exact Or.inl ⟨e, by rw [ckRealloc, if_neg hne, he]; rfl, hkind⟩
  have hend := ckRealloc_eq (c := c) hne hsize hleave rfl
  rw [if_neg Bool.false_ne_true, ALLOC_OFF_HEAD, Nat.add_sub_cancel] at hend
  by_cases hret : (Heap.realloc { h with mem := m₁ } b.base (size.toNat + 9) c.place
      c.garbage).1 = 0
  · exact Or.inl ⟨_, hend.trans (if_pos hret), rfl⟩
  · obtain ⟨m, heq, hplace, hroom, hkeep, hcopy⟩ := Heap.realloc_ne_zero (by omega) hret
    rw [if_neg hret, heq] at hend
    refine moves_of hend rfl hsize hplace hroom (fun a ha hin => ?_) fun hnonempty i hi hnew => ?_
    · exact (hkeep a ha hin).trans (hm₁ a (ho.not_head (hs.not_holds hb hin)))
    · -- `realloc` copies up to the size of the old block, which includes the head.
      have hsizeAt : Heap.sizeAt { h with mem := m₁ } b.base = b.size :=
        Heap.sizeAt_eq hs.apart hnonempty hb
      have hkept := hcopy (8 + i) (by omega) (by omega)
      rw [← Nat.add_assoc, ← Nat.add_assoc] at hkept
      exact hkept.trans (hm₁ _ (by omega))

/-- In a debug build, the contents are copied by hand. -/
theorem ckRealloc_debug (hs : Sound h live) (hb : b ∈ h.blocks)
    (ho : Owned h.mem b (b.base + 8) r) (hne : size ≠ 0) (hsize : size.toNat ≤ MAX_ALLOC)
    (c : Libc) : Moves h (b.base + 8) size (ckRealloc true h (b.base + 8) size c) := by
  have hold := ho.room
  rcases leaveOrig_spec true ho with ⟨e, he, hkind⟩ | ⟨m₁, hleave, hm₁⟩
  · exact Or.inl ⟨e, by rw [ckRealloc, if_neg hne, he]; rfl, hkind⟩
  have hmove : (true && b.base + 8 != 0) = true := by simp
  have hend := ckRealloc_eq (c := c) hne hsize hleave rfl
  rw [if_pos rfl, if_pos hmove] at hend
  by_cases hret : (Heap.malloc { h with mem := m₁ } (size.toNat + 9) c.place c.garbage).1 = 0
  · exact Or.inl ⟨_, hend.trans (if_pos hret), rfl⟩
  · obtain ⟨m, heq, hplace, hroom, hkeep⟩ := Heap.malloc_ne_zero hret
    rw [if_neg hret, heq] at hend
    -- the old block is still in use when the new one is made, so they are apart
    have hap := hroom b hb
    unfold Block.Apart at hap
    dsimp only at hap
    set h₂ : Heap := ⟨m, ⟨c.place, size.toNat + 9⟩ :: h.blocks⟩ with hh₂
    have hblocks : (h₂.drop b.base).blocks
        = ⟨c.place, size.toNat + 9⟩ :: (h.drop b.base).blocks := by
      have hbase : c.place ≠ b.base := by omega
      simp [hh₂, Heap.drop, hbase]
    refine moves_of hend hblocks hsize hplace
      (fun b' hb' => hroom b' (List.mem_filter.mp hb').1) (fun a ha hin => ?_) fun _ i hi hnew => ?_
    · have hout := hs.not_holds hb hin
      unfold Block.Holds at ha
      obtain ⟨b', hb', hin⟩ := hin
      have hmoved : b' ∈ (h₂.drop b.base).blocks := hblocks ▸ List.mem_cons_of_mem _ hb'
      rw [moveBlock_mem c (by omega) hout ⟨b', hmoved, hin⟩,
        Memory.copy_of_not_mem (by dsimp only at ha ⊢; omega)]
      exact (hkeep a ⟨b', (List.mem_filter.mp hb').1, hin⟩).trans (hm₁ a (ho.not_head hout))
    · have hnewBlock : (⟨c.place, size.toNat + 9⟩ : Block) ∈ (h₂.drop b.base).blocks :=
        hblocks ▸ List.mem_cons_self
      have hout : ¬ b.Holds (c.place + 8 + i) := by
        unfold Block.Holds
        omega
      have hin : Block.Holds ⟨c.place, size.toNat + 9⟩ (c.place + 8 + i) := by
        constructor <;> dsimp only <;> omega
      rw [moveBlock_mem c (by omega) hout ⟨_, hnewBlock, hin⟩,
        Memory.copy_of_mem (by dsimp only; omega) (by dsimp only; omega), Nat.add_sub_cancel_left]
      exact (hkeep _ ⟨b, hb, by omega, by omega⟩).trans (hm₁ _ (by omega))

end Realloc

/-- A request that is too large is refused. -/
theorem ckRealloc_of_gt (debug : Bool) (hs : Sound h live) (hp : Passes live p)
    (hsize : MAX_ALLOC < size.toNat) (c : Libc) :
    ∃ e, ckRealloc debug h p size c = .error e ∧ e.isCheckPtr = false := by
  have hne : size ≠ 0 := by
    rintro rfl
    exact absurd hsize (Nat.not_lt_zero _)
  have hcheck : allocCheckSize size = .error (.badRequest size) := if_pos hsize
  rw [ckRealloc, if_neg hne]
  have hleave : (∃ e, leaveOrig debug h p = .error e ∧ e.isCheckPtr = false) ∨
      ∃ x, leaveOrig debug h p = .ok x := by
    obtain rfl | ⟨r, hr⟩ := hp
    · exact Or.inr ⟨_, if_pos rfl⟩
    · obtain ⟨b, -, ho⟩ := hs.owned p r hr
      exact (leaveOrig_spec debug ho).imp_right fun ⟨m, hm, _⟩ => ⟨_, hm⟩
  obtain ⟨e, he, hkind⟩ | ⟨x, hx⟩ := hleave
  · exact ⟨e, by rw [he]; rfl, hkind⟩
  · exact ⟨_, by rw [hx, hcheck]; rfl, rfl⟩

/-- A reallocation to a size that is not zero puts a new block in the place of the old one. -/
theorem ckRealloc_moves (debug : Bool) (hs : Sound h live) (hp : Passes live p) (hne : size ≠ 0)
    (c : Libc) : Moves h p size (ckRealloc debug h p size c) := by
  by_cases hsize : MAX_ALLOC < size.toNat
  · exact Or.inl (ckRealloc_of_gt debug hs hp hsize c)
  have hsize : size.toNat ≤ MAX_ALLOC := by omega
  obtain rfl | ⟨r, hr⟩ := hp
  · exact ckRealloc_null debug hne hsize c
  · obtain ⟨b, hb, ho⟩ := hs.owned p r hr
    obtain rfl := ho.base
    cases debug
    · exact ckRealloc_normal hs hb ho hne hsize c
    · exact ckRealloc_debug hs hb ho hne hsize c

theorem ends_ckRealloc (debug : Bool) (hs : Sound h live) (hp : Passes live p) (size : U32)
    {r : Nat} (hr : r ≤ size.toNat) (c : Libc) :
    CallEnds live p r (ckRealloc debug h p size c) ∧
      ReturnsFresh live p (ckRealloc debug h p size c) := by
  by_cases hne : size = 0
  · obtain ⟨h', hfree, hs'⟩ := ckFree_spec debug hs hp c
    rw [ckRealloc, if_pos hne, hfree]
    refine ⟨by simpa [CallEnds] using hs', fun ret h₁ hok hret => ?_⟩
    cases hok
    exact absurd rfl hret
  · rcases ckRealloc_moves debug hs hp hne c with ⟨e, he, hkind⟩ | ⟨b, m, hmoved, hok⟩
    · rw [he]
      exact ⟨hkind, nofun⟩
    · rw [hok]
      have hnew := hmoved.fresh (oldSizeOf h.mem p)
      have hleft := sound_leftBy hs hp
      refine ⟨hleft.insert hnew.room hnew.keep (hnew.meets hr), fun ret h₁ hret _ horig => ?_⟩
      cases hret
      have hnone := hnew.not_held hleft
      rwa [if_neg horig] at hnone

/-- `ck_realloc_block` of a pointer in use passes its check. -/
theorem ckReallocBlock_eq (debug : Bool) (hs : Sound h live) (hp : Passes live p) (size : U32)
    (c : Libc) :
    ckReallocBlock debug h p size c =
      if debug || p == 0 then ckRealloc debug h p size c
      else if (allocS h.mem p).toNat ≥ size.toNat then .ok (p, h)
      else ckRealloc debug h p (size + ALLOC_BLK_INC) c := by
  unfold ckReallocBlock
  split
  · rfl
  · rename_i hcase
    have hne : p ≠ 0 := by
      rintro rfl
      simp at hcase
    obtain ⟨r, hr⟩ := hp.resolve_left hne
    obtain ⟨b, -, ho⟩ := hs.owned p r hr
    rw [checkPtr_of_guarded ho.toGuarded]
    rfl

theorem toNat_add_blkInc (size : U32) :
    (size + ALLOC_BLK_INC).toNat = (size.toNat + 256) % 2 ^ 32 := by
  have hblk : ALLOC_BLK_INC.toNat = 256 := rfl
  rw [BitVec.toNat_add, hblk]

theorem toNat_add_blkInc_of_le (hsize : size.toNat ≤ 2 * MAX_ALLOC) :
    (size + ALLOC_BLK_INC).toNat = size.toNat + 256 := by
  have hmax : MAX_ALLOC = 1073741824 := rfl
  rw [toNat_add_blkInc, Nat.mod_eq_of_lt (by omega)]

theorem ends_ckReallocBlock (debug : Bool) (hs : Sound h live) (hp : Passes live p)
    (hsize : size.toNat ≤ MAX_ALLOC) (c : Libc) :
    CallEnds live p size.toNat (ckReallocBlock debug h p size c) := by
  rw [ckReallocBlock_eq debug hs hp]
  split
  next => exact (ends_ckRealloc debug hs hp size le_rfl c).1
  next hcase =>
    split
    next hfits =>
      -- the block is returned as it is, for the new request
      have hne : p ≠ 0 := by
        rintro rfl
        simp at hcase
      obtain ⟨r, hr⟩ := hp.resolve_left hne
      obtain ⟨b, hb, ho⟩ := hs.owned p r hr
      have htouch := (hs.forget p).touch hb (m := h.mem) (fun _ _ => rfl) (ho.mono hfits)
      simpa [CallEnds, hne] using htouch
    next =>
      have hinc := toNat_add_blkInc_of_le (show size.toNat ≤ _ by omega)
      exact (ends_ckRealloc debug hs hp _ (by omega) c).1

end Functions

/-! ### Programs -/

/-- A use of the allocator that is legitimate in state `s`: the program passes back pointers that it
holds, asks for at most `MAX_ALLOC` bytes and writes inside of what it asked for. -/
def Legitimate (s : AllocState) : AllocOp → Prop
  | .alloc size | .allocNozero size => size.toNat ≤ MAX_ALLOC
  | .realloc orig size | .reallocBlock orig size => Passes s.live orig ∧ size.toNat ≤ MAX_ALLOC
  | .strdup str => ∀ t ∈ str, t.length + 1 ≤ MAX_ALLOC
  | .memdup _ size | .memdupStr _ size => size.toNat ≤ MAX_ALLOC
  | .free mem => Passes s.live mem
  | .write ptr offset _ => ∃ r, s.live ptr = some r ∧ offset < r

/-- The operation is a `ck_memdup_str` that makes a copy: neither the text nor its size is null. -/
def CopiesText : AllocOp → Prop
  | .memdupStr mem size => mem ≠ none ∧ size ≠ 0
  | _ => False

/-- Every pointer that the program holds has its tokens. -/
def AllGuarded (s : AllocState) : Prop := ∀ p r, s.live p = some r → Guarded s.heap.mem p r

theorem Sound.allGuarded (hs : Sound s.heap s.live) : AllGuarded s := by
  intro p r hp
  obtain ⟨b, -, ho⟩ := hs.owned p r hp
  exact ho.toGuarded

/-- How a step of the program may end. -/
def StepEnds : Except AllocAbort AllocState → Prop
  | .ok s => Sound s.heap s.live
  | .error e => e.isCheckPtr = false

/-- A call followed by its bookkeeping. -/
theorem stepEnds_of_ends {orig size : Nat} {x : Allocated} (hx : CallEnds s.live orig size x) :
    StepEnds (do
      let (ret, h) ← x
      return s.hold orig ret size h) := by
  cases x with
  | error e => exact hx
  | ok y => exact hx

/-- A write in the part of a block that was asked for. -/
theorem sound_write (hs : Sound s.heap s.live) {p r i : Nat} (hp : s.live p = some r) (hi : i < r)
    (v : U8) :
    Sound { s.heap with mem := s.heap.mem.write (p + i) v } s.live := by
  obtain ⟨b, hb, ho⟩ := hs.owned p r hp
  have hbase := ho.base
  have hroom := ho.room
  have hsize := ho.size
  have hkept : Owned (s.heap.mem.write (p + i) v) b p r := by
    apply ho.of_eqOn
    · intro a ha
      have := ha.2
      exact Memory.write_of_ne (by omega)
    · exact Memory.write_of_ne (by omega)
  have htouch := hs.touch hb (m := s.heap.mem.write (p + i) v) (fun a ha => by
    unfold Block.Holds at ha
    exact Memory.write_of_ne (by omega)) hkept
  convert htouch using 2 with q
  split
  next heq => rw [heq, hp]
  next => rfl

/-- Every legitimate step but a copy of text keeps the heap sound. -/
theorem stepEnds_step (debug : Bool) (hs : Sound s.heap s.live) {op : AllocOp}
    (hop : Legitimate s op) (htext : ¬ CopiesText op) (c : Libc) :
    StepEnds (s.step debug op c) := by
  cases op with
  | alloc size => exact stepEnds_of_ends (ends_ckAlloc hs size c).1
  | allocNozero size => exact stepEnds_of_ends (ends_ckAllocNozero hs size c).1
  | realloc orig size => exact stepEnds_of_ends (ends_ckRealloc debug hs hop.1 size le_rfl c).1
  | reallocBlock orig size => exact stepEnds_of_ends (ends_ckReallocBlock debug hs hop.1 hop.2 c)
  | strdup str =>
    cases str with
    | none => exact stepEnds_of_ends (ends_null hs 0).1
    | some t =>
      have hmax : MAX_ALLOC = 1073741824 := rfl
      have hlen : t.length + 1 ≤ MAX_ALLOC := hop t rfl
      have hend := (ends_ckStrdup hs t c).1
      rw [BitVec.toNat_ofNat, Nat.mod_eq_of_lt (by omega)] at hend
      exact stepEnds_of_ends hend
  | memdup mem size => exact stepEnds_of_ends (ends_ckMemdup hs mem size c).1
  | memdupStr mem size =>
    -- without a text to copy, the function returns before it makes a block
    have hnull : ckMemdupStr s.heap mem size c = .ok (0, s.heap) := by
      cases mem with
      | none => rfl
      | some mem =>
        have hzero : size = 0 := by
          by_contra hne
          exact htext ⟨Option.some_ne_none _, hne⟩
        exact if_pos hzero
    have hend := stepEnds_of_ends (ends_null hs size.toNat).1
    rw [← hnull] at hend
    exact hend
  | free mem =>
    obtain ⟨h', hfree, hs'⟩ := ckFree_spec debug hs hop c
    simp only [AllocState.step, hfree]
    simpa [StepEnds, bind, Except.bind, pure, Except.pure, AllocState.hold] using hs'
  | write ptr offset v =>
    obtain ⟨r, hr, hi⟩ := hop
    exact sound_write hs hr hi v

/-- A copy of text leaves a zero in the place of the tail token. -/
theorem step_memdupStr (debug : Bool) (s : AllocState) (mem : Nat → U8) {size : U32}
    (hne : size ≠ 0) (hsize : size.toNat ≤ MAX_ALLOC) (c : Libc) :
    s.step debug (.memdupStr (some mem) size) c = .error (.outOfMemory size) ∨
      ∃ s', s.step debug (.memdupStr (some mem) size) c = .ok s' ∧
        ∃ p, s'.live p = some size.toNat ∧ allocC2 s'.heap.mem p = 0 := by
  have hstep : s.step debug (.memdupStr (some mem) size) c = (do
      let (ret, h) ← newBlock s.heap size 1 c
      let m := (h.mem.copy ret mem size.toNat).write (ret + size.toNat) 0
      return s.hold 0 ret size.toNat { h with mem := m }) := by
    simp only [AllocState.step, ckMemdupStr, if_neg hne, bind, Except.bind]
    cases newBlock s.heap size 1 c <;> rfl
  rw [hstep]
  have hspare : (1 : U32).toNat ≤ 1 := by decide
  rcases newBlock_spec s.heap hsize hspare c with herr | ⟨b, m, hok, hnew⟩
  · rw [herr]
    exact Or.inl rfl
  · rw [hok]
    refine Or.inr ⟨_, rfl, b.base + 8, ?_, ?_⟩
    · simp [AllocState.hold]
    · -- the head is that of the new block, so the tail is looked for right behind the text
      have hrec : allocS ((m.copy (b.base + 8) mem size.toNat).write (b.base + 8 + size.toNat) 0)
          (b.base + 8) = size := by
        refine (head_congr (by omega) fun a ha => ?_).2.trans hnew.recorded
        have := ha.2
        rw [Memory.write_of_ne (by omega), Memory.copy_of_not_mem (by omega)]
      show allocC2 ((m.copy (b.base + 8) mem size.toNat).write (b.base + 8 + size.toNat) 0)
        (b.base + 8) = 0
      rw [allocC2, hrec, Memory.write_self]

/-! ### Runs -/

/-- The states that a sequence of operations leads through, and the abort that ends it, if one
does. -/
def allocRun (debug : Bool) : AllocState → List (AllocOp × Libc) →
    List AllocState × Option AllocAbort
  | s, [] => ([s], none)
  | s, (op, c) :: ops =>
    match s.step debug op c with
    | .ok s' => let (ss, e) := allocRun debug s' ops; (s :: ss, e)
    | .error e => ([s], some e)

/-- The operations of the run that are made before it ends. -/
def operationsMade (debug : Bool) : AllocState → List (AllocOp × Libc) → List AllocOp
  | _, [] => []
  | s, (op, c) :: ops =>
    op :: match s.step debug op c with
      | .ok s' => operationsMade debug s' ops
      | .error _ => []

/-- Every operation is legitimate in its state, and the C library does not run out of memory. -/
def LegitimateRun (debug : Bool) : AllocState → List (AllocOp × Libc) → Prop
  | _, [] => True
  | s, (op, c) :: ops => Legitimate s op ∧
    match s.step debug op c with
    | .ok s' => LegitimateRun debug s' ops
    | .error e => ∀ size, e ≠ .outOfMemory size

/-- The tokens are in place in every state of the run, and it does not end with an abort of
`CHECK_PTR`. -/
def Accepted (run : List AllocState × Option AllocAbort) : Prop :=
  (∀ s ∈ run.1, AllGuarded s) ∧ ∀ e ∈ run.2, e.isCheckPtr = false

theorem mem_allocRun_self (debug : Bool) (s : AllocState) (ops : List (AllocOp × Libc)) :
    s ∈ (allocRun debug s ops).1 := by
  cases ops with
  | nil => exact List.mem_cons_self
  | cons x ops =>
    obtain ⟨op, c⟩ := x
    unfold allocRun
    split <;> exact List.mem_cons_self

/-- A copy of text is followed by a state with a pointer without its tail token. -/
theorem not_accepted_of_copiesText {debug : Bool} {op : AllocOp} {c : Libc}
    {ops : List (AllocOp × Libc)} (hop : Legitimate s op) (htext : CopiesText op)
    (hrest : match s.step debug op c with
      | .ok s' => LegitimateRun debug s' ops
      | .error e => ∀ size, e ≠ .outOfMemory size) :
    ¬ Accepted (allocRun debug s ((op, c) :: ops)) := by
  rintro ⟨hall, -⟩
  cases op with
  | memdupStr mem size =>
    obtain ⟨hmem, hne⟩ := htext
    obtain ⟨mem, rfl⟩ := Option.ne_none_iff_exists'.mp hmem
    rcases step_memdupStr debug s mem hne hop c with herr | ⟨s', hok, p, hp, htail⟩
    · rw [herr] at hrest
      exact hrest size rfl
    · -- the state right after the copy is a state of the run, whatever follows
      have hs' : s' ∈ (allocRun debug s ((.memdupStr (some mem) size, c) :: ops)).1 := by
        simp only [allocRun, hok]
        exact List.mem_cons_of_mem _ (mem_allocRun_self debug s' ops)
      have htoken := (hall s' hs' p _ hp).tail
      rw [htail] at htoken
      exact absurd htoken (by decide)
  | _ => exact htext

/-- From a sound heap, the allocator accepts a legitimate run if and only if no text is copied in
it. -/
theorem accepted_run_iff (debug : Bool) (hs : Sound s.heap s.live) {ops : List (AllocOp × Libc)}
    (hops : LegitimateRun debug s ops) :
    Accepted (allocRun debug s ops) ↔ ∀ op ∈ operationsMade debug s ops, ¬ CopiesText op := by
  -- over the operations, with the state before them free: a step keeps the heap sound, and a copy
  -- of text makes both sides false at once
  induction ops generalizing s with
  | nil => simpa [Accepted, allocRun, operationsMade] using hs.allGuarded
  | cons x ops ih =>
    obtain ⟨op, c⟩ := x
    obtain ⟨hop, hrest⟩ := hops
    by_cases htext : CopiesText op
    · have hbad := not_accepted_of_copiesText hop htext hrest
      have hmade : op ∈ operationsMade debug s ((op, c) :: ops) := List.mem_cons_self
      exact iff_of_false hbad fun hall => hall op hmade htext
    · have hend := stepEnds_step debug hs hop htext c
      cases hstep : s.step debug op c with
      | error e =>
        rw [hstep] at hend
        have hkind : e.isCheckPtr = false := hend
        simp [Accepted, allocRun, operationsMade, hstep, htext, hkind, hs.allGuarded]
      | ok s' =>
        rw [hstep] at hend hrest
        have hnext := ih hend hrest
        simp only [allocRun, operationsMade, hstep, List.forall_mem_cons, htext,
          not_false_eq_true, true_and, ← hnext]
        simp [Accepted, hs.allGuarded]

/-- A program before its first allocation. -/
def noAllocations (m : Memory) : AllocState := ⟨⟨m, []⟩, fun _ => none⟩

/-- In both builds, for every legitimate sequence of calls and writes: the tokens of all pointers
are in place in every state, and `CHECK_PTR` does not abort, if and only if `ck_memdup_str` is never
called for a text of at least one byte. -/
theorem allocator_accepts_iff (debug : Bool) (m : Memory) (ops : List (AllocOp × Libc))
    (hops : LegitimateRun debug (noAllocations m) ops) :
    Accepted (allocRun debug (noAllocations m) ops) ↔
      ∀ op ∈ operationsMade debug (noAllocations m) ops, ¬ CopiesText op := by
  have hstart : Sound (noAllocations m).heap (noAllocations m).live :=
    ⟨List.Pairwise.nil, fun _ _ hp => by cases hp⟩
  exact accepted_run_iff debug hstart hops

/-- A C library that gives out the block at address 64. -/
def libcAt64 : Libc := ⟨64, fun _ => 0, fun _ => 0⟩

/-- A buffer is allocated, written, asked for in a larger size and freed. -/
def growBuffer : List (AllocOp × Libc) :=
  [(.alloc 4, libcAt64), (.write 72 3 0x41, libcAt64), (.reallocBlock 72 6, libcAt64),
    (.free 72, libcAt64)]

theorem allocator_accepts_iff_growBuffer :
    LegitimateRun false (noAllocations fun _ => 0) growBuffer ∧
      Accepted (allocRun false (noAllocations fun _ => 0) growBuffer) := by
  have hlegit : LegitimateRun false (noAllocations fun _ => 0) growBuffer :=
    ⟨show 4 ≤ MAX_ALLOC by decide, ⟨4, rfl, by decide⟩, ⟨Or.inr ⟨4, rfl⟩, by decide⟩,
      Or.inr ⟨6, rfl⟩, trivial⟩
  have hmade : operationsMade false (noAllocations fun _ => 0) growBuffer
      = [.alloc 4, .write 72 3 0x41, .reallocBlock 72 6, .free 72] := rfl
  refine ⟨hlegit, (allocator_accepts_iff false _ _ hlegit).mpr ?_⟩
  rw [hmade]
  simp [CopiesText]

/-- A text of one byte is copied, and the copy is freed. -/
def copyText : List (AllocOp × Libc) :=
  [(.memdupStr (some fun _ => 0x41) 1, libcAt64), (.free 72, libcAt64)]

theorem copyText_not_accepted :
    LegitimateRun false (noAllocations fun _ => 0) copyText ∧
      (allocRun false (noAllocations fun _ => 0) copyText).2 = some .corruptedTail ∧
      ¬ Accepted (allocRun false (noAllocations fun _ => 0) copyText) := by
  have habort : (allocRun false (noAllocations fun _ => 0) copyText).2 = some .corruptedTail := by
    decide +kernel
  refine ⟨⟨show 1 ≤ MAX_ALLOC by decide, Or.inr ⟨1, rfl⟩, fun _ => nofun⟩, habort, ?_⟩
  rintro ⟨-, hend⟩
  exact absurd (hend _ habort) (by decide)

end TriforceAFL.Proofs
