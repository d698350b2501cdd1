import TriforceAFL.Proofs.Alloc
import TriforceAFL.Spec.AutoTable

/-!
# `TriforceAFL.Proofs.AllocContents`: what a reallocated block holds

A reallocation keeps the bytes that fit, and zeroes the tail that it adds, in both builds. The new
block is recorded with its own size, so the next reallocation knows where its tail starts.

`maybe_add_auto` relies on it: nothing assigns the hit count of a token that is appended.
`ckReallocBlock_hitCnt` takes the reallocation of `a_extras` from the heap to the elements.
-/

set_option autoImplicit false

namespace TriforceAFL.Proofs

open Lib Spec

/-! ### Bytes -/

/-- The bytes behind pointer `p`, as many as its head records. There are none behind `NULL`. -/
def contents (m : Memory) (p : Nat) : List U8 :=
  if p = 0 then [] else (List.range (allocS m p).toNat).map fun i => m (p + i)

/-- `old` cut down to `n` elements, or filled up with `zero`. -/
def resized {α : Type} (zero : α) (old : List α) (n : Nat) : List α :=
  old.take n ++ List.replicate (n - old.length) zero

theorem length_contents {m : Memory} {p : Nat} (hp : p ≠ 0) :
    (contents m p).length = (allocS m p).toNat := by
  unfold contents
  rw [if_neg hp, List.length_map, List.length_range]

theorem getElem?_contents {m : Memory} {p i : Nat} (hp : p ≠ 0) (hi : i < (allocS m p).toNat) :
    (contents m p)[i]? = some (m (p + i)) := by
  unfold contents
  rw [if_neg hp, List.getElem?_map, List.getElem?_range hi]
  rfl

theorem length_resized {α : Type} (zero : α) (old : List α) (n : Nat) :
    (resized zero old n).length = n := by
  unfold resized
  rw [List.length_append, List.length_take, List.length_replicate]
  omega

theorem getElem?_resized {α : Type} (zero : α) (old : List α) {n i : Nat} (hi : i < n) :
    (resized zero old n)[i]? = if i < old.length then old[i]? else some zero := by
  unfold resized
  split
  · rename_i hold
    rw [List.getElem?_append_left (by rw [List.length_take]; omega), List.getElem?_take_of_lt hi]
  · rename_i hold
    rw [List.getElem?_append_right (by rw [List.length_take]; omega), List.getElem?_replicate,
      if_pos (by rw [List.length_take]; omega)]

/-! ### `ck_realloc` -/

section Realloc
variable {h : Heap} {live : Nat → Option Nat} {size : U32}

/-- The end of `ck_realloc`: the guards and the zeroed tail, behind the bytes that were kept. -/
theorem contents_zeroTail {m : Memory} {place : Nat} {oldSize : U32} {old : List U8}
    (hlen : old.length = oldSize.toNat)
    (hcopy : ∀ i, i < old.length → i < size.toNat → old[i]? = some (m (place + 8 + i))) :
    contents (zeroTail (setGuards m (place + 8) size) (place + 8) size oldSize) (place + 8)
      = resized 0 old size.toNat := by
  have hbyte : ∀ a, place + 8 ≤ a → a < place + 8 + size.toNat →
      setGuards m (place + 8) size a = m a := by
    intro a hlo hhi
    rw [setGuards_eq, Memory.write_of_ne (by omega), Memory.storeWord_of_not_mem (by omega), setC1,
      Memory.storeWord_of_not_mem (by omega)]
  have hout : ∀ a, a < place + 8 + oldSize.toNat →
      zeroTail (setGuards m (place + 8) size) (place + 8) size oldSize a
        = setGuards m (place + 8) size a := by
    intro a ha
    unfold zeroTail
    split
    · exact Memory.fill_of_not_mem (Or.inl ha)
    · rfl
  have hsize := allocS_zeroTail m (Nat.le_add_left 8 place) size oldSize
  -- A byte of the new block was copied, or lies in the tail.
  apply List.ext_getElem?
  intro i
  by_cases hi : i < size.toNat
  · rw [getElem?_contents (by omega) (by rw [hsize]; exact hi), getElem?_resized 0 old hi]
    split
    · rename_i hold
      rw [hout _ (by omega), hbyte _ (by omega) (by omega), hcopy i hold hi]
    · rename_i hold
      unfold zeroTail
      rw [if_pos (by omega)]
      exact congrArg some (if_pos ⟨by omega, by omega⟩)
  · rw [List.getElem?_eq_none, List.getElem?_eq_none]
    · rw [length_resized]
      omega
    · rw [length_contents (by omega), hsize]
      omega

/-- A block that is reallocated keeps the bytes that fit, and its tail is zeroed. -/
theorem contents_ckRealloc (debug : Bool) (hs : Sound h live) (hpos : ∀ b ∈ h.blocks, 0 < b.size)
    {p : Nat} (hp : Passes live p) (hne : size ≠ 0) {c : Libc} {ret : Nat} {h' : Heap}
    (hok : ckRealloc debug h p size c = .ok (ret, h')) :
    contents h'.mem ret = resized 0 (contents h.mem p) size.toNat := by
  rcases ckRealloc_moves debug hs hp hne c with ⟨e, he, _⟩ | ⟨b, m, hmoved, heq⟩
  · rw [he] at hok
    cases hok
  rw [heq] at hok
  cases hok
  by_cases hnull : p = 0
  · subst hnull
    exact contents_zeroTail rfl fun i hi => absurd hi (Nat.not_lt_zero i)
  · have hold : oldSizeOf h.mem p = allocS h.mem p := if_neg hnull
    rw [hold]
    refine contents_zeroTail (length_contents hnull) fun i hi hnew => ?_
    rw [length_contents hnull] at hi
    rw [getElem?_contents hnull hi, hmoved.copied hpos i (by rwa [hold]) hnew]

/-- What `ck_realloc_block` leaves behind the pointer: a block that is large enough stays as it
is. -/
theorem contents_ckReallocBlock (debug : Bool) (hs : Sound h live)
    (hpos : ∀ b ∈ h.blocks, 0 < b.size) {p : Nat} (hp : Passes live p) (hne : size ≠ 0)
    (hsize : size.toNat ≤ MAX_ALLOC) {c : Libc} {ret : Nat} {h' : Heap}
    (hok : ckReallocBlock debug h p size c = .ok (ret, h')) :
    contents h'.mem ret =
      if debug || p == 0 then resized 0 (contents h.mem p) size.toNat
      else if (contents h.mem p).length ≥ size.toNat then contents h.mem p
      else resized 0 (contents h.mem p) (size.toNat + 256) := by
  rw [ckReallocBlock_eq debug hs hp] at hok
  split at hok
  · rename_i hcase
    rw [if_pos hcase]
    exact contents_ckRealloc debug hs hpos hp hne hok
  · rename_i hcase
    have hp0 : p ≠ 0 := by
      rintro rfl
      simp at hcase
    rw [if_neg hcase, length_contents hp0]
    split at hok
    · rename_i hfits
      cases hok
      rw [if_pos hfits]
    · rename_i hfits
      have hinc := toNat_add_blkInc_of_le (show size.toNat ≤ _ by omega)
      have hne' : size + ALLOC_BLK_INC ≠ 0 := by
        intro hzero
        rw [hzero] at hinc
        exact absurd hinc (by simp)
      rw [if_neg hfits, ← hinc]
      exact contents_ckRealloc debug hs hpos hp hne' hok

end Realloc

/-! ### The elements of `a_extras` -/

/-- The member `hit_cnt` of element `i`. A `struct extra_data` has a pointer and two `u32`. -/
def hitCntAt (bytes : List U8) (i : Nat) : U32 := load 4 bytes (16 * i + 12)

/-- The bytes are those of an array of elements with the hit counts of `slots`. -/
structure HitsIn (bytes : List U8) (slots : List Extra) : Prop where
  length : bytes.length = 16 * slots.length
  hits : ∀ i e, slots[i]? = some e → (hitCntAt bytes i).toNat = e.hitCnt

/-- A word is determined by its four bytes. -/
theorem load_congr {l l' : List U8} {i j : Nat}
    (h : ∀ k < 4, byteOf l (i + k) = byteOf l' (j + k)) :
    load 4 l i = load 4 l' j := by
  apply eq_of_byteAt_eq
  intro k hk
  rw [byteAt_load _ _ _ hk, byteAt_load _ _ _ hk, h k hk]

/-- Resizing the bytes is resizing the array, with zeroed elements. -/
theorem HitsIn.resized {bytes : List U8} {slots : List Extra} (h : HitsIn bytes slots) (n : Nat) :
    HitsIn (resized 0 bytes (16 * n)) (AutoBlock.ckRealloc slots n) := by
  have hslots : AutoBlock.ckRealloc slots n = Proofs.resized AutoBlock.zeroSlot slots n := rfl
  have hblen := h.length
  rw [hslots]
  refine ⟨?_, ?_⟩
  · rw [length_resized, length_resized]
  · intro i e he
    have hi : i < n := by
      obtain ⟨hlt, _⟩ := List.getElem?_eq_some_iff.mp he
      rwa [length_resized] at hlt
    have hbyte : ∀ k < 4, byteOf (Proofs.resized 0 bytes (16 * n)) (16 * i + 12 + k) =
        if i < slots.length then byteOf bytes (16 * i + 12 + k) else 0 := by
      intro k hk
      unfold byteOf
      rw [List.getD_eq_getElem?_getD, List.getD_eq_getElem?_getD,
        getElem?_resized 0 bytes (by omega)]
      by_cases hold : i < slots.length
      · rw [if_pos (by omega), if_pos hold]
      · rw [if_neg (by omega), if_neg hold]
        rfl
    rw [getElem?_resized _ _ hi] at he
    unfold hitCntAt
    split at he
    · rename_i hold
      rw [← h.hits i e he]
      refine congrArg BitVec.toNat (load_congr ?_)
      intro k hk
      rw [hbyte k hk, if_pos hold]
    · rename_i hnew
      cases he
      have hzero : load 4 (Proofs.resized 0 bytes (16 * n)) (16 * i + 12)
          = load 4 [] 0 := by
        refine load_congr ?_
        intro k hk
        rw [hbyte k hk, if_neg hnew]
        rfl
      rw [hzero]
      rfl

/-- The reallocation of `a_extras` on the heap does to the hit counts what the model of the table
does: those in the block stay, and all that come in addition are zero. -/
theorem ckReallocBlock_hitCnt (debug : Bool) {h : Heap} {live : Nat → Option Nat}
    (hs : Sound h live) (hpos : ∀ b ∈ h.blocks, 0 < b.size) {p : Nat} (hp : Passes live p)
    {slots : List Extra} (hslots : HitsIn (contents h.mem p) slots) (hnull : p = 0 ↔ slots = [])
    {n : Nat} (hn : n ≠ 0) (hsmall : 16 * n ≤ MAX_ALLOC) {c : Libc} {ret : Nat} {h' : Heap}
    (hok : ckReallocBlock debug h p (BitVec.ofNat 32 (16 * n)) c = .ok (ret, h')) :
    HitsIn (contents h'.mem ret) (AutoBlock.ckReallocBlock debug slots n) := by
  have hmax : MAX_ALLOC = 1073741824 := rfl
  have hnat : (BitVec.ofNat 32 (16 * n)).toNat = 16 * n := by
    rw [BitVec.toNat_ofNat, Nat.mod_eq_of_lt (by omega)]
  have hne : BitVec.ofNat 32 (16 * n) ≠ 0 := by
    intro hzero
    rw [hzero] at hnat
    exact hn (by simpa using hnat.symm)
  have hcontents := contents_ckReallocBlock debug hs hpos hp hne (hnat.trans_le hsmall) hok
  have hcase : (debug || p == 0) = (debug || slots.isEmpty) := by
    rw [Bool.eq_iff_iff, Bool.or_eq_true, Bool.or_eq_true, beq_iff_eq, hnull, List.isEmpty_iff]
  rw [hcontents, hcase, hnat, hslots.length]
  unfold AutoBlock.ckReallocBlock
  split
  · exact hslots.resized n
  · by_cases hroom : slots.length ≥ n
    · rw [if_pos (by omega), if_pos hroom]
      exact hslots
    · -- `ALLOC_BLK_INC` is a multiple of the size of an element.
      have hblk : 16 * n + 256 = 16 * (n + 16) := by omega
      rw [if_neg (by omega), if_neg hroom, hblk]
      exact hslots.resized (n + 16)

end TriforceAFL.Proofs
