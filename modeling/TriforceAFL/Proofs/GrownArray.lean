import TriforceAFL.Proofs.AllocContents

/-!
# `TriforceAFL.Proofs.GrownArray`: arrays that grow by one element

`extras`, `a_extras` and the lists of the allocation tracker start as `NULL` and are given to
`ck_realloc_block` each time they get a new element. In a normal build the block is made larger than
asked for, and later calls return it as it is. So the recorded size runs ahead of the elements, and
a new element may have been zeroed long before it is asked for.

The invariant `GrowInv` covers the whole block: a byte holds what was last written to it, which is
zero for a byte that was not yet asked for.
-/

set_option autoImplicit false

namespace TriforceAFL.Proofs

open Lib Spec

/-- An array on the heap, with the number of its elements. -/
structure GrownArray where
  heap : Heap
  ptr : Nat
  count : Nat

/-- What a program does with the array: it asks for one more element, or writes a byte at an offset
from the start. -/
inductive GrowOp where
  | grow (c : Libc)
  | write (offset : Nat) (v : U8)

/-- One step of a program whose elements have `width` bytes. -/
def GrownArray.step (debug : Bool) (width : Nat) (a : GrownArray) :
    GrowOp → Except AllocAbort GrownArray
  | .grow c => do
    let size := BitVec.ofNat 32 ((a.count + 1) * width)
    let (ptr, heap) ← ckReallocBlock debug a.heap a.ptr size c
    return ⟨heap, ptr, a.count + 1⟩
  | .write offset v =>
    .ok { a with heap := { a.heap with mem := a.heap.mem.write (a.ptr + offset) v } }

/-- All writes are to elements that were asked for before, if there are `count` at first. -/
def InElements (width : Nat) : Nat → List GrowOp → Prop
  | _, [] => True
  | count, .grow _ :: ops => InElements width (count + 1) ops
  | count, .write offset _ :: ops => offset < count * width ∧ InElements width count ops

/-- The value at an offset after a step, if it was `v` before. -/
def GrowOp.value (offset : Nat) (v : U8) : GrowOp → U8
  | .grow _ => v
  | .write o v' => if o = offset then v' else v

/-- The value that was last written at an offset, or zero. -/
def lastWritten (ops : List GrowOp) (offset : Nat) : U8 := ops.foldl (GrowOp.value offset) 0

/-- The array after the operations `done`. -/
structure GrowInv (width : Nat) (done : List GrowOp) (a : GrownArray) : Prop where
  held : ∃ live, Sound a.heap live ∧
    (a.ptr = 0 ∧ a.count = 0 ∨ 0 < a.count ∧ live a.ptr = some (a.count * width))
  nonempty : ∀ b ∈ a.heap.blocks, 0 < b.size
  recorded : (contents a.heap.mem a.ptr).length ≤ MAX_ALLOC
  bytes : ∀ k v, (contents a.heap.mem a.ptr)[k]? = some v → v = lastWritten done k
  unwritten : ∀ k, a.count * width ≤ k → lastWritten done k = 0

section Steps
variable {debug : Bool} {width : Nat} {done : List GrowOp} {a a' : GrownArray}

/-- The elements lie in the block. -/
theorem GrowInv.le_recorded (ha : GrowInv width done a) :
    a.count * width ≤ (contents a.heap.mem a.ptr).length := by
  obtain ⟨live, hs, ⟨_, hcount⟩ | ⟨_, hlive⟩⟩ := ha.held
  · rw [hcount, Nat.zero_mul]
    exact Nat.zero_le _
  · obtain ⟨b, _, ho⟩ := hs.owned _ _ hlive
    have hbase := ho.base
    rw [length_contents (by omega)]
    exact ho.size

/-- A byte of an element. -/
theorem GrowInv.byte (ha : GrowInv width done a) {k : Nat} (hk : k < a.count * width) :
    a.heap.mem (a.ptr + k) = lastWritten done k := by
  have hlt := Nat.lt_of_lt_of_le hk ha.le_recorded
  have hptr : a.ptr ≠ 0 := by
    intro hzero
    rw [contents, if_pos hzero] at hlt
    exact Nat.not_lt_zero k hlt
  rw [length_contents hptr] at hlt
  exact ha.bytes k _ (getElem?_contents hptr hlt)

/-- The request for one more element does not wrap: the array has at most `MAX_ALLOC` bytes. -/
theorem GrowInv.request (ha : GrowInv width done a) (hwidth : width < 2 ^ 32) :
    (BitVec.ofNat 32 ((a.count + 1) * width)).toNat = (a.count + 1) * width ∧
      (a.ptr = 0 ∨ (a.count + 1) * width ≤ 2 * MAX_ALLOC) := by
  have hmax : MAX_ALLOC = 1073741824 := rfl
  have hle := Nat.le_trans ha.le_recorded ha.recorded
  obtain ⟨live, hs, ⟨hptr, hcount⟩ | ⟨hcount, hlive⟩⟩ := ha.held
  · rw [hcount, Nat.zero_add, Nat.one_mul, BitVec.toNat_ofNat, Nat.mod_eq_of_lt hwidth]
    exact ⟨rfl, Or.inl hptr⟩
  · have hmul : width ≤ a.count * width := Nat.le_mul_of_pos_left width hcount
    rw [BitVec.toNat_ofNat, Nat.add_mul, Nat.one_mul]
    exact ⟨Nat.mod_eq_of_lt (by omega), Or.inr (by omega)⟩

theorem lastWritten_grow (c : Libc) (k : Nat) :
    lastWritten (done ++ [.grow c]) k = lastWritten done k := by
  simp [lastWritten, GrowOp.value]

theorem step_grow {c : Libc} (hstep : a.step debug width (.grow c) = .ok a') :
    ∃ ret heap, ckReallocBlock debug a.heap a.ptr (BitVec.ofNat 32 ((a.count + 1) * width)) c
      = .ok (ret, heap) ∧ a' = ⟨heap, ret, a.count + 1⟩ := by
  rw [GrownArray.step] at hstep
  cases hcall : ckReallocBlock debug a.heap a.ptr (BitVec.ofNat 32 ((a.count + 1) * width)) c with
  | error e => rw [hcall] at hstep; cases hstep
  | ok r =>
    rw [hcall] at hstep
    cases hstep
    exact ⟨r.1, r.2, rfl, rfl⟩

theorem GrowInv.unwritten_grow (ha : GrowInv width done a) (c : Libc) (k : Nat)
    (hk : (a.count + 1) * width ≤ k) : lastWritten (done ++ [.grow c]) k = 0 := by
  rw [lastWritten_grow]
  exact ha.unwritten k (Nat.le_trans (Nat.mul_le_mul_right _ (Nat.le_succ _)) hk)

/-- One more element, in a block that is reallocated. -/
theorem GrowInv.moved (ha : GrowInv width done a) (hpos : 0 < width) {live : Nat → Option Nat}
    (hs : Sound a.heap live) (hp : Passes live a.ptr) {size : U32}
    (hle : (a.count + 1) * width ≤ size.toNat) {c : Libc} {ret : Nat} {heap : Heap}
    (hok : ckRealloc debug a.heap a.ptr size c = .ok (ret, heap)) :
    GrowInv width (done ++ [.grow c]) ⟨heap, ret, a.count + 1⟩ := by
  have hne : size ≠ 0 := by
    rintro rfl
    exact absurd (Nat.lt_of_lt_of_le (Nat.mul_pos (Nat.succ_pos _) hpos) hle) (Nat.lt_irrefl 0)
  have hcontents := contents_ckRealloc debug hs ha.nonempty hp hne hok
  have hend := (ends_ckRealloc debug hs hp size hle c).1
  rw [hok] at hend
  rcases ckRealloc_moves debug hs hp hne c with ⟨e, he, _⟩ | ⟨b, m, hmoved, heq⟩
  · rw [he] at hok
    cases hok
  rw [heq] at hok
  cases hok
  have hfits := hmoved.fits
  refine ⟨⟨_, hend, Or.inr ⟨Nat.succ_pos _, if_pos ⟨rfl, by omega⟩⟩⟩, ?_, ?_, ?_,
    ha.unwritten_grow c⟩
  · intro b' hb'
    rcases List.mem_cons.mp hb' with rfl | hold
    · omega
    · exact ha.nonempty b' (mem_of_mem_leftBy hold)
  · rw [hcontents, length_resized]
    exact hmoved.small
  · intro k v hv
    have hk : k < size.toNat := by
      have hlt := (List.getElem?_eq_some_iff.mp hv).1
      rwa [hcontents, length_resized] at hlt
    rw [hcontents, getElem?_resized 0 _ hk] at hv
    rw [lastWritten_grow]
    split at hv
    · exact ha.bytes k v hv
    · cases hv
      have hlen := ha.le_recorded
      exact (ha.unwritten k (by omega)).symm

/-- One more element. -/
theorem GrowInv.grow (ha : GrowInv width done a) (hpos : 0 < width) (hwidth : width < 2 ^ 32)
    {c : Libc} (hstep : a.step debug width (.grow c) = .ok a') :
    GrowInv width (done ++ [.grow c]) a' := by
  obtain ⟨hnat, hsmall⟩ := ha.request hwidth
  obtain ⟨live, hs, hheld⟩ := ha.held
  have hp : Passes live a.ptr := hheld.imp And.left fun h => ⟨_, h.2⟩
  obtain ⟨ret, heap, hcall, rfl⟩ := step_grow hstep
  rw [ckReallocBlock_eq debug hs hp] at hcall
  split at hcall
  · exact ha.moved hpos hs hp hnat.ge hcall
  · rename_i hcase
    have hptr : a.ptr ≠ 0 := by
      intro hzero
      simp [hzero] at hcase
    split at hcall
    · -- The block stays, and the new element was zeroed when it was made.
      rename_i hfits
      cases hcall
      rw [hnat] at hfits
      obtain ⟨b, hb, ho⟩ := hs.owned _ _ (hheld.resolve_left fun h => hptr h.1).2
      have hs' := hs.touch hb (m := a.heap.mem) (fun _ _ => rfl) (ho.mono hfits)
      refine ⟨⟨_, hs', Or.inr ⟨Nat.succ_pos _, if_pos rfl⟩⟩, ha.nonempty, ha.recorded, ?_,
        ha.unwritten_grow c⟩
      intro k v hv
      rw [lastWritten_grow]
      exact ha.bytes k v hv
    · have htwo := hsmall.resolve_left hptr
      refine ha.moved hpos hs hp ?_ hcall
      rw [toNat_add_blkInc_of_le (hnat.trans_le htwo), hnat]
      exact Nat.le_add_right _ _

/-- A write to an element. -/
theorem GrowInv.write (ha : GrowInv width done a) {offset : Nat}
    (hoffset : offset < a.count * width) (v : U8) :
    GrowInv width (done ++ [.write offset v])
      { a with heap := { a.heap with mem := a.heap.mem.write (a.ptr + offset) v } } := by
  obtain ⟨live, hs, ⟨_, hcount⟩ | ⟨hcount, hlive⟩⟩ := ha.held
  · rw [hcount, Nat.zero_mul] at hoffset
    exact absurd hoffset (Nat.not_lt_zero _)
  obtain ⟨b, _, ho⟩ := hs.owned _ _ hlive
  have hbase := ho.base
  have hptr : a.ptr ≠ 0 := by omega
  have hhead : allocS (a.heap.mem.write (a.ptr + offset) v) a.ptr = allocS a.heap.mem a.ptr := by
    refine (head_congr (by omega) fun x hx => ?_).2
    have hlt := hx.2
    exact Memory.write_of_ne (by omega)
  have hlength : (contents (a.heap.mem.write (a.ptr + offset) v) a.ptr).length =
      (contents a.heap.mem a.ptr).length := by
    rw [length_contents hptr, length_contents hptr, hhead]
  have hlast : ∀ k, lastWritten (done ++ [.write offset v]) k =
      if offset = k then v else lastWritten done k := fun k => by
    simp [lastWritten, GrowOp.value]
  refine ⟨⟨live, sound_write (s := ⟨a.heap, live⟩) hs hlive hoffset v, Or.inr ⟨hcount, hlive⟩⟩,
    ha.nonempty, hlength.trans_le ha.recorded, ?_, ?_⟩
  · intro k w hw
    have hk : k < (allocS a.heap.mem a.ptr).toNat := by
      have hlt := (List.getElem?_eq_some_iff.mp hw).1
      rwa [length_contents hptr, hhead] at hlt
    rw [getElem?_contents hptr (by rw [hhead]; exact hk)] at hw
    cases hw
    show a.heap.mem.write (a.ptr + offset) v (a.ptr + k) = _
    rw [hlast]
    split
    · rename_i heq
      rw [heq, Memory.write_self]
    · rw [Memory.write_of_ne (by omega)]
      exact ha.bytes k _ (getElem?_contents hptr hk)
  · intro k hk
    rw [hlast, if_neg (by dsimp only at hk; omega)]
    exact ha.unwritten k hk

theorem growInv_run (hpos : 0 < width) (hwidth : width < 2 ^ 32) {ops : List GrowOp}
    (ha : GrowInv width done a) (hops : InElements width a.count ops)
    (hrun : ops.foldlM (GrownArray.step debug width) a = .ok a') :
    GrowInv width (done ++ ops) a' := by
  induction ops generalizing done a with
  | nil =>
    cases hrun
    rw [List.append_nil]
    exact ha
  | cons op ops ih =>
    rw [List.append_cons]
    cases op with
    | grow c =>
      rw [List.foldlM_cons] at hrun
      cases hstep : a.step debug width (.grow c) with
      | error e => rw [hstep] at hrun; cases hrun
      | ok b =>
        rw [hstep] at hrun
        have hb := ha.grow hpos hwidth hstep
        obtain ⟨_, _, _, rfl⟩ := step_grow hstep
        exact ih hb hops hrun
    | write offset v => exact ih (ha.write hops.1 v) hops.2 hrun

end Steps

/-- In both builds, after every sequence of requests and writes that is not cut short by an abort:
each byte of each element has the value that was last written to it, or zero, and all bytes of the
element that is asked for next are zero. -/
theorem grown_array_contents (debug : Bool) {width : Nat} (hpos : 0 < width)
    (hwidth : width < 2 ^ 32) {h : Heap} {live : Nat → Option Nat} (hs : Sound h live)
    (hblocks : ∀ b ∈ h.blocks, 0 < b.size) {ops : List GrowOp} (hops : InElements width 0 ops)
    {a : GrownArray} (hrun : ops.foldlM (GrownArray.step debug width) ⟨h, 0, 0⟩ = .ok a) :
    (∀ i < a.count, ∀ j < width,
      a.heap.mem (a.ptr + (i * width + j)) = lastWritten ops (i * width + j)) ∧
    ∀ c a', a.step debug width (.grow c) = .ok a' → ∀ j < width,
      a'.heap.mem (a'.ptr + (a.count * width + j)) = 0 := by
  have hstart : GrowInv width [] ⟨h, 0, 0⟩ :=
    ⟨⟨live, hs, Or.inl ⟨rfl, rfl⟩⟩, hblocks, Nat.zero_le _, fun _ _ hv => (by cases hv),
      fun _ _ => rfl⟩
  have hinside : ∀ {i j n : Nat}, i < n → j < width → i * width + j < n * width := by
    intro i j n hi hj
    have hmul := Nat.mul_le_mul_right width (Nat.succ_le_of_lt hi)
    rw [Nat.succ_mul] at hmul
    omega
  have ha : GrowInv width ops a := growInv_run hpos hwidth hstart hops hrun
  refine ⟨fun i hi j hj => ha.byte (hinside hi hj), fun c a' hstep j hj => ?_⟩
  have ha' := ha.grow hpos hwidth hstep
  obtain ⟨_, _, _, rfl⟩ := step_grow hstep
  rw [ha'.byte (hinside (Nat.lt_succ_self _) hj), lastWritten_grow]
  exact ha.unwritten _ (Nat.le_add_right _ _)

/-- Two elements of sixteen bytes, of which the first is written to. -/
theorem grown_array_contents_two : ∃ a,
    [.grow libcAt64, .write 12 7, .grow libcAt64].foldlM (GrownArray.step false 16)
      ⟨⟨fun _ => 0xAA, []⟩, 0, 0⟩ = .ok a ∧
    a.heap.mem (a.ptr + (0 * 16 + 12)) = 7 ∧ a.heap.mem (a.ptr + (1 * 16 + 12)) = 0 := by
  have hs : Sound ⟨fun _ => 0xAA, []⟩ fun _ => none := ⟨List.Pairwise.nil, fun _ _ h => by cases h⟩
  refine ⟨_, rfl, ?_⟩
  have hbytes := (@grown_array_contents false 16 (by decide) (by decide) _ _ hs
    (fun _ hb => by cases hb) [.grow libcAt64, .write 12 7, .grow libcAt64]
    ⟨by decide, trivial⟩ _ rfl).1
  exact ⟨hbytes 0 (by decide) 12 (by decide), hbytes 1 (by decide) 12 (by decide)⟩

end TriforceAFL.Proofs
