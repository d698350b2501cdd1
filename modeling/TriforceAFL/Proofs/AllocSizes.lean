import TriforceAFL.Proofs.Alloc

/-!
# `TriforceAFL.Proofs.AllocSizes`: a block is as large as the request

A call that returns a block has recorded a size for it, whatever the state of the heap and whatever
the C library does. `ALLOC_CHECK_SIZE` keeps the sums with the size of the tokens from wrapping.
`ck_realloc_block` adds to the size before the check, so a request for nearly 2^32 bytes becomes
one for a few, and the call returns a small block, or frees the block and returns `NULL`
(`alloc_request_iff`).
-/

set_option autoImplicit false

namespace TriforceAFL.Proofs

open Lib Spec

variable {h h' : Heap} {size : U32} {c : Libc} {ret : Nat} {r : Nat × Heap} {orig : Nat}

/-- What a call must return for `size` bytes: a block that records at least so many, or `NULL` where
that is the answer. -/
def Serves (size : U32) (answersNull : Prop) (r : Nat × Heap) : Prop :=
  (r.1 = 0 ∧ answersNull) ∨ (r.1 ≠ 0 ∧ size.toNat ≤ (allocS r.2.mem r.1).toNat)

/-- A request whose size wraps when `ck_realloc_block` adds `ALLOC_BLK_INC`. -/
def Wraps (debug : Bool) (h : Heap) (orig : Nat) (size : U32) : Prop :=
  debug = false ∧ orig ≠ 0 ∧ 2 ^ 32 - 256 ≤ size.toNat ∧
    (allocS h.mem orig).toNat < size.toNat

/-! ### The functions that ask for the size itself -/

theorem newBlock_recorded {spare : U32} (hok : newBlock h size spare c = .ok (ret, h')) :
    8 ≤ ret ∧ allocS h'.mem ret = size := by
  simp only [newBlock, allocCheckSize, allocCheckResult, bind, Except.bind] at hok
  split_ifs at hok
  cases hok
  exact ⟨Nat.le_add_left _ _, allocS_setGuards _ (Nat.le_add_left _ _) size⟩

theorem serves_ckAllocNozero (hok : ckAllocNozero h size c = .ok r) :
    Serves size (size = 0) r := by
  rw [ckAllocNozero] at hok
  split at hok
  · rename_i hzero
    cases hok
    exact Or.inl ⟨rfl, hzero⟩
  · obtain ⟨hret, hsize⟩ := newBlock_recorded hok
    exact Or.inr ⟨by omega, by rw [hsize]⟩

theorem serves_ckMemdup {mem : Option (Nat → U8)} (hok : ckMemdup h mem size c = .ok r) :
    Serves size (size = 0 ∨ mem = none) r := by
  cases mem with
  | none =>
    cases hok
    exact Or.inl ⟨rfl, Or.inr rfl⟩
  | some mem =>
    rw [ckMemdup] at hok
    split at hok
    · rename_i hzero
      cases hok
      exact Or.inl ⟨rfl, Or.inl hzero⟩
    · rcases hnew : newBlock h size 0 c with e | ⟨ret, h'⟩
      · rw [hnew] at hok
        cases hok
      · rw [hnew] at hok
        cases hok
        obtain ⟨hret, hsize⟩ := newBlock_recorded hnew
        -- The copy goes behind the head.
        have hhead : allocS (h'.mem.copy ret mem size.toNat) ret = allocS h'.mem ret :=
          (head_congr hret fun a ha => Memory.copy_of_not_mem (Or.inl ha.2)).2
        exact Or.inr ⟨Nat.ne_of_gt (Nat.lt_of_lt_of_le (by decide) hret),
          Nat.le_of_eq (by rw [hhead, hsize])⟩

/-- A reallocation that returns has freed the block, for the size zero, or it records the size. -/
theorem ckRealloc_recorded {debug : Bool} (hok : ckRealloc debug h orig size c = .ok (ret, h')) :
    (size = 0 ∧ ret = 0) ∨ (8 ≤ ret ∧ allocS h'.mem ret = size) := by
  rw [ckRealloc] at hok
  split at hok
  · rename_i hzero
    left
    rcases hfree : ckFree debug h orig c with e | h₁
    · rw [hfree] at hok
      cases hok
    · rw [hfree] at hok
      cases hok
      exact ⟨hzero, rfl⟩
  · right
    rcases hleave : leaveOrig debug h orig with e | ⟨oldSize, h₁⟩
    · rw [hleave] at hok
      cases hok
    · rw [hleave] at hok
      simp only [allocCheckSize, allocCheckResult, bind, Except.bind] at hok
      split_ifs at hok
      all_goals
        cases hok
        exact ⟨Nat.le_add_left _ _, allocS_zeroTail _ (Nat.le_add_left _ _) size oldSize⟩

theorem serves_ckRealloc {debug : Bool} (hok : ckRealloc debug h orig size c = .ok r) :
    Serves size (size = 0) r := by
  rcases ckRealloc_recorded hok with ⟨hzero, hret⟩ | ⟨hret, hsize⟩
  · exact Or.inl ⟨hret, hzero⟩
  · exact Or.inr ⟨by omega, by rw [hsize]⟩

/-! ### `ck_realloc_block` -/

/-- The last line, after `ALLOC_BLK_INC` has been added. -/
theorem serves_ckRealloc_blkInc (hok : ckRealloc false h orig (size + ALLOC_BLK_INC) c = .ok r) :
    Serves size (size = 0) r ↔ size.toNat < 2 ^ 32 - 256 := by
  have hbound := size.isLt
  have hinc := toNat_add_blkInc size
  rcases ckRealloc_recorded hok with ⟨hzero, hret⟩ | ⟨hret, hsize⟩
  · -- The sum is zero, so the size was not.
    rw [hzero] at hinc
    have hlarge : size.toNat = 2 ^ 32 - 256 := by
      have hnone : (0 : U32).toNat = 0 := rfl
      omega
    have hne : size ≠ 0 := by
      rintro rfl
      exact absurd hlarge (by decide)
    refine iff_of_false ?_ (by omega)
    rintro (⟨_, hsize⟩ | ⟨hne', _⟩)
    · exact hne hsize
    · exact hne' hret
  · have hserves : Serves size (size = 0) r ↔ size.toNat ≤ (size.toNat + 256) % 2 ^ 32 := by
      have hne : r.1 ≠ 0 := by omega
      simp [Serves, hne, hsize, hinc]
    rw [hserves]
    omega

theorem serves_ckReallocBlock_iff {debug : Bool}
    (hok : ckReallocBlock debug h orig size c = .ok r) :
    Serves size (size = 0) r ↔ ¬Wraps debug h orig size := by
  rw [ckReallocBlock] at hok
  split at hok
  · rename_i hcase
    refine iff_of_true (serves_ckRealloc hok) ?_
    rintro ⟨hdebug, horig, _⟩
    simp [hdebug, horig] at hcase
  · rename_i hcase
    simp only [Bool.or_eq_true, beq_iff_eq, not_or, Bool.not_eq_true] at hcase
    obtain ⟨rfl, horig⟩ := hcase
    rcases hcheck : checkPtr h.mem orig with e | _
    · rw [hcheck] at hok
      cases hok
    rw [hcheck] at hok
    simp only [bind, Except.bind] at hok
    split at hok
    · -- The block is large enough already.
      rename_i hfits
      cases hok
      refine iff_of_true (Or.inr ⟨horig, hfits⟩) ?_
      rintro ⟨_, _, _, hless⟩
      omega
    · rename_i hsmall
      rw [serves_ckRealloc_blkInc hok]
      simp only [Wraps, horig, ne_eq, not_false_eq_true, true_and]
      omega

/-- Every call that returns gives `NULL`, for the size zero or a copy of `NULL`, or a block of at
least the size, except `ck_realloc_block` in a normal build. There it is so exactly if the
addition of `ALLOC_BLK_INC` does not wrap or is not reached. -/
theorem alloc_request_iff (h : Heap) (size : U32) (c : Libc) (r : Nat × Heap) :
    (ckAllocNozero h size c = .ok r → Serves size (size = 0) r) ∧
      (∀ mem, ckMemdup h mem size c = .ok r → Serves size (size = 0 ∨ mem = none) r) ∧
      (∀ debug orig, ckRealloc debug h orig size c = .ok r → Serves size (size = 0) r) ∧
      ∀ debug orig, ckReallocBlock debug h orig size c = .ok r →
        (Serves size (size = 0) r ↔ ¬Wraps debug h orig size) :=
  ⟨serves_ckAllocNozero, fun _ => serves_ckMemdup, fun _ _ => serves_ckRealloc,
    fun _ _ => serves_ckReallocBlock_iff⟩

/-- A heap with one block of four bytes. -/
def fourBytes : Heap :=
  match ckAllocNozero (noAllocations fun _ => 0).heap 4 libcAt64 with
  | .ok (_, h) => h
  | .error _ => (noAllocations fun _ => 0).heap

/-- A buffer is asked for in a larger size, in a normal build. -/
theorem alloc_request_iff_grows :
    ∃ r, ckReallocBlock false fourBytes 72 6 libcAt64 = .ok r ∧ Serves 6 ((6 : U32) = 0) r := by
  refine ⟨_, rfl, ?_⟩
  exact ((alloc_request_iff fourBytes 6 libcAt64 _).2.2.2 false 72 rfl).mpr
    (fun hwraps => absurd hwraps.2.2.1 (by decide))

/-- In a normal build, a request for the largest size gives a block of 255 bytes. One for 2^32 - 256
bytes gives `NULL`, and the block is freed. Neither call serves its request. -/
theorem alloc_request_wraps :
    (∃ r, ckReallocBlock false fourBytes 72 0xFFFFFFFF libcAt64 = .ok r ∧
        (r.1, allocS r.2.mem r.1) = (72, 255) ∧ ¬Serves 0xFFFFFFFF ((0xFFFFFFFF : U32) = 0) r) ∧
      ∃ r, ckReallocBlock false fourBytes 72 0xFFFFFF00 libcAt64 = .ok r ∧
        (r.1, r.2.blocks.length) = (0, 0) ∧ ¬Serves 0xFFFFFF00 ((0xFFFFFF00 : U32) = 0) r := by
  refine ⟨⟨_, rfl, by decide +kernel, ?_⟩, ⟨_, rfl, by decide +kernel, ?_⟩⟩
  · unfold Serves
    decide +kernel
  · unfold Serves
    decide +kernel

end TriforceAFL.Proofs
