import Mathlib.Data.List.Pairwise
import Mathlib.Data.Set.Function
import Mathlib.Order.Interval.Set.Defs
import TriforceAFL.Lib.Words

/-!
# `TriforceAFL.Lib.Heap`: byte memory and the blocks of a C heap

A `Memory` gives a byte to every address. Words, fills and copies are functions on it, and for each
one lemma says which bytes it leaves alone.

A `Heap` is a memory with the blocks that `malloc` has handed out and `free` has not taken back.
Where the next block lies is up to the C library, and so is everything outside of the blocks: both
are arguments of `malloc`, `realloc` and `free`. A place that is not free for a block of the size
stands for a library that has run out of memory, and gives the null address.
-/

set_option autoImplicit false

namespace TriforceAFL.Lib

/-- A byte at every address. -/
abbrev Memory := Nat → BitVec 8

namespace Memory

variable {x : Nat}

/-- The memory after byte `v` is written at `a`. -/
def write (m : Memory) (a : Nat) (v : BitVec 8) : Memory := fun x => if x = a then v else m x

/-- The `n`-byte little-endian word at `a`. -/
def loadWord (n : Nat) (m : Memory) (a : Nat) : BitVec (8 * n) :=
  load n ((List.range n).map fun i => m (a + i)) 0

/-- The memory after the `n`-byte word `w` is written at `a`. -/
def storeWord (n : Nat) (m : Memory) (a : Nat) (w : BitVec (8 * n)) : Memory :=
  fun x => if a ≤ x ∧ x < a + n then byteAt w (x - a) else m x

/-- `memset`: `n` bytes from `a` on are `v`. -/
def fill (m : Memory) (a : Nat) (v : BitVec 8) (n : Nat) : Memory :=
  fun x => if a ≤ x ∧ x < a + n then v else m x

/-- `memcpy`: `n` bytes from `a` on are those of `src`, which gives the bytes behind a pointer by
their offset. -/
def copy (m : Memory) (a : Nat) (src : Nat → BitVec 8) (n : Nat) : Memory :=
  fun x => if a ≤ x ∧ x < a + n then src (x - a) else m x

variable {m m' : Memory} {a n : Nat}

theorem write_of_ne {v : BitVec 8} (h : x ≠ a) : m.write a v x = m x := if_neg h

@[simp] theorem write_self (v : BitVec 8) : m.write a v a = v := if_pos rfl

theorem storeWord_of_not_mem {w : BitVec (8 * n)} (h : x < a ∨ a + n ≤ x) :
    storeWord n m a w x = m x := if_neg (by omega)

theorem fill_of_not_mem {v : BitVec 8} (h : x < a ∨ a + n ≤ x) :
    m.fill a v n x = m x := if_neg (by omega)

theorem copy_of_not_mem {src : Nat → BitVec 8} (h : x < a ∨ a + n ≤ x) :
    m.copy a src n x = m x := if_neg (by omega)

theorem copy_of_mem {src : Nat → BitVec 8} (hlo : a ≤ x) (hhi : x < a + n) :
    m.copy a src n x = src (x - a) := if_pos ⟨hlo, hhi⟩

theorem byteAt_loadWord {i : Nat} (hi : i < n) : byteAt (loadWord n m a) i = m (a + i) := by
  rw [loadWord, byteAt_load _ _ _ hi]
  simp [byteOf, hi]

/-- What was stored is read back. -/
@[simp] theorem loadWord_storeWord (w : BitVec (8 * n)) : loadWord n (storeWord n m a w) a = w := by
  apply eq_of_byteAt_eq
  intro i hi
  rw [byteAt_loadWord hi, storeWord, if_pos (by omega), Nat.add_sub_cancel_left]

/-- A word is determined by its own bytes. -/
theorem loadWord_congr (h : Set.EqOn m m' (Set.Ico a (a + n))) :
    loadWord n m a = loadWord n m' a := by
  apply eq_of_byteAt_eq
  intro i hi
  rw [byteAt_loadWord hi, byteAt_loadWord hi]
  exact h ⟨by omega, by omega⟩

end Memory

/-- A block that the C library has handed out. -/
structure Block where
  base : Nat
  size : Nat
  deriving DecidableEq, Repr

namespace Block

/-- Address `a` is a byte of the block. -/
def Holds (b : Block) (a : Nat) : Prop := b.base ≤ a ∧ a < b.base + b.size

instance (b : Block) (a : Nat) : Decidable (b.Holds a) := inferInstanceAs (Decidable (_ ∧ _))

/-- The two blocks have no byte in common. -/
def Apart (b b' : Block) : Prop := b.base + b.size ≤ b'.base ∨ b'.base + b'.size ≤ b.base

instance (b b' : Block) : Decidable (b.Apart b') := inferInstanceAs (Decidable (_ ∨ _))

instance : Std.Symm Apart := ⟨fun _ _ h => Or.symm h⟩

theorem Apart.not_holds {b b' : Block} (h : b.Apart b') {a : Nat} (ha : b'.Holds a) :
    ¬ b.Holds a := by
  unfold Apart at h
  unfold Holds at *
  omega

end Block

/-- A memory, and the blocks of it that are in use. -/
structure Heap where
  mem : Memory
  blocks : List Block

namespace Heap

/-- No block in use has a byte in common with `b`. -/
def Room (h : Heap) (b : Block) : Prop := ∀ b' ∈ h.blocks, b.Apart b'

instance (h : Heap) (b : Block) : Decidable (h.Room b) := inferInstanceAs (Decidable (∀ _ ∈ _, _))

/-- The library's own use of the memory: every byte outside of the blocks may change. -/
def scribble (h : Heap) (garbage : Memory) : Heap :=
  { h with mem := fun a => if ∃ b ∈ h.blocks, b.Holds a then h.mem a else garbage a }

/-- The heap without the block that starts at `base`. -/
def drop (h : Heap) (base : Nat) : Heap :=
  { h with blocks := h.blocks.filter fun b => b.base ≠ base }

/-- `malloc(n)`, with the place the library chooses. -/
def malloc (h : Heap) (n place : Nat) (garbage : Memory) : Nat × Heap :=
  if place ≠ 0 ∧ h.Room ⟨place, n⟩ then
    (place, { h.scribble garbage with blocks := ⟨place, n⟩ :: h.blocks })
  else (0, h)

/-- `free(base)`. -/
def free (h : Heap) (base : Nat) (garbage : Memory) : Heap := (h.drop base).scribble garbage

/-- The size of the block that starts at `base`. -/
def sizeAt (h : Heap) (base : Nat) : Nat :=
  match h.blocks.find? (·.base = base) with
  | some b => b.size
  | none => 0

/-- `realloc(base, n)`: the bytes that the old and the new block both have room for are kept. The
new block may lie where the old one was. -/
def realloc (h : Heap) (base n place : Nat) (garbage : Memory) : Nat × Heap :=
  if base = 0 then h.malloc n place garbage
  else if place ≠ 0 ∧ (h.drop base).Room ⟨place, n⟩ then
    (place,
      { mem := ((h.drop base).scribble garbage).mem.copy place (fun i => h.mem (base + i))
          (min (h.sizeAt base) n)
        blocks := ⟨place, n⟩ :: (h.drop base).blocks })
  else (0, h)

variable {h : Heap}

/-- The library keeps its hands off the blocks. -/
theorem scribble_eqOn (garbage : Memory) {b : Block} (hb : b ∈ h.blocks) :
    Set.EqOn (h.scribble garbage).mem h.mem {a | b.Holds a} :=
  fun _ ha => if_pos ⟨b, hb, ha⟩

/-- A result of `malloc` that is not null: a block is added, and the others keep their bytes. -/
theorem malloc_ne_zero {n place : Nat} {garbage : Memory}
    (hne : (h.malloc n place garbage).1 ≠ 0) :
    ∃ m, h.malloc n place garbage = (place, ⟨m, ⟨place, n⟩ :: h.blocks⟩) ∧ place ≠ 0 ∧
      h.Room ⟨place, n⟩ ∧ ∀ a, (∃ b ∈ h.blocks, b.Holds a) → m a = h.mem a := by
  unfold malloc at *
  split at hne
  next hp =>
    refine ⟨(h.scribble garbage).mem, if_pos hp, hp.1, hp.2, fun a ha => ?_⟩
    obtain ⟨b, hb, hin⟩ := ha
    exact scribble_eqOn garbage hb hin
  next => exact absurd rfl hne

/-- A result of `realloc` on a block in use that is not null: the block is replaced, the others keep
their bytes, and the new block has those of the old one. -/
theorem realloc_ne_zero {base n place : Nat} {garbage : Memory} (hbase : base ≠ 0)
    (hne : (h.realloc base n place garbage).1 ≠ 0) :
    ∃ m, h.realloc base n place garbage = (place, ⟨m, ⟨place, n⟩ :: (h.drop base).blocks⟩) ∧
      place ≠ 0 ∧ (h.drop base).Room ⟨place, n⟩ ∧
      (∀ a, ¬ Block.Holds ⟨place, n⟩ a → (∃ b ∈ (h.drop base).blocks, b.Holds a) →
        m a = h.mem a) ∧
      ∀ i, i < h.sizeAt base → i < n → m (place + i) = h.mem (base + i) := by
  unfold realloc at *
  rw [if_neg hbase] at *
  split at hne
  next hp =>
    refine ⟨_, if_pos hp, hp.1, hp.2, fun a ha hin => ?_, fun i hold hnew => ?_⟩
    · unfold Block.Holds at ha
      dsimp only at ha
      obtain ⟨b, hb, hin⟩ := hin
      rw [Memory.copy_of_not_mem (by omega)]
      exact scribble_eqOn garbage hb hin
    · -- The copy is made last, so these bytes are final even where the blocks overlap.
      exact (Memory.copy_of_mem (by omega) (by omega)).trans (by rw [Nat.add_sub_cancel_left])
  next => exact absurd rfl hne

/-- Where no block is empty, the blocks in use have different addresses. -/
theorem sizeAt_eq (hapart : h.blocks.Pairwise Block.Apart) (hpos : ∀ b ∈ h.blocks, 0 < b.size)
    {b : Block} (hb : b ∈ h.blocks) : h.sizeAt b.base = b.size := by
  unfold sizeAt
  split
  · rename_i b' hfind
    have hb' := List.mem_of_find?_eq_some hfind
    have hbase : b'.base = b.base := by simpa using List.find?_some hfind
    by_cases heq : b = b'
    · rw [heq]
    · -- Two blocks at one address would have a byte in common.
      have hap : b.Apart b' := hapart.forall hb hb' heq
      have hsize := hpos b hb
      have hsize' := hpos b' hb'
      unfold Block.Apart at hap
      omega
  · rename_i hnone
    exact absurd (decide_eq_true rfl) (List.find?_eq_none.mp hnone b hb)

end Heap

end TriforceAFL.Lib
