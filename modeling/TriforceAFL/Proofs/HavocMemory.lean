import TriforceAFL.Proofs.Havoc
import TriforceAFL.Spec.HavocMemory

/-!
# `TriforceAFL.Proofs.HavocMemory`: havoc never leaves its buffer

`Fits` is the invariant between two tweaks. It links three lengths: `temp_len` is positive, it does
not exceed the block behind `out_buf`, and it does not exceed the larger of `len` and
`MAX_FILE - 1`. Each tweak keeps it (`staysIn_*`), and so does a stack of tweaks. It also gives the
block room for the refill: either `temp_len` is no shorter than `len`, or the block is reallocated.

`StaysIn p φ` is the triple of the proofs: with admissible answers, everything that `p` asks and
reports is in bounds, and its results are in `φ`. The main result is `randomStages_inBounds`.
`TriforceAFL.Proofs.HavocRefines` shows that a session runs these programs.
-/

set_option autoImplicit false

namespace TriforceAFL.Proofs

open Lib Spec Spec.HavocMemory

/-! ### Programs that stay in bounds -/

/-- The answers that there can be. The queue cycles are counted from one, and the entries that are
long enough for splicing have at most `MAX_FILE` bytes. -/
def Admissible : (x : HavocAsk) → x.Answer → Prop
  | .ur limit, r => r < limit
  | .queueCycle, n => 1 ≤ n
  | .alloc size, block => block.length = size
  | .target _, file => ∀ f ∈ file, 2 ≤ f.length ∧ f.length ≤ MAX_FILE
  | _, _ => True

/-- What holds for the questions: `UR` has a positive argument, an access stays in its block,
between two tweaks `temp_len` is positive and neither leaves the block nor exceeds its limit, and
the block has room for the refill. -/
def InBounds (_ : List HavocAsk) : HavocAsk → Prop
  | .ur limit => 0 < limit
  | .access size pos n => pos + n ≤ size
  | .lengths size tempLen len => 1 ≤ tempLen ∧ tempLen ≤ size ∧ tempLen ≤ max len (MAX_FILE - 1)
  | .refill size len => len ≤ size
  | _ => True

/-- Whatever was asked before, the program stays in bounds and returns in `φ`. -/
structure StaysIn {α : Type} (p : Havoc α) (φ : α → Prop) : Prop where
  safe : ∀ asked, Asks.Safe Admissible InBounds p asked fun a _ => φ a

namespace StaysIn

variable {α β : Type} {p : Havoc α} {φ ψ : α → Prop}

/-- A program without a step. -/
theorem pure {a : α} (h : φ a) : StaysIn (Pure.pure a) φ := ⟨fun _ => h⟩

/-- A weaker result. -/
theorem mono (h : StaysIn p φ) (himp : ∀ a, φ a → ψ a) : StaysIn p ψ :=
  ⟨fun asked => (h.safe asked).mono fun a _ => himp a⟩

/-- Programs one after the other. -/
theorem bind {f : α → Havoc β} {χ : β → Prop} (h : StaysIn p φ)
    (hf : ∀ a, φ a → StaysIn (f a) χ) : StaysIn (p >>= f) χ :=
  ⟨fun asked => (h.safe asked).bind fun a asked' ha => (hf a ha).safe asked'⟩

/-- A branch. -/
theorem ite {c : Prop} [Decidable c] {q : Havoc α} (hp : c → StaysIn p φ)
    (hq : ¬c → StaysIn q φ) : StaysIn (if c then p else q) φ :=
  ⟨fun asked => Asks.Safe.ite (fun hc => (hp hc).safe asked) fun hc => (hq hc).safe asked⟩

/-- A question within bounds. -/
theorem ask {x : HavocAsk} (hx : InBounds [] x) : StaysIn (ask x) (Admissible x) := by
  refine ⟨fun asked => Asks.Safe.query ?_ fun r hr => hr⟩
  cases x <;> exact hx

/-- `UR` of a positive limit. -/
theorem ur {limit : Nat} (h : 0 < limit) : StaysIn (ur limit) (· < limit) :=
  StaysIn.ask (x := .ur limit) h

/-- An access inside the block. -/
theorem access {γ : Type} {block : List γ} {pos n : Nat} (h : pos + n ≤ block.length) :
    StaysIn (access block pos n) fun _ => True :=
  StaysIn.ask (x := .access block.length pos n) h

/-- `ck_alloc_nozero` gives a block of the size. -/
theorem ckAllocNozero (size : Nat) : StaysIn (ckAllocNozero size) (·.length = size) :=
  StaysIn.ask (x := .alloc size) trivial

/-- `memcpy` between ranges that lie in their blocks. -/
theorem memcpy {dst src : List U8} {dstPos srcPos n : Nat} (hsrc : srcPos + n ≤ src.length)
    (hdst : dstPos + n ≤ dst.length) :
    StaysIn (memcpy dst dstPos src srcPos n) (·.length = dst.length) := by
  refine (access hsrc).bind fun _ _ => (access hdst).bind fun _ _ => pure ?_
  have hlen := length_slice src hsrc
  rw [length_overwrite dst _ (by rw [hlen]; exact hdst)]

/-- `memset` of a range in its block. -/
theorem memset {dst : List U8} {pos n : Nat} (value : U8) (h : pos + n ≤ dst.length) :
    StaysIn (memset dst pos value n) (·.length = dst.length) := by
  refine (access h).bind fun _ _ => pure ?_
  rw [length_overwrite dst _ (by rw [List.length_replicate]; exact h)]

end StaysIn

/-- `choose_block_len`. -/
theorem staysIn_chooseBlockLen {limit : Nat} (hlimit : 1 ≤ limit) :
    StaysIn (chooseBlockLen limit) fun n => 1 ≤ n ∧ n ≤ limit ∧ n ≤ HAVOC_BLK_LARGE := by
  refine (StaysIn.ask (x := .queueCycle) trivial).bind fun (queueCycle : Nat) hcycle => ?_
  refine (StaysIn.ask (x := .over10m) trivial).bind fun over10m _ => ?_
  have hrange : 0 < (if over10m then min queueCycle 3 else 1) := by
    have hpos : 1 ≤ queueCycle := hcycle
    split <;> omega
  refine (StaysIn.ur hrange).bind fun c _ => ?_
  obtain ⟨hone, hle, hlarge⟩ := blockRange_bounds c
  dsimp only
  refine (StaysIn.ur ?_).bind fun r hr => StaysIn.pure ?_
  · split <;> omega
  · split at hr <;> split <;> omega

/-! ### The tweaks -/

/-- `out_buf` between two tweaks, on an input of `len` bytes. -/
structure Fits (len : Nat) (b : OutBuf) : Prop where
  pos : 1 ≤ b.tempLen
  le_size : b.tempLen ≤ b.mem.length
  le_limit : b.tempLen ≤ max len (MAX_FILE - 1)

/-- The lengths can be reported. -/
theorem Fits.lengths {len : Nat} {b : OutBuf} (hb : Fits len b) :
    StaysIn (ask (.lengths b.mem.length b.tempLen len)) fun _ => True :=
  StaysIn.ask (x := .lengths _ _ _) ⟨hb.pos, hb.le_size, hb.le_limit⟩

section Tweaks
variable {len : Nat} {b : OutBuf} (hb : Fits len b)
include hb

/-- A tweak that keeps the block and `temp_len`. -/
theorem Fits.of_mem {mem : List U8} (h : mem.length = b.mem.length) :
    Fits len { b with mem } :=
  ⟨hb.pos, by rw [h]; exact hb.le_size, hb.le_limit⟩

omit hb in
/-- A value of a table. -/
theorem staysIn_pickInteresting {table : List Int} (htable : 0 < table.length) :
    StaysIn (pickInteresting table) fun _ => True :=
  (StaysIn.ur htable).bind fun _ hi => (StaysIn.access hi).bind fun _ _ => StaysIn.pure trivial

/-- Writing an interesting value. -/
theorem staysIn_setInteresting {n : Nat} (hn : 0 < n) (swap : BitVec (8 * n) → BitVec (8 * n))
    {table : List Int} (htable : 0 < table.length) :
    StaysIn (setInteresting n swap table b) (Fits len) := by
  have hsize := hb.le_size
  refine StaysIn.ite (fun _ => StaysIn.pure hb) fun hlen => ?_
  refine (StaysIn.ur (by decide)).bind fun native _ => ?_
  refine (StaysIn.ur (by omega)).bind fun pos hpos => ?_
  refine (staysIn_pickInteresting htable).bind fun v _ => ?_
  refine (StaysIn.access (by omega)).bind fun _ _ => StaysIn.pure ?_
  exact hb.of_mem (length_store _ _ _ _)

/-- Adding or subtracting a random number. -/
theorem staysIn_randomArith {n : Nat} (hn : 0 < n) (swap : BitVec (8 * n) → BitVec (8 * n))
    (f : BitVec (8 * n) → BitVec (8 * n) → BitVec (8 * n)) :
    StaysIn (randomArith n swap f b) (Fits len) := by
  have hsize := hb.le_size
  refine StaysIn.ite (fun _ => StaysIn.pure hb) fun hlen => ?_
  refine (StaysIn.ur (by decide)).bind fun native _ => ?_
  refine (StaysIn.ur (by omega)).bind fun pos hpos => ?_
  refine (StaysIn.ur (by decide)).bind fun r _ => ?_
  refine (StaysIn.access (by omega)).bind fun _ _ => StaysIn.pure ?_
  exact hb.of_mem (length_store _ _ _ _)

/-- Changing a random byte. -/
theorem staysIn_changeByte {limit : Nat} (hlimit : 0 < limit) (f : U8 → U8 → U8) :
    StaysIn (changeByte limit f b) (Fits len) := by
  have hsize := hb.le_size
  refine (StaysIn.ur hb.pos).bind fun pos hpos => (StaysIn.ur hlimit).bind fun r _ => ?_
  refine (StaysIn.access (by omega)).bind fun _ _ => StaysIn.pure ?_
  exact hb.of_mem (List.length_modify _ _ _)

/-- Deleting bytes. -/
theorem staysIn_deleteBlock : StaysIn (deleteBlock b) (Fits len) := by
  have hsize := hb.le_size
  refine StaysIn.ite (fun _ => StaysIn.pure hb) fun hlen => ?_
  -- the block is chosen within temp_len - 1, so at least one byte is left
  refine (staysIn_chooseBlockLen (by omega)).bind fun delLen hdel => ?_
  refine (StaysIn.ur (by omega)).bind fun delFrom hfrom => ?_
  refine (StaysIn.memcpy (by omega) (by omega)).bind fun mem hmem => StaysIn.pure ?_
  have hlimit := hb.le_limit
  exact ⟨by dsimp only; omega, by dsimp only; omega, by dsimp only; omega⟩

/-- An insertion, with a limit that was checked before. -/
theorem staysIn_insertBlock {pos n : Nat} {fill : List U8 → Havoc (List U8)}
    (hpos : pos < b.tempLen) (hroom : b.tempLen + n < MAX_FILE)
    (hfill : ∀ newBuf : List U8, newBuf.length = b.tempLen + n →
      StaysIn (fill newBuf) (·.length = newBuf.length)) :
    StaysIn (insertBlock b pos n fill) (Fits len) := by
  have hsize := hb.le_size
  refine (StaysIn.ckAllocNozero _).bind fun newBuf hnew => ?_
  refine (StaysIn.memcpy (by omega) (by omega)).bind fun newBuf₁ h₁ => ?_
  refine (hfill newBuf₁ (h₁.trans hnew)).bind fun newBuf₂ h₂ => ?_
  refine (StaysIn.memcpy (by omega) (by omega)).bind fun newBuf₃ h₃ => StaysIn.pure ?_
  exact ⟨by dsimp only; omega, by dsimp only; omega, by dsimp only; omega⟩

/-- Inserting bytes, in a new block. -/
theorem staysIn_cloneBlock : StaysIn (cloneBlock b) (Fits len) := by
  have hsize := hb.le_size
  refine StaysIn.ite (fun hroom => ?_) fun _ => StaysIn.pure hb
  refine (staysIn_chooseBlockLen hb.pos).bind fun cloneLen hclone => ?_
  refine (StaysIn.ur (by omega)).bind fun cloneFrom hfrom => ?_
  refine (StaysIn.ur hb.pos).bind fun cloneTo hto => ?_
  -- a block is no longer than HAVOC_BLK_LARGE, the reserve that was checked for
  refine staysIn_insertBlock hb hto (by omega) fun newBuf hnew => ?_
  refine (StaysIn.ur (by decide)).bind fun copy _ => StaysIn.ite (fun _ => ?_) fun _ => ?_
  · exact StaysIn.memcpy (by omega) (by omega)
  · exact (StaysIn.ur (by decide)).bind fun value _ => StaysIn.memset _ (by omega)

/-- Overwriting bytes. -/
theorem staysIn_overwriteBlock : StaysIn (overwriteBlock b) (Fits len) := by
  have hsize := hb.le_size
  refine StaysIn.ite (fun _ => StaysIn.pure hb) fun hlen => ?_
  refine (staysIn_chooseBlockLen (by omega)).bind fun copyLen hcopy => ?_
  refine (StaysIn.ur (by omega)).bind fun copyFrom hfrom => ?_
  refine (StaysIn.ur (by omega)).bind fun copyTo hto => ?_
  refine (StaysIn.ur (by decide)).bind fun copy _ => StaysIn.ite (fun _ => ?_) fun _ => ?_
  · refine StaysIn.ite (fun _ => ?_) fun _ => StaysIn.pure hb
    exact (StaysIn.memcpy (by omega) (by omega)).bind fun mem hmem => StaysIn.pure (hb.of_mem hmem)
  · refine (StaysIn.ur (by decide)).bind fun value _ => ?_
    exact (StaysIn.memset _ (by omega)).bind fun mem hmem => StaysIn.pure (hb.of_mem hmem)

omit hb in
/-- The dictionary has a token of either kind. -/
theorem staysIn_pickExtra {d : Dictionary} (hd : d.extras.length + d.aExtras.length ≠ 0) :
    StaysIn (pickExtra d) fun _ => True := by
  have hchoose : StaysIn (chooseAuto d)
      fun useAuto => 0 < (if useAuto then d.aExtras else d.extras).length := by
    refine StaysIn.ite (fun hnone => StaysIn.pure ?_) fun hextras => ?_
    · show 0 < d.aExtras.length
      omega
    · refine StaysIn.ite (fun hnone => StaysIn.pure ?_) fun hauto => ?_
      · show 0 < d.extras.length
        omega
      · refine (StaysIn.ur (by decide)).bind fun r _ => StaysIn.pure ?_
        split <;> omega
  refine hchoose.bind fun useAuto hpos => (StaysIn.ur hpos).bind fun i hi => ?_
  exact (StaysIn.access hi).bind fun _ _ => StaysIn.pure trivial

variable {d : Dictionary} (hd : d.extras.length + d.aExtras.length ≠ 0)
include hd

/-- Overwriting bytes with a token. -/
theorem staysIn_overwriteExtra : StaysIn (overwriteExtra d b) (Fits len) := by
  have hsize := hb.le_size
  refine (staysIn_pickExtra hd).bind fun data _ => ?_
  refine StaysIn.ite (fun _ => StaysIn.pure hb) fun hlen => ?_
  refine (StaysIn.ur (by omega)).bind fun pos hpos => ?_
  exact (StaysIn.memcpy (by omega) (by omega)).bind fun mem hmem => StaysIn.pure (hb.of_mem hmem)

/-- Inserting a token, in a new block. -/
theorem staysIn_insertExtra : StaysIn (insertExtra d b) (Fits len) := by
  refine (StaysIn.ur hb.pos).bind fun pos hpos => (staysIn_pickExtra hd).bind fun data _ => ?_
  refine StaysIn.ite (fun _ => StaysIn.pure hb) fun hroom => ?_
  exact staysIn_insertBlock hb hpos (by omega) fun newBuf hnew =>
    StaysIn.memcpy (by omega) (by omega)

end Tweaks

/-! ### The havoc stage -/

section Stage
variable {len : Nat} {b : OutBuf}

/-- One tweak, whichever the die gives. -/
theorem staysIn_havocTweak (hlen : len ≤ MAX_FILE) (hb : Fits len b) :
    StaysIn (havocTweak b) (Fits len) := by
  have hpos := hb.pos
  have hsize := hb.le_size
  have hlimit := hb.le_limit
  refine (StaysIn.ask (x := .dict) trivial).bind fun d _ => ?_
  refine (StaysIn.ur (Nat.lt_of_lt_of_le (by decide) (Nat.le_add_right 15 _))).bind fun c hc => ?_
  -- without a dictionary the switch has fifteen cases, so the last two have tokens to pick from
  have htokens : 15 ≤ c → d.extras.length + d.aExtras.length ≠ 0 := by
    intro h hnone
    rw [if_neg (not_not.mpr hnone)] at hc
    omega
  match c, htokens with
  | 0, _ =>
    refine (StaysIn.ur ?_).bind fun bit hbit => ?_
    · -- temp_len << 3 does not wrap around: temp_len is at most MAX_FILE
      rw [Nat.shiftLeft_eq]
      unfold MAX_FILE at hlen hlimit
      omega
    · rw [Nat.shiftLeft_eq] at hbit
      refine (StaysIn.access ?_).bind fun _ _ => StaysIn.pure (hb.of_mem (length_flipBit _ _))
      rw [Nat.shiftRight_eq_div_pow]
      omega
  | 1, _ =>
    refine (StaysIn.ur hpos).bind fun pos hpos' => ?_
    refine (staysIn_pickInteresting (by decide)).bind fun v _ => ?_
    refine (StaysIn.access (by omega)).bind fun _ _ => StaysIn.pure (hb.of_mem List.length_set)
  | 2, _ => exact staysIn_setInteresting hb (by decide) _ (by decide)
  | 3, _ => exact staysIn_setInteresting hb (by decide) _ (by decide)
  | 4, _ => exact staysIn_changeByte hb (by decide) _
  | 5, _ => exact staysIn_changeByte hb (by decide) _
  | 6, _ => exact staysIn_randomArith hb (by decide) _ _
  | 7, _ => exact staysIn_randomArith hb (by decide) _ _
  | 8, _ => exact staysIn_randomArith hb (by decide) _ _
  | 9, _ => exact staysIn_randomArith hb (by decide) _ _
  | 10, _ => exact staysIn_changeByte hb (by decide) _
  | 11, _ => exact staysIn_deleteBlock hb
  | 12, _ => exact staysIn_deleteBlock hb
  | 13, _ => exact staysIn_cloneBlock hb
  | 14, _ => exact staysIn_overwriteBlock hb
  | 15, htokens => exact staysIn_overwriteExtra hb (htokens (by omega))
  | c + 16, htokens => exact staysIn_insertExtra hb (htokens (by omega))

/-- The stacked tweaks of one execution. -/
theorem staysIn_havocStack (hlen : len ≤ MAX_FILE) (n : Nat) (hb : Fits len b) :
    StaysIn (havocStack len n b) (Fits len) := by
  induction n generalizing b with
  | zero => exact hb.lengths.bind fun _ _ => StaysIn.pure hb
  | succ n ih =>
    refine hb.lengths.bind fun _ _ => ?_
    exact (staysIn_havocTweak hlen hb).bind fun b' hb' => ih hb'

/-- `ck_realloc` gives a block of the size. -/
theorem staysIn_ckRealloc (block : List U8) (size : Nat) :
    StaysIn (ckRealloc block size) (·.length = size) := by
  refine (StaysIn.ckAllocNozero size).bind fun fresh hfresh => StaysIn.pure ?_
  rw [List.length_append, List.length_take, List.length_drop]
  omega

variable {inBuf : List U8} (hpos : 1 ≤ inBuf.length)
include hpos

/-- The block has room for the input: either `temp_len` is no shorter, or it is reallocated. -/
theorem staysIn_refill (hb : Fits inBuf.length b) :
    StaysIn (refill inBuf b) fun b' => b'.tempLen = inBuf.length ∧ Fits inBuf.length b' := by
  have hsize := hb.le_size
  have hroom : StaysIn (if b.tempLen < inBuf.length then ckRealloc b.mem inBuf.length
      else pure b.mem) fun mem => inBuf.length ≤ mem.length := by
    refine StaysIn.ite (fun _ => ?_) fun hlen => StaysIn.pure (by omega)
    exact (staysIn_ckRealloc b.mem inBuf.length).mono fun mem hmem => hmem.ge
  refine hroom.bind fun mem hmem => ?_
  refine (StaysIn.ask (x := .refill mem.length inBuf.length) hmem).bind fun _ _ => ?_
  refine (StaysIn.memcpy (by omega) (by omega)).bind fun mem' hmem' => StaysIn.pure ?_
  exact ⟨rfl, hpos, hmem.trans hmem'.ge, Nat.le_max_left _ _⟩

variable (hlen : inBuf.length ≤ MAX_FILE)
include hlen

/-- The rounds, each of which starts with a buffer that fits and puts it back. -/
theorem staysIn_havocLoop (budget : Nat) (h : Session.HavocState) (hb : Fits inBuf.length b) :
    StaysIn (havocLoop inBuf budget h b) fun _ => True := by
  induction budget generalizing h b with
  | zero => exact (StaysIn.ask (x := .outOfBudget) trivial).bind fun e _ => nomatch e
  | succ budget ih =>
    refine StaysIn.ite (fun _ => ?_) fun _ => StaysIn.pure trivial
    refine (StaysIn.ur (by decide)).bind fun pow _ => ?_
    refine (StaysIn.ask (x := .setStacking _) trivial).bind fun _ _ => ?_
    refine (staysIn_havocStack hlen _ hb).bind fun b₁ hb₁ => ?_
    refine (StaysIn.access (by rw [Nat.zero_add]; exact hb₁.le_size)).bind fun _ _ => ?_
    refine (StaysIn.ask (x := .exec b₁.bytes) trivial).bind fun bail _ => ?_
    refine StaysIn.ite (fun _ => StaysIn.pure trivial) fun _ => ?_
    refine (staysIn_refill hpos hb₁).bind fun b₂ hb₂ => ?_
    exact (StaysIn.ask (x := .queuedPaths) trivial).bind fun queuedPaths _ => ih _ hb₂.2

/-- The havoc stage. -/
theorem staysIn_havocStage (budget : Nat) (splicing : Bool) {mem : List U8}
    (hmem : inBuf.length ≤ mem.length) (perfScore : Nat) :
    StaysIn (havocStage budget splicing inBuf mem perfScore) fun _ => True := by
  refine (StaysIn.ask (x := .enterStage splicing) trivial).bind fun _ _ => ?_
  refine (StaysIn.ask (x := .havocDiv) trivial).bind fun havocDiv _ => ?_
  refine (StaysIn.ask (x := .queuedPaths) trivial).bind fun havocQueued _ => ?_
  exact staysIn_havocLoop hpos hlen budget _ ⟨hpos, hmem, Nat.le_max_left _ _⟩

end Stage

/-! ### Splicing -/

/-- The choice of the entry to splice with. -/
theorem staysIn_pickOther {queuedPaths : Nat} (hpaths : 1 < queuedPaths)
    (currentEntry budget : Nat) :
    StaysIn (pickOther queuedPaths currentEntry budget) fun _ => True := by
  induction budget with
  | zero => exact (StaysIn.ask (x := .outOfBudget) trivial).bind fun e _ => nomatch e
  | succ budget ih =>
    refine (StaysIn.ur (by omega)).bind fun tid _ => ?_
    exact StaysIn.ite (fun _ => ih) fun _ => StaysIn.pure trivial

/-- A spliced input has the length of the second file. -/
theorem staysIn_spliceFile (origIn : List U8) {file : List U8} :
    StaysIn (spliceFile origIn file) fun r => ∀ inBuf ∈ r, inBuf.length = file.length := by
  have hretry : ∀ inBuf ∈ (none : Option (List U8)), inBuf.length = file.length :=
    fun _ h => absurd h (Option.not_mem_none _)
  refine (StaysIn.ckAllocNozero file.length).bind fun newBuf hnew => ?_
  refine (StaysIn.memcpy (by omega) (by omega)).bind fun newBuf₁ h₁ => ?_
  refine (StaysIn.access (by omega)).bind fun _ _ => ?_
  refine (StaysIn.access (by omega)).bind fun _ _ => ?_
  -- both differing bytes are in the common part of the files, so the split point is in either
  cases hdiffs : Session.locateDiffs origIn newBuf₁ with
  | none => exact StaysIn.pure hretry
  | some diffs =>
    obtain ⟨fDiff, lDiff⟩ := diffs
    obtain ⟨horder, hin, hnewBuf⟩ := locateDiffs_bounds hdiffs
    refine StaysIn.ite (fun _ => StaysIn.pure hretry) fun hsuitable => ?_
    refine (StaysIn.ur (by omega)).bind fun r hr => ?_
    refine (StaysIn.memcpy (by omega) (by omega)).bind fun newBuf₂ h₂ => StaysIn.pure ?_
    intro inBuf h
    rw [← Option.mem_some_iff.mp h]
    omega

/-- A splice has the length of a test case. -/
theorem staysIn_splice (budget : Nat) {g : SpliceGlobals} (hpaths : 1 < g.queuedPaths)
    (origIn : List U8) :
    StaysIn (splice budget g origIn)
      fun r => ∀ inBuf ∈ r, 1 ≤ inBuf.length ∧ inBuf.length ≤ MAX_FILE := by
  refine (staysIn_pickOther hpaths _ budget).bind fun tid _ => ?_
  refine (StaysIn.ask (x := .target tid) trivial).bind fun target htarget => ?_
  cases target with
  | none => exact StaysIn.pure fun _ h => absurd h (Option.not_mem_none _)
  | some file =>
    obtain ⟨htwo, hmax⟩ := htarget file rfl
    refine (staysIn_spliceFile origIn).mono fun r hr inBuf h => ?_
    rw [hr inBuf h]
    exact ⟨by omega, hmax⟩

/-- All rounds of splicing. -/
theorem staysIn_spliceRounds (budget : Nat) (origIn : List U8) (origPerf rounds : Nat)
    (mem : List U8) : StaysIn (spliceRounds budget origIn origPerf rounds mem) fun _ => True := by
  induction rounds generalizing mem with
  | zero => exact StaysIn.pure trivial
  | succ rounds ih =>
    refine (StaysIn.ask (x := .spliceGlobals) trivial).bind fun g _ => ?_
    refine StaysIn.ite (fun hcond => ?_) fun _ => StaysIn.pure trivial
    have hpaths : 1 < g.queuedPaths := by
      simp only [Bool.and_eq_true, decide_eq_true_eq] at hcond
      exact hcond.1.2
    refine (staysIn_splice budget hpaths origIn).bind fun spliced hspliced => ?_
    cases spliced with
    | none => exact ih mem
    | some inBuf =>
      obtain ⟨hpos, hlen⟩ := hspliced inBuf rfl
      refine (StaysIn.ckAllocNozero inBuf.length).bind fun mem₁ h₁ => ?_
      refine (StaysIn.memcpy (by omega) (by omega)).bind fun mem₂ h₂ => ?_
      refine (staysIn_havocStage hpos hlen budget true (by omega) origPerf).bind fun r _ => ?_
      cases r with
      | none => exact StaysIn.pure trivial
      | some b => exact ih b.mem

/-- For every entry of 1 to `MAX_FILE` bytes, every block behind `out_buf` that has room for it, all
dictionaries, queue cycles from one on, random numbers and other answers: the random stages stay in
bounds. -/
theorem randomStages_inBounds (budget : Nat) (inBuf mem : List U8) (perfScore : Nat)
    (hpos : 1 ≤ inBuf.length) (hlen : inBuf.length ≤ MAX_FILE) (hmem : inBuf.length ≤ mem.length) :
    Asks.Safe Admissible InBounds (randomStages budget inBuf mem perfScore) [] fun _ _ => True := by
  have hstages : StaysIn (randomStages budget inBuf mem perfScore) fun _ => True := by
    refine (staysIn_havocStage hpos hlen budget false hmem perfScore).bind fun r _ => ?_
    cases r with
    | none => exact StaysIn.pure trivial
    | some b => exact staysIn_spliceRounds budget inBuf perfScore SPLICE_CYCLES b.mem
  exact hstages.safe []

/-- An input of four bytes, in a block of the same size. -/
theorem randomStages_inBounds_word :
    Asks.Safe Admissible InBounds
      (randomStages 2 [65#8, 66, 67, 68] [65#8, 66, 67, 68] 100) [] fun _ _ => True :=
  randomStages_inBounds 2 _ _ 100 (by decide) (by decide) (by decide)

end TriforceAFL.Proofs
