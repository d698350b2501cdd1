import TriforceAFL.Proofs.DeterministicPlan
import TriforceAFL.Proofs.SessionSteps

/-!
# `TriforceAFL.Proofs.Havoc`: the random stages keep the lengths in range

Every tweak of the havoc stage takes a buffer with a length in range to another one: it keeps the
length, or deletes less than everything, or checks the limit before it inserts. So do the stacked
tweaks. A spliced input has the length of the second file.

No tweak draws from an empty range. For the block lengths this needs a positive `queue_cycle`, and
for the tokens a dictionary with a token.
-/

set_option autoImplicit false

namespace TriforceAFL.Proofs

open Lib Lib.Process Spec

/-! ### Blocks -/

section Blocks
variable (buf data : List U8)

theorem length_slice {start len : Nat} (h : start + len ≤ buf.length) :
    (Session.slice buf start len).length = len := by
  unfold Session.slice
  rw [List.length_take, List.length_drop]
  omega

theorem length_overwrite {pos : Nat} (h : pos + data.length ≤ buf.length) :
    (Session.overwrite buf pos data).length = buf.length := by
  unfold Session.overwrite
  rw [List.length_append, List.length_append, List.length_take, List.length_drop]
  omega

/-- An insertion adds the length of the data. -/
theorem length_insertAt (pos : Nat) :
    (Session.insertAt buf pos data).length = buf.length + data.length := by
  unfold Session.insertAt
  rw [List.length_append, List.length_append, List.length_take, List.length_drop]
  omega

theorem length_deleteAt {pos len : Nat} (h : pos + len ≤ buf.length) :
    (Session.deleteAt buf pos len).length = buf.length - len := by
  unfold Session.deleteAt
  rw [List.length_append, List.length_take, List.length_drop]
  omega

end Blocks

/-- Every range of block sizes is a range. -/
theorem blockRange_bounds (c : Nat) :
    1 ≤ (Session.blockRange c).1 ∧ (Session.blockRange c).1 ≤ (Session.blockRange c).2 ∧
      (Session.blockRange c).2 ≤ HAVOC_BLK_LARGE := by
  unfold Session.blockRange
  split <;> decide

/-! ### The tweaks -/

section Tweaks
variable {k : Nat} {bounded fresh : Prop} {I : Session (8 * k) → Prop}

/-- The process keeps `I` and returns a buffer with a length in range. -/
abbrev Tweaks (bounded fresh : Prop) (I : Session (8 * k) → Prop) (p : Fuzz (8 * k) (List U8)) :
    Prop := Keeps I (Exits bounded fresh) p fun buf => LenOk bounded buf.length

variable (hI : Steady bounded fresh I) (w : World (8 * k))
include hI

/-- `choose_block_len` gives a length within its limit. -/
theorem keeps_chooseBlockLen (hcycle : ∀ s, I s → 0 < s.globals.queueCycle) {limit : Nat}
    (hlimit : 1 ≤ limit) :
    Keeps I (Exits bounded fresh) (Session.chooseBlockLen w limit)
      fun n => 1 ≤ n ∧ n ≤ limit ∧ n ≤ HAVOC_BLK_LARGE := by
  have hover : Keeps I (Exits bounded fresh)
      (Process.step fun s : Session (8 * k) => .ok (w.over10m s.clock, s.tick))
      fun _ => True := by
    refine hI.step (fun s a s' _ hg => ?_) fun s e _ hg => (by cases hg)
    cases hg
    exact ⟨trivial, quiet_tick s⟩
  refine Keeps.get.bind fun s hs => hover.bind fun over10m _ => ?_
  have hrange : 0 < (if over10m then min s.globals.queueCycle 3 else 1) := by
    have hpos := hcycle s hs
    split <;> omega
  refine (hI.ur w hrange).bind fun c _ => ?_
  obtain ⟨hone, hle, hlarge⟩ := blockRange_bounds c
  dsimp only
  refine (hI.ur w (Nat.succ_pos _)).bind fun r hr => Keeps.pure ?_
  split at hr <;> split <;> omega

theorem keeps_pickInteresting {table : List Int} (htable : 0 < table.length) :
    Keeps I (Exits bounded fresh) (Session.pickInteresting w table) fun _ => True :=
  (hI.ur w htable).bind fun _ _ => Keeps.pure trivial

variable {buf : List U8} (hbuf : LenOk bounded buf.length)
include hbuf

/-- Writing an interesting value. -/
theorem tweaks_setInteresting {n : Nat} (hn : 0 < n) (swap : BitVec (8 * n) → BitVec (8 * n))
    {table : List Int} (htable : 0 < table.length) :
    Tweaks bounded fresh I (Session.setInteresting w n swap table buf) := by
  refine Keeps.ite (fun _ => Keeps.pure hbuf) fun hlen => ?_
  refine (hI.ur w (by decide)).bind fun native _ => (hI.ur w (by omega)).bind fun pos _ => ?_
  refine (keeps_pickInteresting hI w htable).bind fun v _ => Keeps.pure ?_
  rw [length_store]
  exact hbuf

/-- Adding or subtracting a random number. -/
theorem tweaks_randomArith {n : Nat} (hn : 0 < n) (swap : BitVec (8 * n) → BitVec (8 * n))
    (f : BitVec (8 * n) → BitVec (8 * n) → BitVec (8 * n)) :
    Tweaks bounded fresh I (Session.randomArith w n swap f buf) := by
  refine Keeps.ite (fun _ => Keeps.pure hbuf) fun hlen => ?_
  refine (hI.ur w (by decide)).bind fun native _ => (hI.ur w (by omega)).bind fun pos _ => ?_
  refine (hI.ur w (by decide)).bind fun r _ => Keeps.pure ?_
  rw [length_store]
  exact hbuf

/-- Changing a random byte. -/
theorem tweaks_changeByte {limit : Nat} (hlimit : 0 < limit) (f : U8 → U8 → U8) :
    Tweaks bounded fresh I (Session.changeByte w limit f buf) := by
  refine (hI.ur w hbuf.1).bind fun pos _ => (hI.ur w hlimit).bind fun r _ => Keeps.pure ?_
  rw [List.length_modify]
  exact hbuf

variable (hcycle : ∀ s, I s → 0 < s.globals.queueCycle)
include hcycle

/-- Deleting bytes leaves one at least. -/
theorem tweaks_deleteBlock : Tweaks bounded fresh I (Session.deleteBlock w buf) := by
  refine Keeps.ite (fun _ => Keeps.pure hbuf) fun hlen => ?_
  refine (keeps_chooseBlockLen hI w hcycle (by omega)).bind fun delLen hdel => ?_
  refine (hI.ur w (Nat.succ_pos _)).bind fun delFrom hfrom => Keeps.pure ?_
  rw [length_deleteAt buf (by omega)]
  refine ⟨by omega, fun hb => ?_⟩
  have := hbuf.2 hb
  omega

omit hbuf hcycle in
/-- The bytes that are inserted or written. -/
theorem keeps_randomBlock {start len : Nat} (h : start + len ≤ buf.length) :
    Keeps I (Exits bounded fresh) (Session.randomBlock w buf start len) (·.length = len) := by
  refine (hI.ur w (by decide)).bind fun copy _ => ?_
  refine Keeps.ite (fun _ => Keeps.pure (length_slice buf h)) fun _ => ?_
  exact (hI.ur w (by decide)).bind fun value _ => Keeps.pure (List.length_replicate)

/-- Inserting bytes stays below `MAX_FILE`. -/
theorem tweaks_cloneBlock : Tweaks bounded fresh I (Session.cloneBlock w buf) := by
  refine Keeps.ite (fun hroom => ?_) fun _ => Keeps.pure hbuf
  refine (keeps_chooseBlockLen hI w hcycle hbuf.1).bind fun cloneLen hclone => ?_
  refine (hI.ur w (Nat.succ_pos _)).bind fun cloneFrom hfrom => (hI.ur w hbuf.1).bind fun _ _ => ?_
  refine (keeps_randomBlock hI w (by omega)).bind fun block hblock => Keeps.pure ?_
  rw [length_insertAt, hblock]
  -- A block is no longer than the reserve that was checked.
  exact ⟨by omega, fun _ => by omega⟩

/-- Overwriting bytes. -/
theorem tweaks_overwriteBlock : Tweaks bounded fresh I (Session.overwriteBlock w buf) := by
  refine Keeps.ite (fun _ => Keeps.pure hbuf) fun hlen => ?_
  refine (keeps_chooseBlockLen hI w hcycle (by omega)).bind fun copyLen hcopy => ?_
  refine (hI.ur w (Nat.succ_pos _)).bind fun copyFrom hfrom => ?_
  refine (hI.ur w (Nat.succ_pos _)).bind fun copyTo hto => ?_
  refine (keeps_randomBlock hI w (by omega)).bind fun block hblock => Keeps.pure ?_
  rw [length_overwrite buf block (by omega)]
  exact hbuf

end Tweaks

/-! ### Tokens -/

section Tokens
variable {k : Nat} {bounded fresh : Prop} {I : Session (8 * k) → Prop}

/-- There is a token of either kind. -/
def HasTokens (s : Session (8 * k)) : Prop := s.dict.extras.length + s.dict.aExtras.length ≠ 0

variable (htick : ∀ s, I s → I s.tick) (w : World (8 * k))
include htick

/-- The kind that is chosen has a token. -/
theorem keeps_chooseAuto {d : Dictionary} (hd : d.extras.length + d.aExtras.length ≠ 0) :
    Keeps I (Exits bounded fresh) (Session.chooseAuto w d)
      fun useAuto => 0 < (if useAuto then d.aExtras else d.extras).length := by
  refine Keeps.ite (fun hnone => Keeps.pure ?_) fun hextras => ?_
  · show 0 < d.aExtras.length
    omega
  · refine Keeps.ite (fun hnone => Keeps.pure ?_) fun hauto => ?_
    · show 0 < d.extras.length
      omega
    · refine (keeps_ur htick w (by decide)).bind fun r _ => Keeps.pure ?_
      split <;> omega

/-- A token, where there is one. -/
theorem keeps_pickExtra (htokens : ∀ s, I s → HasTokens s) :
    Keeps I (Exits bounded fresh) (Session.pickExtra w) fun _ => True := by
  refine Keeps.get.bind fun s hs => (keeps_chooseAuto htick w (htokens s hs)).bind ?_
  intro useAuto hpos
  exact (keeps_ur htick w hpos).bind fun i _ => Keeps.pure trivial

variable (htokens : ∀ s, I s → HasTokens s) {buf : List U8} (hbuf : LenOk bounded buf.length)
include htokens hbuf

/-- Overwriting bytes with a token. -/
theorem tweaks_overwriteExtra : Tweaks bounded fresh I (Session.overwriteExtra w buf) := by
  refine (keeps_pickExtra htick w htokens).bind fun data _ => ?_
  refine Keeps.ite (fun _ => Keeps.pure hbuf) fun hlen => ?_
  refine (keeps_ur htick w (Nat.succ_pos _)).bind fun pos hpos => Keeps.pure ?_
  rw [length_overwrite buf data (by omega)]
  exact hbuf

/-- Inserting a token stays below `MAX_FILE`. -/
theorem tweaks_insertExtra : Tweaks bounded fresh I (Session.insertExtra w buf) := by
  refine (keeps_ur htick w hbuf.1).bind fun pos _ => ?_
  refine (keeps_pickExtra htick w htokens).bind fun data _ => ?_
  refine Keeps.ite (fun _ => Keeps.pure hbuf) fun hroom => Keeps.pure ?_
  rw [length_insertAt]
  have hpos := hbuf.1
  exact ⟨by omega, fun _ => by omega⟩

end Tokens

/-! ### The havoc stage -/

section Stage
variable {k : Nat} {bounded fresh : Prop} {I : Session (8 * k) → Prop}

/-- One tweak, whichever the die gives. -/
theorem tweaks_havocTweak (hI : Steady bounded fresh I)
    (hcycle : ∀ s, I s → 0 < s.globals.queueCycle) (w : World (8 * k)) {buf : List U8}
    (hbuf : LenOk bounded buf.length) : Tweaks bounded fresh I (Session.havocTweak w buf) := by
  have htick : ∀ s, I s → I s.tick := fun s hs => hI.quiet s _ hs (quiet_tick s)
  have hsame : LenOk bounded buf.length → ∀ buf' : List U8, buf'.length = buf.length →
      LenOk bounded buf'.length := fun h buf' heq => heq.symm ▸ h
  -- Cases 15 and 16 are drawn only with a token, and drawing does not change the dictionary.
  have hdraw : ∀ s : Session (8 * k), Meets (fun t => I t ∧ t = s)
      (Session.ur w (15 + if s.dict.extras.length + s.dict.aExtras.length ≠ 0 then 2 else 0)) I
      (fun c t => I t ∧ (15 ≤ c → HasTokens t)) (Exits bounded fresh) := by
    intro s
    have hur := keeps_ur (I := fun t => I t ∧ t.dict = s.dict) (X := Exits bounded fresh)
      (fun t ht => ⟨htick t ht.1, ht.2⟩) w
      (Nat.lt_of_lt_of_le (by decide : 0 < 15) (Nat.le_add_right 15
        (if s.dict.extras.length + s.dict.aExtras.length ≠ 0 then 2 else 0)))
    refine Meets.mono hur (fun t ht => ⟨ht.1, by rw [ht.2]⟩) (fun t ht => ht.1) ?_ fun _ _ he => he
    intro c t ht
    refine ⟨ht.2.1, fun hc => ?_⟩
    have hlt := ht.1
    unfold HasTokens
    rw [ht.2.2]
    split at hlt
    · assumption
    · omega
  refine Meets.bind (R := fun s t => I t ∧ t = s) (Meets.get fun s hs => ⟨hs, rfl⟩) fun s => ?_
  refine Meets.bind (hdraw s) fun c => ?_
  by_cases hc : c < 15
  · refine Meets.of_pre ?_ fun t ht => ht.1
    show Tweaks bounded fresh I _
    match c, hc with
    | 0, _ =>
      refine (hI.ur w ?_).bind fun b _ => Keeps.pure (hsame hbuf _ (length_flipBit buf b))
      rw [Nat.shiftLeft_eq]
      have := hbuf.1
      omega
    | 1, _ =>
      refine (hI.ur w hbuf.1).bind fun pos _ => ?_
      refine (keeps_pickInteresting hI w (by decide)).bind fun v _ => Keeps.pure ?_
      exact hsame hbuf _ List.length_set
    | 2, _ => exact tweaks_setInteresting hI w hbuf (by decide) _ (by decide)
    | 3, _ => exact tweaks_setInteresting hI w hbuf (by decide) _ (by decide)
    | 4, _ => exact tweaks_changeByte hI w hbuf (by decide) _
    | 5, _ => exact tweaks_changeByte hI w hbuf (by decide) _
    | 6, _ => exact tweaks_randomArith hI w hbuf (by decide) _ _
    | 7, _ => exact tweaks_randomArith hI w hbuf (by decide) _ _
    | 8, _ => exact tweaks_randomArith hI w hbuf (by decide) _ _
    | 9, _ => exact tweaks_randomArith hI w hbuf (by decide) _ _
    | 10, _ => exact tweaks_changeByte hI w hbuf (by decide) _
    | 11, _ => exact tweaks_deleteBlock hI w hbuf hcycle
    | 12, _ => exact tweaks_deleteBlock hI w hbuf hcycle
    | 13, _ => exact tweaks_cloneBlock hI w hbuf hcycle
    | 14, _ => exact tweaks_overwriteBlock hI w hbuf hcycle
    | c + 15, hc => exact absurd hc (by omega)
  · have htok : ∀ t, I t ∧ HasTokens t → HasTokens t := fun _ h => h.2
    have htick' : ∀ t : Session (8 * k), I t ∧ HasTokens t → I t.tick ∧ HasTokens t.tick :=
      fun t h => ⟨htick t h.1, h.2⟩
    refine Meets.mono (P := fun t => I t ∧ HasTokens t) (C := fun t => I t ∧ HasTokens t)
      (Q := fun buf t => LenOk bounded buf.length ∧ I t ∧ HasTokens t) ?_
      (fun t ht => ⟨ht.1, ht.2 (Nat.le_of_not_lt hc)⟩) (fun _ ht => ht.1)
      (fun _ _ ht => ⟨ht.1, ht.2.1⟩) fun _ _ he => he
    show Tweaks bounded fresh (fun t => I t ∧ HasTokens t) _
    match c, hc with
    | 15, _ => exact tweaks_overwriteExtra htick' w htok hbuf
    | c + 16, _ => exact tweaks_insertExtra htick' w htok hbuf

/-- The stacked tweaks of one execution. -/
theorem tweaks_havocStack (hI : Steady bounded fresh I)
    (hcycle : ∀ s, I s → 0 < s.globals.queueCycle) (w : World (8 * k)) (n : Nat) {buf : List U8}
    (hbuf : LenOk bounded buf.length) : Tweaks bounded fresh I (Session.havocStack w n buf) := by
  induction n generalizing buf with
  | zero => exact Keeps.pure hbuf
  | succ n ih => exact (tweaks_havocTweak hI hcycle w hbuf).bind fun buf' hbuf' => ih hbuf'

variable (hI : Saving bounded fresh I) (hcycle : ∀ s, I s → 0 < s.globals.queueCycle)
  (w : World (8 * k)) {inBuf : List U8} (hin : LenOk bounded inBuf.length)
include hI hcycle hin

/-- The executions of the stage. -/
theorem keeps_havocLoop (budget : Nat) (h : Session.HavocState) :
    Keeps I (Exits bounded fresh) (Session.havocLoop w inBuf budget h) fun _ => True := by
  induction budget generalizing h with
  | zero => exact hI.exit fun h => by cases h
  | succ budget ih =>
    refine Keeps.ite (fun _ => ?_) fun _ => Keeps.pure trivial
    refine (hI.ur w (by decide)).bind fun pow _ => ?_
    refine (hI.setOp (f := fun op => { op with stageCurVal := (1 <<< (1 + pow) : Nat) })
      (fun _ => ⟨rfl, rfl⟩) fun _ hs => hs).bind fun _ _ => ?_
    refine (tweaks_havocStack hI.toSteady hcycle w _ hin).bind fun outBuf hout => ?_
    refine (hI.commonFuzzStuff w hout).bind fun bail _ => ?_
    refine Keeps.ite (fun _ => Keeps.pure trivial) fun _ => ?_
    exact Keeps.get.bind fun s _ => ih _

/-- The havoc stage, on the input or a splice. -/
theorem keeps_havocStage (splicing : Bool) (perfScore : Nat) :
    Keeps I (Exits bounded fresh) (Session.havocStage w splicing inBuf perfScore)
      fun _ => True := by
  refine (hI.setOp (f := fun op => { op with
    stageCurByte := -1
    stageShort := if splicing then "splice".toList else "havoc".toList })
    (fun _ => ⟨rfl, rfl⟩) fun _ _ => ?_).bind fun _ _ => ?_
  · show '/' ∉ (if splicing then "splice".toList else "havoc".toList)
    cases splicing <;> decide
  · exact Keeps.get.bind fun s _ => keeps_havocLoop hI hcycle w hin _ _

end Stage

/-! ### Splicing -/

/-- The first and the last difference are in order and within both buffers. -/
theorem locateDiffs_bounds {buf1 buf2 : List U8} {first last : Nat}
    (h : Session.locateDiffs buf1 buf2 = some (first, last)) :
    first ≤ last ∧ last < buf1.length ∧ last < buf2.length := by
  unfold Session.locateDiffs at h
  dsimp only at h
  have hsorted := List.pairwise_lt_range (n := min buf1.length buf2.length) |>.filter
    fun pos => decide (byteOf buf1 pos ≠ byteOf buf2 pos)
  have hmem : ∀ pos ∈ (List.range (min buf1.length buf2.length)).filter
      (fun pos => decide (byteOf buf1 pos ≠ byteOf buf2 pos)),
      pos < min buf1.length buf2.length := by
    intro pos hpos
    exact List.mem_range.mp (List.mem_filter.mp hpos).1
  generalize (List.range (min buf1.length buf2.length)).filter
    (fun pos => decide (byteOf buf1 pos ≠ byteOf buf2 pos)) = diffs at h hsorted hmem
  cases diffs with
  | nil => cases h
  | cons d diffs =>
    have hlast : ∃ l, (d :: diffs).getLast? = some l ∧ l ∈ d :: diffs :=
      ⟨_, List.getLast?_eq_some_getLast (List.cons_ne_nil d diffs), List.getLast_mem _⟩
    obtain ⟨l, hl, hin⟩ := hlast
    rw [hl] at h
    cases h
    have hlt := hmem last hin
    refine ⟨?_, by omega, by omega⟩
    rcases List.mem_cons.mp hin with rfl | hin
    · exact Nat.le_refl _
    · exact Nat.le_of_lt (List.rel_of_pairwise_cons hsorted hin)

section Splice
variable {k : Nat} {bounded fresh : Prop} {I : Session (8 * k) → Prop}

/-- The choice of the entry to splice with. -/
theorem keeps_pickOther (hI : Steady bounded fresh I) (w : World (8 * k)) {queuedPaths : Nat}
    (hpaths : 0 < queuedPaths) (currentEntry budget : Nat) :
    Keeps I (Exits bounded fresh) (Session.pickOther w queuedPaths currentEntry budget)
      fun _ => True := by
  induction budget with
  | zero => exact hI.exit fun h => by cases h
  | succ budget ih =>
    refine (hI.ur w hpaths).bind fun tid _ => ?_
    exact Keeps.ite (fun _ => ih) fun _ => Keeps.pure trivial

/-- The walk to it. -/
theorem keeps_follow (hI : Steady bounded fresh I) (next : QueueEntry → Option Ptr)
    (g : FuzzState (8 * k)) (n : Nat) (p : Option Ptr) :
    Keeps I (Exits bounded fresh) (Session.follow next g n p) fun _ => True := by
  induction n generalizing p with
  | zero => exact Keeps.pure trivial
  | succ n ih =>
    cases p with
    | none => exact hI.exit fun h => by cases h
    | some p => exact ih _

/-- An entry of at least one byte has a length in range. -/
theorem lenOk_of_pos {s : Session (8 * k)} (h : Base bounded s) {p : Nat}
    (hpos : 0 < (s.globals.entry p).len) : LenOk bounded (s.globals.entry p).len := by
  by_cases hp : p < s.globals.entries.length
  · exact h.lens _ (mem_fields.mpr ⟨p, hp, rfl⟩)
  · rw [FuzzState.entry, List.getD_eq_getElem?_getD, List.getElem?_eq_none (Nat.le_of_not_lt hp)]
      at hpos
    cases hpos

/-- A spliced input has the length of the other file. -/
theorem keeps_splice (hI : Steady bounded fresh I) (w : World (8 * k)) (q : Nat)
    (origIn : List U8) :
    Keeps I (Exits bounded fresh) (Session.splice w q origIn)
      fun r => ∀ buf ∈ r, LenOk bounded buf.length := by
  have hretry : ∀ buf ∈ (none : Option (List U8)), LenOk bounded buf.length :=
    fun buf hbuf => absurd hbuf (Option.not_mem_none buf)
  refine Keeps.get.bind fun s hs => ?_
  have hbase := (hI.loaded s hs).toBase
  have hpaths : 0 < s.globals.queuedPaths := by
    rw [hbase.books.paths]
    exact (hI.loaded s hs).nonempty
  refine (keeps_pickOther hI w hpaths _ _).bind fun tid _ => ?_
  refine ((keeps_follow hI _ _ _ _).bind fun p _ => keeps_follow hI _ _ _ p).bind fun target _ => ?_
  dsimp only
  generalize Session.skipTargets s.globals q s.globals.entries.length target tid = r
  refine (hI.setOp (f := fun op => { op with splicingWith := r.2 }) (fun _ => ⟨rfl, rfl⟩)
    fun _ h => h).bind fun _ _ => ?_
  split
  · exact Keeps.pure hretry
  · rename_i p
    refine (hI.readCase _ _).bind fun newBuf hnew => ?_
    split
    · exact Keeps.pure hretry
    · rename_i fDiff lDiff hdiffs
      obtain ⟨hle, _, hlast⟩ := locateDiffs_bounds hdiffs
      refine Keeps.ite (fun _ => Keeps.pure hretry) fun hgap => ?_
      refine (hI.ur w (by omega)).bind fun r hr => Keeps.pure fun buf hbuf => ?_
      rw [← Option.mem_some_iff.mp hbuf, List.length_append, List.length_take, List.length_drop]
      have hlen : LenOk bounded newBuf.length := by
        rw [hnew]
        exact lenOk_of_pos hbase (by omega)
      have htotal : min (fDiff + r) origIn.length + (newBuf.length - (fDiff + r)) =
          newBuf.length := by
        omega
      rw [htotal]
      exact hlen

variable (hI : Saving bounded fresh I) (hcycle : ∀ s, I s → 0 < s.globals.queueCycle)
  (w : World (8 * k))
include hI hcycle

/-- All rounds of splicing. -/
theorem keeps_spliceRounds (q : Nat) (origIn : List U8) (origPerf rounds : Nat) :
    Keeps I (Exits bounded fresh) (Session.spliceRounds w q origIn origPerf rounds)
      fun _ => True := by
  induction rounds with
  | zero => exact Keeps.pure trivial
  | succ rounds ih =>
    refine Keeps.get.bind fun s _ => ?_
    refine Keeps.ite (fun _ => ?_) fun _ => Keeps.pure trivial
    refine (keeps_splice hI.toSteady w q origIn).bind fun spliced hspliced => ?_
    cases spliced with
    | none => exact ih
    | some inBuf =>
      refine (keeps_havocStage hI hcycle w (hspliced inBuf rfl) true origPerf).bind ?_
      intro bail _
      exact Keeps.ite (fun _ => Keeps.pure trivial) fun _ => ih

/-- The random stages, on an input with a length in range. -/
theorem keeps_randomStages (q : Nat) {inBuf : List U8} (hin : LenOk bounded inBuf.length)
    (perfScore : Nat) :
    Keeps I (Exits bounded fresh) (Session.randomStages w q inBuf perfScore) fun _ => True := by
  refine (keeps_havocStage hI hcycle w hin false perfScore).bind fun bail _ => ?_
  refine Keeps.ite (fun _ => Keeps.pure trivial) fun _ => ?_
  exact keeps_spliceRounds hI hcycle w q inBuf perfScore _

end Splice

end TriforceAFL.Proofs
