import TriforceAFL.Lib.Loop
import TriforceAFL.Lib.Runs
import TriforceAFL.Spec.Analyze

/-!
# `TriforceAFL.Proofs.Analyze`: the segments that `afl-analyze` reports

The loop of `analyze` edits one byte five times and has it back in the end, so the buffers that it
runs are those of `fourBuffers`. What it writes in `b_data` is the class of each byte with a top bit
that has been flipped as often as all four checksums changed (`seqBefore`).

`dump_hex` finds the runs of equal top bits. Those are maximal (`IsRun`), so a segment begins
exactly where the bit flips.
-/

set_option autoImplicit false

namespace TriforceAFL.Proofs

open Lib Spec

/-! ### The runs of the target -/

/-- The buffers that are run for byte `i`. -/
def fourBuffers (inData : List U8) (i : Nat) : List (List U8) :=
  let b := byteOf inData i
  [inData.set i (b ^^^ 0xff), inData.set i (b ^^^ 0x01), inData.set i (b - 0x10),
    inData.set i (b + 0x10)]

/-- The buffers that are run for the bytes before `n`. -/
def buffersBefore (inData : List U8) (n : Nat) : List (List U8) :=
  (List.range n).flatMap (fourBuffers inData)

/-- The checksums of the four runs for byte `i`. -/
def checksumsAt (cksum : List (List U8) → U32) (inData : List U8) (i : Nat) : Checksums :=
  let run n := cksum (buffersBefore inData i ++ (fourBuffers inData i).take n)
  ⟨run 1, run 2, run 3, run 4⟩

theorem buffersBefore_succ (inData : List U8) (n : Nat) :
    buffersBefore inData (n + 1) = buffersBefore inData n ++ fourBuffers inData n := by
  simp [buffersBefore, List.range_succ]

/-- The five assignments to a byte and the four runs in between. -/
theorem walkByte_eq (cksum : List (List U8) → U32) {s : AnalyzeState} {i : Nat}
    (hi : i < s.inData.length) (hexecs : s.execs = buffersBefore s.inData i) :
    s.walkByte cksum i = (checksumsAt cksum s.inData i,
      { s with execs := buffersBefore s.inData (i + 1) }) := by
  set b := byteOf s.inData i with hb
  have hxor : b ^^^ 0xff ^^^ 0xfe = b ^^^ 0x01 := by rw [BitVec.xor_assoc]; rfl
  have hsub : (b ^^^ 0x01 ^^^ 0x01) - 0x10 = b - 0x10 := by
    rw [BitVec.xor_assoc, BitVec.xor_self, BitVec.xor_zero]
  have hadd : b - 0x10 + 0x20 = b + 0x10 := by bv_omega
  have hback : b + 0x10 - 0x10 = b := by bv_omega
  have hsame : s.inData.set i b = s.inData := by
    rw [hb, byteOf, List.getD_eq_getElem _ _ hi, List.set_getElem_self]
  have hread : ∀ x, byteOf (s.inData.set i x) i = x := by simp [byteOf, hi]
  simp only [AnalyzeState.walkByte, AnalyzeState.assign, AnalyzeState.runTarget, ← hb,
    List.set_set, hread, hxor, hsub, hadd, hback, hsame]
  simp [checksumsAt, buffersBefore_succ, fourBuffers, hexecs, ← hb]

/-! ### The marks -/

section Marks
variable (cksum : List (List U8) → U32) (orig : U32) (inData : List U8)

/-- The checksums that those of byte `n` are compared with. -/
def prevAt : Nat → Checksums
  | 0 => {}
  | n + 1 => checksumsAt cksum inData n

/-- The top bit before byte `n` has been marked. -/
def seqBefore : Nat → U8
  | 0 => 0
  | n + 1 =>
    if AllChange (prevAt cksum inData n) (checksumsAt cksum inData n) then seqBefore n ^^^ 0x80
    else seqBefore n

/-- The class of byte `k`. -/
def classAt (k : Nat) : U8 := classifyByte orig (checksumsAt cksum inData k)

/-- The state of `analyze` when the bytes before `n` are done. -/
structure Walked (n : Nat) (s : AnalyzeState) : Prop where
  inData_eq : s.inData = inData
  execs : s.execs = buffersBefore inData n
  length : s.bData.length = inData.length + 1
  marks : ∀ k < n, byteOf s.bData k = classAt cksum orig inData k ||| seqBefore cksum inData (k + 1)
  seq : s.seqByte = seqBefore cksum inData n
  prev : s.prev = prevAt cksum inData n

variable {cksum orig inData}

theorem walked_analyzeByte {n : Nat} (hn : n < inData.length) {s : AnalyzeState}
    (hs : Walked cksum orig inData n s) :
    Walked cksum orig inData (n + 1) (analyzeByte cksum orig s n) := by
  have hwalk := walkByte_eq cksum (s := s) (i := n) (by rw [hs.inData_eq]; exact hn)
    (by rw [hs.inData_eq, hs.execs])
  rw [hs.inData_eq] at hwalk
  have hseq : (if AllChange s.prev (checksumsAt cksum inData n) then s.seqByte ^^^ 0x80
      else s.seqByte) = seqBefore cksum inData (n + 1) := by
    rw [hs.prev, hs.seq, seqBefore]
  simp only [analyzeByte, hwalk, hseq]
  constructor
  · rfl
  · rfl
  · rw [List.length_set, hs.length]
  · intro k hk
    have hlen := hs.length
    rcases Nat.lt_succ_iff_lt_or_eq.mp hk with hlt | rfl
    · rw [← hs.marks k hlt]
      simp [byteOf, Nat.ne_of_gt hlt]
    · have hin : k < s.bData.length := by omega
      simp [byteOf, hin, classAt]
  · rfl
  · rfl

variable (cksum orig inData) in
/-- The loop over the whole input. -/
theorem walked_analyzeLoop :
    Walked cksum orig inData inData.length (analyzeLoop cksum orig inData) := by
  apply foldl_range_induct (P := Walked cksum orig inData)
  · constructor
    · rfl
    · rfl
    · simp
    · intro k hk
      exact absurd hk (Nat.not_lt_zero k)
    · rfl
    · rfl
  · intro n hn s hs
    exact walked_analyzeByte hn hs

variable (cksum inData) in
theorem seqBefore_cases (n : Nat) :
    seqBefore cksum inData n = 0 ∨ seqBefore cksum inData n = 0x80 := by
  induction n with
  | zero => exact Or.inl rfl
  | succ n ih =>
    rw [seqBefore]
    rcases ih with h | h <;> rw [h] <;> split <;> simp

theorem classifyByte_cases (orig : U32) (c : Checksums) :
    classifyByte orig c = RESP_NONE ∨ classifyByte orig c = RESP_MINOR ∨
      classifyByte orig c = RESP_VARIABLE ∨ classifyByte orig c = RESP_FIXED := by
  unfold classifyByte
  split
  · exact Or.inl rfl
  · split
    · exact Or.inr (Or.inl rfl)
    · split <;> simp

/-- Neither part of a mark reaches into the other. -/
theorem mark_parts (n k : Nat) :
    (classAt cksum orig inData k ||| seqBefore cksum inData n) >>> 7
        = seqBefore cksum inData n >>> 7 ∧
      (classAt cksum orig inData k ||| seqBefore cksum inData n) &&& 0x0f
        = classAt cksum orig inData k := by
  unfold classAt
  rcases seqBefore_cases cksum inData n with hs | hs <;>
    rcases classifyByte_cases orig (checksumsAt cksum inData k) with hc | hc | hc | hc <;>
      rw [hs, hc] <;> exact ⟨rfl, rfl⟩

/-- The top bits of two neighbours differ where all four checksums change. -/
theorem seq_ne_iff {k : Nat} (hk : 0 < k) :
    seqBefore cksum inData (k - 1 + 1) >>> 7 ≠ seqBefore cksum inData (k + 1) >>> 7 ↔
      AllChange (checksumsAt cksum inData (k - 1)) (checksumsAt cksum inData k) := by
  obtain ⟨m, rfl⟩ := Nat.exists_eq_add_of_lt hk
  simp only [Nat.zero_add, Nat.add_sub_cancel]
  rw [seqBefore.eq_2 cksum inData (m + 1)]
  show _ ↔ AllChange (prevAt cksum inData (m + 1)) _
  split
  · rename_i hall
    rcases seqBefore_cases cksum inData (m + 1) with h | h <;>
      rw [h] <;> simp [hall]
  · rename_i hall
    simp [hall]

end Marks

/-! ### Reads of a further classification -/

/-- Whatever the bytes are, only those of the run are read. -/
theorem classifyRun_reads (inLen i rlen : Nat) (rtype : U8) :
    Asks.Safe (fun _ _ => True) (fun _ k => i ≤ k ∧ k < i + rlen)
      (classifyRun inLen i rlen rtype) [] fun _ _ => True := by
  unfold classifyRun
  refine .ite (fun _ => ?_) fun _ => trivial
  refine .ite (fun h2 => ?_) fun _ => .ite (fun h4 => ?_) fun _ => .ite (fun _ => trivial)
    fun _ => trivial
  · refine ⟨by omega, fun b0 _ => ⟨by omega, fun b1 _ => ?_⟩⟩
    refine .ite (fun _ => trivial) fun _ => .ite (fun _ => ?_) fun _ => trivial
    exact ⟨by omega, fun _ _ => ⟨by omega, fun _ _ => trivial⟩⟩
  · refine ⟨by omega, fun b0 _ => ⟨by omega, fun b1 _ => ⟨by omega, fun b2 _ =>
      ⟨by omega, fun b3 _ => ?_⟩⟩⟩⟩
    refine .ite (fun _ => trivial) fun _ => .ite (fun _ => ?_) fun _ => trivial
    refine ⟨by omega, fun _ _ => ⟨by omega, fun _ _ => .ite (fun _ => trivial) fun _ => ?_⟩⟩
    refine ⟨by omega, fun _ _ => ⟨by omega, fun _ _ => .ite (fun _ => trivial) fun _ => ?_⟩⟩
    exact ⟨by omega, fun _ _ => ⟨by omega, fun _ _ => trivial⟩⟩

/-! ### Segments -/

/-- The segments follow each other from `a` up to `n`, and none is empty. -/
def Tiles : List Segment → Nat → Nat → Prop
  | [], a, n => a = n
  | g :: gs, a, n => g.offset = a ∧ 0 < g.rlen ∧ Tiles gs (a + g.rlen) n

theorem Tiles.append {gs : List Segment} {g : Segment} {a n : Nat} (h : Tiles gs a n)
    (hoff : g.offset = n) (hpos : 0 < g.rlen) : Tiles (gs ++ [g]) a (n + g.rlen) := by
  induction gs generalizing a with
  | nil =>
    have ha : a = n := h
    subst ha
    exact ⟨hoff, hpos, rfl⟩
  | cons g' gs ih => exact ⟨h.1, h.2.1, ih h.2.2⟩

/-- Every offset lies in a segment. -/
theorem Tiles.exists_mem {gs : List Segment} {a n i : Nat} (h : Tiles gs a n) (hlo : a ≤ i)
    (hhi : i < n) : ∃ g ∈ gs, g.offset ≤ i ∧ i < g.offset + g.rlen := by
  induction gs generalizing a with
  | nil =>
    have ha : a = n := h
    omega
  | cons g gs ih =>
    obtain ⟨hoff, _, hrest⟩ := h
    by_cases hin : i < a + g.rlen
    · exact ⟨g, List.mem_cons_self, by omega, by omega⟩
    · obtain ⟨g', hg', hbounds⟩ := ih hrest (by omega)
      exact ⟨g', List.mem_cons_of_mem g hg', hbounds⟩

/-- `m` is the largest value of `f` from `lo` up to `hi`. -/
def LargestOn (f : Nat → U8) (lo hi : Nat) (m : U8) : Prop :=
  (∀ k, lo ≤ k → k < hi → f k ≤ m) ∧ ∃ k, lo ≤ k ∧ k < hi ∧ f k = m

theorem LargestOn.succ {f : Nat → U8} {lo hi : Nat} {m : U8} (h : LargestOn f lo hi m)
    (hle : lo ≤ hi) : LargestOn f lo (hi + 1) (if m < f hi then f hi else m) := by
  obtain ⟨hall, k, hlo, hhi, hk⟩ := h
  split
  · rename_i hlt
    refine ⟨fun j hj hj' => ?_, hi, hle, Nat.lt_succ_self hi, rfl⟩
    rcases Nat.lt_succ_iff_lt_or_eq.mp hj' with hold | rfl
    · have hle := hall j hj hold
      bv_omega
    · exact BitVec.le_refl _
  · rename_i hge
    refine ⟨fun j hj hj' => ?_, k, hlo, by omega, hk⟩
    rcases Nat.lt_succ_iff_lt_or_eq.mp hj' with hold | rfl
    · exact hall j hj hold
    · exact BitVec.not_lt.mp hge

section Dump
variable (inData bData : List U8)

/-- The top bit that byte `k` is marked with. -/
def topBit (k : Nat) : U8 := byteOf bData k >>> 7

/-- The class that byte `k` is marked with. -/
def lowBits (k : Nat) : U8 := byteOf bData k &&& 0x0f

/-- What the loop that looks ahead from `i` has found. -/
structure Ahead (i : Nat) (r : Nat × U8) : Prop where
  pos : 0 < r.1
  le : i + r.1 ≤ inData.length
  const : ∀ k, i ≤ k → k < i + r.1 → topBit bData k = topBit bData i
  base : LargestOn (lowBits bData) i (i + r.1) r.2

/-- What is printed of a segment. -/
structure SegmentOf (g : Segment) : Prop where
  run : IsRun (topBit bData) inData.length g.offset (g.offset + g.rlen)
  base : LargestOn (lowBits bData) g.offset (g.offset + g.rlen) g.base
  rtype : g.rtype =
    Asks.interp (m := Id) (byteOf inData) (classifyRun inData.length g.offset g.rlen g.base)

/-- The outer loop at offset `i`: the segments before have been printed. -/
structure Dumped (t : Nat × List Segment) : Prop where
  le : t.1 ≤ inData.length
  tiles : Tiles t.2 0 t.1
  segments : ∀ g ∈ t.2, SegmentOf inData bData g
  fresh : 0 < t.1 → t.1 < inData.length → topBit bData (t.1 - 1) ≠ topBit bData t.1

variable {inData bData}

/-- The run from `i` up to the first other top bit. -/
theorem lookAhead_ends {i : Nat} (hi : i < inData.length) :
    Ends (fun budget => repeatStep (lookAheadTurn bData inData.length i) budget
        (1, byteOf bData i &&& 0x0f))
      fun r => Ahead inData bData i r ∧
        (i + r.1 < inData.length → topBit bData (i + r.1) ≠ topBit bData i) := by
  refine Ends.repeatStep (Ahead inData bData i) (fun r => inData.length - r.1) ?_ _ ?_
  · rintro ⟨rlen, rtype⟩ hr
    have hpos := hr.pos
    dsimp only at hpos
    simp only [lookAheadTurn]
    split
    · rename_i hnext
      obtain ⟨hlt, hbit⟩ := hnext
      refine Ends.pure ⟨⟨Nat.succ_pos rlen, hlt, ?_, ?_⟩, ?_⟩
      · intro k hlo hhi
        rcases Nat.lt_succ_iff_lt_or_eq.mp hhi with hold | rfl
        · exact hr.const k hlo hold
        · exact hbit.symm
      · exact hr.base.succ (Nat.le_add_right i rlen)
      · show inData.length - (rlen + 1) < inData.length - rlen
        omega
    · rename_i hstop
      refine Ends.pure ⟨hr, fun hlt heq => hstop ⟨hlt, heq.symm⟩⟩
  · refine ⟨Nat.one_pos, hi, ?_, ?_, i, Nat.le_refl i, Nat.lt_succ_self i, rfl⟩
    · intro k hlo hhi
      obtain rfl : k = i := Nat.le_antisymm (Nat.le_of_lt_succ hhi) hlo
      rfl
    · intro k hlo hhi
      obtain rfl : k = i := Nat.le_antisymm (Nat.le_of_lt_succ hhi) hlo
      exact BitVec.le_refl _

variable (inData bData) in
/-- Each turn of the outer loop prints one maximal run. -/
theorem dumpHex_ends :
    Ends (dumpHex inData bData) fun printed =>
      Tiles printed 0 inData.length ∧ ∀ g ∈ printed, SegmentOf inData bData g := by
  unfold dumpHex
  refine Ends.repeatStep (Dumped inData bData) (fun t => inData.length - t.1) ?_ _ ?_
  · rintro ⟨i, printed⟩ ht
    by_cases hi : i < inData.length
    · simp only [dumpTurn, if_pos hi]
      refine (lookAhead_ends hi).bind ?_
      rintro ⟨rlen, base⟩ ⟨hrun, hstop⟩
      have hpos := hrun.pos
      dsimp only at hpos hstop
      have hnext : i + (rlen - 1) + 1 = i + rlen := by omega
      rw [hnext]
      refine Ends.pure ⟨⟨hrun.le, ht.tiles.append rfl hpos, ?_, ?_⟩, ?_⟩
      · intro g hg
        rcases List.mem_append.mp hg with hold | hnew
        · exact ht.segments g hold
        · obtain rfl := List.mem_singleton.mp hnew
          exact ⟨⟨by dsimp only; omega, hrun.le, hrun.const, fun h => ht.fresh h hi, hstop⟩,
            hrun.base, rfl⟩
      · intro _ hlt
        rw [hrun.const (i + rlen - 1) (by omega) (by dsimp only; omega)]
        exact (hstop hlt).symm
      · show inData.length - (i + rlen) < inData.length - i
        omega
    · simp only [dumpTurn, if_neg hi]
      obtain rfl : i = inData.length := Nat.le_antisymm ht.le (Nat.le_of_not_lt hi)
      exact Ends.pure ⟨ht.tiles, ht.segments⟩
  · exact ⟨Nat.zero_le _, rfl, (fun _ hg => absurd hg List.not_mem_nil),
      fun h => absurd h (Nat.lt_irrefl 0)⟩

/-- A segment begins where the top bit flips. -/
theorem offset_mem_iff {printed : List Segment} (htiles : Tiles printed 0 inData.length)
    (hall : ∀ g ∈ printed, SegmentOf inData bData g) {i : Nat} (hpos : 0 < i)
    (hi : i < inData.length) :
    (∃ g ∈ printed, g.offset = i) ↔ topBit bData (i - 1) ≠ topBit bData i := by
  constructor
  · rintro ⟨g, hg, rfl⟩
    exact (hall g hg).run.left hpos
  · intro hflip
    obtain ⟨g, hg, hlo, hhi⟩ := htiles.exists_mem (Nat.zero_le i) hi
    refine ⟨g, hg, Nat.le_antisymm hlo ?_⟩
    -- Otherwise the neighbour before `i` is in the same segment.
    by_contra hlt
    have hrun := (hall g hg).run
    exact hflip ((hrun.const (i - 1) (by omega) (by omega)).trans
      (hrun.const i hlo hhi).symm)

end Dump

/-- For every input and all checksums, `analyze` ends. It has run the four variants of every byte
and restored the input. The segments that it prints follow each other over the whole input, and one
begins behind the first byte exactly where all four checksums change. The base type of a segment is
the largest class of its bytes, and what is read to refine it lies in the segment. -/
theorem analyze_segments (cksum : List (List U8) → U32) (orig : U32) (inData : List U8) :
    Ends (analyze cksum orig inData) fun r =>
      r.1.inData = inData ∧ r.1.execs = buffersBefore inData inData.length ∧
      Tiles r.2 0 inData.length ∧
      (∀ i, 0 < i → i < inData.length → ((∃ g ∈ r.2, g.offset = i) ↔
        AllChange (checksumsAt cksum inData (i - 1)) (checksumsAt cksum inData i))) ∧
      ∀ g ∈ r.2,
        LargestOn (classAt cksum orig inData) g.offset (g.offset + g.rlen) g.base ∧
        Asks.Safe (fun _ _ => True) (fun _ k => g.offset ≤ k ∧ k < g.offset + g.rlen)
          (classifyRun inData.length g.offset g.rlen g.base) [] (fun _ _ => True) ∧
        g.rtype = Asks.interp (m := Id) (byteOf inData)
          (classifyRun inData.length g.offset g.rlen g.base) := by
  have hwalked := walked_analyzeLoop cksum orig inData
  set s := analyzeLoop cksum orig inData with hs
  have htop : ∀ k < inData.length,
      topBit s.bData k = seqBefore cksum inData (k + 1) >>> 7 := fun k hk => by
    rw [topBit, hwalked.marks k hk, (mark_parts (k + 1) k).1]
  have hlow : ∀ k < inData.length, lowBits s.bData k = classAt cksum orig inData k :=
    fun k hk => by rw [lowBits, hwalked.marks k hk, (mark_parts (k + 1) k).2]
  have hdump := dumpHex_ends inData s.bData
  rw [← hwalked.inData_eq] at hdump
  refine hdump.bind (g := fun _ printed => some (s, printed)) fun printed hprinted => ?_
  rw [hwalked.inData_eq] at hprinted
  obtain ⟨htiles, hall⟩ := hprinted
  refine Ends.pure ⟨hwalked.inData_eq, hwalked.execs, htiles, ?_, ?_⟩
  · intro i hpos hi
    rw [offset_mem_iff htiles hall hpos hi, htop (i - 1) (by omega), htop i hi]
    exact seq_ne_iff hpos
  · intro g hg
    have hle := (hall g hg).run.le
    obtain ⟨hmax, k, hlo, hhi, hk⟩ := (hall g hg).base
    refine ⟨⟨fun j hj hj' => ?_, k, hlo, hhi, ?_⟩, classifyRun_reads _ _ _ _, (hall g hg).rtype⟩
    · rw [← hlow j (by omega)]
      exact hmax j hj hj'
    · rw [← hlow k (by omega)]
      exact hk

end TriforceAFL.Proofs
