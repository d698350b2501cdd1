import TriforceAFL.Lib.Loop
import TriforceAFL.Spec.Bitmap
import Mathlib.Order.Interval.Set.LinearOrder
import Mathlib.Tactic.Push

/-!
# `TriforceAFL.Proofs.HasNewBits`: coverage novelty over whole runs

`hasNewBits` decides on machine words, with a cascade of byte masks. `hasNewBits_bytewise` says
what it computes, byte by byte:

* the virgin map loses exactly the bits of the trace;
* the return value is the `verdict` on the bytes: 2 when some byte is non-zero in the trace and
  still `0xff` in the virgin map (`NewTuple`), else 1 when some bit is set in both (`NewCount`),
  else 0.

A verdict on a union of byte sets is the maximum of the two verdicts (`verdict_union`), and a turn
of the loop is exactly that maximum (`hasNewBitsStep_ret`). The loop invariant `LoopInv` speaks
about the bytes of the words done so far.

So the flavours agree with each other and with the byte-wise definition (`hasNewBits_bytewise`).

The history results fold `hasNewBits` over a list of traces, from an all-`0xff` map.
`virginAfter_byte` is the invariant: after the traces, a byte of the map is the complement of the
union of the traces' bytes. So "still `0xff`" means "zero in every earlier trace", and "set in
the virgin map" means "set in no earlier trace". `hasNewBits_history` assembles the verdict of
every call, the final map, its independence of the order, and the verdict 0 of a repeated trace.
-/

set_option autoImplicit false

namespace TriforceAFL.Proofs

open Lib Spec

variable {m : Nat}

/-! ### The verdict on a set of bytes -/

/-- Byte `b` belongs to a tuple never seen before: it is non-zero in the trace, and the virgin
map still holds `0xff`. -/
def NewTuple (trace virgin : Nat → U8) (b : Nat) : Prop :=
  trace b ≠ 0#8 ∧ virgin b = 0xff#8

/-- Some bit of byte `b` is set in the trace and still set in the virgin map. -/
def NewCount (trace virgin : Nat → U8) (b : Nat) : Prop :=
  trace b &&& virgin b ≠ 0#8

open Classical in
/-- The return value that the bytes in `S` call for. -/
noncomputable def verdict (trace virgin : Nat → U8) (S : Set Nat) : Nat :=
  if ∃ b ∈ S, NewTuple trace virgin b then 2
  else if ∃ b ∈ S, NewCount trace virgin b then 1 else 0

section Verdict
variable (trace virgin : Nat → U8) (S T : Set Nat)

/-- A new tuple is in particular a new count. -/
theorem NewTuple.newCount {trace virgin : Nat → U8} {b : Nat} (h : NewTuple trace virgin b) :
    NewCount trace virgin b := by
  unfold NewCount
  rw [h.2, and_ff]
  exact h.1

theorem verdict_le_two : verdict trace virgin S ≤ 2 := by
  unfold verdict
  split
  · exact le_refl 2
  · split <;> omega

theorem verdict_eq_two_iff :
    verdict trace virgin S = 2 ↔ ∃ b ∈ S, NewTuple trace virgin b := by
  unfold verdict
  split
  · simp [*]
  · split <;> simp [*]

theorem verdict_eq_one_iff :
    verdict trace virgin S = 1 ↔
      (¬ ∃ b ∈ S, NewTuple trace virgin b) ∧ ∃ b ∈ S, NewCount trace virgin b := by
  unfold verdict
  split
  · simp [*]
  · split <;> simp [*]

theorem verdict_eq_zero_iff :
    verdict trace virgin S = 0 ↔ ¬ ∃ b ∈ S, NewCount trace virgin b := by
  unfold verdict
  split
  · rename_i h
    obtain ⟨b, hb, hnew⟩ := h
    have hcount : ∃ b ∈ S, NewCount trace virgin b := ⟨b, hb, hnew.newCount⟩
    simp [hcount]
  · split <;> simp [*]

/-- The verdict on a union is the larger of the two verdicts. -/
theorem verdict_union :
    verdict trace virgin (S ∪ T) = max (verdict trace virgin S) (verdict trace virgin T) := by
  have hor : ∀ p : Nat → Prop, (∃ b ∈ S ∪ T, p b) ↔ (∃ b ∈ S, p b) ∨ ∃ b ∈ T, p b := by
    intro p
    constructor
    · rintro ⟨b, hb | hb, h⟩
      · exact Or.inl ⟨b, hb, h⟩
      · exact Or.inr ⟨b, hb, h⟩
    · rintro (⟨b, hb, h⟩ | ⟨b, hb, h⟩)
      · exact ⟨b, Or.inl hb, h⟩
      · exact ⟨b, Or.inr hb, h⟩
  unfold verdict
  rw [hor, hor]
  -- Sixteen combinations of what the two sets hold.
  by_cases hST : ∃ b ∈ S, NewTuple trace virgin b <;>
    by_cases hTT : ∃ b ∈ T, NewTuple trace virgin b <;>
    by_cases hSC : ∃ b ∈ S, NewCount trace virgin b <;>
    by_cases hTC : ∃ b ∈ T, NewCount trace virgin b <;>
    simp only [hST, hTT, hSC, hTC, or_true, or_false, if_true, if_false] <;> rfl

end Verdict

/-! ### One word -/

/-- The mask cascade finds a new tuple exactly when some byte of the word is one. -/
theorem hasNewByte_iff (n : Nat) (cur vir : BitVec (8 * n)) :
    hasNewByte n cur vir = true ↔ ∃ b < n, NewTuple (byteAt cur) (byteAt vir) b := by
  unfold hasNewByte
  rw [List.any_eq_true]
  constructor
  · rintro ⟨b, hb, h⟩
    rw [List.mem_range] at hb
    rw [Bool.and_eq_true, bne_iff_ne, beq_iff_eq] at h
    exact ⟨b, hb, (and_byteMask_ne_zero_iff cur b hb).mp h.1,
      (and_byteMask_eq_iff vir b hb).mp h.2⟩
  · rintro ⟨b, hb, hcur, hvir⟩
    refine ⟨b, List.mem_range.mpr hb, ?_⟩
    rw [Bool.and_eq_true, bne_iff_ne, beq_iff_eq]
    exact ⟨(and_byteMask_ne_zero_iff cur b hb).mpr hcur,
      (and_byteMask_eq_iff vir b hb).mpr hvir⟩

/-- The word test `cur & vir` fires exactly when some byte has a common bit. -/
theorem and_ne_zero_iff_newCount (n : Nat) (cur vir : BitVec (8 * n)) :
    cur &&& vir ≠ 0 ↔ ∃ b < n, NewCount (byteAt cur) (byteAt vir) b := by
  unfold NewCount
  constructor
  · intro h
    by_contra hno
    push Not at hno
    exact h ((eq_zero_iff_byteAt _).mpr fun i hi => by rw [byteAt_and]; exact hno i hi)
  · rintro ⟨b, hb, h⟩ h0
    apply h
    rw [← byteAt_and, show cur &&& vir = 0#(8 * n) from h0, byteAt_zero]
    rfl

/-! ### The loop -/

/-- The word at index `i` occupies the bytes from `n * i` on. -/
theorem exists_word_byte {n i : Nat} {p : Nat → Prop} :
    (∃ b ∈ Set.Ico (n * i) (n * i + n), p b) ↔ ∃ j < n, p (n * i + j) := by
  constructor
  · rintro ⟨b, ⟨hb1, hb2⟩, h⟩
    exact ⟨b - n * i, by omega, by rwa [show n * i + (b - n * i) = b by omega]⟩
  · rintro ⟨j, hj, h⟩
    exact ⟨n * i + j, ⟨by omega, by omega⟩, h⟩

/-- Everything the loop has established after the first `k` bytes: the return value is the verdict
on them, they have lost the trace's bits, and the rest of the virgin map is untouched. -/
structure LoopInv (trace virgin : List U8) (k : Nat) (s : Nat × List U8) : Prop where
  ret : s.1 = verdict (byteOf trace) (byteOf virgin) (Set.Iio k)
  length : s.2.length = virgin.length
  done : ∀ b < k, byteOf s.2 b = byteOf virgin b &&& ~~~byteOf trace b
  rest : ∀ b, k ≤ b → byteOf s.2 b = byteOf virgin b

section Step
variable {n i : Nat} {trace virgin : List U8} {s : Nat × List U8}

/-- A turn of the loop raises the return value to the verdict on the word's own bytes. -/
theorem hasNewBitsStep_ret (h : LoopInv trace virgin (n * i) s) :
    (hasNewBitsStep n trace s i).1
      = max s.1 (verdict (byteOf trace) (byteOf virgin) (Set.Ico (n * i) (n * i + n))) := by
  -- The virgin word has not been touched yet, so its bytes are the original ones.
  have hcur : ∀ j < n, byteAt (load n trace (n * i)) j = byteOf trace (n * i + j) :=
    fun j hj => byteAt_load trace (n * i) j hj
  have hvir : ∀ j < n, byteAt (load n s.2 (n * i)) j = byteOf virgin (n * i + j) :=
    fun j hj => (byteAt_load s.2 (n * i) j hj).trans (h.rest _ (by omega))
  have hcount : load n trace (n * i) &&& load n s.2 (n * i) ≠ 0 ↔
      ∃ b ∈ Set.Ico (n * i) (n * i + n), NewCount (byteOf trace) (byteOf virgin) b := by
    rw [and_ne_zero_iff_newCount, exists_word_byte]
    exact exists_congr fun j => and_congr_right fun hj => by
      unfold NewCount
      rw [hcur j hj, hvir j hj]
  have htuple : hasNewByte n (load n trace (n * i)) (load n s.2 (n * i)) = true ↔
      ∃ b ∈ Set.Ico (n * i) (n * i + n), NewTuple (byteOf trace) (byteOf virgin) b := by
    rw [hasNewByte_iff, exists_word_byte]
    exact exists_congr fun j => and_congr_right fun hj => by
      unfold NewTuple
      rw [hcur j hj, hvir j hj]
  -- The code skips the cascade once the value is 2; then the maximum is 2 anyway.
  have hle : s.1 ≤ 2 := h.ret ▸ verdict_le_two _ _ _
  unfold hasNewBitsStep verdict
  by_cases hc : load n trace (n * i) &&& load n s.2 (n * i) ≠ 0
  · simp only [← hcount, hc, ← htuple, ne_eq, not_false_eq_true, if_true]
    by_cases hnew : hasNewByte n (load n trace (n * i)) (load n s.2 (n * i)) = true
    · simp only [hnew, if_true]
      split <;> omega
    · simp only [hnew, Bool.false_eq_true, if_false]
      split <;> omega
  · -- Without a common bit there is no new tuple either.
    have hno : ¬ ∃ b ∈ Set.Ico (n * i) (n * i + n), NewTuple (byteOf trace) (byteOf virgin) b := by
      rintro ⟨b, hb, hnew⟩
      exact hc (hcount.mpr ⟨b, hb, hnew.newCount⟩)
    simp only [hc, ← hcount, hno, if_false, Nat.max_zero]

/-- A turn of the loop clears the trace's bits in the word's own bytes. A word that is skipped has
no common bit with the trace, so clearing would not have changed it. -/
theorem byteOf_hasNewBitsStep (hlen : n * i + n ≤ virgin.length)
    (h : LoopInv trace virgin (n * i) s) (b : Nat) :
    byteOf (hasNewBitsStep n trace s i).2 b
      = if n * i ≤ b ∧ b < n * i + n then byteOf virgin b &&& ~~~byteOf trace b
        else byteOf s.2 b := by
  have hvir : ∀ j < n, byteAt (load n s.2 (n * i)) j = byteOf virgin (n * i + j) :=
    fun j hj => (byteAt_load s.2 (n * i) j hj).trans (h.rest _ (by omega))
  unfold hasNewBitsStep
  by_cases hc : load n trace (n * i) &&& load n s.2 (n * i) ≠ 0
  · simp only [hc, if_true, ne_eq, not_false_eq_true]
    by_cases hin : n * i ≤ b ∧ b < n * i + n
    · -- A byte of the word that is stored.
      have hsub : n * i + (b - n * i) = b := by omega
      rw [byteOf_store n s.2 _ _ b (by rw [h.length]; omega), if_pos hin, if_pos hin, byteAt_and,
        byteAt_not _ _ (by omega), byteAt_load trace _ _ (by omega), hvir _ (by omega), hsub]
    · rw [byteOf_store_of_not_mem n s.2 _ _ b hin, if_neg hin]
  · simp only [hc, if_false]
    split
    · rename_i hin
      have hsub : n * i + (b - n * i) = b := by omega
      -- The word is skipped, so the byte has no bit in common with the trace.
      have hno : byteOf trace b &&& byteOf virgin b = 0#8 := by
        by_contra hne
        refine hc ((and_ne_zero_iff_newCount n _ _).mpr ⟨b - n * i, by omega, ?_⟩)
        unfold NewCount
        rwa [byteAt_load trace _ _ (by omega), hvir _ (by omega), hsub]
      rw [h.rest b hin.1]
      exact (and_not_of_and_eq_zero hno).symm
    · rfl

/-- A turn of the loop extends the invariant by the `n` bytes of its word. -/
theorem hasNewBitsStep_inv (hlen : n * i + n ≤ virgin.length)
    (h : LoopInv trace virgin (n * i) s) :
    LoopInv trace virgin (n * (i + 1)) (hasNewBitsStep n trace s i) := by
  rw [Nat.mul_succ]
  refine ⟨?_, ?_, ?_, ?_⟩
  · rw [hasNewBitsStep_ret h, h.ret, ← verdict_union,
      Set.Iio_union_Ico_eq_Iio (Nat.le_add_right _ _)]
  · rw [length_hasNewBitsStep, h.length]
  · intro b hb
    rw [byteOf_hasNewBitsStep hlen h]
    split
    · rfl
    · exact h.done b (by omega)
  · intro b hb
    rw [byteOf_hasNewBitsStep hlen h, if_neg (by omega)]
    exact h.rest b (by omega)

end Step

/-- The loop over a whole map, for a word size that divides the map size. -/
theorem hasNewBitsLoop_inv (n k : Nat) (trace virgin : List U8) (hlen : virgin.length = n * k)
    (hn : 0 < n) : LoopInv trace virgin (n * k) (hasNewBitsLoop n (n * k) trace virgin) := by
  unfold hasNewBitsLoop
  rw [Nat.mul_div_cancel_left k hn]
  refine foldl_range_induct (P := fun i s => LoopInv trace virgin (n * i) s) ?_ ?_
  · -- Before the loop: no byte has been looked at.
    refine ⟨?_, rfl, fun b hb => absurd hb (by omega), fun b _ => rfl⟩
    exact ((verdict_eq_zero_iff _ _ _).mpr (by simp)).symm
  · intro i hi s h
    have hle : n * (i + 1) ≤ n * k := Nat.mul_le_mul_left n hi
    exact hasNewBitsStep_inv (by rw [Nat.mul_succ] at hle; omega) h

/-! ### `has_new_bits` on one trace -/

/-- Two maps with the same bytes are equal. -/
theorem TraceMap.ext_byte {x y : TraceMap m} (h : ∀ b < m, x.byte b = y.byte b) :
    x = y := by
  obtain ⟨xs, hx⟩ := x
  obtain ⟨ys, hy⟩ := y
  have hbytes : xs = ys := eq_of_byteOf_eq (hx.trans hy.symm) fun j hj => h j (hx ▸ hj)
  subst hbytes
  rfl

theorem TraceMap.byte_of_le (x : TraceMap m) {b : Nat} (h : m ≤ b) : x.byte b = 0#8 :=
  byteOf_of_length_le (by rw [x.length_eq]; exact h)

@[simp] theorem TraceMap.byte_fill {m b : Nat} (v : U8) (h : b < m) :
    (TraceMap.fill m v).byte b = v := by
  simp [TraceMap.byte, TraceMap.fill, byteOf, h]

section Call
variable (x86_64 : Bool) {k : Nat} (trace virgin : TraceMap (8 * k))

/-- Both flavours run the loop to its invariant over the whole map: 8 divides the map size, and
so does 4. -/
theorem hasNewBits_loopInv :
    LoopInv trace.bytes virgin.bytes (8 * k)
      ((hasNewBits x86_64 trace virgin).1, (hasNewBits x86_64 trace virgin).2.bytes) := by
  cases x86_64 with
  | true => exact hasNewBitsLoop_inv 8 k _ _ virgin.length_eq (by decide)
  | false =>
    -- The map in words of four bytes.
    have h48 : 8 * k = 4 * (2 * k) := by omega
    have h := hasNewBitsLoop_inv 4 (2 * k) trace.bytes virgin.bytes
      (virgin.length_eq.trans h48) (by decide)
    rw [← h48] at h
    exact h

/-- The return value is the verdict on all bytes of the map. -/
theorem hasNewBits_ret :
    (hasNewBits x86_64 trace virgin).1 = verdict trace.byte virgin.byte (Set.Iio (8 * k)) :=
  (hasNewBits_loopInv x86_64 trace virgin).ret

/-- The virgin map loses exactly the bits of the trace. -/
theorem hasNewBits_byte (b : Nat) :
    (hasNewBits x86_64 trace virgin).2.byte b = virgin.byte b &&& ~~~trace.byte b := by
  by_cases hb : b < 8 * k
  · exact (hasNewBits_loopInv x86_64 trace virgin).done b hb
  · rw [TraceMap.byte_of_le _ (by omega), TraceMap.byte_of_le virgin (by omega)]
    simp

end Call

/-- Both flavours are the byte-wise definition. Every byte of the map becomes `virgin & ~trace`. The
return value is 2 if and only if some byte is non-zero in the trace and still `0xff` in the map,
else 1 if and only if some byte has a bit in common with the map, else 0. -/
theorem hasNewBits_bytewise {k : Nat} (trace virgin : TraceMap (8 * k)) :
    hasNewBits true trace virgin = hasNewBits false trace virgin ∧
    ∀ x86_64, (∀ b < 8 * k,
        (hasNewBits x86_64 trace virgin).2.byte b = virgin.byte b &&& ~~~trace.byte b) ∧
      ((hasNewBits x86_64 trace virgin).1 = 2 ↔
        ∃ b < 8 * k, trace.byte b ≠ 0#8 ∧ virgin.byte b = 0xff#8) ∧
      ((hasNewBits x86_64 trace virgin).1 = 1 ↔
        (¬ ∃ b < 8 * k, trace.byte b ≠ 0#8 ∧ virgin.byte b = 0xff#8) ∧
          ∃ b < 8 * k, trace.byte b &&& virgin.byte b ≠ 0#8) ∧
      ((hasNewBits x86_64 trace virgin).1 = 0 ↔
        ¬ ∃ b < 8 * k, trace.byte b &&& virgin.byte b ≠ 0#8) := by
  constructor
  · -- Neither the verdict nor the bytes depend on the word size.
    apply Prod.ext
    · rw [hasNewBits_ret, hasNewBits_ret]
    · apply TraceMap.ext_byte
      intro b _
      rw [hasNewBits_byte, hasNewBits_byte]
  · intro x86_64
    have hret := hasNewBits_ret x86_64 trace virgin
    refine ⟨fun b _ => hasNewBits_byte x86_64 trace virgin b, ?_, ?_, ?_⟩
    · rw [hret]
      exact verdict_eq_two_iff trace.byte virgin.byte (Set.Iio (8 * k))
    · rw [hret]
      exact verdict_eq_one_iff trace.byte virgin.byte (Set.Iio (8 * k))
    · rw [hret]
      exact verdict_eq_zero_iff trace.byte virgin.byte (Set.Iio (8 * k))

/-! ### `has_new_bits` over a history -/

/-- The bitwise or of the bytes at position `b` of a list of traces. -/
def unionByte {m : Nat} (traces : List (TraceMap m)) (b : Nat) : U8 :=
  traces.foldr (fun t acc => t.byte b ||| acc) 0#8

/-- A bit of the union is set exactly when some trace has it. -/
theorem getLsbD_unionByte (traces : List (TraceMap m)) (b i : Nat) :
    (unionByte traces b).getLsbD i = true ↔ ∃ t ∈ traces, (t.byte b).getLsbD i = true := by
  induction traces with
  | nil => simp [unionByte]
  | cons t ts ih =>
    have hcons : unionByte (t :: ts) b = t.byte b ||| unionByte ts b := rfl
    rw [hcons, BitVec.getLsbD_or, Bool.or_eq_true, ih]
    simp

/-- The union is zero exactly when every trace is. -/
theorem unionByte_eq_zero_iff (traces : List (TraceMap m)) (b : Nat) :
    unionByte traces b = 0#8 ↔ ∀ t ∈ traces, t.byte b = 0#8 := by
  induction traces with
  | nil => simp [unionByte]
  | cons t ts ih =>
    have hcons : unionByte (t :: ts) b = t.byte b ||| unionByte ts b := rfl
    rw [hcons, BitVec.or_eq_zero_iff, ih]
    simp

/-- The union depends on the set of traces only. -/
theorem unionByte_congr {ts us : List (TraceMap m)} (h : ∀ t, t ∈ ts ↔ t ∈ us) (b : Nat) :
    unionByte ts b = unionByte us b := by
  apply BitVec.eq_of_getLsbD_eq
  intro i _
  rw [Bool.eq_iff_iff, getLsbD_unionByte, getLsbD_unionByte]
  exact exists_congr fun t => and_congr_left' (h t)

section History
variable (x86_64 : Bool) {k : Nat} {traces : List (TraceMap (8 * k))}

/-- The map after a list of traces: each byte has lost the union of the traces' bytes. -/
theorem hasNewBitsRun_byte (traces : List (TraceMap (8 * k))) (virgin : TraceMap (8 * k))
    (b : Nat) :
    (hasNewBitsRun x86_64 traces virgin).2.byte b
      = virgin.byte b &&& ~~~unionByte traces b := by
  induction traces generalizing virgin with
  | nil =>
    show virgin.byte b = virgin.byte b &&& ~~~0#8
    rw [show ~~~0#8 = 0xff#8 by decide, and_ff]
  | cons t ts ih =>
    have hcons : unionByte (t :: ts) b = t.byte b ||| unionByte ts b := rfl
    show (hasNewBitsRun x86_64 ts (hasNewBits x86_64 t virgin).2).2.byte b = _
    rw [ih, hasNewBits_byte, hcons, BitVec.not_or, BitVec.and_assoc]

/-- The `i`-th return value is the one of a call on the map left by the earlier traces. -/
theorem hasNewBitsRun_ret (traces : List (TraceMap (8 * k))) (virgin : TraceMap (8 * k))
    (i : Nat) (t : TraceMap (8 * k)) (ht : traces[i]? = some t) :
    (hasNewBitsRun x86_64 traces virgin).1[i]?
      = some (hasNewBits x86_64 t (hasNewBitsRun x86_64 (traces.take i) virgin).2).1 := by
  induction traces generalizing virgin i with
  | nil => simp at ht
  | cons u us ih =>
    cases i with
    | zero =>
      cases ht
      rfl
    | succ i =>
      rw [List.getElem?_cons_succ] at ht
      exact ih (hasNewBits x86_64 u virgin).2 i ht

/-- The map that the traces leave behind when they start from all ones. -/
def virginAfter (traces : List (TraceMap (8 * k))) : TraceMap (8 * k) :=
  (hasNewBitsRun x86_64 traces (TraceMap.fill (8 * k) 0xff#8)).2

/-- The history invariant: the map is the complement of the union of the traces. -/
theorem virginAfter_byte (traces : List (TraceMap (8 * k))) (b : Nat) (hb : b < 8 * k) :
    (virginAfter x86_64 traces).byte b = ~~~unionByte traces b := by
  rw [virginAfter, hasNewBitsRun_byte, TraceMap.byte_fill _ hb, BitVec.and_comm, and_ff]

/-- A byte is still `0xff` exactly when it was zero in every trace. -/
theorem virginAfter_byte_eq_ff_iff (traces : List (TraceMap (8 * k))) (b : Nat)
    (hb : b < 8 * k) :
    (virginAfter x86_64 traces).byte b = 0xff#8 ↔ ∀ t ∈ traces, t.byte b = 0#8 := by
  rw [virginAfter_byte x86_64 traces b hb, ← unionByte_eq_zero_iff]
  constructor
  · intro h
    rw [← BitVec.not_not (b := unionByte traces b), h]
    rfl
  · intro h
    rw [h]
    rfl

/-- A trace has a bit in common with the map exactly when it sets a bit that no earlier trace
set. -/
theorem newCount_virginAfter_iff (traces : List (TraceMap (8 * k))) (t : TraceMap (8 * k))
    (b : Nat) (hb : b < 8 * k) :
    NewCount t.byte (virginAfter x86_64 traces).byte b ↔
      ∃ i < 8, (t.byte b).getLsbD i = true ∧
        ∀ u ∈ traces, (u.byte b).getLsbD i = false := by
  unfold NewCount
  rw [virginAfter_byte x86_64 traces b hb]
  constructor
  · intro h
    by_contra hno
    push Not at hno
    apply h
    apply BitVec.eq_of_getLsbD_eq
    intro i hi
    rw [BitVec.getLsbD_and, BitVec.getLsbD_not, BitVec.getLsbD_zero]
    by_cases hbit : (t.byte b).getLsbD i = true
    · obtain ⟨u, hu, hui⟩ := hno i hi hbit
      have hunion := (getLsbD_unionByte traces b i).mpr ⟨u, hu, by simpa using hui⟩
      simp [hunion]
    · simp [hbit]
  · rintro ⟨i, hi, hbit, hnone⟩ h0
    have hz := congrArg (fun z => BitVec.getLsbD z i) h0
    have hunion : (unionByte traces b).getLsbD i = false := by
      rw [← Bool.not_eq_true, getLsbD_unionByte]
      rintro ⟨u, hu, hui⟩
      rw [hnone u hu] at hui
      exact absurd hui (by decide)
    simp only [BitVec.getLsbD_and, BitVec.getLsbD_not, BitVec.getLsbD_zero, hi, hbit, hunion,
      decide_true, Bool.true_and, Bool.not_false] at hz
    exact absurd hz (by decide)

/-- Position `b` is non-zero in the `i`-th trace and zero in every earlier one. -/
def NewPosition (traces : List (TraceMap (8 * k))) (i : Nat) : Prop :=
  ∃ t, traces[i]? = some t ∧ ∃ b < 8 * k, t.byte b ≠ 0#8 ∧ ∀ u ∈ traces.take i, u.byte b = 0#8

/-- Some bit is set in the `i`-th trace and in no earlier one. -/
def NewBit (traces : List (TraceMap (8 * k))) (i : Nat) : Prop :=
  ∃ t, traces[i]? = some t ∧ ∃ b < 8 * k, ∃ j < 8, (t.byte b).getLsbD j = true ∧
    ∀ u ∈ traces.take i, (u.byte b).getLsbD j = false

/-- The return value of the `i`-th call, in terms of its trace and the virgin map before it. -/
theorem hasNewBitsRun_verdict (traces : List (TraceMap (8 * k))) (i : Nat)
    (hi : i < traces.length) : ∃ t, traces[i]? = some t ∧
      (hasNewBitsRun x86_64 traces (TraceMap.fill (8 * k) 0xff#8)).1[i]?
        = some (verdict t.byte (virginAfter x86_64 (traces.take i)).byte (Set.Iio (8 * k))) := by
  obtain ⟨t, ht⟩ : ∃ t, traces[i]? = some t := ⟨_, List.getElem?_eq_getElem hi⟩
  refine ⟨t, ht, ?_⟩
  rw [hasNewBitsRun_ret x86_64 traces _ i t ht, hasNewBits_ret]
  rfl

/-- A new tuple against the virgin map is a position that is new in the history. -/
theorem newTuple_virginAfter_iff {i : Nat} {t : TraceMap (8 * k)} (ht : traces[i]? = some t) :
    (∃ b ∈ Set.Iio (8 * k), NewTuple t.byte (virginAfter x86_64 (traces.take i)).byte b) ↔
      NewPosition traces i := by
  unfold NewPosition NewTuple
  simp only [ht, Option.some.injEq, exists_eq_left', Set.mem_Iio]
  exact exists_congr fun b => and_congr_right fun hb =>
    and_congr_right fun _ => virginAfter_byte_eq_ff_iff x86_64 (traces.take i) b hb

/-- A new count against the virgin map is a bit that is new in the history. -/
theorem newCount_take_iff {i : Nat} {t : TraceMap (8 * k)} (ht : traces[i]? = some t) :
    (∃ b ∈ Set.Iio (8 * k), NewCount t.byte (virginAfter x86_64 (traces.take i)).byte b) ↔
      NewBit traces i := by
  unfold NewBit
  simp only [ht, Option.some.injEq, exists_eq_left', Set.mem_Iio]
  exact exists_congr fun b => and_congr_right fun hb =>
    newCount_virginAfter_iff x86_64 (traces.take i) t b hb

/-- A new position has a new bit. -/
theorem NewPosition.newBit {i : Nat} (h : NewPosition traces i) : NewBit traces i := by
  obtain ⟨t, ht, hex⟩ := h
  obtain ⟨b, hb, hnew⟩ := (newTuple_virginAfter_iff true ht).mpr ⟨t, ht, hex⟩
  exact (newCount_take_iff true ht).mp ⟨b, hb, hnew.newCount⟩

/-- A trace that was seen before has no new bit. -/
theorem not_newBit_of_repeated {i j : Nat} (hij : i < j) (heq : traces[i]? = traces[j]?) :
    ¬ NewBit traces j := by
  rintro ⟨t, ht, b, _, l, _, hset, hnone⟩
  have hmem : t ∈ traces.take j := by
    rw [List.mem_take_iff_getElem]
    obtain ⟨hlt, hget⟩ := List.getElem?_eq_some_iff.mp (heq.trans ht)
    exact ⟨i, by omega, hget⟩
  rw [hnone t hmem] at hset
  exact absurd hset (by decide)

/-- Coverage novelty over whole runs. Start with an all-`0xff` map of any size that is a multiple
of 8, and call `has_new_bits` with any list of traces. Each call returns 2 exactly when its trace
has a position that was zero in all earlier traces, 1 exactly when it has no such position but a
bit that no earlier trace had, and 0 otherwise. The final map is the complement of the union of
the traces, so it is the same for every order of the traces. A repeated trace returns 0. -/
theorem hasNewBits_history (traces : List (TraceMap (8 * k))) :
    let run := hasNewBitsRun x86_64 traces (TraceMap.fill (8 * k) 0xff#8)
    (∀ i < traces.length,
      (run.1[i]? = some 2 ↔ NewPosition traces i) ∧
      (run.1[i]? = some 1 ↔ ¬ NewPosition traces i ∧ NewBit traces i) ∧
      (run.1[i]? = some 0 ↔ ¬ NewPosition traces i ∧ ¬ NewBit traces i)) ∧
    (∀ b < 8 * k, run.2.byte b = ~~~unionByte traces b) ∧
    (∀ traces', traces.Perm traces' →
      (hasNewBitsRun x86_64 traces' (TraceMap.fill (8 * k) 0xff#8)).2 = run.2) ∧
    (∀ i j, i < j → traces[i]? = traces[j]? → j < traces.length → run.1[j]? = some 0) := by
  refine ⟨?_, ?_, ?_, ?_⟩
  · intro i hi
    obtain ⟨t, ht, hr⟩ := hasNewBitsRun_verdict x86_64 traces i hi
    simp only [hr, Option.some.injEq, verdict_eq_two_iff, verdict_eq_one_iff,
      verdict_eq_zero_iff, newTuple_virginAfter_iff x86_64 ht, newCount_take_iff x86_64 ht,
      true_and, iff_and_self]
    exact fun hno hnew => hno hnew.newBit
  · exact fun b hb => virginAfter_byte x86_64 traces b hb
  · intro traces' hperm
    apply TraceMap.ext_byte
    intro b hb
    refine (virginAfter_byte x86_64 traces' b hb).trans
      (Eq.trans ?_ (virginAfter_byte x86_64 traces b hb).symm)
    rw [unionByte_congr fun t => (hperm.mem_iff (a := t)).symm]
  · intro i j hij heq hj
    obtain ⟨t, ht, hr⟩ := hasNewBitsRun_verdict x86_64 traces j hj
    rw [hr, Option.some.injEq, verdict_eq_zero_iff, newCount_take_iff x86_64 ht]
    exact not_newBit_of_repeated hij heq

end History

end TriforceAFL.Proofs
