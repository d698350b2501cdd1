import Mathlib.Data.BitVec
import TriforceAFL.Proofs.ArithGuards

/-!
# `TriforceAFL.Proofs.InterestDedup`: insertions skipped as redundant

The stages with interesting values skip an insertion that `could_be_arith` or `could_be_interest`
accepts, and the big-endian insertion of a value that is its own byte swap. `interest_skip_sound`
says what each skipped buffer is: the input, or the input after one arithmetic operation, or after
the insertion of an interesting value of a smaller width, or of the same width in little-endian
order (`RedundantInsertion`).

Both helpers look at the two values of the word only. `differingUnits_spec` and `byteAt_insertAt`
say where the values agree, so the store of the whole word is a store of the part where they differ
(`store_eq_store_window`).
-/

set_option autoImplicit false

namespace TriforceAFL.Proofs

open Lib Spec

/-! ### What a skipped insertion may be -/

/-- The table of interesting values of `n` bytes. -/
def interestingTable : Nat → List Int
  | 1 => interesting8
  | 2 => interesting16
  | 4 => interesting32
  | _ => []

/-- The buffer is the input with an interesting value of `w` bytes written somewhere. -/
def InterestingWrite (inBuf : List U8) (o : ByteOrder) (w : Nat) (c : List U8) : Prop :=
  ∃ i, i + w ≤ inBuf.length ∧ ∃ v ∈ interestingTable w,
    c = writeInt o w inBuf i (BitVec.ofInt (8 * w) v)

/-- A buffer that an insertion of `n` bytes need not make again. -/
def RedundantInsertion (inBuf : List U8) (n : Nat) (c : List U8) : Prop :=
  c = inBuf ∨ (∃ w i, ArithCandidate inBuf w i c) ∨
    (∃ w < n, ∃ o, InterestingWrite inBuf o w c) ∨ InterestingWrite inBuf .little n c

/-- The width of a stage with interesting values. -/
def interestWidth : Stage → Option Nat
  | .int8 => some 1
  | .int16 => some 2
  | .int32 => some 4
  | _ => none

/-- The reasons that call an insertion redundant. -/
def isRedundancy : SkipReason → Bool
  | .arith | .interest | .palindrome => true
  | .carry | .bitflip _ => false

/-! ### `could_be_arith` -/

/-- The unit of `m` bytes at position `k` of a value. -/
def unitAt (m : Nat) (x : U32) (k : Nat) : BitVec (8 * m) := (x >>> (8 * m * k)).setWidth (8 * m)

theorem byteAt_unitAt {m : Nat} (x : U32) (k : Nat) {b : Nat} (hb : b < m) :
    byteAt (unitAt m x k) b = byteAt x (m * k + b) := by
  rw [unitAt, byteAt_setWidth _ hb, Nat.mul_assoc, byteAt_ushiftRight]

/-- The loop counts the differing units and keeps the last of them. -/
theorem differingUnits_spec (m cnt : Nat) (old new : U32) :
    ((differingUnits m cnt old new).1 = 0 → ∀ k < cnt, unitAt m old k = unitAt m new k) ∧
      ((differingUnits m cnt old new).1 = 1 →
        ∃ k < cnt, (differingUnits m cnt old new).2 = (unitAt m old k, unitAt m new k) ∧
          unitAt m old k ≠ unitAt m new k ∧
          ∀ k' < cnt, k' ≠ k → unitAt m old k' = unitAt m new k') := by
  induction cnt with
  | zero => exact ⟨fun _ k hk => absurd hk (by omega), fun h => by cases h⟩
  | succ cnt ih =>
    obtain ⟨hzero, hone⟩ := ih
    have hsucc : differingUnits m (cnt + 1) old new =
        if unitAt m old cnt ≠ unitAt m new cnt then
          ((differingUnits m cnt old new).1 + 1, unitAt m old cnt, unitAt m new cnt)
        else differingUnits m cnt old new := by
      rw [differingUnits, List.range_succ, List.foldl_append]
      rfl
    rw [hsucc]
    by_cases hne : unitAt m old cnt ≠ unitAt m new cnt
    · rw [if_pos hne]
      refine ⟨fun h => absurd h (Nat.succ_ne_zero _), fun h => ?_⟩
      refine ⟨cnt, by omega, rfl, hne, fun k' hk' hk => ?_⟩
      exact hzero (Nat.succ.inj h) k' (by omega)
    · rw [if_neg hne]
      have hlast : unitAt m old cnt = unitAt m new cnt := not_not.mp hne
      refine ⟨fun h k hk => ?_, fun h => ?_⟩
      · by_cases hk' : k = cnt
        · rw [hk', hlast]
        · exact hzero h k (by omega)
      · obtain ⟨k, hk, hvals, hdiff, hsame⟩ := hone h
        refine ⟨k, by omega, hvals, hdiff, fun k' hlt hk' => ?_⟩
        by_cases hk'' : k' = cnt
        · rw [hk'', hlast]
        · exact hsame k' (by omega) hk'

/-- Two different words within the range of the arithmetic stages. -/
theorem exists_arithWord {m i : Nat} {buf : List U8} {o : ByteOrder} {nv : BitVec (8 * m)}
    (hne : load m buf i ≠ nv) (h : withinArith (o.word (load m buf i)) (o.word nv) = true) :
    ∃ op j, 1 ≤ j ∧ j ≤ ARITH_MAX ∧ nv = arithWord op o m buf i j := by
  have hword : o.word (load m buf i) ≠ o.word nv := by
    intro heq
    exact hne (by rw [← o.word_word (load m buf i), heq, o.word_word])
  have hpos : ∀ x y : BitVec (8 * m), x ≠ y → 1 ≤ (x - y).toNat := by
    intro x y hxy
    refine Nat.pos_of_ne_zero fun hzero => hxy ?_
    exact sub_eq_zero.mp (BitVec.eq_of_toNat_eq (by rw [hzero]; rfl))
  rw [withinArith, Bool.or_eq_true, decide_eq_true_eq, decide_eq_true_eq] at h
  rcases h with h | h
  · refine ⟨.sub, _, hpos _ _ hword, h, ?_⟩
    rw [arithWord, BitVec.ofNat_toNat, BitVec.setWidth_eq, sub_sub_cancel, o.word_word]
  · refine ⟨.add, _, hpos _ _ hword.symm, h, ?_⟩
    rw [arithWord, BitVec.ofNat_toNat, BitVec.setWidth_eq, BitVec.add_comm, BitVec.sub_add_cancel,
      o.word_word]

section Words
variable {inBuf : List U8} {n i : Nat} {new : BitVec (8 * n)}

/-- The bytes of the value that the helpers get for the word at `i`. -/
theorem byteAt_load32 {b : Nat} (hn : n ≤ 4) (hb : b < n) :
    byteAt ((load n inBuf i).setWidth 32) b = byteOf inBuf (i + b) := by
  rw [byteAt_setWidth (m := 4) _ (by omega), byteAt_load _ _ _ hb]

/-- Writing back what was read. -/
theorem store_of_setWidth_eq (hn : n ≤ 4)
    (h : (load n inBuf i).setWidth 32 = new.setWidth 32) : store n inBuf i new = inBuf := by
  refine eq_of_byteOf_eq (length_store _ _ _ _) fun k hk => ?_
  rw [length_store] at hk
  rw [byteOf_store n inBuf i new k hk]
  by_cases hin : i ≤ k ∧ k < i + n
  · have hidx : i + (k - i) = k := by omega
    rw [if_pos hin, ← byteAt_setWidth (m := 4) new (by omega), ← h, byteAt_load32 hn (by omega),
      hidx]
  · rw [if_neg hin]

theorem unit_fits {m cnt k : Nat} (hcnt : m * cnt = n) (hk : k < cnt) : m * k + m ≤ n :=
  calc m * k + m = m * (k + 1) := by rw [Nat.mul_add, Nat.mul_one]
    _ ≤ m * cnt := Nat.mul_le_mul_left m hk
    _ = n := hcnt

/-- If a single unit of the word differs, the store is a store of that unit. -/
theorem store_eq_store_unit {m cnt k : Nat} (hn : n ≤ 4) (hm : 0 < m) (hcnt : m * cnt = n)
    (hk : k < cnt)
    (hsame : ∀ k' < cnt, k' ≠ k →
      unitAt m ((load n inBuf i).setWidth 32) k' = unitAt m (new.setWidth 32) k') :
    unitAt m ((load n inBuf i).setWidth 32) k = load m inBuf (i + m * k) ∧
      store n inBuf i new = store m inBuf (i + m * k) (unitAt m (new.setWidth 32) k) := by
  have hfit := unit_fits hcnt hk
  constructor
  · apply eq_of_byteAt_eq
    intro b hb
    rw [byteAt_unitAt _ _ hb, byteAt_load32 hn (by omega), byteAt_load _ _ _ hb, Nat.add_assoc]
  · refine store_eq_store_window hfit (fun b hb => ?_) fun b hb hout => ?_
    · rw [byteAt_unitAt _ _ hb, byteAt_setWidth (m := 4) new (by omega)]
    · -- The byte lies in another unit.
      have hdiv : b / m < cnt := by rw [Nat.div_lt_iff_lt_mul hm, Nat.mul_comm, hcnt]; exact hb
      have hmod := Nat.div_add_mod b m
      have hlt := Nat.mod_lt b hm
      have hother : b / m ≠ k := by
        intro heq
        rw [heq] at hmod
        omega
      have hbyte := congrArg (fun u => byteAt u (b % m)) (hsame (b / m) hdiv hother)
      simp only [byteAt_unitAt _ _ hlt, hmod] at hbyte
      rw [← byteAt_setWidth (m := 4) new (by omega), ← hbyte, byteAt_load32 hn hb]

/-- A unit that differs by at most `ARITH_MAX` in some byte order. -/
theorem candidate_of_differingUnits {m cnt : Nat} {o : ByteOrder} (hm : m = 1 ∨ m = 2 ∨ m = 4)
    (hn : n ≤ 4) (hcnt : m * cnt = n) (hi : i + n ≤ inBuf.length)
    (hone : (differingUnits m cnt ((load n inBuf i).setWidth 32) (new.setWidth 32)).1 = 1)
    (hwithin : withinArith
      (o.word (differingUnits m cnt ((load n inBuf i).setWidth 32) (new.setWidth 32)).2.1)
      (o.word (differingUnits m cnt ((load n inBuf i).setWidth 32) (new.setWidth 32)).2.2) = true) :
    ∃ w i', ArithCandidate inBuf w i' (store n inBuf i new) := by
  obtain ⟨k, hk, hvals, hne, hsame⟩ := (differingUnits_spec _ _ _ _).2 hone
  obtain ⟨hload, hstore⟩ := store_eq_store_unit hn (by omega) hcnt hk hsame
  rw [hvals, hload] at hwithin
  rw [hload] at hne
  obtain ⟨op, j, hj, hmax, hnew⟩ := exists_arithWord hne hwithin
  have hfit := unit_fits hcnt hk
  refine ⟨m, i + m * k, hm, by omega, op, o, j, hj, hmax, ?_⟩
  rw [hstore, hnew, arithAt_eq_store]

/-- What `could_be_arith` accepts is the input or one operation away from it. -/
theorem redundant_of_couldBeArith (hn : n = 1 ∨ n = 2 ∨ n = 4) (hi : i + n ≤ inBuf.length)
    (h : couldBeArith ((load n inBuf i).setWidth 32) (new.setWidth 32) n = true) :
    RedundantInsertion inBuf n (store n inBuf i new) := by
  have hle : n ≤ 4 := by omega
  unfold couldBeArith at h
  dsimp only at h
  split at h
  · rename_i heq
    exact Or.inl (store_of_setWidth_eq hle heq)
  · rename_i hne
    refine Or.inr (Or.inl ?_)
    split at h
    · rename_i hbyte
      rw [Bool.and_eq_true, decide_eq_true_eq] at hbyte
      exact candidate_of_differingUnits (o := .little) (by decide) hle (Nat.one_mul n) hi hbyte.1
        hbyte.2
    · split at h
      · cases h
      · have hhalf : 2 * (n / 2) = n := by omega
        split at h
        · rename_i hword
          rw [Bool.and_eq_true, decide_eq_true_eq, Bool.or_eq_true] at hword
          obtain ⟨hone, hlittle | hbig⟩ := hword
          · exact candidate_of_differingUnits (o := .little) (by decide) hle hhalf hi hone hlittle
          · rw [swap16_eq, swap16_eq] at hbig
            exact candidate_of_differingUnits (o := .big) (by decide) hle hhalf hi hone hbig
        · rw [Bool.and_eq_true, decide_eq_true_eq, Bool.or_eq_true] at h
          obtain ⟨rfl, hdword⟩ := h
          rw [BitVec.setWidth_eq, BitVec.setWidth_eq] at hne hdword
          -- The whole word is the unit.
          have hcand : ∀ o : ByteOrder, withinArith (o.word (load 4 inBuf i)) (o.word new) = true →
              ∃ w i', ArithCandidate inBuf w i' (store 4 inBuf i new) := by
            intro o hwithin
            obtain ⟨op, j, hj, hmax, hnew⟩ := exists_arithWord hne hwithin
            refine ⟨4, i, by decide, hi, op, o, j, hj, hmax, ?_⟩
            rw [arithAt_eq_store, ← hnew]
          rcases hdword with hlittle | hbig
          · exact hcand .little hlittle
          · rw [swap32_eq, swap32_eq] at hbig
            exact hcand .big hbig

end Words

/-! ### `could_be_interest` -/

/-- A value with some of its bytes replaced. -/
theorem byteAt_insertAt {m : Nat} (old : U32) (v : BitVec (8 * m)) (k b : Nat) (hb : b < 4) :
    byteAt (insertAt old ((BitVec.allOnes (8 * m)).setWidth 32) k (v.setWidth 32)) b =
      if k ≤ b ∧ b < k + m then byteAt v (b - k) else byteAt old b := by
  apply BitVec.eq_of_getLsbD_eq
  intro j hj
  have hlt : 8 * b + j < 32 := by omega
  have hsub : 8 * b + j - k * 8 < 32 := by omega
  rw [insertAt, getLsbD_byteAt]
  simp only [BitVec.getLsbD_or, BitVec.getLsbD_and, BitVec.getLsbD_not, BitVec.getLsbD_shiftLeft,
    BitVec.getLsbD_setWidth, BitVec.getLsbD_allOnes, hlt, hsub, hj, decide_true, Bool.true_and]
  by_cases hk : k ≤ b
  · have hge : ¬ 8 * b + j < k * 8 := by omega
    have hidx : 8 * b + j - k * 8 = 8 * (b - k) + j := by omega
    simp only [hge, decide_false, Bool.not_false, Bool.true_and, hidx]
    by_cases hm : b < k + m
    · have hin : 8 * (b - k) + j < 8 * m := by omega
      rw [if_pos ⟨hk, hm⟩, getLsbD_byteAt]
      simp [hin, hj]
    · have hout : ¬ 8 * (b - k) + j < 8 * m := by omega
      have hzero : v.getLsbD (8 * (b - k) + j) = false := BitVec.getLsbD_of_ge _ _ (by omega)
      rw [if_neg (by omega), getLsbD_byteAt]
      simp [hout, hzero, hj]
  · have hbelow : 8 * b + j < k * 8 := by omega
    rw [if_neg (by omega), getLsbD_byteAt]
    simp [hbelow, hj]

section Words
variable {inBuf : List U8} {n i : Nat} {new : BitVec (8 * n)}

/-- If the new value is the old one with a part replaced, the store is a store of that part. -/
theorem store_of_insertAt {m k : Nat} {v : BitVec (8 * m)} (hn : n ≤ 4) (hkm : k + m ≤ n)
    (h : new.setWidth 32 = insertAt ((load n inBuf i).setWidth 32)
      ((BitVec.allOnes (8 * m)).setWidth 32) k (v.setWidth 32)) :
    store n inBuf i new = store m inBuf (i + k) v := by
  have hbytes : ∀ b < n, byteAt new b =
      if k ≤ b ∧ b < k + m then byteAt v (b - k) else byteOf inBuf (i + b) := by
    intro b hb
    rw [← byteAt_setWidth (m := 4) new (by omega), h, byteAt_insertAt _ v k b (by omega),
      byteAt_load32 hn hb]
  refine store_eq_store_window hkm (fun b hb => ?_) fun b hb hout => ?_
  · rw [hbytes (k + b) (by omega), if_pos (by omega), Nat.add_sub_cancel_left]
  · rw [hbytes b hb, if_neg (by omega)]

/-- What `could_be_interest` accepts is the input or an earlier insertion. -/
theorem redundant_of_couldBeInterest {checkLe : Bool} (hn : n = 2 ∨ n = 4)
    (hi : i + n ≤ inBuf.length)
    (h : couldBeInterest ((load n inBuf i).setWidth 32) (new.setWidth 32) n checkLe = true) :
    RedundantInsertion inBuf n (store n inBuf i new) := by
  have hle : n ≤ 4 := by omega
  unfold couldBeInterest at h
  split at h
  · rename_i heq
    exact Or.inl (store_of_setWidth_eq hle heq)
  · refine Or.inr (Or.inr ?_)
    split at h
    · rename_i hbyte
      obtain ⟨k, hk, hany⟩ := List.any_eq_true.mp hbyte
      obtain ⟨v, hv, heq⟩ := List.any_eq_true.mp hany
      rw [List.mem_range] at hk
      rw [decide_eq_true_eq] at heq
      refine Or.inl ⟨1, by omega, .little, i + k, by omega, v, hv, ?_⟩
      exact store_of_insertAt (m := 1) hle (by omega) heq
    · split at h
      · cases h
      · split at h
        · rename_i hword
          obtain ⟨k, hk, hany⟩ := List.any_eq_true.mp hword
          obtain ⟨v, hv, heq⟩ := List.any_eq_true.mp hany
          rw [List.mem_range] at hk
          rw [Bool.or_eq_true, Bool.and_eq_true, decide_eq_true_eq, decide_eq_true_eq,
            decide_eq_true_eq] at heq
          rcases heq with heq | ⟨hwide, heq⟩
          · have hstore := store_of_insertAt (m := 2) hle (by omega) heq
            -- Two-byte insertions are narrower ones, or little-endian ones of the same width.
            rcases hn with rfl | rfl
            · exact Or.inr ⟨i + k, by omega, v, hv, hstore⟩
            · exact Or.inl ⟨2, by decide, .little, i + k, by omega, v, hv, hstore⟩
          · rw [swap16_eq] at heq
            have hstore := store_of_insertAt (m := 2) hle (by omega) heq
            exact Or.inl ⟨2, hwide, .big, i + k, by omega, v, hv, hstore⟩
        · rw [Bool.and_eq_true, Bool.and_eq_true, decide_eq_true_eq] at h
          obtain ⟨⟨rfl, _⟩, hdword⟩ := h
          obtain ⟨v, hv, heq⟩ := List.any_eq_true.mp hdword
          rw [decide_eq_true_eq, BitVec.setWidth_eq] at heq
          exact Or.inr ⟨i, hi, v, hv, by rw [heq]; rfl⟩

end Words

/-! ### The stages -/

section Events
variable {inBuf : List U8} {eff : List Bool} {stage : Stage} {n i : Nat}

/-- An insertion that is skipped as redundant is redundant. -/
def SoundSkip (inBuf : List U8) (e : Event) : Prop :=
  ∀ stage reason c, e = .skip stage reason c → isRedundancy reason = true →
    ∃ n, interestWidth stage = some n ∧ RedundantInsertion inBuf n c

theorem soundSkip_exec {pos : Nat} {valType : StageValType} {val : Int} {c : List U8} :
    SoundSkip inBuf (.exec stage pos valType val c) :=
  fun _ _ _ h => (by cases h)

theorem soundSkip_arithEvent {carry : Bool} {new : BitVec (8 * n)} {valType : StageValType}
    {val : Int} :
    SoundSkip inBuf (arithEvent inBuf stage n i carry new valType val) := by
  intro stage' reason c he hreason
  unfold arithEvent at he
  dsimp only at he
  split at he
  · cases he
    cases hreason
  · split at he
    · cases he
      cases hreason
    · cases he

theorem soundSkip_interestEvent {new : BitVec (8 * n)} {skip : Option SkipReason}
    {valType : StageValType} {val : Int} (hstage : interestWidth stage = some n)
    (hskip : ∀ reason, skip = some reason → isRedundancy reason = true →
      RedundantInsertion inBuf n (store n inBuf i new)) :
    SoundSkip inBuf (interestEvent inBuf stage n i new skip valType val) := by
  intro stage' reason c he hreason
  cases skip with
  | none => cases he
  | some reason' =>
    cases he
    exact ⟨n, hstage, hskip reason rfl hreason⟩

/-- The helpers are asked in turn. -/
theorem redundant_of_interestSkip {new : BitVec (8 * n)} {checkLe : Bool} {reason : SkipReason}
    (hn : n = 1 ∨ n = 2 ∨ n = 4) (hi : i + n ≤ inBuf.length)
    (h : interestSkip n (load n inBuf i) new checkLe = some reason)
    (hreason : isRedundancy reason = true) :
    RedundantInsertion inBuf n (store n inBuf i new) := by
  unfold interestSkip at h
  dsimp only at h
  split at h
  · cases h
    cases hreason
  · split at h
    · rename_i harith
      exact redundant_of_couldBeArith hn hi harith
    · split at h
      · rename_i hinterest
        rw [Bool.and_eq_true, decide_eq_true_eq] at hinterest
        exact redundant_of_couldBeInterest (by omega) hi hinterest.2
      · cases h

/-- The two insertions of a wide stage. -/
theorem soundSkip_intEvents {swap : BitVec (8 * n) → BitVec (8 * n)} {v : Int} {e : Event}
    (hstage : interestWidth stage = some n) (hn : n = 1 ∨ n = 2 ∨ n = 4) (hi : i + n ≤ inBuf.length)
    (hv : v ∈ interestingTable n) (he : e ∈ intEvents inBuf stage n swap i v) :
    SoundSkip inBuf e := by
  simp only [intEvents, List.mem_cons, List.not_mem_nil, or_false] at he
  rcases he with rfl | rfl
  · exact soundSkip_interestEvent hstage fun reason h => redundant_of_interestSkip hn hi h
  · refine soundSkip_interestEvent hstage fun reason h hreason => ?_
    split at h
    · rename_i hswap
      -- The value is its own byte swap, so the little-endian insertion makes the same buffer.
      exact Or.inr (Or.inr (Or.inr ⟨i, hi, v, hv, by rw [← hswap]; rfl⟩))
    · exact redundant_of_interestSkip hn hi h hreason

theorem soundSkip_of_mem_interestsPlan {e : Event} (h : e ∈ interestsPlan inBuf eff) :
    SoundSkip inBuf e := by
  rcases mem_interestsPlan h with ⟨i, v, hv, hi, he⟩ | ⟨i, v, hv, hi, he⟩ | ⟨i, v, hv, hi, he⟩
  · simp only [int8Events, List.mem_cons, List.not_mem_nil, or_false] at he
    subst he
    refine soundSkip_interestEvent rfl fun reason h => ?_
    exact redundant_of_interestSkip (by decide) hi h
  · exact soundSkip_intEvents rfl (by decide) hi hv he
  · exact soundSkip_intEvents rfl (by decide) hi hv he

end Events

/-- For every input: an insertion that is skipped as redundant makes the input itself, or what an
arithmetic operation makes, or what another insertion makes that is narrower or little-endian. -/
theorem interest_skip_sound (env : DetEnv) (inBuf : List U8) (s : DetState)
    (hbuf : s.outBuf = inBuf) (hlog : s.log = []) (stage : Stage) (reason : SkipReason)
    (c : List U8) (hreason : isRedundancy reason = true)
    (hskip : .skip stage reason c ∈ (finalState (deterministic env inBuf.length s)).log) :
    ∃ n, interestWidth stage = some n ∧ RedundantInsertion inBuf n c := by
  obtain ⟨eff, _, hmap⟩ := exists_effMap_or env inBuf s []
  obtain ⟨done, hdone, hfinal⟩ := (deterministic_logs env s hbuf hmap).finalState_log
  rw [hlog, List.nil_append] at hfinal
  rw [hfinal] at hskip
  have hmem := hdone.subset hskip
  refine (?_ : SoundSkip inBuf _) stage reason c rfl hreason
  rcases mem_deterministicPlan hmem with hmem | hmem | hmem
  · -- The bitflip stages skip nothing.
    obtain ⟨_, _, _, _, _, hexec, _⟩ := flipRun_of_mem hmem
    rw [hexec]
    exact soundSkip_exec
  · obtain ⟨_, _, _, _, _, _, _, _, _, _, harith⟩ := arithEvent_of_mem hmem
    rw [harith]
    exact soundSkip_arithEvent
  · exact soundSkip_of_mem_interestsPlan hmem

/-- Writing 256 over the word 255 is skipped, since stage "arith 16/8" has added 1. -/
theorem interest_skip_sound_word :
    .skip .int16 .arith [0, 1] ∈
        (finalState (deterministic {} 2 { outBuf := [255, 0] })).log ∧
      ∃ n, interestWidth .int16 = some n ∧ RedundantInsertion [255, 0] n [0, 1] :=
  have hskip : .skip .int16 .arith [0, 1] ∈
      (finalState (deterministic {} 2 { outBuf := [255, 0] })).log := by decide +kernel
  ⟨hskip, interest_skip_sound {} _ { outBuf := [255, 0] } rfl rfl .int16 .arith _ rfl hskip⟩

end TriforceAFL.Proofs
