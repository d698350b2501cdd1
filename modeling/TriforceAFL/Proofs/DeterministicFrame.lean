import Mathlib.Data.List.Chain
import TriforceAFL.Proofs.ArithGuards

/-!
# `TriforceAFL.Proofs.DeterministicFrame`: what the deterministic stages execute

Every buffer that a deterministic stage executes is the input with the window of the current step
changed: a run of bits is flipped, or the integer at an offset holds the value that the stage
announces in `stage_cur_val` and `stage_val_type`. `Intended` says which change belongs to which
stage, and `intended_of_mem` finds it for every event of the plan.

Between two stages the buffer is the input. `deterministic` is a sequence of stages
(`deterministic_eq`), and each of them gives the buffer back as it was (`runStage_spec`).
-/

set_option autoImplicit false

namespace TriforceAFL.Proofs

open Lib Spec

/-! ### The intended change of a step -/

/-- The byte order that a stage announces. -/
def orderOf : StageValType → ByteOrder
  | .be => .big
  | _ => .little

section Change
variable (inBuf : List U8)

/-- A run of `k` bits is flipped, which begins in byte `pos`. -/
def FlipsBits (k pos : Nat) (buf : List U8) : Prop :=
  ∃ b, b / 8 = pos ∧ b + k ≤ 8 * inBuf.length ∧ FlipsTo inBuf buf b k

/-- All bits of the `n` bytes from `pos` on are flipped. -/
def FlipsBytes (n pos : Nat) (buf : List U8) : Prop :=
  pos + n ≤ inBuf.length ∧ FlipsTo inBuf buf (8 * pos) (8 * n)

/-- The `n`-byte integer at `pos` is `x`, in byte order `o`, and all other bytes are those of the
input. -/
structure HoldsAt (o : ByteOrder) (n pos : Nat) (x : BitVec (8 * n)) (buf : List U8) : Prop where
  inside : pos + n ≤ inBuf.length
  value : o.word (load n buf pos) = x
  length_eq : buf.length = inBuf.length
  others : ∀ p, p < pos ∨ pos + n ≤ p → byteOf buf p = byteOf inBuf p

/-- The integer at `pos` is the original one plus or minus some `j`. -/
def ChangesBy (n pos : Nat) (valType : StageValType) (val : Int) (buf : List U8) : Prop :=
  (∃ j : Nat, 1 ≤ j ∧ j ≤ ARITH_MAX ∧ (val = j ∨ val = -j)) ∧ valType ≠ .none ∧
    HoldsAt inBuf (orderOf valType) n pos
      ((orderOf valType).word (load n inBuf pos) + BitVec.ofInt (8 * n) val) buf

/-- The integer at `pos` is a value of the table. -/
def SetsTo (table : List Int) (n pos : Nat) (valType : StageValType) (val : Int)
    (buf : List U8) : Prop :=
  val ∈ table ∧ valType ≠ .none ∧
    HoldsAt inBuf (orderOf valType) n pos (BitVec.ofInt (8 * n) val) buf

/-- The buffer is the input with the change that the stage makes at byte `pos`. -/
def Intended (stage : Stage) (pos : Nat) (valType : StageValType) (val : Int)
    (buf : List U8) : Prop :=
  match stage with
  | .flip1 => FlipsBits inBuf 1 pos buf
  | .flip2 => FlipsBits inBuf 2 pos buf
  | .flip4 => FlipsBits inBuf 4 pos buf
  | .flip8 => FlipsBytes inBuf 1 pos buf
  | .flip16 => FlipsBytes inBuf 2 pos buf
  | .flip32 => FlipsBytes inBuf 4 pos buf
  | .arith8 => ChangesBy inBuf 1 pos valType val buf
  | .arith16 => ChangesBy inBuf 2 pos valType val buf
  | .arith32 => ChangesBy inBuf 4 pos valType val buf
  | .int8 => SetsTo inBuf interesting8 1 pos valType val buf
  | .int16 => SetsTo inBuf interesting16 2 pos valType val buf
  | .int32 => SetsTo inBuf interesting32 4 pos valType val buf

/-- An execution of an intended buffer; a skipped candidate is not executed. -/
def IntendedEvent : Event → Prop
  | .exec stage pos valType val buf => Intended inBuf stage pos valType val buf
  | .skip _ _ _ => True

end Change

/-! ### The events of the plan -/

section Events
variable {inBuf : List U8} {eff : List Bool} {e : Event} {val : Int} {stage : Stage}

/-- Writing an integer over the input. -/
theorem holdsAt_store (o : ByteOrder) {n i : Nat} (hi : i + n ≤ inBuf.length)
    (x : BitVec (8 * n)) : HoldsAt inBuf o n i x (store n inBuf i (o.word x)) where
  inside := hi
  value := by rw [load_store _ hi, ByteOrder.word_word]
  length_eq := length_store _ _ _ _
  others p hp := byteOf_store_of_not_mem n inBuf i _ p (by omega)

theorem flipsBits_of_mem {k : Nat} (h : e ∈ bitsPlan inBuf stage k val) :
    ∃ pos buf, e = .exec stage pos .none val buf ∧ FlipsBits inBuf k pos buf := by
  obtain ⟨b, hb, rfl⟩ := List.mem_map.mp h
  rw [List.mem_range] at hb
  exact ⟨_, _, rfl, b, (Nat.shiftRight_eq_div_pow b 3).symm, by omega, flipsTo_flipBits k b inBuf⟩

theorem flipsBytes_of_mem {n : Nat} (hn : 0 < n) (h : e ∈ flipWordsPlan inBuf eff stage n val) :
    ∃ pos buf, e = .exec stage pos .none val buf ∧ FlipsBytes inBuf n pos buf := by
  obtain ⟨i, hi, he⟩ := mem_wordsPlan hn h
  rw [List.mem_singleton] at he
  exact ⟨_, _, he, hi, flipsTo_flipWord n i inBuf⟩

/-- What an arithmetic candidate writes, in the byte order of its type. -/
theorem changesBy_store {n i j : Nat} {valType : StageValType} (hi : i + n ≤ inBuf.length)
    (hj : j ∈ List.range' 1 ARITH_MAX) (hval : val = j ∨ val = -j) (htype : valType ≠ .none) :
    ChangesBy inBuf n i valType val (store n inBuf i ((orderOf valType).word
      ((orderOf valType).word (load n inBuf i) + BitVec.ofInt (8 * n) val))) := by
  rw [List.mem_range'] at hj
  obtain ⟨k, hk, rfl⟩ := hj
  exact ⟨⟨1 + 1 * k, by omega, by omega, hval⟩, htype, holdsAt_store _ hi _⟩

/-- Adding and subtracting `j` as the stages write it. -/
theorem add_ofNat_eq {w : Nat} (x : BitVec w) (j : Nat) :
    x + BitVec.ofNat w j = x + BitVec.ofInt w j := by
  rw [BitVec.ofInt_natCast]

theorem sub_ofNat_eq {w : Nat} (x : BitVec w) (j : Nat) :
    x - BitVec.ofNat w j = x + BitVec.ofInt w (-j) := by
  rw [BitVec.ofInt_neg, BitVec.ofInt_natCast, BitVec.sub_eq_add_neg]

theorem intended_arithEvent {n i j : Nat} {carry : Bool} {new : BitVec (8 * n)}
    {valType : StageValType} (hi : i + n ≤ inBuf.length) (hj : j ∈ List.range' 1 ARITH_MAX)
    (hval : val = j ∨ val = -j) (htype : valType ≠ .none) (hnew : new = (orderOf valType).word
      ((orderOf valType).word (load n inBuf i) + BitVec.ofInt (8 * n) val))
    (hstage : ∀ buf, ChangesBy inBuf n i valType val buf → Intended inBuf stage i valType val buf) :
    IntendedEvent inBuf (arithEvent inBuf stage n i carry new valType val) := by
  unfold arithEvent
  dsimp only
  split
  · trivial
  · split
    · trivial
    · subst hnew
      exact hstage _ (changesBy_store hi hj hval htype)

theorem intended_interestEvent {n i : Nat} {skip : Option SkipReason} {new : BitVec (8 * n)}
    {valType : StageValType} {table : List Int} (hi : i + n ≤ inBuf.length) (hval : val ∈ table)
    (htype : valType ≠ .none) (hnew : new = (orderOf valType).word (BitVec.ofInt (8 * n) val))
    (hstage : ∀ buf, SetsTo inBuf table n i valType val buf →
      Intended inBuf stage i valType val buf) :
    IntendedEvent inBuf (interestEvent inBuf stage n i new skip valType val) := by
  unfold interestEvent
  split
  · trivial
  · subst hnew
    exact hstage _ ⟨hval, htype, holdsAt_store _ hi _⟩

theorem intended_arith8 {i j : Nat} (hi : i + 1 ≤ inBuf.length) (hj : j ∈ List.range' 1 ARITH_MAX)
    (he : e ∈ arith8Events inBuf i j) :
    IntendedEvent inBuf e := by
  simp only [arith8Events, List.mem_cons, List.not_mem_nil, or_false] at he
  rcases he with rfl | rfl
  · exact intended_arithEvent hi hj (Or.inl rfl) (by decide) (add_ofNat_eq (w := 8) _ j)
      fun _ h => h
  · exact intended_arithEvent hi hj (Or.inr rfl) (by decide) (sub_ofNat_eq (w := 8) _ j)
      fun _ h => h

theorem intended_wideEvents (stage : Stage) {n i j max low lowSwapped : Nat}
    {swap : BitVec (8 * n) → BitVec (8 * n)} (hswap : ∀ x, swap x = byteSwap x)
    (hi : i + n ≤ inBuf.length) (hj : j ∈ List.range' 1 ARITH_MAX)
    (hstage : ∀ valType val buf, ChangesBy inBuf n i valType val buf →
      Intended inBuf stage i valType val buf)
    (he : e ∈ wideEvents inBuf stage n i j max low lowSwapped swap) : IntendedEvent inBuf e := by
  simp only [wideEvents, hswap, List.mem_cons, List.not_mem_nil, or_false] at he
  rcases he with rfl | rfl | rfl | rfl
  · exact intended_arithEvent hi hj (Or.inl rfl) (by decide) (add_ofNat_eq _ j) (hstage _ _)
  · exact intended_arithEvent hi hj (Or.inr rfl) (by decide) (sub_ofNat_eq _ j) (hstage _ _)
  · exact intended_arithEvent hi hj (Or.inl rfl) (by decide)
      (congrArg byteSwap (add_ofNat_eq _ j)) (hstage _ _)
  · exact intended_arithEvent hi hj (Or.inr rfl) (by decide)
      (congrArg byteSwap (sub_ofNat_eq _ j)) (hstage _ _)

theorem intended_of_mem_arithPlan {n : Nat} {events : Nat → Nat → List Event} (hn : 0 < n)
    (hevents : ∀ i j e, i + n ≤ inBuf.length → j ∈ List.range' 1 ARITH_MAX → e ∈ events i j →
      IntendedEvent inBuf e) (h : e ∈ arithPlan inBuf eff n events) : IntendedEvent inBuf e := by
  obtain ⟨i, hi, he⟩ := mem_wordsPlan hn h
  obtain ⟨j, hj, he⟩ := List.mem_flatMap.mp he
  exact hevents i j e hi hj he

theorem intended_of_mem_bitflips (h : e ∈ bitflipsPlan inBuf eff val) :
    IntendedEvent inBuf e := by
  unfold bitflipsPlan walkingFlipsPlan wideFlipsPlan at h
  simp only [List.mem_append, mem_ifLongEnough] at h
  rcases h with h | (h | h | h) | ⟨-, h | ⟨-, h⟩⟩
  · obtain ⟨pos, buf, rfl, hflip⟩ := flipsBits_of_mem h
    exact hflip
  · obtain ⟨pos, buf, rfl, hflip⟩ := flipsBits_of_mem h
    exact hflip
  · obtain ⟨pos, buf, rfl, hflip⟩ := flipsBits_of_mem h
    exact hflip
  · obtain ⟨i, hi, rfl⟩ := List.mem_map.mp h
    rw [List.mem_range] at hi
    exact ⟨hi, flipsTo_flipWord 1 i inBuf⟩
  · obtain ⟨pos, buf, rfl, hflip⟩ := flipsBytes_of_mem (by decide) h
    exact hflip
  · obtain ⟨pos, buf, rfl, hflip⟩ := flipsBytes_of_mem (by decide) h
    exact hflip

theorem intended_of_mem_ariths (h : e ∈ arithsPlan inBuf eff) :
    IntendedEvent inBuf e := by
  unfold arithsPlan at h
  rw [List.mem_append, mem_ifLongEnough, List.mem_append, mem_ifLongEnough] at h
  rcases h with h | ⟨-, h | ⟨-, h⟩⟩
  · exact intended_of_mem_arithPlan (by decide) (fun _ _ _ => intended_arith8) h
  · exact intended_of_mem_arithPlan (by decide)
      (fun _ _ _ hi hj => intended_wideEvents .arith16 swap16_eq hi hj fun _ _ _ h => h) h
  · exact intended_of_mem_arithPlan (by decide)
      (fun _ _ _ hi hj => intended_wideEvents .arith32 swap32_eq hi hj fun _ _ _ h => h) h

theorem intended_of_mem_interests (h : e ∈ interestsPlan inBuf eff) :
    IntendedEvent inBuf e := by
  rcases mem_interestsPlan h with ⟨i, v, hv, hi, he⟩ | ⟨i, v, hv, hi, he⟩ | ⟨i, v, hv, hi, he⟩
  · simp only [int8Events, List.mem_cons, List.not_mem_nil, or_false] at he
    subst he
    exact intended_interestEvent hi hv (by decide) rfl fun _ h => h
  · simp only [intEvents, swap16_eq, List.mem_cons, List.not_mem_nil, or_false] at he
    rcases he with rfl | rfl
    · exact intended_interestEvent hi hv (by decide) rfl fun _ h => h
    · exact intended_interestEvent hi hv (by decide) rfl fun _ h => h
  · simp only [intEvents, swap32_eq, List.mem_cons, List.not_mem_nil, or_false] at he
    rcases he with rfl | rfl
    · exact intended_interestEvent hi hv (by decide) rfl fun _ h => h
    · exact intended_interestEvent hi hv (by decide) rfl fun _ h => h

/-- Every event of the plan is intended. -/
theorem intended_of_mem {passedDet : Bool} (h : e ∈ deterministicPlan inBuf passedDet eff val) :
    IntendedEvent inBuf e := by
  rcases mem_deterministicPlan h with h | h | h
  · exact intended_of_mem_bitflips h
  · exact intended_of_mem_ariths h
  · exact intended_of_mem_interests h

end Events

/-! ### The stages one after another -/

/-- A stage by its name. -/
def runStage (env : DetEnv) (len : Nat) (s : DetState) : Stage → StageM DetState
  | .flip1 => flip1 env len s
  | .flip2 => flip2 env len s
  | .flip4 => flip4 env len s
  | .flip8 => flip8 env len s
  | .flip16 => flip16 env len s
  | .flip32 => flip32 env len s
  | .arith8 => arith8 env len s
  | .arith16 => arith16 env len s
  | .arith32 => arith32 env len s
  | .int8 => int8 env len s
  | .int16 => int16 env len s
  | .int32 => int32 env len s

/-- The stages that an input of the length goes through, in their order. -/
def stagesOf (passedDet : Bool) (len : Nat) : List Stage :=
  if passedDet then [.flip1]
  else if len < 2 then [.flip1, .flip2, .flip4, .flip8, .arith8, .int8]
  else if len < 4 then
    [.flip1, .flip2, .flip4, .flip8, .flip16, .arith8, .arith16, .int8, .int16]
  else
    [.flip1, .flip2, .flip4, .flip8, .flip16, .flip32, .arith8, .arith16, .arith32, .int8, .int16,
      .int32]

/-- The deterministic part is the sequence of its stages. -/
theorem deterministic_eq (env : DetEnv) (len : Nat) (s : DetState) :
    deterministic env len s = (stagesOf env.passedDet len).foldlM (runStage env len) s := by
  unfold deterministic stagesOf walkingFlips wideFlips ariths interests
  cases env.passedDet with
  | true => simp [runStage]
  | false =>
    by_cases h2 : len < 2
    · simp [h2, runStage]
    · by_cases h4 : len < 4
      · simp [h2, h4, runStage]
      · simp [h2, h4, runStage]

/-- What has to hold when a stage starts: the buffer is the input, and a bitflip stage, after the
first one sets it, relies on `stage_val_type`. -/
def Ready (inBuf : List U8) (stage : Stage) (s : DetState) : Prop :=
  s.outBuf = inBuf ∧ (isBitflip stage = true → stage ≠ .flip1 → s.stageValType = .none)

/-- What holds when a stage ends. -/
def Restored (inBuf : List U8) (stage : Stage) (s : DetState) : Prop :=
  s.outBuf = inBuf ∧ (isBitflip stage = true → s.stageValType = .none)

section Boundaries
variable {inBuf : List U8}

theorem restored_of_flips {stage : Stage} {m : StageM DetState} {s s' : DetState}
    {events : List Event} {val : Int}
    (h : Logs DetState.log m s events (FlipInv inBuf val)) (hok : m = .ok s') :
    Restored inBuf stage s' := by
  subst hok
  exact ⟨h.2.buf, fun _ => h.2.valType⟩

theorem restored_of_words {stage : Stage} {m : StageM DetState} {s s' : DetState}
    {events : List Event} {eff : List Bool} (hstage : isBitflip stage = false)
    (h : Logs DetState.log m s events (WordInv inBuf eff none)) (hok : m = .ok s') :
    Restored inBuf stage s' := by
  subst hok
  exact ⟨h.2.buf, fun hflip => absurd hflip (by rw [hstage]; decide)⟩

/-- Every stage gives the buffer back as it was. -/
theorem runStage_spec (env : DetEnv) (stage : Stage) {s s' : DetState}
    (hs : Ready inBuf stage s) (hok : runStage env inBuf.length s stage = .ok s') :
    Restored inBuf stage s' := by
  obtain ⟨hbuf, htype⟩ := hs
  have hwords : WordInv inBuf s.effMap none s := ⟨hbuf, rfl, fun _ h => by cases h⟩
  have hflips : s.stageValType = .none → FlipInv inBuf s.stageCurVal s := fun h => ⟨hbuf, h, rfl⟩
  cases stage with
  | flip1 => exact restored_of_flips (flip1_logs env s hbuf rfl) hok
  | flip2 => exact restored_of_flips (walkBits_logs env .flip2 2 s (hflips (htype rfl nofun))) hok
  | flip4 => exact restored_of_flips (walkBits_logs env .flip4 4 s (hflips (htype rfl nofun))) hok
  | flip8 => exact restored_of_flips (flip8_logs env s (hflips (htype rfl nofun))) hok
  | flip16 =>
    have hlogs := flipWords_logs env .flip16 2 (by decide) s ⟨hflips (htype rfl nofun), rfl⟩
    exact restored_of_flips (hlogs.mono fun _ h => h.toFlipInv) hok
  | flip32 =>
    have hlogs := flipWords_logs env .flip32 4 (by decide) s ⟨hflips (htype rfl nofun), rfl⟩
    exact restored_of_flips (hlogs.mono fun _ h => h.toFlipInv) hok
  | arith8 => exact restored_of_words rfl (arith8_logs env s hwords) hok
  | arith16 => exact restored_of_words rfl (arith16_logs env s hwords) hok
  | arith32 => exact restored_of_words rfl (arith32_logs env s hwords) hok
  | int8 => exact restored_of_words rfl (int8_logs env s hwords) hok
  | int16 => exact restored_of_words rfl (int16_logs env s hwords) hok
  | int32 => exact restored_of_words rfl (int32_logs env s hwords) hok

/-- A bitflip stage other than the first one comes after a bitflip stage. -/
def Follows (a b : Stage) : Prop := isBitflip b = true → b ≠ .flip1 → isBitflip a = true

instance (a b : Stage) : Decidable (Follows a b) := inferInstanceAs (Decidable (_ → _ → _))

/-- After any number of stages the buffer is the input. -/
theorem outBuf_of_stages (env : DetEnv) {stages : List Stage} (hchain : stages.IsChain Follows)
    {s : DetState} (hs : s.outBuf = inBuf) (hready : ∀ stage ∈ stages.head?, Ready inBuf stage s)
    {done rest : List Stage} (hdone : stages = done ++ rest) {t : DetState}
    (hok : done.foldlM (runStage env inBuf.length) s = .ok t) : t.outBuf = inBuf := by
  induction done generalizing stages s with
  | nil =>
    obtain rfl := Except.ok.inj hok
    exact hs
  | cons stage done ih =>
    subst hdone
    rw [List.foldlM_cons] at hok
    cases hrun : runStage env inBuf.length s stage with
    | error e =>
      rw [hrun] at hok
      cases hok
    | ok s' =>
      rw [hrun] at hok
      have hrest := runStage_spec env stage (hready stage rfl) hrun
      rw [List.cons_append, List.isChain_cons] at hchain
      refine ih hchain.2 hrest.1 (fun next hnext => ?_) rfl hok
      exact ⟨hrest.1, fun hflip hne => hrest.2 (hchain.1 next hnext hflip hne)⟩

theorem isChain_stagesOf (passedDet : Bool) (len : Nat) :
    (stagesOf passedDet len).IsChain Follows := by
  unfold stagesOf
  split
  · decide
  · split
    · decide
    · split <;> decide

end Boundaries

/-- For every input and every outcome of the executions: each buffer that the deterministic stages
execute, whether the entry is abandoned or not, is the input with the intended change of the step,
and the buffer is the input again before and after every stage. -/
theorem deterministic_frame (env : DetEnv) (s : DetState) :
    (∃ events, (finalState (deterministic env s.outBuf.length s)).log = s.log ++ events ∧
      ∀ e ∈ events, IntendedEvent s.outBuf e) ∧
    deterministic env s.outBuf.length s =
      (stagesOf env.passedDet s.outBuf.length).foldlM (runStage env s.outBuf.length) s ∧
    ∀ done rest t, stagesOf env.passedDet s.outBuf.length = done ++ rest →
      done.foldlM (runStage env s.outBuf.length) s = .ok t → t.outBuf = s.outBuf := by
  refine ⟨?_, deterministic_eq env _ s, fun done rest t hdone hok => ?_⟩
  · obtain ⟨eff, -, hmap⟩ := exists_effMap_or env s.outBuf s []
    obtain ⟨done, hdone, hlog⟩ := (deterministic_logs env s rfl hmap).finalState_log
    exact ⟨done, hlog, fun e he => intended_of_mem (hdone.subset he)⟩
  · refine outBuf_of_stages env (isChain_stagesOf _ _) rfl (fun stage hstage => ?_) hdone hok
    -- the first stage sets `stage_val_type` itself
    have hfirst : stage = .flip1 := by
      unfold stagesOf at hstage
      split at hstage
      · exact (Option.some.inj hstage).symm
      · split at hstage
        · exact (Option.some.inj hstage).symm
        · split at hstage <;> exact (Option.some.inj hstage).symm
    exact ⟨rfl, fun _ hne => absurd hfirst hne⟩

end TriforceAFL.Proofs
