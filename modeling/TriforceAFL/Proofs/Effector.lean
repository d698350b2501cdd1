import TriforceAFL.Spec.Deterministic

/-!
# `TriforceAFL.Proofs.Effector`: what the effector map and its counter say

Stage "bitflip 8/8" flags the blocks of the input that are worth fuzzing. It flags the first and the
last block beforehand, and does not test a block any more once it is flagged. `EffMapInv` says which
blocks are flagged before each turn, and relates `eff_cnt` to their number.

For inputs shorter than `EFF_MIN_LEN` bytes the stage does not look at the checksum.
`effective_of_short` concludes that every byte of such an input is effective in all later stages.
-/

set_option autoImplicit false

namespace TriforceAFL.Proofs

open Lib Spec

/-! ### Blocks -/

theorem effApos_eq (p : Nat) : effApos p = p / 8 := by
  rw [effApos, EFF_MAP_SCALE2, Nat.shiftRight_eq_div_pow]

theorem effAlen_eq (len : Nat) : effAlen len = len / 8 + if len % 8 ≠ 0 then 1 else 0 := by
  rw [effAlen, effApos_eq]
  rfl

/-- Every offset of the input has a block in the map. -/
theorem effApos_lt_effAlen {p len : Nat} (h : p < len) : effApos p < effAlen len := by
  rw [effApos_eq, effAlen_eq]
  split <;> omega

/-- The span of a token at offset `i` lies in the effector map. -/
theorem effSpan_le {i n len : Nat} (hn : 0 < n) (hfits : i + n ≤ len) :
    effApos i + (effApos (i + n - 1) - effApos i + 1) ≤ effAlen len := by
  have hlast : effApos (i + n - 1) < effAlen len := effApos_lt_effAlen (by omega)
  rw [effApos_eq, effApos_eq] at *
  omega

/-- Every block of the map holds a byte of the input. -/
theorem exists_effApos {len k : Nat} (hk : k < effAlen len) : ∃ p < len, effApos p = k := by
  rw [effAlen_eq] at hk
  refine ⟨8 * k, ?_, by rw [effApos_eq]; omega⟩
  split at hk <;> omega

/-- Flagging a block makes its bytes effective and leaves the others as they were. -/
theorem getD_set_true {eff : List Bool} {k i : Nat} (hk : k < eff.length) :
    (eff.set k true).getD i false = if i = k then true else eff.getD i false := by
  simp only [List.getD_eq_getElem?_getD, List.getElem?_set]
  by_cases h : k = i
  · subst h
    simp [hk]
  · have hne : ¬ i = k := fun heq => h heq.symm
    simp [h, hne]

/-- One more flag. -/
theorem count_set_true {eff : List Bool} {k : Nat} (hk : k < eff.length)
    (hclear : eff.getD k false = false) : (eff.set k true).count true = eff.count true + 1 := by
  have hget : eff[k] = false := by
    rw [← hclear, List.getD_eq_getElem _ _ hk]
  rw [List.count_set hk, hget]
  simp

theorem length_initEffMap (len : Nat) (s : DetState) :
    (initEffMap len s).effMap.length = effAlen len := by
  unfold initEffMap
  dsimp only
  split <;> simp

/-! ### The walking byte -/

section Walk
variable (env : DetEnv) (len : Nat)

/-- The execution of turn `cur`, with the byte flipped. -/
def flip8Exec (s : DetState) (cur : Nat) : StageM DetState :=
  commonFuzzStuff env .flip8 { s with stageCurByte := cur, outBuf := flipWord 1 cur s.outBuf }

/-- One turn of the walking byte. -/
def flip8Turn (s : DetState) (cur : Nat) : StageM DetState := do
  let s := flagEffector env len (← flip8Exec env s cur) cur
  pure { s with outBuf := flipWord 1 cur s.outBuf }

/-- The stage from its start up to turn `n`. -/
def flip8Before (s : DetState) (n : Nat) : StageM DetState :=
  (List.range n).foldlM (flip8Turn env len) (beginStage len (initEffMap len s))

/-- The density test comes after the last turn. -/
theorem flip8_eq (s : DetState) :
    flip8 env len s = (do
      let t ← flip8Before env len s len
      pure (endStage .flip8 (closeEffMap len t))) := rfl

theorem flip8Before_succ (s : DetState) (n : Nat) :
    flip8Before env len s (n + 1) = flip8Before env len s n >>= (flip8Turn env len · n) := by
  unfold flip8Before
  rw [List.range_succ, List.foldlM_append]
  refine bind_congr fun t => ?_
  rw [List.foldlM_cons]
  exact bind_pure _

/-- Byte `p` was tested, because its block had no flag yet, and flipping it changed the checksum. -/
def TestChanged (s : DetState) (p : Nat) : Prop :=
  ∃ t u, flip8Before env len s p = .ok t ∧ t.effective p = false ∧ flip8Exec env t p = .ok u ∧
    env.cksum u.log ≠ env.execCksum

/-- The stage does not look at checksums. -/
def FlagsAll : Prop := env.dumbMode = true ∨ len < EFF_MIN_LEN

instance : Decidable (FlagsAll env len) := inferInstanceAs (Decidable (_ ∨ _))

/-- The map before turn `n`, if the stage started in state `s`. -/
structure EffMapInv (s : DetState) (n : Nat) (t : DetState) : Prop where
  length_eq : t.effMap.length = effAlen len
  count : t.effCnt + 1 = s.effCnt + t.effMap.count true
  flagged : ∀ k, t.effMap.getD k false = true ↔ k = 0 ∨ k = effApos (len - 1) ∨
    ∃ p < n, effApos p = k ∧ (FlagsAll env len ∨ TestChanged env len s p)
  select : t.blocksEffSelect = s.blocksEffSelect
  total : t.blocksEffTotal = s.blocksEffTotal

end Walk

section Map
variable {env : DetEnv} {len : Nat} {s t u : DetState}

/-- The first and the last block are flagged, and counted once if they are the same. -/
theorem effMapInv_initEffMap (hlen : 0 < len) :
    EffMapInv env len s 0 (beginStage len (initEffMap len s)) := by
  have hfirst : 0 < effAlen len := Nat.lt_of_le_of_lt (Nat.zero_le _) (effApos_lt_effAlen hlen)
  have hlast : effApos (len - 1) < effAlen len := effApos_lt_effAlen (by omega)
  set first := (List.replicate (effAlen len) false).set 0 true with hdef
  have hlength : first.length = effAlen len := by simp [hdef]
  have hclear : ∀ k, (List.replicate (effAlen len) false).getD k false = false := fun k => by
    rw [List.getD_eq_getElem?_getD, List.getElem?_replicate]
    split <;> rfl
  have hget : ∀ k, first.getD k false = if k = 0 then true else false := fun k => by
    rw [hdef, getD_set_true (by simpa using hfirst), hclear]
  have hcount : first.count true = 1 := by
    rw [hdef, count_set_true (by simpa using hfirst) (hclear 0), List.count_replicate]
    rfl
  refine ⟨(length_initEffMap len s), ?_, fun k => ?_, ?_, ?_⟩
  · show (initEffMap len s).effCnt + 1 = s.effCnt + (initEffMap len s).effMap.count true
    unfold initEffMap
    dsimp only
    split
    · rename_i hne
      rw [← hdef, count_set_true (by omega) (by rw [hget, if_neg hne]), hcount]
    · rw [← hdef, hcount]
  · show (initEffMap len s).effMap.getD k false = true ↔ _
    simp only [Nat.not_lt_zero, false_and, exists_false, or_false]
    unfold initEffMap
    dsimp only
    split
    · rw [← hdef, getD_set_true (by omega), hget]
      by_cases hk : k = effApos (len - 1) <;> simp [hk]
    · rename_i hzero
      rw [← hdef, hget, not_not.mp hzero]
      simp
  · show (initEffMap len s).blocksEffSelect = _
    unfold initEffMap
    dsimp only
    split <;> rfl
  · show (initEffMap len s).blocksEffTotal = _
    unfold initEffMap
    dsimp only
    split <;> rfl

/-- A block gets its flag if it has none, and nothing is tested or the checksum changes. -/
theorem flagEffector_eq (cur : Nat) : flagEffector env len u cur =
    if u.effective cur = false ∧ (FlagsAll env len ∨ env.cksum u.log ≠ env.execCksum) then
      { u with effMap := u.effMap.set (effApos cur) true, effCnt := u.effCnt + 1 }
    else u := by
  have hne : ~~~env.execCksum ≠ env.execCksum := by
    intro h
    have hbit := congrArg (fun x => BitVec.getLsbD x 0) h
    simp at hbit
  unfold flagEffector FlagsAll
  cases u.effective cur
  · by_cases hdumb : env.dumbMode = true
    · simp [hdumb, hne]
    · by_cases hshort : len < EFF_MIN_LEN
      · have hlong : ¬ EFF_MIN_LEN ≤ len := by omega
        simp [hshort, hlong, hne]
      · have hlong : EFF_MIN_LEN ≤ len := by omega
        simp [hdumb, hshort, hlong]
  · simp

/-- The execution changes the buffer and the log, not the map. -/
theorem flip8Exec_map {cur : Nat} (h : flip8Exec env t cur = .ok u) :
    u.effMap = t.effMap ∧ u.effCnt = t.effCnt ∧ u.blocksEffSelect = t.blocksEffSelect ∧
      u.blocksEffTotal = t.blocksEffTotal := by
  unfold flip8Exec commonFuzzStuff at h
  dsimp only at h
  split at h
  · cases h
  · cases h
    exact ⟨rfl, rfl, rfl, rfl⟩

theorem testChanged_iff {cur : Nat} (hbefore : flip8Before env len s cur = .ok t)
    (hexec : flip8Exec env t cur = .ok u) : TestChanged env len s cur ↔
      t.effective cur = false ∧ env.cksum u.log ≠ env.execCksum := by
  constructor
  · rintro ⟨t₁, u₁, ht₁, heff, hu₁, hchange⟩
    obtain rfl : t = t₁ := Except.ok.inj (hbefore.symm.trans ht₁)
    obtain rfl : u = u₁ := Except.ok.inj (hexec.symm.trans hu₁)
    exact ⟨heff, hchange⟩
  · rintro ⟨heff, hchange⟩
    exact ⟨t, u, hbefore, heff, hexec, hchange⟩

/-- One turn: its byte flags its block, or changes nothing. -/
theorem EffMapInv.turn {cur : Nat} (hcur : cur < len) (hbefore : flip8Before env len s cur = .ok t)
    (ht : EffMapInv env len s cur t) {t' : DetState} (hturn : flip8Turn env len t cur = .ok t') :
    EffMapInv env len s (cur + 1) t' := by
  unfold flip8Turn at hturn
  cases hexec : flip8Exec env t cur with
  | error e => rw [hexec] at hturn; cases hturn
  | ok u =>
    rw [hexec] at hturn
    cases hturn
    obtain ⟨hmap, hcnt, hselect, htotal⟩ := flip8Exec_map hexec
    have hblock : effApos cur < t.effMap.length := by
      rw [ht.length_eq]
      exact effApos_lt_effAlen hcur
    have heff : u.effective cur = t.effective cur := by
      rw [DetState.effective, DetState.effective, hmap]
    -- What the turn adds to the right side of `flagged`.
    have hnew : ∀ k, (∃ p < cur + 1, effApos p = k ∧ (FlagsAll env len ∨ TestChanged env len s p))
        ↔ (∃ p < cur, effApos p = k ∧ (FlagsAll env len ∨ TestChanged env len s p)) ∨
          (effApos cur = k ∧ (FlagsAll env len ∨ TestChanged env len s cur)) :=
      fun k => Nat.exists_lt_succ_right
    show EffMapInv env len s (cur + 1) { flagEffector env len u cur with
      outBuf := flipWord 1 cur (flagEffector env len u cur).outBuf }
    rw [flagEffector_eq, heff]
    split
    · rename_i hflag
      obtain ⟨hclear, hwhy⟩ := hflag
      constructor
      · rw [List.length_set, hmap, ht.length_eq]
      · rw [hmap, count_set_true hblock hclear, hcnt, ht.count, Nat.add_assoc]
      · intro k
        rw [hmap, getD_set_true hblock, hnew, testChanged_iff hbefore hexec]
        by_cases hk : k = effApos cur
        · simp [hk, hclear, hwhy]
        · have hk' : ¬ effApos cur = k := fun h => hk h.symm
          simp only [hk, hk', if_false, ht.flagged k, false_and, or_false]
      · exact hselect.trans ht.select
      · exact htotal.trans ht.total
    · rename_i hkeep
      constructor
      · rw [hmap, ht.length_eq]
      · rw [hmap, hcnt, ht.count]
      · intro k
        rw [hmap, hnew, testChanged_iff hbefore hexec]
        constructor
        · intro hflag
          exact ((ht.flagged k).mp hflag).imp_right (Or.imp_right Or.inl)
        · rintro (h | h | h | ⟨rfl, hwhy⟩)
          · exact (ht.flagged k).mpr (Or.inl h)
          · exact (ht.flagged k).mpr (Or.inr (Or.inl h))
          · exact (ht.flagged k).mpr (Or.inr (Or.inr h))
          · -- The turn had a reason to flag its block, so the block had its flag before.
            by_contra hflag
            have hclear : t.effective cur = false := Bool.eq_false_of_not_eq_true hflag
            exact hkeep ⟨hclear, hwhy.imp_right And.right⟩
      · exact hselect.trans ht.select
      · exact htotal.trans ht.total

/-- The whole walk. -/
theorem EffMapInv.walk (hlen : 0 < len) {n : Nat} (hn : n ≤ len)
    (hok : flip8Before env len s n = .ok t) : EffMapInv env len s n t := by
  induction n generalizing t with
  | zero =>
    cases hok
    exact effMapInv_initEffMap hlen
  | succ n ih =>
    rw [flip8Before_succ] at hok
    cases hbefore : flip8Before env len s n with
    | error e => rw [hbefore] at hok; cases hok
    | ok u =>
      rw [hbefore] at hok
      exact (ih (by omega) hbefore).turn (by omega) hbefore hok

/-- The density test only adds blocks. -/
theorem closeEffMap_effective {len p : Nat} {s : DetState} (hp : p < len)
    (h : s.effective p = true) : (closeEffMap len s).effective p = true := by
  unfold closeEffMap
  dsimp only
  split
  · show (List.replicate (effAlen len) true).getD (effApos p) false = true
    simp [List.getD_eq_getElem?_getD, effApos_lt_effAlen hp]
  · exact h

/-- The density test selects no more blocks than it counts. -/
theorem closeEffMap_select (hcnt : t.effCnt ≤ effAlen len) :
    ∃ more, (closeEffMap len t).blocksEffSelect = t.blocksEffSelect + more ∧
      (closeEffMap len t).blocksEffTotal = t.blocksEffTotal + effAlen len ∧
      more ≤ effAlen len := by
  unfold closeEffMap
  dsimp only
  split
  · exact ⟨effAlen len, rfl, rfl, Nat.le_refl _⟩
  · exact ⟨t.effCnt, rfl, rfl, hcnt⟩

end Map

/-- After stage "bitflip 8/8", every byte of a short input is effective. -/
theorem effective_of_short (env : DetEnv) {len : Nat} {s s' : DetState}
    (hshort : len < EFF_MIN_LEN) (hok : flip8 env len s = .ok s') :
    ∀ p < len, s'.effective p = true := by
  intro p hp
  rw [flip8_eq] at hok
  cases hwalk : flip8Before env len s len with
  | error e => rw [hwalk] at hok; cases hok
  | ok t =>
    rw [hwalk] at hok
    cases hok
    have hinv := EffMapInv.walk (by omega) (Nat.le_refl len) hwalk
    apply closeEffMap_effective hp
    exact (hinv.flagged _).mpr (Or.inr (Or.inr ⟨p, hp, rfl, Or.inl (Or.inr hshort)⟩))

/-- For every input length and all checksums: the blocks of single bytes, of the words of the later
stages and of the spans of tokens lie in the map. When all bytes have been walked over, `eff_cnt` is
the number of flagged blocks, and a block is flagged if and only if it is the first or the last one,
nothing was tested, or a byte of it was tested and changed the checksum. What the density test then
adds to `blocks_eff_select` is at most what it adds to `blocks_eff_total`. -/
theorem effector_map_exact (env : DetEnv) {len : Nat} (hlen : 0 < len) {s t : DetState}
    (hcnt : s.effCnt = 1) (hwalk : flip8Before env len s len = .ok t) :
    (∀ p < len, effApos p < effAlen len) ∧
    (∀ n i j, i < len - (n - 1) → j < n → effApos (i + j) < effAlen len) ∧
    (∀ i n, 0 < n → i + n ≤ len →
      effApos i + (effApos (i + n - 1) - effApos i + 1) ≤ effAlen len) ∧
    t.effMap.length = effAlen len ∧ t.effCnt = t.effMap.count true ∧
    (∀ k < effAlen len, t.effMap.getD k false = true ↔ k = 0 ∨ k = effAlen len - 1 ∨
      (env.dumbMode = true ∨ len < EFF_MIN_LEN) ∨
      ∃ p < len, effApos p = k ∧ TestChanged env len s p) ∧
    ∃ s' selected total, flip8 env len s = .ok s' ∧
      s'.blocksEffSelect = s.blocksEffSelect + selected ∧
      s'.blocksEffTotal = s.blocksEffTotal + total ∧ selected ≤ total := by
  have hinv := EffMapInv.walk hlen (Nat.le_refl len) hwalk
  have hcount : t.effCnt = t.effMap.count true := by
    have hrel := hinv.count
    omega
  have hlast : effApos (len - 1) = effAlen len - 1 := by
    rw [effApos_eq, effAlen_eq]
    split <;> omega
  refine ⟨fun p hp => effApos_lt_effAlen hp, fun n i j hi hj => effApos_lt_effAlen (by omega),
    fun i n hn hfits => effSpan_le hn hfits, hinv.length_eq, hcount, fun k hk => ?_, ?_⟩
  · rw [hinv.flagged k, hlast]
    obtain ⟨p, hp, hpk⟩ := exists_effApos hk
    constructor
    · rintro (h | h | ⟨q, hq, hqk, hall | htest⟩)
      · exact Or.inl h
      · exact Or.inr (Or.inl h)
      · exact Or.inr (Or.inr (Or.inl hall))
      · exact Or.inr (Or.inr (Or.inr ⟨q, hq, hqk, htest⟩))
    · rintro (h | h | hall | ⟨q, hq, hqk, htest⟩)
      · exact Or.inl h
      · exact Or.inr (Or.inl h)
      · exact Or.inr (Or.inr ⟨p, hp, hpk, Or.inl hall⟩)
      · exact Or.inr (Or.inr ⟨q, hq, hqk, Or.inr htest⟩)
  · have hle : t.effCnt ≤ effAlen len := by
      rw [hcount, ← hinv.length_eq]
      exact List.count_le_length
    obtain ⟨more, hselect, htotal, hmore⟩ := closeEffMap_select hle
    refine ⟨endStage .flip8 (closeEffMap len t), more, effAlen len, ?_, ?_, ?_, hmore⟩
    · rw [flip8_eq, hwalk]
      rfl
    · rw [← hinv.select]
      exact hselect
    · rw [← hinv.total]
      exact htotal

/-- An input of 20 bytes, which are three blocks of the map. -/
theorem effector_map_exact_three_blocks :
    ∃ t, flip8Before {} 20 { outBuf := List.replicate 20 0x41 } 20 = .ok t ∧
      t.effMap.length = 3 ∧ t.effCnt = t.effMap.count true := by
  refine ⟨_, rfl, by decide +kernel, ?_⟩
  exact (effector_map_exact {} (s := { outBuf := List.replicate 20 0x41 })
    (show 0 < 20 by decide) rfl rfl).2.2.2.2.1

end TriforceAFL.Proofs
