import TriforceAFL.Proofs.ResumeDepth

/-!
# `TriforceAFL.Proofs.FileNames`: ids and descriptions in file names

The names of test cases carry the id of an entry and the operation that found it. An id is printed
with at least six digits and read back with at most six, so only ids below a million survive
(`queue_id_iff`).

`describe_op` builds its text in a buffer of 256 bytes. Everything that the fuzzer itself puts there
is short (`length_describeOp_find`), but the name of a peer is not limited (`describeOp_fits_iff`).
-/

set_option autoImplicit false

namespace TriforceAFL.Proofs

open Lib Spec

/-! ### Ids -/

/-- The text for a find begins with the entry that was fuzzed. -/
theorem describeOp_find {op : OpInfo} (hparty : op.syncingParty = none) (hnb : Nat) :
    ∃ rest, describeOp op hnb = (Origin.find op.currentEntry rest).text := by
  have htext : ∀ rest : Text, (Origin.find op.currentEntry rest).text =
      "src:".toList ++ (padDec 6 op.currentEntry ++ rest) := fun _ => List.append_assoc _ _ _
  simp only [htext, describeOp, hparty, List.append_assoc]
  split
  · exact ⟨_, rfl⟩
  · exact ⟨_, rfl⟩

/-- What `sync_fuzzers` and `pivot_inputs` read from the name of a test case is the id that was
written, and the number of its parent, exactly if the number is below a million. -/
theorem queue_id_iff (id : U32) (text : Text) :
    (caseId (caseName id.toNat text) = some id.toNat ↔ id.toNat < 10 ^ 6) ∧
      (Session.keepsName id.toNat (caseName id.toNat text) = true ↔ id.toNat < 10 ^ 6) ∧
      ∀ (p hnb : Nat) (op : OpInfo), op.syncingParty = none → op.currentEntry = id.toNat →
        (Session.sourceId (caseName p (describeOp op hnb)) = some id.toNat ↔
          id.toNat < 10 ^ 6) := by
  have hread := scanUnsigned_padDec_iff (w := 6) (by decide) id.isLt
  have hid : caseId (caseName id.toNat text) = some id.toNat ↔ id.toNat < 10 ^ 6 := by
    rw [caseId, if_pos (isPrefixOf_caseName id.toNat text), drop_caseName]
    exact hread _
  constructor
  · exact hid
  constructor
  · rw [← hid, Session.keepsName, caseId, if_pos (isPrefixOf_caseName id.toNat text),
      isPrefixOf_caseName, Bool.true_and, beq_iff_eq]
    rfl
  · intro p hnb op hparty hentry
    obtain ⟨rest, hrest⟩ := describeOp_find hparty hnb
    rw [hrest, sourceId_caseName, Origin.source, hentry]
    exact hread rest

/-- A find in entry 7, which is saved as entry 7 too. -/
theorem queue_id_iff_seven :
    caseId (caseName 7 "src:000007,op:havoc,rep:2".toList) = some 7 ∧
      Session.sourceId (caseName 8 (describeOp { currentEntry := 7 } 0)) = some 7 :=
  ⟨(queue_id_iff 7 _).1.mpr (by decide),
    ((queue_id_iff 7 []).2.2 8 0 { currentEntry := 7 } rfl rfl).mpr (by decide)⟩

/-- The million-and-first entry is taken for entry 100000. -/
theorem queue_id_cut_off :
    caseName 1000000 "src:000000,op:havoc,rep:2".toList
        = "id:1000000,src:000000,op:havoc,rep:2".toList ∧
      caseId (caseName 1000000 "src:000000,op:havoc,rep:2".toList) = some 100000 ∧
      Session.keepsName 1000000 (caseName 1000000 "src:000000,op:havoc,rep:2".toList) = false ∧
      Session.sourceId "id:1000001,src:1000000,op:havoc,rep:2".toList = some 100000 := by
  decide +kernel

/-! ### The buffer of `describe_op` -/

/-- `stage_short` of all stages that call `save_if_interesting`. -/
def stageShorts : List Text :=
  [Stage.flip1, .flip2, .flip4, .flip8, .flip16, .flip32, .arith8, .arith16, .arith32, .int8,
    .int16, .int32].map Stage.short ++
  ["ext_UO", "ext_UI", "ext_AO", "havoc", "splice"].map String.toList

/-- The values that `describe_op` can find: `u32` and `s32` numbers, the name of any stage, and the
name of any directory that `sync_fuzzers` does not skip. -/
structure OpInRange (op : OpInfo) : Prop where
  party : ∀ p ∈ op.syncingParty, p ≠ [] ∧ p.length ≤ 255 ∧ p.head? ≠ some '.' ∧ '/' ∉ p ∧
    '\x00' ∉ p
  syncingCase : op.syncingCase < 2 ^ 32
  currentEntry : op.currentEntry < 2 ^ 32
  splicingWith : op.splicingWith < 2 ^ 31
  stageShort : op.stageShort ∈ stageShorts
  stageCurByte : op.stageCurByte < 2 ^ 31
  stageCurVal : -2 ^ 31 ≤ op.stageCurVal ∧ op.stageCurVal < 2 ^ 31

/-- The text with its optional mark at the end. -/
theorem describeOp_eq (op : OpInfo) (hnb : Nat) :
    describeOp op hnb = describeOp op 0 ++ if hnb = 2 then ",+cov".toList else [] := by
  rcases eq_or_ne hnb 2 with rfl | hcov
  · rfl
  · rw [if_neg hcov, List.append_nil]
    exact if_neg hcov

section Lengths

/-- A `u32` has at most ten digits. -/
theorem length_padDec_u32 {n : Nat} (hn : n < 2 ^ 32) : (padDec 6 n).length ≤ 10 :=
  length_padDec_le (by decide) (by decide) (hn.trans (by decide))

theorem length_toDigits_u32 {n : Nat} (hn : n < 2 ^ 32) : (Nat.toDigits 10 n).length ≤ 10 :=
  (Nat.length_toDigits_le_iff (by decide) (by decide)).mpr (hn.trans (by decide))

theorem length_unsignedDec (v : Int) : (unsignedDec v).length ≤ 10 := by
  apply length_toDigits_u32
  omega

theorem length_signedDec {v : Int} (hlo : -2 ^ 31 ≤ v) (hhi : v < 2 ^ 31) :
    (signedDec v).length ≤ 11 := by
  have hdigits := length_toDigits_u32 (n := v.natAbs) (by omega)
  rw [signedDec, List.length_cons]
  omega

end Lengths

/-- Whatever the fuzzer itself has done is described in 75 characters. -/
theorem length_describeOp_find {op : OpInfo} (h : OpInRange op) (hparty : op.syncingParty = none)
    (hnb : Nat) : (describeOp op hnb).length ≤ 75 := by
  have hentry := length_padDec_u32 h.currentEntry
  have hsplice : (if op.splicingWith ≥ 0 then "+".toList ++ padDec 6 op.splicingWith.toNat
      else []).length ≤ 11 := by
    have hlt := h.splicingWith
    split
    · have hpad := length_padDec_u32 (n := op.splicingWith.toNat) (by omega)
      simp only [List.length_append]
      exact Nat.add_le_add (by decide : "+".toList.length ≤ 1) hpad
    · exact Nat.zero_le _
  have hshort : op.stageShort.length ≤ 7 :=
    (show ∀ short ∈ stageShorts, short.length ≤ 7 by decide) _ h.stageShort
  have hval := length_signedDec h.stageCurVal.1 h.stageCurVal.2
  have hbyte := length_unsignedDec op.stageCurByte
  have hrep := length_unsignedDec op.stageCurVal
  have hplace : (if op.stageCurByte ≥ 0 then
      ",pos:".toList ++ unsignedDec op.stageCurByte ++
        (if op.stageValType ≠ .none then
          ",val:".toList ++ (if op.stageValType = .be then "be:".toList else []) ++
            signedDec op.stageCurVal
        else [])
      else ",rep:".toList ++ unsignedDec op.stageCurVal).length ≤ 34 := by
    have hpos : ",pos:".toList.length = 5 := rfl
    have hvalText : ",val:".toList.length = 5 := rfl
    have hbe : "be:".toList.length = 3 := rfl
    have hrepText : ",rep:".toList.length = 5 := rfl
    split_ifs <;> simp only [List.length_append, List.length_nil] <;> omega
  have hcov : (if hnb = 2 then ",+cov".toList else []).length ≤ 5 := by split <;> decide
  have hsrc : "src:".toList.length = 4 := rfl
  have hop : ",op:".toList.length = 4 := rfl
  rw [describeOp_eq, List.length_append]
  simp only [describeOp, hparty, show (0 : Nat) ≠ 2 by decide, if_false]
  rw [List.length_append, List.length_append, List.length_append, List.length_append,
    List.length_append]
  omega

/-- An imported case is described by the name of its peer, its number, and ten more characters. -/
theorem length_describeOp_sync {op : OpInfo} {party : Text} (hparty : op.syncingParty = some party)
    (hnb : Nat) :
    (describeOp op hnb).length =
      party.length + (padDec 6 op.syncingCase).length + (if hnb = 2 then 5 else 0) + 10 := by
  have hsync : "sync:".toList.length = 5 := rfl
  have hsrc : ",src:".toList.length = 5 := rfl
  have hcov : ",+cov".toList.length = 5 := rfl
  simp only [describeOp, hparty]
  split
  · simp only [List.length_append]
    omega
  · simp only [List.length_append]
    omega

/-- With the terminating zero, the text fits into the buffer of 256 bytes exactly if no case is
being imported, or the name of the peer leaves room for the number of the case. -/
theorem describeOp_fits_iff (op : OpInfo) (hnb : Nat) (h : OpInRange op) :
    (describeOp op hnb).length + 1 ≤ 256 ↔
      ∀ party ∈ op.syncingParty,
        party.length + (padDec 6 op.syncingCase).length + (if hnb = 2 then 5 else 0) ≤ 245 := by
  rcases hparty : op.syncingParty with _ | party
  · have hfind := length_describeOp_find h hparty hnb
    constructor
    · intro _ party hmem
      exact absurd hmem (by simp)
    · intro _
      omega
  · rw [length_describeOp_sync hparty]
    constructor
    · intro hfits party' hmem
      cases hmem
      omega
    · intro hroom
      have hthis := hroom party rfl
      omega

/-- A case of a peer that is being imported. -/
def importFrom (party : Text) : OpInfo :=
  { stageShort := "havoc".toList
    syncingParty := some party }

/-- A find in an entry, and a case of a peer with a name of 239 characters. -/
theorem describeOp_fits_iff_names :
    (describeOp { stageShort := "havoc".toList } 2).length + 1 ≤ 256 ∧
      (describeOp (importFrom (List.replicate 239 'a')) 0).length + 1 ≤ 256 :=
  ⟨(describeOp_fits_iff { stageShort := "havoc".toList } 2
      ⟨by simp, by decide, by decide, by decide, by decide, by decide, by decide⟩).mpr (by simp),
    (describeOp_fits_iff (importFrom (List.replicate 239 'a')) 0
      ⟨by decide +kernel, by decide, by decide, by decide, by decide, by decide, by decide⟩).mpr
      (by decide +kernel)⟩

/-- The first case of a peer whose directory has a name of 255 characters is described in 272 bytes,
and in 277 when it has new coverage. -/
theorem describeOp_overflows :
    OpInRange (importFrom (List.replicate 255 'a')) ∧
      (describeOp (importFrom (List.replicate 255 'a')) 0).length + 1 = 272 ∧
      (describeOp (importFrom (List.replicate 255 'a')) 2).length + 1 = 277 :=
  ⟨⟨by decide +kernel, by decide, by decide, by decide, by decide, by decide, by decide⟩,
    by decide +kernel, by decide +kernel⟩

end TriforceAFL.Proofs
