import TriforceAFL.Proofs.FileLines
import TriforceAFL.Spec.As

/-!
# `TriforceAFL.Proofs.AsOutput`: afl-as only adds code

`Turn` says once what a turn of the loop can do: it writes its piece, with a trampoline in front of
it or behind it or both, counts the trampolines, and applies the directives of the piece to the
flags. `asTurn_spec` proves it, and everything below follows from it.

A whole run writes the pieces of the file in their order (`out_foldl`), and the pieces are the file
(`flatten_fileLines`). The counter `ins_lines` has 32 bits, and the payload is written if it is
not zero. So the payload is there exactly if a trampoline is, unless the number of trampolines is a
multiple of `2 ^ 32` and not zero (`only_adds_iff`). A piece has at most two places for trampolines,
so a file needs `2 ^ 31` pieces for that (`onlyAdds_of_few_pieces`).
-/

set_option autoImplicit false

namespace TriforceAFL.Proofs

open Lib Spec

variable {cfg : AsCfg} {input : List U8} {rnd : Draws} {s : AsState} {line : Text}

/-! ### A turn of the loop -/

/-- The flags after the directives of a line. -/
def AsFlags.scan (cfg : AsCfg) (line : Text) (f : AsFlags) : AsFlags :=
  match f.directives cfg line with
  | .error f => f
  | .ok f => f

/-- The condition for a trampoline behind a piece, on the state in front of it. -/
def insertsAfter (cfg : AsCfg) (rnd : Draws) (line : Text) (s : AsState) : Bool :=
  match s.flags.directives cfg line with
  | .error _ => false
  | .ok f =>
    !cfg.passThru && f.eligible && charAt line 0 == '\t' && charAt line 1 == 'j' &&
      charAt line 2 != 'm' &&
      decide (rnd (s.drawn + (insertsBefore cfg line s).toNat) % 100 < cfg.instRatio)

/-- A trampoline, or nothing. -/
def trampolineIf (cfg : AsCfg) (loc : Nat) (b : Bool) : List AsItem :=
  if b then [.trampoline cfg.use64 loc] else []

/-- What a turn does to the state `s`: the state after it is `s'`. -/
structure Turn (cfg : AsCfg) (rnd : Draws) (s : AsState) (piece : List U8) (s' : AsState) :
    Prop where
  out : ∃ loc loc', s'.out = s.out ++ (trampolineIf cfg loc (insertsBefore cfg (lineOf piece) s) ++
    .piece (cString piece) :: trampolineIf cfg loc' (insertsAfter cfg rnd (lineOf piece) s))
  count : s'.insLines = s.insLines + BitVec.ofNat 32 ((insertsBefore cfg (lineOf piece) s).toNat +
    (insertsAfter cfg rnd (lineOf piece) s).toNat)
  flags : s'.flags = if cfg.passThru then s.flags else AsFlags.scan cfg (lineOf piece) s.flags

/-- A draw, with its outcome as a variable. -/
theorem drawRatio_eq (cfg : AsCfg) (rnd : Draws) (s : AsState) :
    ∃ selected, drawRatio cfg rnd s = (selected, { s with drawn := s.drawn + 1 }) ∧
      selected = decide (rnd s.drawn % 100 < cfg.instRatio) :=
  ⟨_, rfl, rfl⟩

/-- `labels` writes nothing and leaves the flags alone. -/
theorem labels_eq (cfg : AsCfg) (rnd : Draws) (line : Text) (s : AsState) :
    (labels cfg rnd line s).out = s.out ∧ (labels cfg rnd line s).insLines = s.insLines ∧
      (labels cfg rnd line s).flags = s.flags := by
  obtain ⟨selected, hdraw⟩ := drawRatio_eq cfg rnd s
  cases selected with
  | false =>
    simp only [labels, hdraw.1]
    split_ifs <;> exact ⟨rfl, rfl, rfl⟩
  | true =>
    simp only [labels, hdraw.1]
    split_ifs <;> exact ⟨rfl, rfl, rfl⟩

/-- The condition for a conditional branch that is instrumented. -/
def branchSelected (cfg : AsCfg) (rnd : Draws) (line : Text) (s : AsState) : Bool :=
  s.flags.eligible && charAt line 0 == '\t' && charAt line 1 == 'j' && charAt line 2 != 'm' &&
    decide (rnd s.drawn % 100 < cfg.instRatio)

/-- `branches` writes a trampoline behind a branch that is selected. -/
theorem branches_eq (cfg : AsCfg) (rnd : Draws) (line : Text) (s : AsState) :
    ∃ loc, (branches cfg rnd line s).out =
        s.out ++ trampolineIf cfg loc (branchSelected cfg rnd line s) ∧
      (branches cfg rnd line s).insLines =
        s.insLines + BitVec.ofNat 32 (branchSelected cfg rnd line s).toNat ∧
      (branches cfg rnd line s).flags = s.flags := by
  -- wherever the branch is not selected, no trampoline is written, whatever else happens
  have hidle : branchSelected cfg rnd line s = false → ∀ s' : AsState,
      s'.out = s.out ∧ s'.insLines = s.insLines ∧ s'.flags = s.flags →
      ∃ loc, s'.out = s.out ++ trampolineIf cfg loc (branchSelected cfg rnd line s) ∧
        s'.insLines = s.insLines + BitVec.ofNat 32 (branchSelected cfg rnd line s).toNat ∧
        s'.flags = s.flags := by
    intro hsel s' hs'
    rw [hsel]
    exact ⟨0, by simpa [trampolineIf] using hs'.1, by simpa using hs'.2.1, hs'.2.2⟩
  unfold branches
  split
  case isTrue hskip =>
    apply hidle ?_ s ⟨rfl, rfl, rfl⟩
    simp only [Bool.or_eq_true, beq_iff_eq, Bool.not_eq_true'] at hskip
    rcases hskip with (hskip | hskip) | hskip
    · simp [branchSelected, hskip]
    · simp [branchSelected, hskip]
    · simp [branchSelected, hskip]
  case isFalse hgo =>
    simp only [Bool.or_eq_true, beq_iff_eq, Bool.not_eq_true', not_or,
      Bool.not_eq_false] at hgo
    split
    case isTrue htab =>
      split
      case isTrue hj =>
        obtain ⟨selected, hdraw, hsel⟩ := drawRatio_eq cfg rnd s
        cases selected with
        | true =>
          have hbranch : branchSelected cfg rnd line s = true := by
            rw [branchSelected, hgo.1.1, htab, ← hsel, Bool.and_true, Bool.true_and,
              Bool.true_and]
            exact hj
          simp only [hdraw, hbranch]
          exact ⟨_, rfl, rfl, rfl⟩
        | false =>
          simp only [hdraw]
          refine hidle ?_ { s with drawn := s.drawn + 1 } ⟨rfl, rfl, rfl⟩
          rw [branchSelected, ← hsel, Bool.and_false]
      case isFalse hj =>
        refine hidle ?_ s ⟨rfl, rfl, rfl⟩
        simp only [Bool.and_eq_true, not_and, Bool.not_eq_true] at hj
        by_cases h1 : (charAt line 1 == 'j') = true
        · simp [branchSelected, hj h1]
        · simp [branchSelected, h1]
    case isFalse htab =>
      refine hidle ?_ _ (labels_eq cfg rnd line s)
      simp [branchSelected, htab]

/-- The trampoline in front of a piece. -/
theorem insertDeferred_eq (cfg : AsCfg) (rnd : Draws) (line : Text) (s : AsState) :
    ∃ loc, (insertDeferred cfg rnd line s).out =
        s.out ++ trampolineIf cfg loc (insertsBefore cfg line s) ∧
      (insertDeferred cfg rnd line s).insLines =
        s.insLines + BitVec.ofNat 32 (insertsBefore cfg line s).toNat ∧
      (insertDeferred cfg rnd line s).drawn = s.drawn + (insertsBefore cfg line s).toNat ∧
      (insertDeferred cfg rnd line s).flags = s.flags := by
  unfold insertDeferred
  cases insertsBefore cfg line s with
  | true => exact ⟨_, rfl, rfl, rfl, rfl⟩
  | false => exact ⟨0, by simp [trampolineIf], by simp, rfl, rfl⟩

theorem jumpTable_eq (cfg : AsCfg) (line : Text) (s : AsState) :
    (jumpTable cfg line s).out = s.out ∧ (jumpTable cfg line s).insLines = s.insLines ∧
      (jumpTable cfg line s).drawn = s.drawn ∧ (jumpTable cfg line s).flags = s.flags := by
  unfold jumpTable
  split
  · exact ⟨rfl, rfl, rfl, rfl⟩
  · exact ⟨rfl, rfl, rfl, rfl⟩

/-- What a turn does. -/
theorem asTurn_spec (cfg : AsCfg) (rnd : Draws) (s : AsState) (piece : List U8) :
    Turn cfg rnd s piece (asTurn cfg rnd s piece) := by
  obtain ⟨loc, hout, hcount, hdrawn, hflags⟩ := insertDeferred_eq cfg rnd (lineOf piece) s
  unfold asTurn
  simp only
  -- The state with the piece written.
  generalize hs₁ : insertDeferred cfg rnd (lineOf piece) s = s₁ at hout hcount hdrawn hflags ⊢
  cases hpass : cfg.passThru with
  | true =>
    have hafter : insertsAfter cfg rnd (lineOf piece) s = false := by
      unfold insertsAfter
      split <;> simp [hpass]
    refine ⟨⟨loc, 0, ?_⟩, ?_, ?_⟩
    · simp [hafter, trampolineIf, hout]
    · simp [hafter, hcount]
    · simp [hpass, hflags]
  | false =>
    obtain ⟨hout₂, hcount₂, hdrawn₂, hflags₂⟩ :=
      jumpTable_eq cfg (lineOf piece) { s₁ with out := s₁.out ++ [.piece (cString piece)] }
    generalize jumpTable cfg (lineOf piece)
      { s₁ with out := s₁.out ++ [.piece (cString piece)] } = s₂
      at hout₂ hcount₂ hdrawn₂ hflags₂ ⊢
    rw [hout] at hout₂
    rw [hcount] at hcount₂
    rw [hdrawn] at hdrawn₂
    rw [hflags] at hflags₂
    simp only [Bool.false_eq_true, if_false, hflags₂]
    cases hdir : s.flags.directives cfg (lineOf piece) with
    | error f =>
      have hafter : insertsAfter cfg rnd (lineOf piece) s = false := by
        simp [insertsAfter, hdir]
      refine ⟨⟨loc, 0, ?_⟩, ?_, ?_⟩
      · simp [hafter, trampolineIf, hout₂]
      · simp [hafter, hcount₂]
      · simp [hpass, AsFlags.scan, hdir]
    | ok f =>
      obtain ⟨loc', hout', hcount', hflags'⟩ :=
        branches_eq cfg rnd (lineOf piece) { s₂ with flags := f }
      -- the draw for the branch comes behind the one for a trampoline in front
      have hafter : branchSelected cfg rnd (lineOf piece) { s₂ with flags := f } =
          insertsAfter cfg rnd (lineOf piece) s := by
        simp [branchSelected, insertsAfter, hdir, hpass, hdrawn₂]
      rw [hafter] at hout' hcount'
      refine ⟨⟨loc, loc', ?_⟩, ?_, ?_⟩
      · rw [hout', hout₂]
        simp
      · rw [hcount', hcount₂, BitVec.ofNat_add, BitVec.add_assoc]
      · rw [hflags']
        simp [hpass, AsFlags.scan, hdir]

/-! ### A run -/

/-- The bytes of the pieces among the output. -/
def piecesOf (out : List AsItem) : List U8 :=
  out.flatMap fun
    | .piece bytes => bytes
    | .trampoline _ _ | .payload _ => []

/-- Is it a trampoline? -/
def isTrampoline : AsItem → Bool
  | .trampoline _ _ => true
  | .piece _ | .payload _ => false

/-- Is it the payload? -/
def isPayload : AsItem → Bool
  | .payload _ => true
  | .piece _ | .trampoline _ _ => false

/-- The number of insertions that the rules of the code ask for, in a run over some pieces. -/
def places (cfg : AsCfg) (rnd : Draws) : AsState → List (List U8) → Nat
  | _, [] => 0
  | s, piece :: pieces =>
    (insertsBefore cfg (lineOf piece) s).toNat + (insertsAfter cfg rnd (lineOf piece) s).toNat +
      places cfg rnd (asTurn cfg rnd s piece) pieces

@[simp] theorem piecesOf_append (a b : List AsItem) :
    piecesOf (a ++ b) = piecesOf a ++ piecesOf b :=
  List.flatMap_append

@[simp] theorem piecesOf_piece (bytes : List U8) (l : List AsItem) :
    piecesOf (.piece bytes :: l) = bytes ++ piecesOf l := rfl

@[simp] theorem piecesOf_trampolineIf (cfg : AsCfg) (loc : Nat) (b : Bool) :
    piecesOf (trampolineIf cfg loc b) = [] := by
  cases b <;> rfl

@[simp] theorem countP_trampolineIf (cfg : AsCfg) (loc : Nat) (b : Bool) :
    (trampolineIf cfg loc b).countP isTrampoline = b.toNat := by
  cases b <;> rfl

theorem isPayload_of_mem_trampolineIf {loc : Nat} {b : Bool} {i : AsItem}
    (h : i ∈ trampolineIf cfg loc b) : isPayload i = false := by
  cases b with
  | false => cases h
  | true =>
    rw [List.mem_singleton.mp h]
    rfl

/-- What a run writes: the pieces in their order, as many trampolines as there are places for them,
and no payload. -/
theorem out_foldl (cfg : AsCfg) (rnd : Draws) (s : AsState) (pieces : List (List U8)) :
    ∃ body, (pieces.foldl (asTurn cfg rnd) s).out = s.out ++ body ∧
      piecesOf body = (pieces.map cString).flatten ∧
      body.countP isTrampoline = places cfg rnd s pieces ∧
      (∀ i ∈ body, isPayload i = false) ∧
      (pieces.foldl (asTurn cfg rnd) s).insLines =
        s.insLines + BitVec.ofNat 32 (places cfg rnd s pieces) := by
  induction pieces generalizing s with
  | nil => exact ⟨[], by simp, rfl, rfl, by simp, by simp [places]⟩
  | cons piece pieces ih =>
    obtain ⟨⟨loc, loc', hout⟩, hcount, -⟩ := asTurn_spec cfg rnd s piece
    obtain ⟨body, hbody, hpieces, htramp, hpay, hins⟩ := ih (asTurn cfg rnd s piece)
    refine ⟨trampolineIf cfg loc (insertsBefore cfg (lineOf piece) s) ++
      .piece (cString piece) :: trampolineIf cfg loc' (insertsAfter cfg rnd (lineOf piece) s) ++
        body, ?_, ?_, ?_, ?_, ?_⟩
    · rw [List.foldl_cons, hbody, hout, List.append_assoc]
    · simp [hpieces]
    · simp [htramp, places, isTrampoline]
      omega
    · intro i hi
      simp only [List.append_assoc, List.cons_append, List.mem_append, List.mem_cons] at hi
      rcases hi with hi | rfl | hi | hi
      · exact isPayload_of_mem_trampolineIf hi
      · rfl
      · exact isPayload_of_mem_trampolineIf hi
      · exact hpay i hi
    · rw [List.foldl_cons, hins, hcount, BitVec.add_assoc, ← BitVec.ofNat_add, places]

/-- Nothing is inserted in pass-through mode. -/
theorem places_of_passThru (hpass : cfg.passThru = true) (rnd : Draws) (s : AsState)
    (pieces : List (List U8)) : places cfg rnd s pieces = 0 := by
  induction pieces generalizing s with
  | nil => rfl
  | cons piece pieces ih =>
    have hbefore : insertsBefore cfg (lineOf piece) s = false := by
      simp [insertsBefore, hpass]
    have hafter : insertsAfter cfg rnd (lineOf piece) s = false := by
      unfold insertsAfter
      split <;> simp [hpass]
    rw [places, hbefore, hafter, ih]
    rfl

/-- A piece has two places for a trampoline, in front of it and behind it. -/
theorem places_le (cfg : AsCfg) (rnd : Draws) (s : AsState) (pieces : List (List U8)) :
    places cfg rnd s pieces ≤ 2 * pieces.length := by
  induction pieces generalizing s with
  | nil => exact Nat.le_refl 0
  | cons piece pieces ih =>
    have hrest := ih (asTurn cfg rnd s piece)
    have hbefore := Bool.toNat_le (insertsBefore cfg (lineOf piece) s)
    have hafter := Bool.toNat_le (insertsAfter cfg rnd (lineOf piece) s)
    rw [places, List.length_cons]
    omega

/-! ### The output file -/

/-- The output is the input with trampolines in it, and with the payload at its end exactly if there
is a trampoline. In pass-through mode there is none. -/
structure OnlyAdds (cfg : AsCfg) (input : List U8) (out : List AsItem) : Prop where
  same : piecesOf out = input
  payload : ∃ body : List AsItem, (∀ i ∈ body, isPayload i = false) ∧
    out = if body.any isTrampoline then body ++ [.payload cfg.use64] else body
  passThru : cfg.passThru = true → out.any isTrampoline = false

/-- The places for a trampoline in a file. -/
def placesIn (cfg : AsCfg) (rnd : Draws) (input : List U8) : Nat :=
  places cfg rnd {} (fileLines input.length input)

/-- A C string without a NUL in it is all of its buffer. -/
theorem cString_eq {buf : List U8} (h : 0 ∉ buf) : cString buf = buf := by
  rw [cString, List.takeWhile_eq_self_iff]
  intro b hb
  exact decide_eq_true fun hzero => h (hzero ▸ hb)

/-- The pieces that are written are the file. -/
theorem flatten_map_cString (hnul : 0 ∉ input) :
    ((fileLines input.length input).map cString).flatten = input := by
  have hflat := flatten_fileLines (Nat.le_refl input.length)
  have hmap : (fileLines input.length input).map cString = fileLines input.length input := by
    refine (List.map_congr_left ?_).trans (List.map_id _)
    intro piece hpiece
    apply cString_eq
    intro hzero
    apply hnul
    rw [← hflat]
    exact List.mem_flatten.mpr ⟨piece, hpiece, hzero⟩
  rw [hmap, hflat]

/-- What is written to the output file. -/
theorem addInstrumentation_eq (cfg : AsCfg) (rnd : Draws) (hnul : 0 ∉ input) :
    ∃ body, (∀ i ∈ body, isPayload i = false) ∧ piecesOf body = input ∧
      body.countP isTrampoline = placesIn cfg rnd input ∧
      addInstrumentation cfg rnd input =
        if placesIn cfg rnd input % 2 ^ 32 ≠ 0 then body ++ [.payload cfg.use64] else body := by
  obtain ⟨body, hout, hpieces, hcount, hpay, hins⟩ :=
    out_foldl cfg rnd {} (fileLines input.length input)
  refine ⟨body, hpay, hpieces.trans (flatten_map_cString hnul), hcount, ?_⟩
  have hzero : (asLoop cfg rnd input).insLines ≠ 0 ↔ placesIn cfg rnd input % 2 ^ 32 ≠ 0 := by
    rw [asLoop, hins, Ne, ← BitVec.toNat_inj]
    simp [placesIn]
  have hbody : (asLoop cfg rnd input).out = body := hout
  rw [addInstrumentation, hbody]
  simp only [hzero]

/-- If the counter comes back to zero, the payload is missing. -/
theorem not_onlyAdds_of_wrap (hnul : 0 ∉ input) (hplaces : placesIn cfg rnd input ≠ 0)
    (hwrap : placesIn cfg rnd input % 2 ^ 32 = 0) :
    ¬ OnlyAdds cfg input (addInstrumentation cfg rnd input) := by
  obtain ⟨body, hpay, -, hcount, hout⟩ := addInstrumentation_eq cfg rnd hnul
  have hany : body.any isTrampoline = true := by
    rwa [List.any_eq_true, ← List.countP_pos_iff, hcount, Nat.pos_iff_ne_zero]
  intro honly
  rw [if_neg (not_not_intro hwrap)] at hout
  obtain ⟨body', hpay', hout'⟩ := honly.payload
  rw [hout] at hout'
  split at hout'
  · -- The payload would be in the body.
    have hmem : AsItem.payload cfg.use64 ∈ body := by simp [hout']
    exact absurd (hpay _ hmem) (by simp [isPayload])
  · next hnone => exact hnone (hout' ▸ hany)

/-- Otherwise it is there if it is needed. -/
theorem onlyAdds_of_places (hnul : 0 ∉ input)
    (hplaces : placesIn cfg rnd input = 0 ∨ placesIn cfg rnd input % 2 ^ 32 ≠ 0) :
    OnlyAdds cfg input (addInstrumentation cfg rnd input) := by
  obtain ⟨body, hpay, hpieces, hcount, hout⟩ := addInstrumentation_eq cfg rnd hnul
  have hany : body.any isTrampoline = true ↔ placesIn cfg rnd input ≠ 0 := by
    rw [← hcount, ← Nat.pos_iff_ne_zero, List.countP_pos_iff, List.any_eq_true]
  have hsame : (placesIn cfg rnd input % 2 ^ 32 ≠ 0) ↔ body.any isTrampoline = true := by
    rw [hany]
    exact ⟨fun h hzero => h (by rw [hzero]; rfl), fun h => hplaces.resolve_left h⟩
  refine ⟨?_, ⟨body, hpay, ?_⟩, ?_⟩
  · rw [hout]
    split
    · rw [piecesOf_append, hpieces]
      exact List.append_nil _
    · exact hpieces
  · rw [hout]
    simp only [hsame]
  · intro hpass
    have hzero : placesIn cfg rnd input = 0 := places_of_passThru hpass rnd _ _
    rw [hout, hzero, if_neg (by simp)]
    rw [Bool.eq_false_iff, Ne, hany, hzero]
    simp

/-- afl-as only adds code, with the payload behind it exactly if there is a trampoline, unless the
number of places for trampolines is a positive multiple of `2 ^ 32`. -/
theorem only_adds_iff (cfg : AsCfg) (rnd : Draws) {input : List U8} (hnul : 0 ∉ input) :
    OnlyAdds cfg input (addInstrumentation cfg rnd input) ↔
      (placesIn cfg rnd input = 0 ∨ placesIn cfg rnd input % 2 ^ 32 ≠ 0) := by
  constructor
  · intro honly
    by_contra hwrap
    rw [not_or, not_not] at hwrap
    exact not_onlyAdds_of_wrap hnul hwrap.1 hwrap.2 honly
  · exact onlyAdds_of_places hnul

/-- The condition holds for a file that is read in fewer than `2 ^ 31` pieces. -/
theorem onlyAdds_of_few_pieces (cfg : AsCfg) (rnd : Draws) (hnul : 0 ∉ input)
    (hfew : (fileLines input.length input).length < 2 ^ 31) :
    OnlyAdds cfg input (addInstrumentation cfg rnd input) := by
  have hle : placesIn cfg rnd input ≤ 2 * (fileLines input.length input).length :=
    places_le cfg rnd {} _
  apply onlyAdds_of_places hnul
  omega

/-! ### A file of branches -/

/-- A text does not contain a pattern whose first character it does not have. -/
theorem contains_eq_false {pat : String} {ch : Char} (hpat : pat.toList.head? = some ch)
    (hline : ch ∉ line) : contains line pat = false := by
  obtain ⟨cs, hcs⟩ : ∃ cs, pat.toList = ch :: cs := by
    cases h : pat.toList with
    | nil => rw [h] at hpat; cases hpat
    | cons c cs =>
      rw [h] at hpat
      exact ⟨cs, by rw [Option.some.inj hpat]⟩
  rw [contains, hcs, Option.isSome_eq_false_iff, Option.isNone_iff_eq_none]
  induction line with
  | nil => rfl
  | cons c line ih =>
    rw [List.mem_cons, not_or] at hline
    rw [strstr, if_neg (by simp [hline.1]), ih hline.2]

/-- A conditional branch: an instruction that no directive pattern matches. -/
structure IsBranch (line : Text) : Prop where
  tab : charAt line 0 = '\t'
  jump : charAt line 1 = 'j'
  conditional : charAt line 2 ≠ 'm'
  noDot : '.' ∉ line
  noHash : '#' ∉ line

theorem IsBranch.directives (h : IsBranch line) (cfg : AsCfg) (f : AsFlags) :
    f.directives cfg line = .ok f := by
  have hsections : f.sections line = .ok f := by
    simp [AsFlags.sections, h.jump]
  have hdot : ∀ pat : String, pat.toList.head? = some '.' → contains line pat = false :=
    fun pat hpat => contains_eq_false hpat h.noDot
  have hwidth : f.codeWidth cfg line = f := by
    simp [AsFlags.codeWidth, hdot ".code" (by decide +kernel)]
  have hdialect : f.dialect line = f := by
    simp [AsFlags.dialect, hdot ".intel_syntax" (by decide +kernel),
      hdot ".att_syntax" (by decide +kernel)]
  have happ : f.appBlock line = f := by
    simp [AsFlags.appBlock, h.tab, h.jump]
  rw [AsFlags.directives, hsections]
  show Except.ok (((f.codeWidth cfg line).dialect line).appBlock line) = _
  rw [hwidth, hdialect, happ]

/-- In a section of code, with no label waiting, there is a trampoline behind a branch. -/
theorem IsBranch.inserts (h : IsBranch line) (rnd : Draws) (hpass : cfg.passThru = false)
    (hratio : cfg.instRatio = 100) (hflags : s.flags.eligible = true)
    (hnext : s.instrumentNext = false) :
    insertsBefore cfg line s = false ∧ insertsAfter cfg rnd line s = true := by
  constructor
  · simp [insertsBefore, hnext]
  · have hdraw : rnd (s.drawn + (insertsBefore cfg line s).toNat) % 100 < 100 :=
      Nat.mod_lt _ (by decide)
    simp [insertsAfter, h.directives, hpass, hflags, h.tab, h.jump, h.conditional, hratio, hdraw]

/-- An instruction makes no label wait. -/
theorem instrumentNext_branches (htab : charAt line 0 = '\t') :
    (branches cfg rnd line s).instrumentNext = s.instrumentNext := by
  obtain ⟨selected, hdraw, -⟩ := drawRatio_eq cfg rnd s
  unfold branches
  split
  · rfl
  · rw [if_pos (by simp [htab])]
    split
    · simp only [hdraw]
      cases selected <;> rfl
    · rfl

theorem instrumentNext_asTurn {piece : List U8} (htab : charAt (lineOf piece) 0 = '\t')
    (hnext : s.instrumentNext = false) :
    (asTurn cfg rnd s piece).instrumentNext = false := by
  have hdeferred : (insertDeferred cfg rnd (lineOf piece) s).instrumentNext = false := by
    unfold insertDeferred
    split
    · rfl
    · exact hnext
  have hjump : ∀ s : AsState,
      (jumpTable cfg (lineOf piece) s).instrumentNext = s.instrumentNext := by
    intro s
    unfold jumpTable
    split
    · rfl
    · rfl
  unfold asTurn
  simp only
  split
  · exact hdeferred
  · split
    · exact (hjump _).trans hdeferred
    · rw [instrumentNext_branches htab]
      exact (hjump _).trans hdeferred

/-- The directive `.text`, and a conditional branch. -/
def textLine : List U8 := [9, 46, 116, 101, 120, 116, 10]

@[inherit_doc textLine] def branchLine : List U8 := [9, 106, 10]

theorem directives_textLine :
    AsFlags.directives {} (lineOf textLine) {} = .error { instrOk := true } := by
  rfl

theorem newline_notMem_text : ∀ b ∈ ([9, 46, 116, 101, 120, 116] : List U8), charOf b ≠ '\n' := by
  decide +kernel

/-- A file with `n` branches. -/
def branchFile (n : Nat) : List U8 := textLine ++ (List.replicate n branchLine).flatten

theorem completeLines_branchFile (n : Nat) :
    completeLines (branchFile n) = textLine :: List.replicate n branchLine := by
  have hbranches : completeLines (List.replicate n branchLine).flatten =
      List.replicate n branchLine := by
    induction n with
    | zero => rfl
    | succ n ih =>
      rw [List.replicate_succ, List.flatten_cons]
      show completeLines ([9, 106] ++ 10 :: (List.replicate n branchLine).flatten) = _
      rw [completeLines_append (by decide +kernel), ih]
      rfl
  show completeLines
    ([9, 46, 116, 101, 120, 116] ++ 10 :: (List.replicate n branchLine).flatten) = _
  rw [completeLines_append newline_notMem_text, hbranches]
  rfl

/-- There is a trampoline behind each branch. -/
theorem places_replicate (hpass : cfg.passThru = false) (hratio : cfg.instRatio = 100)
    (hflags : s.flags.eligible = true) (hnext : s.instrumentNext = false) (n : Nat) :
    places cfg rnd s (List.replicate n branchLine) = n := by
  have hbranch : IsBranch (lineOf branchLine) :=
    ⟨by decide, by decide, by decide, by decide, by decide⟩
  induction n generalizing s with
  | zero => rfl
  | succ n ih =>
    obtain ⟨hbefore, hafter⟩ := hbranch.inserts rnd hpass hratio hflags hnext
    have hflags' : (asTurn cfg rnd s branchLine).flags = s.flags := by
      rw [(asTurn_spec cfg rnd s branchLine).flags, hpass]
      simp [AsFlags.scan, hbranch.directives]
    rw [List.replicate_succ, places, hbefore, hafter,
      ih (by rwa [hflags']) (instrumentNext_asTurn hbranch.tab hnext)]
    simp
    omega

theorem placesIn_branchFile (rnd : Draws) (n : Nat) : placesIn {} rnd (branchFile n) = n := by
  have hfits : ∀ line ∈ completeLines (branchFile n), line.length ≤ MAX_LINE - 1 := by
    rw [completeLines_branchFile]
    intro line hline
    rcases List.mem_cons.mp hline with rfl | hline
    · decide
    · rw [List.eq_of_mem_replicate hline]
      decide
  have hflags : (asTurn {} rnd {} textLine).flags = { instrOk := true } := by
    rw [(asTurn_spec {} rnd {} textLine).flags]
    simp [AsFlags.scan, directives_textLine]
  have hbranches : places {} rnd (asTurn {} rnd {} textLine) (List.replicate n branchLine) = n :=
    places_replicate rfl rfl (by rw [hflags]; rfl) (instrumentNext_asTurn (by decide) rfl) n
  rw [placesIn, fileLines_eq_completeLines le_rfl hfits, completeLines_branchFile, places,
    hbranches]
  simp [insertsBefore, insertsAfter, directives_textLine]

theorem zero_notMem_branchFile (n : Nat) : 0 ∉ branchFile n := by
  intro h
  rcases List.mem_append.mp h with h | h
  · exact absurd h (by decide)
  · obtain ⟨line, hline, hzero⟩ := List.mem_flatten.mp h
    rw [List.eq_of_mem_replicate hline] at hzero
    exact absurd hzero (by decide)

/-- The condition holds for a file with three branches, each of which gets its trampoline. -/
theorem only_adds_iff_three_branches :
    placesIn {} (fun _ => 0) (branchFile 3) = 3 ∧
      OnlyAdds {} (branchFile 3) (addInstrumentation {} (fun _ => 0) (branchFile 3)) := by
  have hplaces := placesIn_branchFile (fun _ => 0) 3
  refine ⟨hplaces, (only_adds_iff {} _ (zero_notMem_branchFile 3)).mpr (Or.inr ?_)⟩
  rw [hplaces]
  decide

/-- A file with `2 ^ 32` branches gets as many trampolines and no payload. -/
theorem branch_file_lacks_payload :
    ¬ OnlyAdds {} (branchFile (2 ^ 32))
        (addInstrumentation {} (fun _ => 0) (branchFile (2 ^ 32))) := by
  have hplaces := placesIn_branchFile (fun _ => 0) (2 ^ 32)
  apply not_onlyAdds_of_wrap (zero_notMem_branchFile _)
  · rw [hplaces]
    decide
  · rw [hplaces]
    exact Nat.mod_self _

end TriforceAFL.Proofs
