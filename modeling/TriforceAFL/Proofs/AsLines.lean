import TriforceAFL.Proofs.AsOutput

/-!
# `TriforceAFL.Proofs.AsLines`: where afl-as puts its trampolines

A trampoline should stand between two lines of the input, at a place where the directives in the
lines before it allow code to be inserted (`WholeLines`). The code looks at pieces and not at lines.
If all lines of an input fit in the buffer of `fgets`, a piece is a line, and each insertion is
checked with the flags that the lines before it have set (`insertions_foldl`). In pass-through mode
nothing is inserted. So the input is handled as it should be in both cases (`whole_lines_of_fits`).

A line that is one byte longer can be a branch that is split in front of its newline, and then the
trampoline is inside the line (`long_branch_is_split`). So no larger bound on the length of the
lines would do (`whole_lines_iff`). Not every long line does harm: a long comment is split as well.
-/

set_option autoImplicit false

namespace TriforceAFL.Proofs

open Lib Spec

/-! ### Insertion points -/

/-- The bytes of the input in front of each trampoline, if `done` was written before. -/
def insertionPoints : List U8 → List AsItem → List (List U8)
  | _, [] => []
  | done, .piece bytes :: out => insertionPoints (done ++ bytes) out
  | done, .trampoline _ _ :: out => done :: insertionPoints done out
  | done, .payload _ :: out => insertionPoints done out

theorem insertionPoints_append (done : List U8) (a b : List AsItem) :
    insertionPoints done (a ++ b) =
      insertionPoints done a ++ insertionPoints (done ++ piecesOf a) b := by
  induction a generalizing done with
  | nil => simp [insertionPoints, piecesOf]
  | cons i a ih =>
    cases i with
    | piece bytes =>
      rw [List.cons_append, insertionPoints, insertionPoints, ih, piecesOf_piece,
        List.append_assoc]
    | trampoline use64 loc =>
      rw [List.cons_append, insertionPoints, insertionPoints, ih, List.cons_append]
      rfl
    | payload use64 =>
      rw [List.cons_append, insertionPoints, insertionPoints, ih]
      rfl

/-- The flags after the directives of some lines. -/
def flagsAfter (cfg : AsCfg) (f : AsFlags) (lines : List (List U8)) : AsFlags :=
  lines.foldl (fun f line => AsFlags.scan cfg (lineOf line) f) f

/-- A place behind some of the lines, where their directives allow code. -/
def EligibleAt (cfg : AsCfg) (f : AsFlags) (done : List U8) (lines : List (List U8))
    (point : List U8) : Prop :=
  ∃ k, point = done ++ (lines.take k).flatten ∧ (flagsAfter cfg f (lines.take k)).eligible = true

/-- The points that a turn adds. -/
theorem insertionPoints_trampolineIf {cfg : AsCfg} {loc : Nat} {b : Bool} {done point : List U8}
    (h : point ∈ insertionPoints done (trampolineIf cfg loc b)) : b = true ∧ point = done := by
  cases b with
  | false => cases h
  | true => exact ⟨rfl, List.mem_singleton.mp h⟩

/-- In a run over whole lines, every insertion is behind some of them, and their directives allow
it. -/
theorem insertions_foldl {cfg : AsCfg} (hpass : cfg.passThru = false) (rnd : Draws) (s : AsState)
    (done : List U8) {lines : List (List U8)} (hnul : ∀ line ∈ lines, 0 ∉ line) :
    ∃ body, (lines.foldl (asTurn cfg rnd) s).out = s.out ++ body ∧
      ∀ point ∈ insertionPoints done body, EligibleAt cfg s.flags done lines point := by
  induction lines generalizing s done with
  | nil => exact ⟨[], by simp, by simp [insertionPoints]⟩
  | cons line lines ih =>
    obtain ⟨hline, hlines⟩ := List.forall_mem_cons.mp hnul
    obtain ⟨⟨loc, loc', hout⟩, -, hflags⟩ := asTurn_spec cfg rnd s line
    obtain ⟨body, hbody, hpoints⟩ := ih (asTurn cfg rnd s line) (done ++ line) hlines
    refine ⟨trampolineIf cfg loc (insertsBefore cfg (lineOf line) s) ++
      (.piece (cString line) :: trampolineIf cfg loc' (insertsAfter cfg rnd (lineOf line) s) ++
        body), ?_, ?_⟩
    · rw [List.foldl_cons, hbody, hout]
      simp
    · intro point hpoint
      rw [insertionPoints_append, List.mem_append, piecesOf_trampolineIf, List.append_nil,
        cString_eq hline, List.cons_append, insertionPoints, insertionPoints_append,
        List.mem_append, piecesOf_trampolineIf, List.append_nil] at hpoint
      rcases hpoint with hpoint | hpoint | hpoint
      · -- In front of the line: the flags are those of the lines before it.
        obtain ⟨hbefore, rfl⟩ := insertionPoints_trampolineIf hpoint
        refine ⟨0, by simp, ?_⟩
        simp only [insertsBefore, Bool.and_eq_true] at hbefore
        exact hbefore.1.1.1.2
      · -- Behind it: the code has looked at its directives by then.
        obtain ⟨hafter, rfl⟩ := insertionPoints_trampolineIf hpoint
        refine ⟨1, by simp, ?_⟩
        show (AsFlags.scan cfg (lineOf line) s.flags).eligible = true
        unfold insertsAfter at hafter
        unfold AsFlags.scan
        split at hafter
        · cases hafter
        · next f hdir =>
            simp only [Bool.and_eq_true] at hafter
            exact hafter.1.1.1.1.2
      · obtain ⟨k, rfl, hok⟩ := hpoints point hpoint
        refine ⟨k + 1, by simp, ?_⟩
        rw [hflags, hpass] at hok
        exact hok

/-! ### Whole lines -/

/-- Every trampoline is between two lines, and there the directives in the lines before it allow
code: the section is one of code, and no `#APP` block, Intel block or block of the other width is
open. -/
def WholeLines (cfg : AsCfg) (input : List U8) (out : List AsItem) : Prop :=
  ∀ before use64 loc after, out = before ++ .trampoline use64 loc :: after →
    ∃ k, piecesOf before = ((completeLines input).take k).flatten ∧
      (flagsAfter cfg {} ((completeLines input).take k)).eligible = true

theorem mem_insertionPoints {before after : List AsItem} {use64 : Bool} {loc : Nat} :
    piecesOf before ∈ insertionPoints [] (before ++ .trampoline use64 loc :: after) := by
  rw [insertionPoints_append, List.mem_append]
  exact Or.inr List.mem_cons_self

/-- Pass-through mode writes no trampoline. -/
theorem wholeLines_of_passThru {cfg : AsCfg} (hpass : cfg.passThru = true) (rnd : Draws)
    {input : List U8} (hnul : 0 ∉ input) :
    WholeLines cfg input (addInstrumentation cfg rnd input) := by
  intro before use64 loc after hout
  have hnone := (onlyAdds_of_places hnul
    (Or.inl (places_of_passThru hpass rnd _ _))).passThru hpass
  rw [hout] at hnone
  simp [isTrampoline] at hnone

/-- The lines of the input fit in `fgets`'s buffer. -/
theorem wholeLines_of_fits (cfg : AsCfg) (rnd : Draws) {input : List U8} (hnul : 0 ∉ input)
    (hfits : ∀ line ∈ completeLines input, line.length ≤ MAX_LINE - 1) :
    WholeLines cfg input (addInstrumentation cfg rnd input) := by
  cases hpass : cfg.passThru with
  | true => exact wholeLines_of_passThru hpass rnd hnul
  | false =>
    intro before use64 loc after hout
    have hnul' : ∀ line ∈ completeLines input, 0 ∉ line := by
      intro line hline hzero
      apply hnul
      rw [← flatten_completeLines input]
      exact List.mem_flatten.mpr ⟨line, hline, hzero⟩
    obtain ⟨body, hbody, hpoints⟩ := insertions_foldl hpass rnd {} [] hnul'
    have hloop : (asLoop cfg rnd input).out = body := by
      rw [asLoop, fileLines_eq_completeLines le_rfl hfits, hbody]
      rfl
    -- The payload adds no insertion point.
    have hsame : insertionPoints [] (addInstrumentation cfg rnd input) =
        insertionPoints [] body := by
      rw [addInstrumentation, hloop]
      split
      · rw [insertionPoints_append]
        exact List.append_nil _
      · rfl
    have hmem : piecesOf before ∈ insertionPoints [] body := by
      rw [← hsame, hout]
      exact mem_insertionPoints
    exact hpoints _ hmem

/-- All trampolines of an input are between lines of eligible code, if afl-as runs in pass-through
mode or if each line of the input, newline included, is shorter than the buffer of `fgets`. -/
theorem whole_lines_of_fits (cfg : AsCfg) (rnd : Draws) {input : List U8} (hnul : 0 ∉ input)
    (h : cfg.passThru = true ∨ ∀ line ∈ completeLines input, line.length < MAX_LINE) :
    WholeLines cfg input (addInstrumentation cfg rnd input) := by
  rcases h with hpass | hfits
  · exact wholeLines_of_passThru hpass rnd hnul
  · exact wholeLines_of_fits cfg rnd hnul fun line hline => Nat.le_sub_one_of_lt (hfits line hline)

/-- A file with two branches, and a directive that ends the section in front of the third one. -/
def dataFile : List U8 := branchFile 2 ++ [9, 46, 100, 97, 116, 97, 10] ++ branchLine

/-- Only the first two get a trampoline, each behind its line. -/
theorem whole_lines_of_fits_dataFile :
    (addInstrumentation {} (fun _ => 0) dataFile).countP isTrampoline = 2 ∧
      WholeLines {} dataFile (addInstrumentation {} (fun _ => 0) dataFile) :=
  ⟨by decide +kernel, whole_lines_of_fits {} _ (by decide) (Or.inr (by decide))⟩

/-! ### A line that is too long -/

/-- A branch, without its newline, that fills the buffer. -/
structure FillsBuffer (buf : List U8) : Prop where
  length_eq : buf.length = MAX_LINE - 1
  noNewline : ∀ b ∈ buf, charOf b ≠ '\n'
  noNul : 0 ∉ buf
  branch : IsBranch (lineOf buf)

/-- The directive `.text`, and a line. -/
def codeFile (buf : List U8) : List U8 := textLine ++ (buf ++ [10])

namespace FillsBuffer

variable {buf : List U8} (h : FillsBuffer buf)

include h

/-- The lines of the file. -/
theorem completeLines_codeFile : completeLines (codeFile buf) = [textLine, buf ++ [10]] := by
  show completeLines ([9, 46, 116, 101, 120, 116] ++ 10 :: (buf ++ [10])) = _
  rw [completeLines_append newline_notMem_text, completeLines_append h.noNewline]
  rfl

/-- The pieces that `fgets` makes of them. -/
theorem fileLines_codeFile :
    fileLines (codeFile buf).length (codeFile buf) = [textLine, buf, [10]] := by
  obtain ⟨fuel, hlen⟩ : ∃ fuel, (codeFile buf).length = fuel + 1 + 1 + 1 :=
    ⟨buf.length + 5, by simp [codeFile, textLine]⟩
  have htext : fgets (MAX_LINE - 1) (codeFile buf) = (textLine, buf ++ [10]) := by
    rw [fgets_of_fits h.completeLines_codeFile (by decide)]
    simp
  have hbuf : fgets (MAX_LINE - 1) (buf ++ [10]) = (buf, [10]) := by
    rw [← h.length_eq]
    exact fgets_full h.noNewline [10]
  have hrest : fgets (MAX_LINE - 1) [10] = ([10], []) := rfl
  rw [hlen, fileLines_succ _ (by simp [codeFile, textLine]), htext, fileLines_succ _ (by simp),
    hbuf, fileLines_succ _ (by simp), hrest]
  cases fuel <;> rfl

/-- The trampoline of the branch stands in front of its newline. -/
theorem addInstrumentation_codeFile (rnd : Draws) : ∃ loc after,
    addInstrumentation {} rnd (codeFile buf) =
      [AsItem.piece textLine, AsItem.piece buf] ++ AsItem.trampoline true loc :: after := by
  obtain ⟨⟨loc, loc', hout₁⟩, -, hflags₁⟩ := asTurn_spec {} rnd {} textLine
  have hnext₁ : (asTurn {} rnd {} textLine).instrumentNext = false :=
    instrumentNext_asTurn (by decide) rfl
  have hloop : asLoop {} rnd (codeFile buf) =
      asTurn {} rnd (asTurn {} rnd (asTurn {} rnd {} textLine) buf) [10] := by
    rw [asLoop, h.fileLines_codeFile]
    rfl
  generalize asTurn {} rnd {} textLine = s₁ at hout₁ hflags₁ hnext₁ hloop
  obtain ⟨⟨loc₂, loc₂', hout₂⟩, -, -⟩ := asTurn_spec {} rnd s₁ buf
  generalize asTurn {} rnd s₁ buf = s₂ at hout₂ hloop
  obtain ⟨⟨loc₃, loc₃', hout₃⟩, -, -⟩ := asTurn_spec {} rnd s₂ [10]
  have hstart : s₁.out = [.piece textLine] := by
    rw [hout₁]
    simp [insertsBefore, insertsAfter, directives_textLine, trampolineIf]
    decide
  have hflags : s₁.flags.eligible = true := by
    rw [hflags₁]
    simp [AsFlags.scan, directives_textLine, AsFlags.eligible]
  obtain ⟨hbefore, hafter⟩ : insertsBefore {} (lineOf buf) s₁ = false ∧
      insertsAfter {} rnd (lineOf buf) s₁ = true := h.branch.inserts rnd rfl rfl hflags hnext₁
  rw [hbefore, hafter, hstart, cString_eq h.noNul] at hout₂
  have hs₂ : s₂.out = [.piece textLine, .piece buf] ++ [.trampoline true loc₂'] := hout₂
  rw [hs₂, List.append_assoc] at hout₃
  rw [addInstrumentation, hloop, hout₃]
  split
  · rw [List.append_assoc]
    exact ⟨_, _, rfl⟩
  · exact ⟨_, _, rfl⟩

/-- That is in the middle of a line. -/
theorem not_wholeLines (rnd : Draws) :
    ¬ WholeLines {} (codeFile buf) (addInstrumentation {} rnd (codeFile buf)) := by
  obtain ⟨loc, after, hout⟩ := h.addInstrumentation_codeFile rnd
  intro hwhole
  obtain ⟨k, hk, -⟩ := hwhole _ _ _ _ hout
  have hlen := congrArg List.length hk
  have hpos : 0 < buf.length := by
    rw [h.length_eq]
    decide
  rw [h.completeLines_codeFile] at hlen
  match k with
  | 0 => simp [piecesOf, textLine] at hlen
  | 1 =>
    simp [piecesOf] at hlen
    simp [hlen] at hpos
  | k + 2 => simp [piecesOf] at hlen

end FillsBuffer

/-- A branch with a long operand. -/
def longBranch : List U8 := 9 :: 106 :: List.replicate (MAX_LINE - 3) 97

theorem fillsBuffer_longBranch : FillsBuffer longBranch := by
  have hmem : ∀ b ∈ longBranch, b = 9 ∨ b = 106 ∨ b = 97 := by
    intro b hb
    rcases List.mem_cons.mp hb with hb | hb
    · exact Or.inl hb
    · rcases List.mem_cons.mp hb with hb | hb
      · exact Or.inr (Or.inl hb)
      · exact Or.inr (Or.inr (List.eq_of_mem_replicate hb))
  have hnul : 0 ∉ longBranch := by
    intro hzero
    rcases hmem 0 hzero with h | h | h <;> exact absurd h (by decide)
  have hline : lineOf longBranch = '\t' :: 'j' :: List.replicate (MAX_LINE - 3) 'a' := by
    rw [lineOf, cString_eq hnul, longBranch, List.map_cons, List.map_cons, List.map_replicate]
    rfl
  have hchars : ∀ c ∈ lineOf longBranch, c = '\t' ∨ c = 'j' ∨ c = 'a' := by
    rw [hline]
    intro c hc
    rcases List.mem_cons.mp hc with hc | hc
    · exact Or.inl hc
    · rcases List.mem_cons.mp hc with hc | hc
      · exact Or.inr (Or.inl hc)
      · exact Or.inr (Or.inr (List.eq_of_mem_replicate hc))
  refine ⟨?_, ?_, hnul, ⟨by rw [hline]; rfl, by rw [hline]; rfl, by rw [hline]; decide, ?_, ?_⟩⟩
  · have hmax : 3 ≤ MAX_LINE := by decide
    rw [longBranch, List.length_cons, List.length_cons, List.length_replicate]
    omega
  · intro b hb
    rcases hmem b hb with rfl | rfl | rfl <;> decide
  · intro hdot
    rcases hchars _ hdot with h | h | h <;> exact absurd h (by decide)
  · intro hhash
    rcases hchars _ hhash with h | h | h <;> exact absurd h (by decide)

/-- A line of 8192 bytes, newline included, gets a trampoline in front of the newline. -/
theorem long_branch_is_split :
    ¬ WholeLines {} (codeFile longBranch)
      (addInstrumentation {} (fun _ => 0) (codeFile longBranch)) :=
  fillsBuffer_longBranch.not_wholeLines _

/-- A bound on the lines, newlines included, is enough for all inputs if and only if lines within
the bound fit in the buffer of `fgets`. -/
theorem whole_lines_iff (bound : Nat) :
    (∀ (cfg : AsCfg) (rnd : Draws) (input : List U8), 0 ∉ input →
        (∀ line ∈ completeLines input, line.length ≤ bound) →
        WholeLines cfg input (addInstrumentation cfg rnd input)) ↔
      bound < MAX_LINE := by
  constructor
  · intro hall
    by_contra hbound
    have hfills := fillsBuffer_longBranch
    generalize longBranch = buf at hfills
    have hnul : 0 ∉ codeFile buf := by
      intro hzero
      rcases List.mem_append.mp hzero with h | h
      · exact absurd h (by decide)
      · rcases List.mem_append.mp h with h | h
        · exact hfills.noNul h
        · exact absurd h (by decide)
    have hlines : ∀ line ∈ completeLines (codeFile buf), line.length ≤ bound := by
      have hpos : 0 < MAX_LINE := by decide
      rw [hfills.completeLines_codeFile]
      intro line hline
      rcases List.mem_cons.mp hline with rfl | hline
      · exact le_trans (by decide) (Nat.le_of_not_lt hbound)
      · rw [List.mem_singleton.mp hline, List.length_append, hfills.length_eq,
          List.length_singleton]
        omega
    exact hfills.not_wholeLines (fun _ => 0) (hall {} _ _ hnul hlines)
  · intro hbound cfg rnd input hnul hfits
    exact wholeLines_of_fits cfg rnd hnul fun line hline =>
      (hfits line hline).trans (Nat.le_sub_one_of_lt hbound)

end TriforceAFL.Proofs
