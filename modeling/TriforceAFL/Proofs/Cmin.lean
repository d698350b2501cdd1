import Mathlib.Data.Char
import Mathlib.Data.List.Lex
import Mathlib.Data.List.Nodup
import TriforceAFL.Lib.Cover
import TriforceAFL.Proofs.Showmap
import TriforceAFL.Spec.Cmin

/-!
# `TriforceAFL.Proofs.Cmin`: afl-cmin keeps the coverage

The proof follows the steps of the script.

* A class has one digit, so a line determines its tuple (`line_injective`), and so does the number
  that the shell reads from it as an array subscript (`subscript_line_injective`).
* A trace file is the lines of the tuples that were hit (`traceText_eq_lines`).
* `.all_uniq` has exactly the tuples of all traces (`mem_tuplesOf`).
* `BEST_FILE` has for each of them a smallest file whose trace contains it (`exists_best`): the
  candidates are in the order of file sizes, and `sort -s -u` keeps the first of each tuple.
* The loop of step 5 is `greedyCover` on the tuples, the traces and `BEST_FILE`
  (`copied_foldl`): what is in `.already_have` is what the copied files cover.

`cmin_covers` puts them together.
-/

set_option autoImplicit false

namespace TriforceAFL.Proofs

open Lib Spec Proofs.Showmap

variable {p : TracePair} {line : Text}

/-! ### Lines -/

theorem padDec_zero (n : Nat) : padDec 0 n = Nat.toDigits 10 n := by
  simp [padDec, List.leftpad]

/-- A line is the digit of the class, and then the index. -/
theorem line_eq (p : TracePair) : p.line = p.cls.digitChar :: padDec 0 p.index := by
  have hcls : p.cls < 10 := Nat.lt_of_le_of_lt p.cls_le (by decide)
  rw [TracePair.line, padDec_zero, Nat.toDigits_of_lt_base hcls, List.singleton_append]

theorem isDigit_of_mem_line {ch : Char} (h : ch ∈ p.line) : ch.isDigit = true := by
  rcases List.mem_append.mp h with h | h
  · exact isDigit_of_mem_padDec h
  · exact isDigit_of_mem_padDec h

/-- The value of a line as a number. -/
theorem ofDigitChars_line (p : TracePair) :
    Nat.ofDigitChars 10 p.line 0 = 10 ^ (padDec 0 p.index).length * p.cls + p.index := by
  rw [TracePair.line, Nat.ofDigitChars_append, ofDigitChars_padDec,
    Nat.ofDigitChars_eq_ofDigitChars_zero, ofDigitChars_padDec]

/-- The number that the shell reads. The class is not zero, so it is decimal. -/
theorem subscript_line (p : TracePair) : subscript p.line = Nat.ofDigitChars 10 p.line 0 := by
  have hdigit : ∀ n, 1 ≤ n → n ≤ 8 → n.digitChar ≠ '0' := by decide
  have hne := hdigit p.cls p.cls_pos p.cls_le
  rw [line_eq]
  unfold subscript
  split
  · next heq => exact absurd (List.cons.inj heq).1 hne
  · rfl

/-- The number of digits behind the first one can be seen from the value. -/
theorem digits_le_of_value_eq {k l a b m n : Nat} (ha : a < 10) (hb : 1 ≤ b) (hm : m < 10 ^ k)
    (h : 10 ^ k * a + m = 10 ^ l * b + n) : l ≤ k := by
  by_contra hlt
  have hpow : 10 ^ (k + 1) ≤ 10 ^ l := Nat.pow_le_pow_right (by decide) (by omega)
  have hlow : 10 ^ l ≤ 10 ^ l * b := Nat.le_mul_of_pos_right _ hb
  have hhigh : 10 ^ k * a ≤ 10 ^ k * 9 := Nat.mul_le_mul_left _ (by omega)
  rw [Nat.pow_succ] at hpow
  omega

/-- The subscript determines the tuple. -/
theorem subscript_line_injective {p q : TracePair} (h : subscript p.line = subscript q.line) :
    p = q := by
  have hlt : ∀ r : TracePair, r.index < 10 ^ (padDec 0 r.index).length := by
    intro r
    rw [padDec_zero]
    exact (Nat.length_toDigits_le_iff (by decide) Nat.length_toDigits_pos).mp le_rfl
  have hp := hlt p
  have hq := hlt q
  rw [subscript_line, subscript_line, ofDigitChars_line, ofDigitChars_line] at h
  have hpcls : p.cls < 10 := Nat.lt_of_le_of_lt p.cls_le (by decide)
  have hqcls : q.cls < 10 := Nat.lt_of_le_of_lt q.cls_le (by decide)
  have hlen : (padDec 0 p.index).length = (padDec 0 q.index).length :=
    le_antisymm (digits_le_of_value_eq hqcls p.cls_pos hq h.symm)
      (digits_le_of_value_eq hpcls q.cls_pos hp h)
  rw [hlen] at h hp
  -- Division by the power of ten gives the class, and the remainder is the index.
  have hcls : p.cls = q.cls := by
    have hdiv := congrArg (· / 10 ^ (padDec 0 q.index).length) h
    have hpos : 0 < 10 ^ (padDec 0 q.index).length := Nat.pow_pos (by decide)
    simpa only [Nat.mul_add_div hpos, Nat.div_eq_of_lt hp, Nat.div_eq_of_lt hq,
      Nat.add_zero] using hdiv
  have hindex : p.index = q.index := by
    rw [hcls] at h
    exact Nat.add_left_cancel h
  cases p
  cases q
  simp_all

/-- The line determines the tuple. -/
theorem line_injective {p q : TracePair} (h : p.line = q.line) : p = q :=
  subscript_line_injective (congrArg subscript h)

/-! ### Trace files -/

theorem isBlank_of_isDigit {ch : Char} (h : ch.isDigit = true) : isBlank ch = false := by
  have hspace := isSpace_of_isDigit h
  simp only [isSpace, isBlank, Bool.or_eq_false_iff] at hspace ⊢
  tauto

theorem not_isBlank_of_mem_line {ch : Char} (h : ch ∈ p.line) :
    isBlank ch = false := isBlank_of_isDigit (isDigit_of_mem_line h)

/-! ### Step 2 -/

/-- `uniq` drops repetitions only. -/
theorem mem_uniqCounts {lines : List Text} :
    line ∈ (uniqCounts lines).map Prod.snd ↔ line ∈ lines := by
  induction lines with
  | nil => simp [uniqCounts]
  | cons a lines ih =>
    rw [List.mem_cons, ← ih, uniqCounts]
    split
    · next n b rest hrec =>
        rw [hrec]
        split
        · next heq => simp [heq]
        · simp
    · next hrec => simp [hrec]

/-- `read` takes the count of `uniq -c` off again. -/
theorem readTuple_uniqLine (n : Nat) (p : TracePair) : readTuple (uniqLine n p.line) = p.line := by
  have hdigits : ∀ ch ∈ Nat.toDigits 10 n, isBlank ch = false := fun ch hch =>
    isBlank_of_isDigit (Nat.isDigit_of_mem_toDigits (by decide) (by decide) hch)
  -- The padding goes first, then the count, then the blank in between.
  have hcount : (uniqLine n p.line).dropWhile isBlank = Nat.toDigits 10 n ++ ' ' :: p.line := by
    rw [uniqLine, List.leftpad, List.append_assoc, List.dropWhile_append_of_pos]
    · cases hds : Nat.toDigits 10 n with
      | nil => exact absurd hds Nat.toDigits_ne_nil
      | cons d ds =>
        rw [hds] at hdigits
        simp [hdigits d List.mem_cons_self]
    · intro ch hch
      rw [List.eq_of_mem_replicate hch]
      rfl
  have hrest : (Nat.toDigits 10 n ++ ' ' :: p.line).dropWhile (fun ch => !isBlank ch) =
      ' ' :: p.line := by
    rw [List.dropWhile_append_of_pos fun ch hch => by simp [hdigits ch hch]]
    rfl
  have hline : (' ' :: p.line).dropWhile isBlank = p.line := by
    rw [List.dropWhile_cons_of_pos rfl, line_eq]
    rw [List.dropWhile_cons_of_neg]
    have hmem : p.cls.digitChar ∈ p.line := by simp [line_eq]
    simp [not_isBlank_of_mem_line hmem]
  have hend : p.line.reverse.dropWhile isBlank = p.line.reverse := by
    cases hrev : p.line.reverse with
    | nil => rfl
    | cons ch rest =>
      have hmem : ch ∈ p.line := by
        rw [← List.mem_reverse, hrev]
        exact List.mem_cons_self
      exact List.dropWhile_cons_of_neg (by simp [not_isBlank_of_mem_line hmem])
  rw [readTuple, hcount, hrest, hline, hend, List.reverse_reverse]

/-- A tuple is in some trace. -/
def Occurs (corpus : Corpus) (p : TracePair) : Prop := ∃ f ∈ corpus.files, p ∈ f.trace

/-- The tuples that step 5 goes through. -/
def tuplesOf (c : Collation) (corpus : Corpus) : List Text := (allUniq c corpus).map readTuple

variable {c : Collation} {corpus : Corpus}

theorem mem_allLines :
    line ∈ c.sort ((c.ls corpus).flatMap CorpusFile.lines) ↔
      ∃ p, Occurs corpus p ∧ p.line = line := by
  simp only [Collation.sort, Collation.ls, List.mem_mergeSort, List.mem_flatMap, CorpusFile.lines,
    List.mem_map, Occurs]
  constructor
  · rintro ⟨f, hf, p, hp, rfl⟩
    exact ⟨p, ⟨f, hf, hp⟩, rfl⟩
  · rintro ⟨p, ⟨f, hf, hp⟩, rfl⟩
    exact ⟨f, hf, p, hp, rfl⟩

/-- They are the tuples of all traces. -/
theorem mem_tuplesOf {tuple : Text} :
    tuple ∈ tuplesOf c corpus ↔ ∃ p, Occurs corpus p ∧ p.line = tuple := by
  have hread : ∀ n line, line ∈ c.sort ((c.ls corpus).flatMap CorpusFile.lines) →
      readTuple (uniqLine n line) = line := by
    intro n line hline
    obtain ⟨p, -, rfl⟩ := mem_allLines.mp hline
    exact readTuple_uniqLine n p
  refine Iff.trans ?_ (mem_uniqCounts.trans (mem_allLines (c := c)))
  simp only [tuplesOf, allUniq, Collation.sortN, uniqC, List.mem_map, List.mem_mergeSort]
  constructor
  · rintro ⟨_, ⟨⟨n, line⟩, hpair, rfl⟩, rfl⟩
    have hline := mem_uniqCounts.mp (List.mem_map_of_mem hpair)
    exact ⟨(n, line), hpair, (hread n line hline).symm⟩
  · rintro ⟨⟨n, line⟩, hpair, rfl⟩
    have hline := mem_uniqCounts.mp (List.mem_map_of_mem hpair)
    exact ⟨_, ⟨(n, line), hpair, rfl⟩, hread n line hline⟩

/-! ### Step 3 -/

/-- The candidates, before they are printed. -/
def candidates (c : Collation) (corpus : Corpus) : List (TracePair × CorpusFile) :=
  (c.lsRS corpus).flatMap fun f => f.trace.map fun p => (p, f)

/-- The line of a candidate. -/
def candidateLine (x : TracePair × CorpusFile) : Text := x.1.line ++ ' ' :: x.2.name

theorem candidateList_eq (c : Collation) (corpus : Corpus) :
    candidateList c corpus = (candidates c corpus).map candidateLine := by
  simp [candidateList, candidates, List.map_flatMap, CorpusFile.lines, candidateLine,
    Function.comp_def]

theorem mem_candidates {x : TracePair × CorpusFile} :
    x ∈ candidates c corpus ↔ x.2 ∈ corpus.files ∧ x.1 ∈ x.2.trace := by
  obtain ⟨p, f⟩ := x
  simp only [candidates, Collation.lsRS, List.mem_flatMap, List.mem_reverse, List.mem_mergeSort,
    List.mem_map, Prod.mk.injEq]
  constructor
  · rintro ⟨f', hf', p', hp', rfl, rfl⟩
    exact ⟨hf', hp'⟩
  · rintro ⟨hf, hp⟩
    exact ⟨f, hf, p, hp, rfl, rfl⟩

/-- `ls -rS` gives the smallest files first. -/
theorem pairwise_lsRS (c : Collation) (corpus : Corpus) :
    (c.lsRS corpus).Pairwise fun f g => f.size ≤ g.size := by
  rw [Collation.lsRS, List.pairwise_reverse]
  refine (List.pairwise_mergeSort ?_ ?_ corpus.files).imp ?_
  · intro f g h hfg hgh
    simp only [Bool.or_eq_true, Bool.and_eq_true, decide_eq_true_eq] at hfg hgh ⊢
    rcases hfg with hfg | ⟨hfg, hle⟩
    · exact Or.inl (by omega)
    · rcases hgh with hgh | ⟨hgh, hle'⟩
      · exact Or.inl (by omega)
      · exact Or.inr ⟨by omega, c.trans _ _ _ hle hle'⟩
  · intro f g
    have htotal := c.total f.name g.name
    simp only [Bool.or_eq_true, Bool.and_eq_true, decide_eq_true_eq] at htotal ⊢
    rcases htotal with h | h
    · simp only [h, and_true]
      omega
    · simp only [h, and_true]
      omega
  · intro f g hfg
    simp only [Bool.or_eq_true, Bool.and_eq_true, decide_eq_true_eq] at hfg
    omega

theorem pairwise_candidates (c : Collation) (corpus : Corpus) :
    (candidates c corpus).Pairwise fun x y => x.2.size ≤ y.2.size := by
  rw [candidates, List.pairwise_flatMap]
  constructor
  · intro f _
    rw [List.pairwise_map]
    exact List.pairwise_of_forall fun _ _ => le_rfl
  · apply (pairwise_lsRS c corpus).imp
    intro f g hfg x hx y hy
    obtain ⟨_, -, rfl⟩ := List.mem_map.mp hx
    obtain ⟨_, -, rfl⟩ := List.mem_map.mp hy
    exact hfg

/-! ### Step 4 -/

theorem firstField_candidateLine (x : TracePair × CorpusFile) :
    firstField (candidateLine x) = x.1.line := by
  rw [firstField, candidateLine, List.takeWhile_append_of_pos]
  · rw [List.takeWhile_cons_of_neg (by decide), List.append_nil]
  · intro ch hch
    rw [not_isBlank_of_mem_line hch]
    rfl

/-- The first of the candidates that have the tuple of `line`. -/
theorem mem_survivors (h : line ∈ sortUnique c.le firstField (candidateList c corpus)) :
    ∃ x, (candidates c corpus).find? (fun y => y.1.line = x.1.line) = some x ∧
      candidateLine x = line := by
  rw [mem_sortUnique_iff c.trans c.total c.antisymm, candidateList_eq, List.find?_map,
    Option.map_eq_some_iff] at h
  obtain ⟨x, hfind, rfl⟩ := h
  refine ⟨x, ?_, rfl⟩
  simpa only [Function.comp_def, firstField_candidateLine] using hfind

theorem candidateLine_mem_survivors {x : TracePair × CorpusFile}
    (h : (candidates c corpus).find? (fun y => y.1.line = x.1.line) = some x) :
    candidateLine x ∈ sortUnique c.le firstField (candidateList c corpus) := by
  rw [mem_sortUnique_iff c.trans c.total c.antisymm, candidateList_eq, List.find?_map,
    Option.map_eq_some_iff]
  refine ⟨x, ?_, rfl⟩
  simpa only [Function.comp_def, firstField_candidateLine] using h

/-- The element that a command assigns to, and its value. -/
def assignment (command : Text) : Nat × Text :=
  let rest := command.drop assignOpen.length
  (subscript (rest.takeWhile (· != ']')),
    ((rest.dropWhile (· != ']')).drop assignMiddle.length).takeWhile (· != '"'))

/-- What the shell makes of the line that `sed` has made of a candidate. -/
theorem assignment_sedAssign {x : TracePair × CorpusFile}
    (hplain : x.2.name.all plainChar = true) :
    assignment (sedAssign (candidateLine x)) = (subscript x.1.line, x.2.name) := by
  have hdigit : ∀ d : Char, d.isDigit = false → ∀ ch ∈ x.1.line, (ch != d) = true := by
    intro d hd ch hch
    rw [bne_iff_ne]
    rintro rfl
    rw [isDigit_of_mem_line hch] at hd
    cases hd
  have hquote : ∀ ch ∈ x.2.name, (ch != '"') = true := by
    intro ch hch
    rw [bne_iff_ne]
    rintro rfl
    exact absurd (List.all_eq_true.mp hplain _ hch) (by decide +kernel)
  have hsed : sedAssign (candidateLine x) =
      assignOpen ++ (x.1.line ++ (assignMiddle ++ (x.2.name ++ ['"']))) := by
    rw [sedAssign, candidateLine, List.takeWhile_append_of_pos (hdigit ' ' rfl),
      List.dropWhile_append_of_pos (hdigit ' ' rfl), List.takeWhile_cons_of_neg (by decide),
      List.dropWhile_cons_of_neg (by decide), List.append_nil]
    rfl
  have hmiddle : assignMiddle = [']', '=', '"'] := by decide +kernel
  have hkey : (x.1.line ++ (assignMiddle ++ (x.2.name ++ ['"']))).takeWhile (· != ']') =
      x.1.line := by
    rw [List.takeWhile_append_of_pos (hdigit ']' rfl), hmiddle]
    exact List.append_nil _
  have hvalue : (x.1.line ++ (assignMiddle ++ (x.2.name ++ ['"']))).dropWhile (· != ']') =
      assignMiddle ++ (x.2.name ++ ['"']) := by
    rw [List.dropWhile_append_of_pos (hdigit ']' rfl), hmiddle]
    rfl
  rw [assignment, hsed, List.drop_left, hkey, hvalue, List.drop_left,
    List.takeWhile_append_of_pos hquote]
  exact congrArg (Prod.mk _) (List.append_nil _)

/-- After a list of assignments, an element has the one value that is assigned to it. -/
theorem foldl_update_eq {l : List (Nat × Text)} {k : Nat} {v : Text} (f : Nat → Text)
    (hmem : (k, v) ∈ l) (huniq : ∀ v', (k, v') ∈ l → v' = v) :
    l.foldl (fun f x => Function.update f x.1 x.2) f k = v := by
  induction l using List.reverseRecOn with
  | nil => cases hmem
  | append_singleton l x ih =>
    rw [List.foldl_append]
    by_cases hk : x.1 = k
    · have hx : x.2 = v := huniq x.2 (by simp [← hk])
      simp [← hk, hx]
    · have hmem' : (k, v) ∈ l := by
        rcases List.mem_append.mp hmem with h | h
        · exact h
        · exact absurd (congrArg Prod.fst (List.mem_singleton.mp h)).symm hk
      have ih' := ih hmem' fun v' hv' => huniq v' (List.mem_append_left _ hv')
      simpa [Function.update_of_ne (Ne.symm hk)] using ih'

/-- `BEST_FILE` has a smallest file for every tuple that occurs. -/
theorem exists_best (c : Collation) (hp : Occurs corpus p) :
    ∃ g ∈ corpus.files, p ∈ g.trace ∧
      loadScript (candidateScript c corpus) (subscript p.line) = g.name ∧
      ∀ f ∈ corpus.files, p ∈ f.trace → g.size ≤ f.size := by
  obtain ⟨f₀, hf₀, hp₀⟩ := hp
  have hmem : ∀ f ∈ corpus.files, p ∈ f.trace → (p, f) ∈ candidates c corpus :=
    fun f hf hpf => mem_candidates.mpr ⟨hf, hpf⟩
  obtain ⟨x, hfind⟩ : ∃ x, (candidates c corpus).find? (fun y => y.1.line = p.line) = some x := by
    rw [← Option.isSome_iff_exists, List.find?_isSome]
    exact ⟨_, hmem f₀ hf₀ hp₀, by simp⟩
  have hx1 : x.1 = p := line_injective (by simpa using List.find?_some hfind)
  have hx := mem_candidates.mp (List.mem_of_find?_eq_some hfind)
  refine ⟨x.2, hx.1, hx1 ▸ hx.2, ?_, ?_⟩
  · -- All assignments to this element come from the candidate `x`.
    have hload : loadScript (candidateScript c corpus) =
        ((candidateScript c corpus).map assignment).foldl
          (fun f x => Function.update f x.1 x.2) fun _ => [] := by
      rw [List.foldl_map]
      rfl
    rw [hload]
    apply foldl_update_eq
    · rw [candidateScript, List.map_map, List.mem_map]
      refine ⟨candidateLine x, candidateLine_mem_survivors (by rwa [hx1]), ?_⟩
      rw [Function.comp_apply, assignment_sedAssign (corpus.plain _ hx.1), hx1]
    · intro v hv
      rw [candidateScript, List.map_map, List.mem_map] at hv
      obtain ⟨line, hline, hassign⟩ := hv
      obtain ⟨y, hy, rfl⟩ := mem_survivors hline
      have hyfile := (mem_candidates.mp (List.mem_of_find?_eq_some hy)).1
      rw [Function.comp_apply, assignment_sedAssign (corpus.plain _ hyfile)] at hassign
      have hy1 : y.1 = p := subscript_line_injective (congrArg Prod.fst hassign)
      rw [hy1, hfind] at hy
      have hv : y.2.name = v := congrArg Prod.snd hassign
      rw [← hv, Option.some.inj hy]
  · intro f hf hpf
    exact rel_of_find?_eq_some (R := fun x y => x.2.size ≤ y.2.size) (fun _ => le_rfl)
      (pairwise_candidates c corpus) hfind (hmem f hf hpf) (decide_eq_true rfl)

/-! ### Step 5 -/

/-- The lines that a copied file covers. -/
def covered (corpus : Corpus) (fn : Text) : Set Text := { line | line ∈ corpus.traceLines fn }

/-- What is in `.already_have` is what the copied files cover. -/
def HasCovered (corpus : Corpus) (s : CminState) : Prop :=
  ∀ line, line ∈ s.alreadyHave ↔ ∃ p ∈ s.copied, line ∈ covered corpus p.2

theorem mem_sortU {lines : List Text} :
    line ∈ c.sortU lines ↔ line ∈ lines := by
  rw [Collation.sortU, mem_sortUnique_iff c.trans c.total c.antisymm]
  constructor
  · exact List.mem_of_find?_eq_some
  · intro h
    cases hfind : lines.find? (fun b => id b = id line) with
    | none => exact absurd (List.find?_eq_none.mp hfind line h) (by simp)
    | some b =>
      have hb : b = line := by simpa using List.find?_some hfind
      rw [hb]

/-- A turn of the loop is a step of the greedy cover. -/
theorem HasCovered.turn (c : Collation) (best : BestFile) {s : CminState} (hs : HasCovered corpus s)
    (line : Text) :
    HasCovered corpus (cminTurn c corpus best s line) ∧
      (readTuple line ∈ s.alreadyHave → (cminTurn c corpus best s line).copied = s.copied) ∧
      (readTuple line ∉ s.alreadyHave → (cminTurn c corpus best s line).copied =
        s.copied ++ [(readTuple line, best (subscript (readTuple line)))]) := by
  unfold cminTurn
  simp only
  split
  case isTrue hhave => exact ⟨hs, fun _ => rfl, fun h => absurd hhave h⟩
  case isFalse hfresh =>
    refine ⟨?_, fun h => absurd h hfresh, fun _ => rfl⟩
    intro t
    have hmem : t ∈ (if (s.cur + 1) % 5 = 0 then
          c.sortU (corpus.traceLines (best (subscript (readTuple line))) ++ s.alreadyHave)
        else s.alreadyHave ++ corpus.traceLines (best (subscript (readTuple line)))) ↔
        t ∈ s.alreadyHave ∨ t ∈ corpus.traceLines (best (subscript (readTuple line))) := by
      split
      · rw [mem_sortU, List.mem_append, or_comm]
      · rw [List.mem_append]
    rw [hmem, hs t]
    simp [or_and_right, exists_or, covered]

/-- The loop is the greedy cover. -/
theorem copied_foldl {best : BestFile} {s : CminState} (hs : HasCovered corpus s)
    (lines : List Text) :
    (lines.foldl (cminTurn c corpus best) s).copied =
      greedyCover (covered corpus) (fun tuple => best (subscript tuple)) s.copied
        (lines.map readTuple) := by
  induction lines generalizing s with
  | nil => rfl
  | cons line lines ih =>
    obtain ⟨hnext, hhave, hfresh⟩ := hs.turn c best line
    rw [List.foldl_cons, ih hnext, List.map_cons, greedyCover]
    split
    case isTrue h => rw [hhave ((hs _).mpr h)]
    case isFalse h => rw [hfresh fun hmem => h ((hs _).mp hmem)]

/-! ### The script -/

/-- The trace file behind the name of an input file. -/
theorem traceLines_name {f : CorpusFile} (hf : f ∈ corpus.files) :
    corpus.traceLines f.name = f.lines := by
  unfold Corpus.traceLines
  cases hfind : corpus.files.find? (fun g => g.name = f.name) with
  | none => exact absurd (List.find?_eq_none.mp hfind f hf) (by simp)
  | some g =>
    have hg : g ∈ corpus.files := List.mem_of_find?_eq_some hfind
    have hname : g.name = f.name := by simpa using List.find?_some hfind
    rw [List.inj_on_of_nodup_map corpus.distinct hg hf hname]

theorem line_mem_covered {f : CorpusFile} (hf : f ∈ corpus.files) :
    p.line ∈ covered corpus f.name ↔ p ∈ f.trace := by
  show p.line ∈ corpus.traceLines f.name ↔ p ∈ f.trace
  rw [traceLines_name hf, CorpusFile.lines, List.mem_map]
  constructor
  · rintro ⟨q, hq, hline⟩
    rwa [← line_injective hline]
  · exact fun hp => ⟨p, hp, rfl⟩

/-- The files that are copied, each with its tuple. Nothing is copied if the script exits early. -/
def copies (c : Collation) (corpus : Corpus) : List (Text × Text) :=
  match aflCmin c corpus with
  | .ok copied => copied
  | .error _ => []

/-- Without a line in the candidate script there is no candidate. -/
theorem candidates_eq_nil (h : candidateScript c corpus = []) :
    candidates c corpus = [] := by
  rw [candidateScript, List.map_eq_nil_iff] at h
  rw [List.eq_nil_iff_forall_not_mem]
  intro x hx
  cases hfind : (candidates c corpus).find? (fun y => y.1.line = x.1.line) with
  | none => exact absurd (List.find?_eq_none.mp hfind x hx) (by simp)
  | some y =>
    have hline : y.1.line = x.1.line := by simpa using List.find?_some hfind
    rw [← hline] at hfind
    have hmem := candidateLine_mem_survivors hfind
    rw [h] at hmem
    cases hmem

/-- The script exits early only if there is nothing to cover. -/
theorem copies_eq (c : Collation) (corpus : Corpus) :
    copies c corpus = greedyCover (covered corpus)
      (fun tuple => loadScript (candidateScript c corpus) (subscript tuple)) []
      (tuplesOf c corpus) := by
  have hnone : candidates c corpus = [] → tuplesOf c corpus = [] := by
    intro hnil
    rw [List.eq_nil_iff_forall_not_mem]
    intro tuple htuple
    obtain ⟨p, ⟨f, hf, hp⟩, -⟩ := mem_tuplesOf.mp htuple
    have hmem : (p, f) ∈ candidates c corpus := mem_candidates.mpr ⟨hf, hp⟩
    rw [hnil] at hmem
    cases hmem
  unfold copies aflCmin
  split
  · next copied heq =>
      split at heq
      · cases heq
      · split at heq
        · cases heq
        · rw [← Except.ok.inj heq]
          exact copied_foldl (fun line => by simp) _
  · next message heq =>
      have hnil : candidates c corpus = [] := by
        split at heq
        · next hfiles =>
            rw [List.eq_nil_iff_forall_not_mem]
            intro x hx
            rw [mem_candidates, hfiles] at hx
            cases hx.1
        · split at heq
          · next hscript => exact candidates_eq_nil hscript
          · cases heq
      rw [hnone hnil]
      rfl

/-- afl-cmin keeps the coverage. Every tuple of every trace is in the trace of a copied file. When a
file was copied, it was a smallest file with the tuple that was looked at, and that tuple was in
the trace of no file copied before. Different tuples have different lines. -/
theorem cmin_covers (c : Collation) (corpus : Corpus) :
    (∀ f ∈ corpus.files, ∀ p ∈ f.trace,
      ∃ g ∈ corpus.files, g.name ∈ (copies c corpus).map Prod.snd ∧ p ∈ g.trace) ∧
    (∀ before tuple fn after, copies c corpus = before ++ (tuple, fn) :: after →
      ∃ p : TracePair, ∃ g ∈ corpus.files, tuple = p.line ∧ fn = g.name ∧ p ∈ g.trace ∧
        (∀ f ∈ corpus.files, p ∈ f.trace → g.size ≤ f.size) ∧
        ∀ f ∈ corpus.files, f.name ∈ before.map Prod.snd → p ∉ f.trace) ∧
    ∀ p q : TracePair, p.line = q.line → p = q := by
  -- What `BEST_FILE` has for a tuple covers it.
  have hbest : ∀ tuple ∈ tuplesOf c corpus,
      tuple ∈ covered corpus (loadScript (candidateScript c corpus) (subscript tuple)) := by
    intro tuple htuple
    obtain ⟨p, hp, rfl⟩ := mem_tuplesOf.mp htuple
    obtain ⟨g, hg, hpg, hname, -⟩ := exists_best c hp
    rw [hname]
    exact (line_mem_covered hg).mpr hpg
  -- A choice of the greedy cover is a tuple that occurs, with its best file.
  have hpick : ∀ pick ∈ copies c corpus, ∃ p : TracePair, ∃ g ∈ corpus.files,
      pick.1 = p.line ∧ pick.2 = g.name ∧ p ∈ g.trace ∧
        ∀ f ∈ corpus.files, p ∈ f.trace → g.size ≤ f.size := by
    intro pick hmem
    rw [copies_eq] at hmem
    rcases eq_best_of_mem_greedyCover hmem with h | ⟨htuple, hfn⟩
    · cases h
    · obtain ⟨p, hp, hline⟩ := mem_tuplesOf.mp htuple
      obtain ⟨g, hg, hpg, hname, hsmallest⟩ := exists_best c hp
      exact ⟨p, g, hg, hline.symm, by rw [hfn, ← hline, hname], hpg, hsmallest⟩
  refine ⟨?_, ?_, fun p q => line_injective⟩
  · intro f hf p hp
    have htuple : p.line ∈ tuplesOf c corpus := mem_tuplesOf.mpr ⟨p, ⟨f, hf, hp⟩, rfl⟩
    obtain ⟨pick, hmem, hcov⟩ := exists_mem_greedyCover [] hbest htuple
    rw [← copies_eq] at hmem
    obtain ⟨-, g, hg, -, hname, -⟩ := hpick pick hmem
    refine ⟨g, hg, hname ▸ List.mem_map_of_mem hmem, ?_⟩
    rw [hname] at hcov
    exact (line_mem_covered hg).mp hcov
  · intro before tuple fn after hcopies
    obtain ⟨p, g, hg, hline, hname, hpg, hsmallest⟩ := hpick (tuple, fn) (by
      rw [hcopies]
      exact List.mem_append_right _ List.mem_cons_self)
    refine ⟨p, g, hg, hline, hname, hpg, hsmallest, ?_⟩
    intro f hf hfbefore hpf
    obtain ⟨pick, hpickmem, hpickname⟩ := List.mem_map.mp hfbefore
    have hfresh : (copies c corpus).Pairwise fun p q => q.1 ∉ covered corpus p.2 := by
      rw [copies_eq]
      exact pairwise_greedyCover List.Pairwise.nil _
    rw [hcopies, List.pairwise_append] at hfresh
    apply hfresh.2.2 pick hpickmem _ List.mem_cons_self
    rw [hpickname, hline]
    exact (line_mem_covered hf).mpr hpf

/-- Texts in the order of their code points. -/
def codePoints : Collation where
  le a b := decide (a ≤ b)
  trans _ _ _ hab hbc := decide_eq_true ((of_decide_eq_true hab).trans (of_decide_eq_true hbc))
  total a b := by
    rw [Bool.or_eq_true, decide_eq_true_iff, decide_eq_true_iff]
    exact le_total a b
  antisymm _ _ hab hba := le_antisymm (of_decide_eq_true hab) (of_decide_eq_true hba)

/-- Hit count class 2 at map index 7. -/
def twiceAtSeven : TracePair := ⟨2, 7, by decide, by decide, by decide⟩

/-- A large file and two small ones. Only the large one has `twiceAtSeven`. -/
def threeFiles : Corpus where
  files := [⟨"a".toList, 90, [⟨1, 7, by decide, by decide, by decide⟩, twiceAtSeven]⟩,
    ⟨"b".toList, 4, [⟨1, 7, by decide, by decide, by decide⟩]⟩,
    ⟨"c".toList, 4, [⟨1, 7, by decide, by decide, by decide⟩,
      ⟨8, 300, by decide, by decide, by decide⟩]⟩]
  distinct := by decide
  plain := by decide
  listed := by decide

/-- All tuples are covered, and the large file is copied since it alone has one of them. -/
theorem cmin_covers_threeFiles :
    (∀ f ∈ threeFiles.files, ∀ p ∈ f.trace, ∃ g ∈ threeFiles.files,
        g.name ∈ (copies codePoints threeFiles).map Prod.snd ∧ p ∈ g.trace) ∧
      "a".toList ∈ (copies codePoints threeFiles).map Prod.snd := by
  have hcovers := (cmin_covers codePoints threeFiles).1
  refine ⟨hcovers, ?_⟩
  obtain ⟨g, hg, hcopied, hp⟩ := hcovers _ List.mem_cons_self twiceAtSeven (by decide)
  have honly : ∀ g ∈ threeFiles.files, twiceAtSeven ∈ g.trace → g.name = "a".toList := by decide
  rwa [honly g hg hp] at hcopied
end TriforceAFL.Proofs
