import TriforceAFL.Spec.Dictionary

/-!
# `TriforceAFL.Proofs.FileLines`: reading a file with `fgets`

afl-as and `load_extras_file` read their files in a loop over `fgets`. A call gives a piece of the
file that is not empty, and the pieces together are the file (`flatten_fileLines`). A piece is a
line if the line, newline included, fits in the buffer (`fgets_of_fits`), so the loop sees the lines
of a file whose lines all fit (`fileLines_eq_completeLines`). Otherwise a piece ends where the
buffer is full (`fgets_full`).
-/

set_option autoImplicit false

namespace TriforceAFL.Proofs

open Lib Spec

variable {content : List U8}

/-! ### One call of `fgets` -/

/-- `fgets` takes a piece off. -/
theorem fgets_append (size : Nat) (content : List U8) :
    (fgets size content).1 ++ (fgets size content).2 = content := by
  induction content generalizing size with
  | nil => cases size <;> rfl
  | cons b rest ih =>
    cases size with
    | zero => rfl
    | succ size =>
      rw [fgets]
      split
      · rfl
      · rw [List.cons_append, ih size]

/-- The piece is not empty. -/
theorem length_fgets_lt (size : Nat) (hsize : 0 < size) (hne : content ≠ []) :
    (fgets size content).2.length < content.length := by
  have happ := congrArg List.length (fgets_append size content)
  rw [List.length_append] at happ
  have hpiece : 0 < (fgets size content).1.length := by
    cases size with
    | zero => exact absurd hsize (by decide)
    | succ size =>
      cases content with
      | nil => exact absurd rfl hne
      | cons b rest =>
        rw [fgets]
        split
        · exact Nat.zero_lt_one
        · exact Nat.succ_pos _
  omega

/-- `fgets` stops when the buffer is full. -/
theorem fgets_full {buf : List U8} (hbuf : ∀ b ∈ buf, charOf b ≠ '\n') (rest : List U8) :
    fgets buf.length (buf ++ rest) = (buf, rest) := by
  induction buf with
  | nil => rfl
  | cons b buf ih =>
    obtain ⟨hb, hbuf'⟩ := List.forall_mem_cons.mp hbuf
    rw [List.length_cons, List.cons_append, fgets, if_neg hb, ih hbuf']

/-- The last line, if it lacks its newline. -/
theorem fgets_last {text : List U8} {size : Nat} (hline : ∀ b ∈ text, charOf b ≠ '\n')
    (hfits : text.length ≤ size) : fgets size text = (text, []) := by
  induction text generalizing size with
  | nil => cases size <;> rfl
  | cons b text ih =>
    obtain ⟨hb, hrest⟩ := List.forall_mem_cons.mp hline
    cases size with
    | zero => exact absurd hfits (Nat.not_succ_le_zero _)
    | succ size => rw [fgets, if_neg hb, ih hrest (Nat.le_of_succ_le_succ hfits)]

/-! ### The loop -/

/-- A turn of the loop takes one piece. -/
theorem fileLines_succ (fuel : Nat) (hne : content ≠ []) :
    fileLines (fuel + 1) content =
      (fgets (MAX_LINE - 1) content).1 :: fileLines fuel (fgets (MAX_LINE - 1) content).2 := by
  cases content with
  | nil => exact absurd rfl hne
  | cons b rest =>
    rw [fileLines]
    simp

/-- More fuel makes no difference. -/
theorem fileLines_fuel {fuel fuel' : Nat} (h : content.length ≤ fuel)
    (h' : content.length ≤ fuel') : fileLines fuel content = fileLines fuel' content := by
  induction fuel generalizing fuel' content with
  | zero =>
    rw [List.eq_nil_of_length_eq_zero (Nat.le_zero.mp h)]
    cases fuel' <;> rfl
  | succ fuel ih =>
    cases content with
    | nil => cases fuel' <;> rfl
    | cons b rest =>
      have hlt := length_fgets_lt (MAX_LINE - 1) (by decide) (List.cons_ne_nil b rest)
      cases fuel' with
      | zero => exact absurd h' (Nat.not_succ_le_zero _)
      | succ fuel' =>
        have hrest : fileLines fuel (fgets (MAX_LINE - 1) (b :: rest)).2
            = fileLines fuel' (fgets (MAX_LINE - 1) (b :: rest)).2 :=
          ih (by omega) (by omega)
        rw [fileLines_succ _ (List.cons_ne_nil b rest),
          fileLines_succ _ (List.cons_ne_nil b rest), hrest]

/-- The pieces of a file are the file. -/
theorem flatten_fileLines {fuel : Nat} (hfuel : content.length ≤ fuel) :
    (fileLines fuel content).flatten = content := by
  induction fuel generalizing content with
  | zero =>
    rw [List.eq_nil_of_length_eq_zero (Nat.le_zero.mp hfuel)]
    rfl
  | succ fuel ih =>
    cases content with
    | nil => rfl
    | cons b rest =>
      have hlt := length_fgets_lt (MAX_LINE - 1) (by decide) (List.cons_ne_nil b rest)
      rw [fileLines, List.flatten_cons, ih (by omega), fgets_append]
      simp

/-! ### Lines -/

/-- The lines of a file, each with its newline. The last one may lack it. -/
def completeLines : List U8 → List (List U8)
  | [] => []
  | b :: rest =>
    if charOf b = '\n' then [b] :: completeLines rest
    else
      match completeLines rest with
      | [] => [[b]]
      | line :: lines => (b :: line) :: lines

theorem flatten_completeLines (content : List U8) : (completeLines content).flatten = content := by
  induction content with
  | nil => rfl
  | cons b rest ih =>
    rw [completeLines]
    split
    · rw [List.flatten_cons, ih, List.singleton_append]
    · split
      · next hnil =>
          rw [hnil] at ih
          rw [← ih]
          rfl
      · next line lines hcons =>
          rw [hcons, List.flatten_cons] at ih
          rw [List.flatten_cons, List.cons_append, ih]

/-- A line with its newline comes off. -/
theorem completeLines_append {line : List U8} (hline : ∀ b ∈ line, charOf b ≠ '\n')
    (rest : List U8) :
    completeLines (line ++ 10 :: rest) = (line ++ [10]) :: completeLines rest := by
  induction line with
  | nil => rfl
  | cons b line ih =>
    obtain ⟨hb, hline'⟩ := List.forall_mem_cons.mp hline
    rw [List.cons_append, completeLines, if_neg hb, ih hline']
    rfl

/-- `fgets` reads the first line, if it fits in the buffer. -/
theorem fgets_of_fits {content line : List U8} {lines : List (List U8)} {size : Nat}
    (hlines : completeLines content = line :: lines) (hfits : line.length ≤ size) :
    fgets size content = (line, lines.flatten) := by
  induction content generalizing size line lines with
  | nil => cases hlines
  | cons b rest ih =>
    rw [completeLines] at hlines
    split at hlines
    · next hnl =>
        cases hlines
        cases size with
        | zero => exact absurd hfits (by simp)
        | succ size => rw [fgets, if_pos hnl, flatten_completeLines]
    · next hnl =>
        have hflat := flatten_completeLines rest
        split at hlines
        · next hnil =>
            cases hlines
            rw [hnil] at hflat
            cases size with
            | zero => exact absurd hfits (by simp)
            | succ size =>
              rw [fgets, if_neg hnl, ← hflat]
              cases size <;> rfl
        · next line' lines' hcons =>
            cases hlines
            cases size with
            | zero => exact absurd hfits (by simp)
            | succ size => rw [fgets, if_neg hnl, ih hcons (Nat.le_of_succ_le_succ hfits)]

/-- The lines behind the first one. -/
theorem completeLines_tail {content line : List U8} {lines : List (List U8)}
    (hlines : completeLines content = line :: lines) : completeLines lines.flatten = lines := by
  induction content generalizing line lines with
  | nil => cases hlines
  | cons b rest ih =>
    rw [completeLines] at hlines
    split at hlines
    · cases hlines
      rw [flatten_completeLines]
    · split at hlines
      · cases hlines
        rfl
      · next line' lines' hcons =>
          cases hlines
          exact ih hcons

/-- If all lines fit in the buffer, the pieces are the lines. -/
theorem fileLines_eq_completeLines {fuel : Nat} (hfuel : content.length ≤ fuel)
    (hfits : ∀ line ∈ completeLines content, line.length ≤ MAX_LINE - 1) :
    fileLines fuel content = completeLines content := by
  induction fuel generalizing content with
  | zero =>
    rw [List.eq_nil_of_length_eq_zero (Nat.le_zero.mp hfuel)]
    rfl
  | succ fuel ih =>
    cases content with
    | nil => rfl
    | cons b rest =>
      cases hlines : completeLines (b :: rest) with
      | nil =>
        have hflat := flatten_completeLines (b :: rest)
        rw [hlines] at hflat
        cases hflat
      | cons line lines =>
        rw [hlines] at hfits
        obtain ⟨hline, hrest⟩ := List.forall_mem_cons.mp hfits
        have hfgets := fgets_of_fits hlines hline
        have hlt := length_fgets_lt (MAX_LINE - 1) (by decide) (List.cons_ne_nil b rest)
        rw [hfgets] at hlt
        have htail := completeLines_tail hlines
        have hnext : fileLines fuel lines.flatten = lines := by
          rw [ih (Nat.le_of_lt_succ (hlt.trans_le hfuel)) (by rwa [htail]), htail]
        rw [fileLines, hfgets]
        · exact congrArg (line :: ·) hnext
        · simp

end TriforceAFL.Proofs
