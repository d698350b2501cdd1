import Mathlib.Algebra.Ring.Nat
import Mathlib.Data.List.TakeWhile
import Mathlib.Tactic.Common

/-!
# `TriforceAFL.Lib.Text`: strings of the C library

Two conversions of the C library, over lists of characters:

* `padDec w n` is what `printf("%0wu", n)` prints: the decimal digits of `n`, filled up with
  zeros on the left to at least `w` characters;
* `scanUnsigned w s` is what `sscanf(s, "%wu", &x)` stores in the 32-bit `x`: it skips blanks,
  then reads at most `w` characters, an optional sign and decimal digits. `none` stands for a
  matching failure.

`scanUnsigned_padDec` is the round trip, for a number that fits in the width. `strstr` is the
search of `<string.h>`.
-/

set_option autoImplicit false

namespace TriforceAFL.Lib

variable {w n : Nat}

/-- The characters of `isspace()` in the C locale. -/
def isSpace (c : Char) : Bool :=
  c == ' ' || c == '\t' || c == '\n' || c == '\r' || c == '\x0b' || c == '\x0c'

/-- `printf("%0wu", n)`. -/
def padDec (w n : Nat) : List Char := List.leftpad w '0' (Nat.toDigits 10 n)

/-- The value of the leading decimal digits, if there is at least one. -/
def scanDigits (s : List Char) : Option Nat :=
  match s.takeWhile Char.isDigit with
  | [] => none
  | ds => some (Nat.ofDigitChars 10 ds 0)

/-- `sscanf(s, "%wu", &x)` for a 32-bit `x`. A minus sign negates modulo `2 ^ 32`, as `strtoul`
does. -/
def scanUnsigned (w : Nat) (s : List Char) : Option Nat :=
  match (s.dropWhile isSpace).take w with
  | '-' :: ds => (scanDigits ds).map fun v => (2 ^ 32 - v % 2 ^ 32) % 2 ^ 32
  | '+' :: ds => (scanDigits ds).map (· % 2 ^ 32)
  | ds => (scanDigits ds).map (· % 2 ^ 32)

/-- `strstr(hay, needle)`: the rest of `hay` from the first occurrence of `needle` on. -/
def strstr (needle : List Char) : List Char → Option (List Char)
  | [] => if needle.isPrefixOf [] then some [] else none
  | c :: cs => if needle.isPrefixOf (c :: cs) then some (c :: cs) else strstr needle cs

/-- What `strstr` finds is an end of the text. -/
theorem strstr_suffix {needle hay rest : List Char} (h : strstr needle hay = some rest) :
    rest <:+ hay := by
  induction hay with
  | nil =>
    rw [strstr] at h
    split at h
    · cases h
      exact List.suffix_refl _
    · cases h
  | cons c cs ih =>
    rw [strstr] at h
    split at h
    · cases h
      exact List.suffix_refl _
    · exact (ih h).trans (List.suffix_cons c cs)

/-- Every character of a padded number is a digit. -/
theorem isDigit_of_mem_padDec {c : Char} (h : c ∈ padDec w n) :
    c.isDigit = true := by
  rw [padDec, List.leftpad, List.mem_append] at h
  rcases h with h | h
  · rw [List.eq_of_mem_replicate h]
    rfl
  · exact Nat.isDigit_of_mem_toDigits (by decide) (by decide) h

/-- A number that fits in the width takes exactly the width. -/
theorem length_padDec (hw : 0 < w) (hn : n < 10 ^ w) : (padDec w n).length = w := by
  rw [padDec, List.length_leftpad]
  exact max_eq_left ((Nat.length_toDigits_le_iff (by decide) hw).mpr hn)

/-- The leading zeros do not change the value. -/
theorem ofDigitChars_padDec (w n : Nat) : Nat.ofDigitChars 10 (padDec w n) 0 = n := by
  rw [padDec, List.leftpad, Nat.ofDigitChars_append, Nat.ofDigitChars_replicate_zero,
    Nat.mul_zero, Nat.ofDigitChars_ten_toDigits]

/-- The digits of a padded number are read back in full. -/
theorem scanDigits_padDec (hw : 0 < w) (hn : n < 10 ^ w) :
    scanDigits (padDec w n) = some n := by
  have hall : (padDec w n).takeWhile Char.isDigit = padDec w n := by
    rw [List.takeWhile_eq_self_iff]
    exact fun c hc => isDigit_of_mem_padDec hc
  have hne : padDec w n ≠ [] := by
    intro h
    have hlen := length_padDec hw hn
    rw [h] at hlen
    exact absurd hlen (by simp; omega)
  rw [scanDigits, hall]
  cases hp : padDec w n with
  | nil => exact absurd hp hne
  | cons c cs =>
    show some (Nat.ofDigitChars 10 (c :: cs) 0) = some n
    rw [← hp, ofDigitChars_padDec]

/-- A digit is not a blank. -/
theorem isSpace_of_isDigit {c : Char} (hdigit : c.isDigit = true) : isSpace c = false := by
  revert hdigit
  simp only [Char.isDigit, isSpace, Bool.and_eq_true, decide_eq_true_eq]
  intro hd
  have hne : ∀ d : Char, d.val < 48 → (c == d) = false := by
    intro d hdv
    rw [beq_eq_false_iff_ne]
    intro heq
    subst heq
    exact absurd hd.1 (by simpa using hdv)
  simp [hne ' ' (by decide), hne '\t' (by decide), hne '\n' (by decide),
    hne '\r' (by decide), hne '\x0b' (by decide), hne '\x0c' (by decide)]

/-- The round trip: a padded number that fits in the width is read back, whatever follows it. -/
theorem scanUnsigned_padDec (hw : 0 < w) (hn : n < 10 ^ w) (h32 : n < 2 ^ 32) (rest : List Char) :
    scanUnsigned w (padDec w n ++ rest) = some n := by
  have hlen := length_padDec hw hn
  cases hp : padDec w n with
  | nil =>
    rw [hp] at hlen
    exact absurd hlen (by simp; omega)
  | cons c cs =>
    have hdigit : c.isDigit = true := isDigit_of_mem_padDec (hp ▸ List.mem_cons_self)
    have hspace := isSpace_of_isDigit hdigit
    have htake : ((c :: cs ++ rest).dropWhile isSpace).take w = c :: cs := by
      rw [List.cons_append, List.dropWhile_cons_of_neg (by simp [hspace]), ← List.cons_append,
        ← hp, List.take_left' hlen]
    have hval : scanDigits (c :: cs) = some n := hp ▸ scanDigits_padDec hw hn
    rw [scanUnsigned, htake]
    split
    · -- A digit is not a sign.
      rename_i heq
      cases heq
      exact absurd hdigit (by decide)
    · rename_i heq
      cases heq
      exact absurd hdigit (by decide)
    · rw [hval, Option.map_some, Nat.mod_eq_of_lt h32]

/-- Digits give a number that is bounded by how many they are. -/
theorem ofDigitChars_lt (ds : List Char) (init : Nat) (h : ∀ c ∈ ds, c.isDigit = true) :
    Nat.ofDigitChars 10 ds init < (init + 1) * 10 ^ ds.length := by
  induction ds generalizing init with
  | nil => simp [Nat.ofDigitChars_nil]
  | cons c cs ih =>
    have hc : c.toNat - '0'.toNat < 10 := by
      have hdigit := h c List.mem_cons_self
      simp only [Char.isDigit, Bool.and_eq_true, decide_eq_true_eq] at hdigit
      have hle : c.toNat ≤ 57 := hdigit.2
      show c.toNat - 48 < 10
      omega
    rw [Nat.ofDigitChars_cons]
    have hrest := ih (10 * init + (c.toNat - '0'.toNat))
      fun d hd => h d (List.mem_cons_of_mem c hd)
    calc Nat.ofDigitChars 10 cs (10 * init + (c.toNat - '0'.toNat))
        < (10 * init + (c.toNat - '0'.toNat) + 1) * 10 ^ cs.length := hrest
      _ ≤ ((init + 1) * 10) * 10 ^ cs.length := Nat.mul_le_mul_right _ (by omega)
      _ = (init + 1) * 10 ^ (c :: cs).length := by
          rw [List.length_cons, Nat.pow_succ, Nat.mul_assoc, Nat.mul_comm 10]

/-- Digits that fill at most the width give a number that fits in the width. -/
theorem scanDigits_lt {w v : Nat} {s : List Char} (hlen : s.length ≤ w)
    (h : scanDigits s = some v) : v < 10 ^ w := by
  have hds : (s.takeWhile Char.isDigit).length ≤ w :=
    (List.takeWhile_prefix _).length_le.trans hlen
  have hlt := ofDigitChars_lt (s.takeWhile Char.isDigit) 0 fun c hc => List.mem_takeWhile_imp hc
  rw [Nat.zero_add, Nat.one_mul] at hlt
  unfold scanDigits at h
  split at h
  · cases h
  · rename_i ds hcons
    cases h
    exact hlt.trans_le (Nat.pow_le_pow_right (by decide) hds)

/-- A number that starts with a digit is read as one that fits in the width. -/
theorem scanUnsigned_lt {w v : Nat} {c : Char} {cs : List Char} (hc : c.isDigit = true)
    (h : scanUnsigned w (c :: cs) = some v) : v < 10 ^ w := by
  have hmod : ∀ ds : List Char, ds.length ≤ w →
      (scanDigits ds).map (· % 2 ^ 32) = some v → v < 10 ^ w := by
    intro ds hlen hv
    obtain ⟨u, hu, rfl⟩ := Option.map_eq_some_iff.mp hv
    exact (Nat.mod_le u _).trans_lt (scanDigits_lt hlen hu)
  have hskip : (c :: cs).dropWhile isSpace = c :: cs := by
    rw [List.dropWhile_cons_of_neg]
    rw [isSpace_of_isDigit hc]
    decide
  have hlen : ((c :: cs).take w).length ≤ w := List.length_take_le _ _
  rw [scanUnsigned, hskip] at h
  split at h
  · -- A minus sign is not a digit.
    rename_i ds heq
    cases w with
    | zero => cases heq
    | succ w =>
      cases heq
      exact absurd hc (by decide)
  · rename_i ds heq
    rw [heq, List.length_cons] at hlen
    exact hmod ds (Nat.le_of_succ_le hlen) h
  · exact hmod _ hlen h

theorem padDec_ne_nil (w n : Nat) : padDec w n ≠ [] := by
  intro h
  have hdigits := (List.append_eq_nil_iff.mp h).2
  exact Nat.toDigits_ne_nil hdigits

/-- What is read back of a padded number fits in the width. -/
theorem scanUnsigned_padDec_lt {w n v : Nat} {rest : List Char}
    (h : scanUnsigned w (padDec w n ++ rest) = some v) : v < 10 ^ w := by
  cases hp : padDec w n with
  | nil => exact absurd hp (padDec_ne_nil w n)
  | cons d ds =>
    rw [hp, List.cons_append] at h
    exact scanUnsigned_lt (isDigit_of_mem_padDec (hp ▸ List.mem_cons_self)) h

/-- The round trip works for the numbers that fit in the width, and for no others. -/
theorem scanUnsigned_padDec_iff (hw : 0 < w) (h32 : n < 2 ^ 32) (rest : List Char) :
    scanUnsigned w (padDec w n ++ rest) = some n ↔ n < 10 ^ w :=
  ⟨scanUnsigned_padDec_lt, fun hn => scanUnsigned_padDec hw hn h32 rest⟩

/-- A number below `10 ^ k` takes at most `k` characters. -/
theorem length_padDec_le {w n k : Nat} (hk : 0 < k) (hwk : w ≤ k) (hn : n < 10 ^ k) :
    (padDec w n).length ≤ k := by
  rw [padDec, List.length_leftpad]
  exact max_le hwk ((Nat.length_toDigits_le_iff (by decide) hk).mpr hn)

/-! ### The order of padded numbers -/

/-- The digits come after the ones that were read before. -/
theorem le_ofDigitChars (ds : List Char) (init : Nat) :
    init * 10 ^ ds.length ≤ Nat.ofDigitChars 10 ds init := by
  induction ds generalizing init with
  | nil => simp [Nat.ofDigitChars_nil]
  | cons c cs ih =>
    rw [Nat.ofDigitChars_cons]
    calc init * 10 ^ (c :: cs).length
        = (10 * init) * 10 ^ cs.length := by
          rw [List.length_cons, Nat.pow_succ, ← Nat.mul_assoc, Nat.mul_right_comm,
            Nat.mul_comm init]
      _ ≤ (10 * init + (c.toNat - '0'.toNat)) * 10 ^ cs.length :=
          Nat.mul_le_mul_right _ (Nat.le_add_right _ _)
      _ ≤ Nat.ofDigitChars 10 cs (10 * init + (c.toNat - '0'.toNat)) := ih _

/-- Among digits of one length, the smaller number comes first in the order of names. -/
theorem lt_of_ofDigitChars_lt {as bs : List Char} (hlen : as.length = bs.length)
    (hdigits : ∀ c ∈ bs, c.isDigit = true) {init : Nat}
    (h : Nat.ofDigitChars 10 as init < Nat.ofDigitChars 10 bs init) : as < bs := by
  induction as generalizing bs init with
  | nil =>
    cases List.length_eq_zero_iff.mp hlen.symm
    exact absurd h (Nat.lt_irrefl _)
  | cons a as ih =>
    cases bs with
    | nil => cases hlen
    | cons b bs =>
      rw [List.length_cons, List.length_cons, Nat.add_right_cancel_iff] at hlen
      have hrest : ∀ c ∈ bs, c.isDigit = true :=
        fun c hc => hdigits c (List.mem_cons_of_mem b hc)
      rcases Nat.lt_trichotomy a.toNat b.toNat with hab | hab | hab
      · exact List.Lex.rel hab
      · cases Char.toNat_inj.mp hab
        exact List.Lex.cons (ih hlen hrest h)
      · -- The first digit decides, so the numbers would be the other way round.
        have hb := hdigits b List.mem_cons_self
        simp only [Char.isDigit, Bool.and_eq_true, decide_eq_true_eq] at hb
        have hzero : 48 ≤ b.toNat := hb.1
        rw [Nat.ofDigitChars_cons, Nat.ofDigitChars_cons] at h
        have hstep : 10 * init + (b.toNat - '0'.toNat) + 1 ≤
            10 * init + (a.toNat - '0'.toNat) := by
          show 10 * init + (b.toNat - 48) + 1 ≤ 10 * init + (a.toNat - 48)
          omega
        have hlow := le_ofDigitChars as (10 * init + (a.toNat - '0'.toNat))
        have hhigh := ofDigitChars_lt bs (10 * init + (b.toNat - '0'.toNat)) hrest
        have hmul := Nat.mul_le_mul_right (10 ^ bs.length) hstep
        rw [hlen] at hlow
        omega

/-- Padded numbers of one width are ordered as the numbers are. -/
theorem padDec_lt_padDec {w m n : Nat} (hw : 0 < w) (hmn : m < n) (hn : n < 10 ^ w) :
    padDec w m < padDec w n := by
  have hlen : (padDec w m).length = (padDec w n).length := by
    rw [length_padDec hw (hmn.trans hn), length_padDec hw hn]
  have hval : Nat.ofDigitChars 10 (padDec w m) 0 < Nat.ofDigitChars 10 (padDec w n) 0 := by
    rwa [ofDigitChars_padDec, ofDigitChars_padDec]
  exact lt_of_ofDigitChars_lt hlen (fun c hc => isDigit_of_mem_padDec hc) hval

/-- The first difference decides. -/
theorem append_lt_append {pre as bs x y : List Char} (h : as < bs)
    (hlen : as.length = bs.length) : pre ++ as ++ x < pre ++ bs ++ y := by
  rw [List.append_assoc, List.append_assoc]
  induction pre with
  | nil =>
    rw [List.nil_append, List.nil_append]
    induction h with
    | nil => cases hlen
    | rel hab => exact List.Lex.rel hab
    | cons _ ih => exact List.Lex.cons (ih (Nat.add_right_cancel hlen))
  | cons c pre ih => exact List.Lex.cons ih

end TriforceAFL.Lib
