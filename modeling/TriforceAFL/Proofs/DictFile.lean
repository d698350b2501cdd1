import TriforceAFL.Proofs.Dictionary
import TriforceAFL.Proofs.FileLines
import TriforceAFL.Spec.DictFile

/-!
# `TriforceAFL.Proofs.DictFile`: the format of a dictionary file

`Encodes` is the format of a token between quotes, as the documentation has it, and `DictLine` that
of a whole line. `decodeKeyword_of_encodes` undoes the one, and `parseLine_text` the other.

A line with `@n` is compared with the level of the dictionary after `atoi`, which cuts `n` to 32
bits. So a line of a level above `2 ^ 32` can pass for one of a low level (`dict_line_iff`).
-/

set_option autoImplicit false

namespace TriforceAFL.Proofs

open Lib Spec

variable {dictLevel : U32}

/-! ### The buffer of a keyword -/

theorem storeKeyword_append (done : List U8) (b : U8) (room : List U8) (v : U8) :
    storeKeyword (done ++ b :: room) done.length v = .ok (done ++ v :: room) := by
  have hin : done.length < (done ++ b :: room).length := by
    rw [List.length_append, List.length_cons]
    omega
  unfold storeKeyword storeAt
  rw [if_pos hin, List.set_append_right _ _ (Nat.le_refl _), Nat.sub_self]
  rfl

/-- What the loop leaves in the buffer, if there is room for one byte for each byte that is read. -/
def Decoded (done room : List U8) :
    Except DictFatal (List U8) → Except (Option DictFatal) (List U8 × Nat) → Prop
  | .ok data, r => r = .ok (done ++ data ++ room.drop data.length, done.length + data.length)
  | .error e, r => r = .error (some e)

theorem Decoded.cons {done room : List U8} {b v : U8} {x : Except DictFatal (List U8)}
    {r : Except (Option DictFatal) (List U8 × Nat)} (h : Decoded (done ++ [v]) room x r) :
    Decoded done (b :: room) (x.map (v :: ·)) r := by
  cases x with
  | error e => exact h
  | ok data =>
    show r = .ok (done ++ v :: data ++ (b :: room).drop (data.length + 1), _)
    have hr : r = .ok (done ++ [v] ++ data ++ room.drop data.length,
      (done ++ [v]).length + data.length) := h
    rw [hr, List.length_append, List.length_singleton, List.append_assoc done [v] data]
    refine congrArg (fun n => Except.ok (_, n)) ?_
    rw [Nat.add_assoc, Nat.add_comm 1]
    rfl

/-- One store, and the rest of the loop. -/
theorem decoded_store {line : Nat} {text done room : List U8} {v : U8}
    (hroom : text.length < room.length)
    (ih : ∀ done room : List U8, text.length ≤ room.length →
      Decoded done room (decodeKeyword line text)
        (decodeInto line text (done ++ room) done.length)) :
    Decoded done room ((decodeKeyword line text).map (v :: ·)) (do
      let data ← storeKeyword (done ++ room) done.length v
      decodeInto line text data (done.length + 1)) := by
  cases room with
  | nil => exact absurd hroom (Nat.not_lt_zero _)
  | cons b room =>
    have hnext := ih (done ++ [v]) room (Nat.le_of_lt_succ hroom)
    rw [storeKeyword_append]
    rw [List.append_assoc, List.length_append, List.length_singleton] at hnext
    exact hnext.cons

/-- The loop never stores outside of a buffer that has as many bytes as the text. -/
theorem decodeInto_spec (line : Nat) (text : List U8) :
    ∀ done room : List U8, text.length ≤ room.length →
      Decoded done room (decodeKeyword line text)
        (decodeInto line text (done ++ room) done.length) := by
  -- Each turn reads one byte or more and stores one, so the room never falls short of the text.
  induction text using decodeKeyword.induct with
  | case1 =>
    intro done room _
    show _ = Except.ok (done ++ [] ++ room, done.length + 0)
    rw [List.append_nil]
    rfl
  | case2 c rest hbad =>
    intro done room _
    unfold decodeKeyword decodeInto
    rw [if_pos hbad, if_pos hbad]
    rfl
  | case3 c rest hgood hplain ih =>
    intro done room hroom
    unfold decodeKeyword decodeInto
    rw [if_neg hgood, if_neg hgood, if_pos hplain, if_pos hplain]
    exact decoded_store hroom ih
  | case4 c hgood hplain =>
    intro done room _
    unfold decodeKeyword decodeInto
    rw [if_neg hgood, if_neg hgood, if_neg hplain, if_neg hplain]
    rfl
  | case5 c hgood hplain d rest hquote ih =>
    intro done room hroom
    unfold decodeKeyword decodeInto
    rw [if_neg hgood, if_neg hgood, if_neg hplain, if_neg hplain]
    dsimp only
    rw [if_pos hquote, if_pos hquote]
    exact decoded_store (Nat.lt_of_succ_lt hroom) ih
  | case6 c hgood hplain d hquote hi lo rest hhex =>
    intro done room _
    unfold decodeKeyword decodeInto
    rw [if_neg hgood, if_neg hgood, if_neg hplain, if_neg hplain]
    dsimp only
    rw [if_neg hquote, if_neg hquote, if_pos hhex, if_pos hhex]
    rfl
  | case7 c hgood hplain d hquote hi lo rest hhex ih =>
    intro done room hroom
    have hless : rest.length < room.length := by
      simp only [List.length_cons] at hroom
      omega
    unfold decodeKeyword decodeInto
    rw [if_neg hgood, if_neg hgood, if_neg hplain, if_neg hplain]
    dsimp only
    rw [if_neg hquote, if_neg hquote, if_neg hhex, if_neg hhex]
    exact decoded_store hless ih
  | case8 c hgood hplain d rest hquote hshort =>
    intro done room _
    unfold decodeKeyword decodeInto
    rw [if_neg hgood, if_neg hgood, if_neg hplain, if_neg hplain]
    dsimp only
    rw [if_neg hquote, if_neg hquote]
    match rest with
    | [] => rfl
    | [_] => rfl
    | hi :: lo :: rest => exact absurd rfl (hshort hi lo rest)

/-- So the memory of a keyword is never written outside of its bounds, and holds the token. -/
theorem parseLineChecked_eq (dictLevel : U32) (lineNo : Nat) (raw : List U8) :
    parseLineChecked dictLevel lineNo raw = (parseLine dictLevel lineNo raw).mapError some := by
  unfold parseLineChecked parseLine
  cases quotedText dictLevel lineNo raw with
  | error e => rfl
  | ok outcome =>
    cases outcome with
    | none => rfl
    | some text =>
      have hspec := decodeInto_spec lineNo text [] (List.replicate text.length 0)
        List.length_replicate.ge
      cases hdecode : decodeKeyword lineNo text with
      | error e =>
        rw [hdecode] at hspec
        have hinto : decodeInto lineNo text (List.replicate text.length 0) 0
            = .error (some e) := hspec
        simp only [Except.mapError, bind, Except.bind, hinto, hdecode]
      | ok data =>
        rw [hdecode] at hspec
        have hinto : decodeInto lineNo text (List.replicate text.length 0) 0
            = .ok (data ++ (List.replicate text.length 0).drop data.length,
              0 + data.length) := hspec
        simp only [Except.mapError, bind, Except.bind, hinto, hdecode, Nat.zero_add,
          List.take_left]
        split <;> rfl

/-! ### Tokens between quotes -/

/-- The hexadecimal digits, in one case or the other. -/
def hexDigit (upper : Bool) (v : Nat) : U8 :=
  (bytesOf (if upper then "0123456789ABCDEF" else "0123456789abcdef")).getD v 0

/-- The text of a token between quotes. -/
inductive Encodes : List U8 → List U8 → Prop
  | nil : Encodes [] []
  | plain {b : U8} {token text : List U8} : 32 ≤ b.toNat → b.toNat ≤ 126 → charOf b ≠ '\\' →
      charOf b ≠ '"' → Encodes token text → Encodes (b :: token) (b :: text)
  | escaped {b : U8} {token text : List U8} : charOf b = '\\' ∨ charOf b = '"' →
      Encodes token text → Encodes (b :: token) (92 :: b :: text)
  | hex {b : U8} {token text : List U8} (upper upper' : Bool) : b.toNat < 32 ∨ 126 < b.toNat →
      Encodes token text →
      Encodes (b :: token)
        (92 :: 120 :: hexDigit upper (b.toNat / 16) :: hexDigit upper' (b.toNat % 16) :: text)

theorem hexDigit_spec (upper : Bool) : ∀ v < 16,
    isXDigit (charOf (hexDigit upper v)) = true ∧
      hexValue (hexDigit upper v) = BitVec.ofNat 8 v := by
  cases upper <;> decide

theorem nibbles_eq (b : U8) :
    BitVec.ofNat 8 (b.toNat / 16) <<< 4 ||| BitVec.ofNat 8 (b.toNat % 16) = b := by
  revert b
  decide

theorem decodeKeyword_of_encodes {token text : List U8} (h : Encodes token text) (line : Nat) :
    decodeKeyword line text = .ok token := by
  induction h with
  | nil => rfl
  | @plain b token text hlo hhi hslash _ _ ih =>
    have hprint : ¬ (b.toNat < 32 ∨ 128 ≤ b.toNat) := by omega
    unfold decodeKeyword
    rw [if_neg hprint, if_pos hslash, ih]
    rfl
  | @escaped b token text hb _ ih =>
    have hplain : ¬ charOf 92 ≠ '\\' := by decide
    unfold decodeKeyword
    rw [if_neg (by decide), if_neg hplain]
    dsimp only
    rw [if_pos hb, ih]
    rfl
  | @hex b token text upper upper' hb _ ih =>
    obtain ⟨hhi, hhival⟩ := hexDigit_spec upper (b.toNat / 16) (by omega)
    obtain ⟨hlo, hloval⟩ := hexDigit_spec upper' (b.toNat % 16) (by omega)
    have hplain : ¬ charOf 92 ≠ '\\' := by decide
    unfold decodeKeyword
    rw [if_neg (by decide), if_neg hplain]
    dsimp only
    rw [if_neg (by decide), hhi, hlo, if_neg (by decide), ih, hhival, hloval, nibbles_eq]
    rfl

theorem Encodes.printable {token text : List U8} (h : Encodes token text) :
    ∀ b ∈ text, 32 ≤ b.toNat ∧ b.toNat ≤ 126 := by
  have hdigit : ∀ upper, ∀ v < 16,
      32 ≤ (hexDigit upper v).toNat ∧ (hexDigit upper v).toNat ≤ 126 := by
    intro upper
    cases upper <;> decide
  have hquote : ∀ b : U8, charOf b = '\\' ∨ charOf b = '"' → 32 ≤ b.toNat ∧ b.toNat ≤ 126 := by
    decide
  induction h with
  | nil =>
    intro b hb
    cases hb
  | plain hlo hhi _ _ _ ih => exact List.forall_mem_cons.mpr ⟨⟨hlo, hhi⟩, ih⟩
  | escaped hb _ ih =>
    exact List.forall_mem_cons.mpr ⟨by decide, List.forall_mem_cons.mpr ⟨hquote _ hb, ih⟩⟩
  | hex upper upper' _ _ ih =>
    refine List.forall_mem_cons.mpr ⟨by decide, List.forall_mem_cons.mpr ⟨by decide, ?_⟩⟩
    exact List.forall_mem_cons.mpr ⟨hdigit upper _ (by omega),
      List.forall_mem_cons.mpr ⟨hdigit upper' _ (by omega), ih⟩⟩

theorem Encodes.ne_nil {token text : List U8} (h : Encodes token text) (hne : token ≠ []) :
    text ≠ [] := by
  cases h with
  | nil => exact absurd rfl hne
  | plain => exact List.cons_ne_nil _ _
  | escaped => exact List.cons_ne_nil _ _
  | hex => exact List.cons_ne_nil _ _

/-! ### Lines -/

/-- A character of a label. -/
def isLabel (b : U8) : Bool := (charOf b).isAlphanum || charOf b == '_'

/-- A blank within a line. -/
def isBlankByte (b : U8) : Bool := isSpace (charOf b) && charOf b != '\n'

/-- The parts of a line `label@level = "quoted"`. -/
structure DictLine where
  label : List U8
  /-- The digits behind `@`. -/
  level : Option (List U8)
  before : List U8
  after : List U8
  quoted : List U8

namespace DictLine

def suffix (l : DictLine) : List U8 :=
  match l.level with
  | none => []
  | some digits => 64 :: digits

/-- The line, up to its closing quote. -/
def upToQuote (l : DictLine) : List U8 :=
  l.label ++ (l.suffix ++ (l.before ++ 61 :: (l.after ++ 34 :: l.quoted)))

/-- The line without a newline. -/
def text (l : DictLine) : List U8 := l.upToQuote ++ [34]

/-- The number behind `@`. A line without it is of level zero. -/
def number (l : DictLine) : Nat :=
  match l.level with
  | none => 0
  | some digits => Nat.ofDigitChars 10 (digits.map charOf) 0

/-- The line is of the format, and `token` is its token. -/
structure Valid (l : DictLine) (token : List U8) : Prop where
  label : ∀ b ∈ l.label, isLabel b = true
  level : ∀ digits, l.level = some digits →
    digits ≠ [] ∧ ∀ b ∈ digits, (charOf b).isDigit = true
  before : ∀ b ∈ l.before, isBlankByte b = true
  after : ∀ b ∈ l.after, isBlankByte b = true
  encodes : Encodes token l.quoted
  token_ne : token ≠ []
  token_le : token.length ≤ MAX_DICT_FILE
  fits : l.text.length < MAX_LINE - 1

end DictLine

section Bytes

theorem of_isLabel : ∀ b : U8, isLabel b = true →
    isSpace (charOf b) = false ∧ charOf b ≠ '#' ∧ charOf b ≠ '\n' ∧ b ≠ 0 := by decide

theorem of_isDigit : ∀ b : U8, (charOf b).isDigit = true →
    isSpace (charOf b) = false ∧ charOf b ≠ '-' ∧ charOf b ≠ '+' ∧ charOf b ≠ '\n' ∧ b ≠ 0 := by
  decide

theorem of_isBlankByte : ∀ b : U8, isBlankByte b = true →
    isSpace (charOf b) = true ∧ isLabel b = false ∧ (charOf b).isDigit = false ∧
      charOf b ≠ '@' ∧ charOf b ≠ '\n' ∧ b ≠ 0 := by decide

theorem of_printable : ∀ b : U8, 32 ≤ b.toNat ∧ b.toNat ≤ 126 → charOf b ≠ '\n' ∧ b ≠ 0 := by
  decide

end Bytes

theorem dropWhile_append_stop {p : U8 → Bool} {l r : List U8} (hl : ∀ b ∈ l, p b = true)
    (hr : ∀ b ∈ r.head?, p b = false) : (l ++ r).dropWhile p = r := by
  rw [List.dropWhile_append_of_pos hl]
  cases r with
  | nil => rfl
  | cons b r => exact List.dropWhile_cons_of_neg (Bool.not_eq_true _ ▸ hr b rfl)

theorem takeWhile_append_stop {p : Char → Bool} {l r : List Char} (hl : ∀ b ∈ l, p b = true)
    (hr : ∀ b ∈ r.head?, p b = false) : (l ++ r).takeWhile p = l := by
  rw [List.takeWhile_append_of_pos hl]
  cases r with
  | nil => exact List.append_nil l
  | cons b r =>
    rw [List.takeWhile_cons_of_neg (Bool.not_eq_true _ ▸ hr b rfl)]
    exact List.append_nil l

namespace DictLine
variable {l : DictLine} {token : List U8}

/-- No byte of a line ends it. -/
theorem Valid.bytes (h : l.Valid token) : ∀ b ∈ l.text, charOf b ≠ '\n' ∧ b ≠ 0 := by
  have hsuffix : ∀ b ∈ l.suffix, charOf b ≠ '\n' ∧ b ≠ 0 := by
    unfold suffix
    cases hlevel : l.level with
    | none =>
      intro b hb
      cases hb
    | some digits =>
      refine List.forall_mem_cons.mpr ⟨by decide, fun b hb => ?_⟩
      exact (of_isDigit b ((h.level digits hlevel).2 b hb)).2.2.2
  unfold text upToQuote
  simp only [List.forall_mem_append, List.forall_mem_cons]
  refine ⟨⟨fun b hb => (of_isLabel b (h.label b hb)).2.2, hsuffix,
    fun b hb => (of_isBlankByte b (h.before b hb)).2.2.2.2, by decide,
    fun b hb => (of_isBlankByte b (h.after b hb)).2.2.2.2, by decide,
    fun b hb => of_printable b (h.encodes.printable b hb)⟩, by decide, fun b hb => ?_⟩
  cases hb

/-- The equals sign comes with blanks only. -/
theorem head_equals {before : List U8} (h : ∀ b ∈ before, isBlankByte b = true) (rest : List U8) :
    ∀ b ∈ (before ++ 61 :: rest).head?, isBlankByte b = true ∨ b = 61 := by
  cases before with
  | nil =>
    intro b hb
    cases hb
    exact Or.inr rfl
  | cons c before =>
    intro b hb
    cases hb
    exact Or.inl (h c List.mem_cons_self)

/-- A line that starts with a label or with a level. -/
theorem Valid.head_front (h : l.Valid token) :
    ∀ b ∈ (l.label ++ l.suffix).head?, isSpace (charOf b) = false ∧ charOf b ≠ '#' := by
  cases hlabel : l.label with
  | cons c label =>
    intro b hb
    cases hb
    have hc := of_isLabel c (h.label c (hlabel ▸ List.mem_cons_self))
    exact ⟨hc.1, hc.2.1⟩
  | nil =>
    unfold suffix
    cases l.level with
    | none =>
      intro b hb
      cases hb
    | some digits =>
      intro b hb
      cases hb
      decide

/-- Leading blanks are those before the equals sign, if nothing else comes first. Without them, the
line does not look like a comment. -/
theorem Valid.dropWhile_text (h : l.Valid token) :
    ∃ before, (∀ b ∈ before, isBlankByte b = true) ∧
      l.text.dropWhile (isSpace ∘ charOf) = { l with before }.text ∧
      ∀ b ∈ { l with before }.text.head?, isSpace (charOf b) = false ∧ charOf b ≠ '#' := by
  have htext : ∀ before, { l with before }.text
      = (l.label ++ l.suffix) ++ (before ++ 61 :: (l.after ++ 34 :: (l.quoted ++ [34]))) := by
    intro before
    show l.label ++ (l.suffix ++ (before ++ 61 :: (l.after ++ 34 :: l.quoted))) ++ [34] = _
    simp only [List.append_assoc, List.cons_append]
  cases hfront : l.label ++ l.suffix with
  | nil =>
    -- Such as ` = "foo"`: the blanks before the equals sign are the first bytes of the line.
    refine ⟨[], (fun b hb => by cases hb), ?_, ?_⟩
    · have hl := htext l.before
      rw [htext [], hfront]
      rw [hfront] at hl
      show { l with before := l.before }.text.dropWhile _ = _
      rw [hl]
      refine dropWhile_append_stop (fun b hb => (of_isBlankByte b (h.before b hb)).1) ?_
      intro b hb
      cases hb
      decide
    · rw [htext [], hfront]
      intro b hb
      cases hb
      decide
  | cons c front =>
    have hhead := h.head_front
    rw [hfront] at hhead
    have hc := hhead c rfl
    refine ⟨l.before, h.before, ?_, ?_⟩
    · rw [htext l.before, hfront]
      exact List.dropWhile_cons_of_neg (Bool.not_eq_true _ ▸ hc.1)
    · rw [htext l.before, hfront]
      intro b hb
      cases hb
      exact hc

/-- The line as it is parsed, with or without its newline. -/
theorem Valid.trimLine_text (h : l.Valid token) {eol : List U8} (heol : eol = [] ∨ eol = [10]) :
    ∃ before, (∀ b ∈ before, isBlankByte b = true) ∧
      trimLine (l.text ++ eol) = { l with before }.text ∧
      ∀ b ∈ { l with before }.text.head?, charOf b ≠ '#' := by
  obtain ⟨before, hbefore, hdrop, hhead⟩ := h.dropWhile_text
  refine ⟨before, hbefore, ?_, fun b hb => (hhead b hb).2⟩
  have heolBytes : ∀ b ∈ eol, b ≠ 0 ∧ isSpace (charOf b) = true := by
    rcases heol with rfl | rfl <;> decide
  have hstring : (l.text ++ eol).takeWhile (· ≠ 0) = l.text ++ eol := by
    refine List.takeWhile_eq_self_iff.mpr ?_
    intro b hb
    rcases List.mem_append.mp hb with hb | hb
    · exact decide_eq_true (h.bytes b hb).2
    · exact decide_eq_true (heolBytes b hb).1
  have hleft : (l.text ++ eol).dropWhile (isSpace ∘ charOf) = { l with before }.text ++ eol := by
    have hne : ({ l with before }.text).isEmpty = false := by
      unfold text
      rw [List.isEmpty_eq_false_iff]
      exact List.append_ne_nil_of_right_ne_nil _ (List.cons_ne_nil _ _)
    rw [List.dropWhile_append, hdrop, hne]
    rfl
  -- From the right, only the newline is dropped.
  have hright : ({ l with before }.text ++ eol).reverse.dropWhile (isSpace ∘ charOf)
      = { l with before }.text.reverse := by
    rw [List.reverse_append]
    refine dropWhile_append_stop (fun b hb => (heolBytes b (List.mem_reverse.mp hb)).2) ?_
    unfold text
    rw [List.reverse_append]
    intro b hb
    cases hb
    decide
  unfold trimLine
  dsimp only
  rw [hstring, hleft, hright, List.reverse_reverse]

/-- What `atoi` makes of the number. -/
theorem Valid.atoi_level (h : l.Valid token) {digits : List U8} (hlevel : l.level = some digits)
    {rest : List U8} (hrest : ∀ b ∈ rest.head?, (charOf b).isDigit = false) :
    atoi (digits ++ rest) = BitVec.ofNat 32 (min l.number (2 ^ 63 - 1)) := by
  obtain ⟨hne, hdigits⟩ := h.level digits hlevel
  have hnumber : l.number = Nat.ofDigitChars 10 (digits.map charOf) 0 := by
    unfold number
    rw [hlevel]
  have hvalue : ((digits ++ rest).map charOf).takeWhile Char.isDigit = digits.map charOf := by
    rw [List.map_append]
    refine takeWhile_append_stop (List.forall_mem_map.mpr hdigits) ?_
    rw [List.head?_map]
    intro c hc
    obtain ⟨b, hb, rfl⟩ := Option.map_eq_some_iff.mp hc
    exact hrest b hb
  cases digits with
  | nil => exact absurd rfl hne
  | cons c digits =>
    obtain ⟨hspace, hminus, hplus, _⟩ := of_isDigit c (hdigits c List.mem_cons_self)
    have hskip : (c :: digits ++ rest).dropWhile (isSpace ∘ charOf) = c :: digits ++ rest :=
      List.dropWhile_cons_of_neg (Bool.not_eq_true _ ▸ hspace)
    unfold atoi
    rw [hskip, hnumber]
    show (if charOf c = '-' then _ else if charOf c = '+' then _ else
      BitVec.ofNat 32 (min (Nat.ofDigitChars 10
        (((c :: digits ++ rest).map charOf).takeWhile Char.isDigit) 0) (2 ^ 63 - 1))) = _
    rw [if_neg hminus, if_neg hplus, hvalue]

/-- The label is skipped. -/
theorem Valid.skip_label (h : l.Valid token) {rest : List U8}
    (hrest : ∀ b ∈ rest.head?, isLabel b = false) :
    (l.label ++ (l.suffix ++ rest)).dropWhile (fun b => (charOf b).isAlphanum || charOf b == '_')
      = l.suffix ++ rest := by
  refine dropWhile_append_stop h.label ?_
  unfold suffix
  cases l.level with
  | none => exact hrest
  | some digits =>
    intro b hb
    cases hb
    decide

/-- Blanks and the equals sign are skipped. -/
theorem Valid.skip_equals (h : l.Valid token) {before : List U8}
    (hbefore : ∀ b ∈ before, isBlankByte b = true) :
    (before ++ 61 :: (l.after ++ 34 :: l.quoted)).dropWhile
      (fun b => isSpace (charOf b) || charOf b == '=') = 34 :: l.quoted := by
  have hsplit : before ++ 61 :: (l.after ++ 34 :: l.quoted)
      = (before ++ 61 :: l.after) ++ 34 :: l.quoted := by
    rw [List.append_assoc, List.cons_append]
  have hskip : ∀ b, isBlankByte b = true → (isSpace (charOf b) || charOf b == '=') = true := by
    intro b hb
    rw [(of_isBlankByte b hb).1, Bool.true_or]
  rw [hsplit]
  refine dropWhile_append_stop ?_ ?_
  · rw [List.forall_mem_append, List.forall_mem_cons]
    exact ⟨fun b hb => hskip b (hbefore b hb), by decide, fun b hb => hskip b (h.after b hb)⟩
  · intro b hb
    cases hb
    decide

/-- The last part of `quotedText`, from the equals sign on. -/
theorem Valid.quoted_of_rest (h : l.Valid token) (lineNo : Nat) {rest : List U8}
    (hrest : rest = 34 :: l.quoted) :
    (if (rest.head?.map charOf) ≠ some '"' then .error (.malformedKeyword lineNo)
      else if rest.tail = [] then .error (.emptyKeyword lineNo)
      else .ok (some rest.tail))
      = (.ok (some l.quoted) : Except DictFatal (Option (List U8))) := by
  have hhead : (rest.head?.map charOf) = some '"' := by
    rw [hrest]
    rfl
  have htail : rest.tail = l.quoted := by
    rw [hrest]
    rfl
  rw [if_neg (not_not.mpr hhead), htail, if_neg (h.encodes.ne_nil h.token_ne)]

/-- The text between the quotes, unless the number is above the level after `atoi`. -/
theorem Valid.quotedText_text (h : l.Valid token) (dictLevel : U32) (lineNo : Nat)
    {eol : List U8} (heol : eol = [] ∨ eol = [10]) :
    quotedText dictLevel lineNo (l.text ++ eol)
      = .ok (if dictLevel.toNat < min l.number (2 ^ 63 - 1) % 2 ^ 32 then none
        else some l.quoted) := by
  obtain ⟨before, hbefore, htrim, hhead⟩ := h.trimLine_text heol
  have hlast : { l with before }.text.getLast? = some 34 := List.getLast?_concat
  have hopen : { l with before }.text.dropLast
      = l.label ++ (l.suffix ++ (before ++ 61 :: (l.after ++ 34 :: l.quoted))) :=
    List.dropLast_concat
  have hline : ¬ ({ l with before }.text = [] ∨
      { l with before }.text.head?.map charOf = some '#') := by
    rintro (hnil | hcomment)
    · rw [hnil] at hlast
      cases hlast
    · obtain ⟨b, hb, hchar⟩ := Option.map_eq_some_iff.mp hcomment
      exact hhead b hb hchar
  have hequals := h.skip_equals hbefore
  have hhead' := head_equals hbefore (l.after ++ 34 :: l.quoted)
  generalize before ++ 61 :: (l.after ++ 34 :: l.quoted) = rest at hopen hequals hhead'
  have hother : ∀ b : U8, isBlankByte b = true ∨ b = 61 →
      isLabel b = false ∧ (charOf b).isDigit = false ∧ charOf b ≠ '@' := by
    decide
  unfold quotedText
  dsimp only
  rw [htrim, if_neg hline, hlast, if_neg (by decide), hopen,
    h.skip_label fun b hb => (hother b (hhead' b hb)).1]
  cases hlevel : l.level with
  | none =>
    have hsuffix : l.suffix ++ rest = rest := by
      unfold suffix
      rw [hlevel]
      rfl
    have hat : ¬ rest.head?.map charOf = some '@' := by
      intro heq
      obtain ⟨b, hb, hchar⟩ := Option.map_eq_some_iff.mp heq
      exact (hother b (hhead' b hb)).2.2 hchar
    have hnumber : l.number = 0 := by
      unfold number
      rw [hlevel]
    rw [hsuffix, decide_eq_false hat, hnumber]
    simp only [if_neg hat, Bool.false_and]
    exact h.quoted_of_rest lineNo hequals
  | some digits =>
    have hsuffix : l.suffix ++ rest = 64 :: (digits ++ rest) := by
      unfold suffix
      rw [hlevel]
      rfl
    have hat : ((64 :: (digits ++ rest)).head?.map charOf) = some '@' := rfl
    have hatoi := h.atoi_level hlevel fun b hb => (hother b (hhead' b hb)).2.1
    have hdigits : (digits ++ rest).dropWhile (fun b => (charOf b).isDigit) = rest :=
      dropWhile_append_stop (h.level digits hlevel).2 fun b hb => (hother b (hhead' b hb)).2.1
    -- `atoi` gives an `int`, and `dict_level` is a `u32`: the comparison is unsigned.
    have hvalue : (atoi (digits ++ rest) > dictLevel) ↔
        dictLevel.toNat < min l.number (2 ^ 63 - 1) % 2 ^ 32 := by
      rw [hatoi, gt_iff_lt, BitVec.lt_def, BitVec.toNat_ofNat]
    rw [hsuffix]
    simp only [hat, if_true, decide_true, Bool.true_and, List.tail_cons, hdigits,
      decide_eq_true_eq, hvalue]
    by_cases hskip : dictLevel.toNat < min l.number (2 ^ 63 - 1) % 2 ^ 32
    · rw [if_pos hskip, if_pos hskip]
    · rw [if_neg hskip, if_neg hskip]
      exact h.quoted_of_rest lineNo hequals

/-- A line of the format, with or without its newline. -/
theorem Valid.parseLine_text (h : l.Valid token) (dictLevel : U32) (lineNo : Nat) {eol : List U8}
    (heol : eol = [] ∨ eol = [10]) :
    parseLine dictLevel lineNo (l.text ++ eol)
      = .ok (if dictLevel.toNat < min l.number (2 ^ 63 - 1) % 2 ^ 32 then none
        else some token) := by
  unfold parseLine
  rw [h.quotedText_text dictLevel lineNo heol]
  split
  · rfl
  · simp only [bind, Except.bind, decodeKeyword_of_encodes h.encodes lineNo]
    exact if_neg (Nat.not_lt.mpr h.token_le)

end DictLine

/-! ### Files -/

/-- One turn of the loop of `load_extras_file`. -/
def addLine (dictLevel : U32) (extras : List Extra) (line : List U8 × Nat) :
    Except DictFatal (List Extra) := do
  match ← parseLine dictLevel line.2 line.1 with
  | none => pure extras
  | some data => pure (extras ++ [{ data := data }])

/-- The loop, where `content` is the rest of the file and `lineNo` the number of the next line. -/
def loadLines (dictLevel : U32) (lineNo : Nat) (content : List U8) (extras : List Extra) :
    Except DictFatal (List Extra) :=
  ((fileLines content.length content).zipIdx lineNo).foldlM (addLine dictLevel) extras

theorem loadExtrasFile_eq (content : List U8) (dictLevel : U32) (extras : List Extra) :
    loadExtrasFile content dictLevel extras = loadLines dictLevel 1 content extras := rfl

/-- One line of a file. -/
theorem loadLines_of_fgets {content raw rest : List U8} (hne : content ≠ [])
    (hfgets : fgets (MAX_LINE - 1) content = (raw, rest)) (lineNo : Nat) (extras : List Extra) :
    loadLines dictLevel lineNo content extras = (do
      let extras ← addLine dictLevel extras (raw, lineNo)
      loadLines dictLevel (lineNo + 1) rest extras) := by
  cases content with
  | nil => exact absurd rfl hne
  | cons b content =>
    have hlt := length_fgets_lt (MAX_LINE - 1) (by decide) hne
    rw [hfgets] at hlt
    have hlines : fileLines (b :: content).length (b :: content)
        = raw :: fileLines rest.length rest := by
      rw [List.length_cons, fileLines_succ _ hne, hfgets]
      dsimp only
      rw [fileLines_fuel (Nat.le_of_lt_succ hlt) (Nat.le_refl rest.length)]
    unfold loadLines
    rw [hlines, List.zipIdx_cons, List.foldlM_cons]

/-- A line adds these entries, wherever it stands in a file. The last one may lack its newline. -/
def Adds (dictLevel : U32) (text : List U8) (added : List Extra) : Prop :=
  (∀ lineNo rest extras, loadLines dictLevel lineNo (text ++ 10 :: rest) extras
      = loadLines dictLevel (lineNo + 1) rest (extras ++ added)) ∧
    ∀ lineNo extras, loadLines dictLevel lineNo text extras = .ok (extras ++ added)

/-- The entries that come with the outcome of `parseLine`. -/
def entriesOf (outcome : Option (List U8)) : List Extra := outcome.toList.map fun data => { data }

theorem addLine_ok {raw : List U8} {lineNo : Nat} {outcome : Option (List U8)}
    (h : parseLine dictLevel lineNo raw = .ok outcome) (extras : List Extra) :
    addLine dictLevel extras (raw, lineNo) = .ok (extras ++ entriesOf outcome) := by
  unfold addLine
  dsimp only
  rw [h]
  cases outcome with
  | none => exact congrArg Except.ok (List.append_nil extras).symm
  | some data => rfl

/-- A line that `fgets` reads as a whole. -/
theorem adds_of_parseLine {text : List U8} {outcome : Option (List U8)} (hne : text ≠ [])
    (hline : ∀ b ∈ text, charOf b ≠ '\n') (hfits : text.length < MAX_LINE - 1)
    (hparse : ∀ lineNo eol, eol = [] ∨ eol = [10] →
      parseLine dictLevel lineNo (text ++ eol) = .ok outcome) :
    Adds dictLevel text (entriesOf outcome) := by
  refine ⟨?_, ?_⟩
  · intro lineNo rest extras
    have hwhole : (text ++ [10]).length ≤ MAX_LINE - 1 := by
      rw [List.length_append, List.length_singleton]
      omega
    have hfgets := fgets_of_fits (completeLines_append hline rest) hwhole
    rw [flatten_completeLines] at hfgets
    rw [loadLines_of_fgets (List.append_ne_nil_of_left_ne_nil hne _) hfgets,
      addLine_ok (hparse lineNo [10] (Or.inr rfl))]
    rfl
  · intro lineNo extras
    have hfgets := fgets_last hline hfits.le
    have hraw := hparse lineNo [] (Or.inl rfl)
    rw [List.append_nil] at hraw
    rw [loadLines_of_fgets hne hfgets, addLine_ok hraw]
    rfl

/-- A line of the format adds its token or nothing, depending on the number after `atoi`. -/
theorem DictLine.Valid.adds {l : DictLine} {token : List U8} (h : l.Valid token)
    (dictLevel : U32) :
    Adds dictLevel l.text (entriesOf
      (if dictLevel.toNat < min l.number (2 ^ 63 - 1) % 2 ^ 32 then none else some token)) := by
  have hne : l.text ≠ [] := List.append_ne_nil_of_right_ne_nil _ (List.cons_ne_nil _ _)
  exact adds_of_parseLine hne (fun b hb => (h.bytes b hb).1) h.fits fun lineNo eol heol =>
    h.parseLine_text dictLevel lineNo heol

/-- A line cannot do both. -/
theorem Adds.unique {text : List U8} {added added' : List Extra} (h : Adds dictLevel text added)
    (h' : Adds dictLevel text added') : added = added' := by
  have hboth := (h.2 1 []).symm.trans (h'.2 1 [])
  cases hboth
  rfl

/-- The memory of a keyword has as many bytes as there are between the quotes, and no line stores a
byte outside of it, whether it is accepted or not. A line of the format adds its token if its number
is not above the level of the dictionary, and nothing otherwise, if and only if a number above the
level is still above it when `atoi` has cut it to 32 bits. -/
theorem dict_line_iff (dictLevel : U32) :
    (∀ lineNo raw, parseLineChecked dictLevel lineNo raw
      = (parseLine dictLevel lineNo raw).mapError some) ∧
    ∀ (l : DictLine) (token : List U8), l.Valid token →
      ((l.number ≤ dictLevel.toNat → Adds dictLevel l.text [{ data := token }]) ∧
        (dictLevel.toNat < l.number → Adds dictLevel l.text []) ↔
      (dictLevel.toNat < l.number →
        dictLevel.toNat < min l.number (2 ^ 63 - 1) % 2 ^ 32)) := by
  refine ⟨parseLineChecked_eq dictLevel, ?_⟩
  intro l token h
  have hadds := h.adds dictLevel
  have hlevel := dictLevel.isLt
  constructor
  · rintro ⟨_, hnone⟩ habove
    by_contra hbelow
    rw [if_neg hbelow] at hadds
    cases hadds.unique (hnone habove)
  · intro hcond
    refine ⟨?_, ?_⟩
    · -- A number up to the level fits in 32 bits, so `atoi` does not change it.
      intro hle
      have hvalue : min l.number (2 ^ 63 - 1) % 2 ^ 32 = l.number := by omega
      rw [hvalue, if_neg (Nat.not_lt.mpr hle)] at hadds
      exact hadds
    · intro habove
      rw [if_pos (hcond habove)] at hadds
      exact hadds

/-- The line `kw@1 = "a\"\x0A"`. -/
def exampleLine : DictLine where
  label := bytesOf "kw"
  level := some (bytesOf "1")
  before := [32]
  after := [32]
  quoted := bytesOf "a\\\"\\x0A"

theorem exampleLine_valid : exampleLine.Valid (bytesOf "a\"\n") where
  label := by decide
  level := by
    intro digits h
    cases h
    decide
  before := by decide
  after := by decide
  encodes := .plain (by decide) (by decide) (by decide) (by decide)
    (.escaped (by decide) (.hex true true (by decide) .nil))
  token_ne := by decide
  token_le := by decide +kernel
  fits := by decide +kernel

/-- It is loaded at level one, and not at level zero. -/
theorem dict_line_iff_example :
    exampleLine.text = bytesOf "kw@1 = \"a\\\"\\x0A\"" ∧
      Adds 1 exampleLine.text [{ data := bytesOf "a\"\n" }] ∧ Adds 0 exampleLine.text [] :=
  ⟨by decide +kernel,
    (((dict_line_iff 1).2 exampleLine _ exampleLine_valid).mpr (by decide +kernel)).1
      (by decide +kernel),
    (((dict_line_iff 0).2 exampleLine _ exampleLine_valid).mpr (by decide +kernel)).2
      (by decide +kernel)⟩

/-- The line `kw@4294967296="foo"`. -/
def wrappedLine : DictLine where
  label := bytesOf "kw"
  level := some (bytesOf "4294967296")
  before := []
  after := []
  quoted := bytesOf "foo"

theorem wrappedLine_valid : wrappedLine.Valid (bytesOf "foo") where
  label := by decide
  level := by
    intro digits h
    cases h
    decide
  before := by decide
  after := by decide
  encodes := .plain (by decide) (by decide) (by decide) (by decide)
    (.plain (by decide) (by decide) (by decide) (by decide)
      (.plain (by decide) (by decide) (by decide) (by decide) .nil))
  token_ne := by decide
  token_le := by decide +kernel
  fits := by decide +kernel

/-- It is loaded at level zero. -/
theorem wrappedLine_loaded :
    wrappedLine.Valid (bytesOf "foo") ∧ (0 : U32).toNat < wrappedLine.number ∧
      wrappedLine.text = bytesOf "kw@4294967296=\"foo\"" ∧
      loadExtrasFile wrappedLine.text 0 [] = .ok [{ data := bytesOf "foo" }] ∧
      ¬ Adds 0 wrappedLine.text [] := by
  have hloaded : loadExtrasFile wrappedLine.text 0 [] = .ok [{ data := bytesOf "foo" }] := by
    decide +kernel
  refine ⟨wrappedLine_valid, by decide +kernel, by decide +kernel, hloaded, ?_⟩
  intro hnone
  rw [loadExtrasFile_eq] at hloaded
  cases hloaded.symm.trans (hnone.2 1 [])

end TriforceAFL.Proofs
