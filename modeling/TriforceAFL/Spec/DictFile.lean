import TriforceAFL.Spec.Deterministic
import TriforceAFL.Spec.Dictionary

/-!
# `TriforceAFL.Spec.DictFile`: `load_extras_file` with the buffer of a keyword

`parseLine` in `TriforceAFL.Spec.Dictionary` gives the token of a line. Here the token is written to
the memory that `ck_alloc(rptr - lptr)` returns, byte by byte, and a store outside of it fails. An
error is a message of the fuzzer, or `none` for such a store.
-/

set_option autoImplicit false

namespace TriforceAFL.Spec

open Lib

/-- `*(wptr++) = v`, with `wptr` at a distance of `klen` from the start of `data`. -/
def storeKeyword (data : List U8) (klen : Nat) (v : U8) : Except (Option DictFatal) (List U8) :=
  match storeAt data klen v with
  | some data => .ok data
  | none => .error none

/-- Copy the data between the quotes. Returns the buffer and `klen`. -/
def decodeInto (line : Nat) :
    List U8 → List U8 → Nat → Except (Option DictFatal) (List U8 × Nat)
  | [], data, klen => .ok (data, klen)
  | c :: rest, data, klen =>
    if c.toNat < 32 ∨ 128 ≤ c.toNat then .error (some (.nonPrintable line))
    else if charOf c ≠ '\\' then do
      let data ← storeKeyword data klen c
      decodeInto line rest data (klen + 1)
    else
      match rest with
      | [] => .error (some (.invalidEscaping line))
      | d :: rest =>
        if charOf d = '\\' ∨ charOf d = '"' then do
          let data ← storeKeyword data klen d
          decodeInto line rest data (klen + 1)
        else
          match rest with
          | hi :: lo :: rest =>
            if charOf d ≠ 'x' || !isXDigit (charOf hi) || !isXDigit (charOf lo) then
              .error (some (.invalidEscaping line))
            else do
              let data ← storeKeyword data klen (hexValue hi <<< 4 ||| hexValue lo)
              decodeInto line rest data (klen + 1)
          | _ => .error (some (.invalidEscaping line))

/-- `parseLine` with the buffer of the keyword. -/
def parseLineChecked (dictLevel : U32) (lineNo : Nat) (raw : List U8) :
    Except (Option DictFatal) (Option (List U8)) := do
  match ← (quotedText dictLevel lineNo raw).mapError some with
  | none => .ok none
  | some text =>
    -- `lptr` is behind the opening quote, and `rptr` at the closing one.
    let (data, klen) ← decodeInto lineNo text (List.replicate text.length 0) 0
    if klen > MAX_DICT_FILE then .error (some (.keywordTooBig lineNo klen))
    else .ok (some (data.take klen))

end TriforceAFL.Spec
