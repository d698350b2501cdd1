import TriforceAFL.Spec.Dictionary

/-!
# `TriforceAFL.Spec.As`: the assembler wrapper `afl-as.c`

`add_instrumentation` copies an assembly file and inserts trampolines. It reads the file with
`fgets`, so a line that does not fit in the buffer comes in several pieces, and it decides on each
piece by itself. Some insertions come right after a piece, others are put off until a piece that
looks like an instruction.

The output is a list of what was written by one call each: a piece, a trampoline, or the final
payload. Calls of `random` take their values from a sequence. A piece is a C string; bytes behind
a NUL are not written.
-/

set_option autoImplicit false

namespace TriforceAFL.Spec

open Lib

/-- The options, and the platform. -/
structure AsCfg where
  passThru : Bool := false
  clangMode : Bool := false
  use64 : Bool := true
  /-- `inst_ratio`, in percent. -/
  instRatio : Nat := 100
  /-- `__APPLE__` is defined. -/
  apple : Bool := false

/-- The values of `random()`, in the order of its calls. -/
abbrev Draws := Nat → Nat

/-- What one call writes. -/
inductive AsItem
  /-- `fputs(line, outf)` -/
  | piece (bytes : List U8)
  /-- `trampoline_fmt_64` or `trampoline_fmt_32`, with its location. -/
  | trampoline (use64 : Bool) (loc : Nat)
  /-- `main_payload_64` or `main_payload_32` -/
  | payload (use64 : Bool)
deriving DecidableEq

/-- The flags that directives set. -/
structure AsFlags where
  /-- In a section of code. -/
  instrOk : Bool := false
  /-- In code of the other width. -/
  skipCsect : Bool := false
  skipIntel : Bool := false
  skipApp : Bool := false
deriving DecidableEq

/-- May code be inserted? -/
def AsFlags.eligible (f : AsFlags) : Bool :=
  !f.skipIntel && !f.skipApp && !f.skipCsect && f.instrOk

/-- The variables of the loop. -/
structure AsState where
  flags : AsFlags := {}
  skipNextLabel : Bool := false
  instrumentNext : Bool := false
  insLines : U32 := 0
  /-- The number of calls of `random`. -/
  drawn : Nat := 0
  out : List AsItem := []

/-! ### Characters and patterns -/

/-- The C string in a buffer. -/
def cString (buf : List U8) : List U8 := buf.takeWhile (· ≠ 0)

/-- The characters of a piece. -/
def lineOf (piece : List U8) : Text := (cString piece).map charOf

/-- `line[i]`. Behind the string is its NUL. -/
def charAt (line : Text) (i : Nat) : Char := line.getD i '\x00'

/-- `!strncmp(line + i, s, strlen(s))` -/
def matchesAt (line : Text) (i : Nat) (s : String) : Bool := s.toList.isPrefixOf (line.drop i)

/-- `strstr(line, s)`, as a condition. -/
def contains (line : Text) (s : String) : Bool := (strstr s.toList line).isSome

/-! ### Directives -/

/-- The two tests for sections: the first one for code, the second one for anything else. `.error`
is the `continue`. -/
def AsFlags.sections (line : Text) (f : AsFlags) : Except AsFlags AsFlags :=
  if charAt line 0 == '\t' && charAt line 1 == '.' then
    if matchesAt line 2 "text\n" || matchesAt line 2 "section\t.text" ||
        matchesAt line 2 "section\t__TEXT,__text" || matchesAt line 2 "section __TEXT,__text" then
      .error { f with instrOk := true }
    else if matchesAt line 2 "section\t" || matchesAt line 2 "section " ||
        matchesAt line 2 "bss\n" || matchesAt line 2 "data\n" then
      .error { f with instrOk := false }
    else .ok f
  else .ok f

/-- `.code32` and `.code64` -/
def AsFlags.codeWidth (cfg : AsCfg) (line : Text) (f : AsFlags) : AsFlags :=
  if contains line ".code" then
    let f := if contains line ".code32" then { f with skipCsect := cfg.use64 } else f
    if contains line ".code64" then { f with skipCsect := !cfg.use64 } else f
  else f

/-- `.intel_syntax` and `.att_syntax` -/
def AsFlags.dialect (line : Text) (f : AsFlags) : AsFlags :=
  let f := if contains line ".intel_syntax" then { f with skipIntel := true } else f
  if contains line ".att_syntax" then { f with skipIntel := false } else f

/-- `#APP` and `#NO_APP` -/
def AsFlags.appBlock (line : Text) (f : AsFlags) : AsFlags :=
  if charAt line 0 == '#' || charAt line 1 == '#' then
    let f := if contains line "#APP" then { f with skipApp := true } else f
    if contains line "#NO_APP" then { f with skipApp := false } else f
  else f

/-- All directives. `.error` is the `continue`. -/
def AsFlags.directives (cfg : AsCfg) (line : Text) (f : AsFlags) : Except AsFlags AsFlags :=
  f.sections line >>= fun f => .ok (((f.codeWidth cfg line).dialect line).appBlock line)

/-! ### Insertions -/

/-- Write a trampoline. -/
def insertTrampoline (cfg : AsCfg) (rnd : Draws) (s : AsState) : AsState :=
  { s with
    out := s.out ++ [.trampoline cfg.use64 (rnd s.drawn % MAP_SIZE)]
    drawn := s.drawn + 1
    insLines := s.insLines + 1 }

/-- The condition for a trampoline that was put off. -/
def insertsBefore (cfg : AsCfg) (line : Text) (s : AsState) : Bool :=
  !cfg.passThru && s.flags.eligible && s.instrumentNext && charAt line 0 == '\t' &&
    (charAt line 1).isAlpha

/-- Write it, in front of the piece. -/
def insertDeferred (cfg : AsCfg) (rnd : Draws) (line : Text) (s : AsState) : AsState :=
  if insertsBefore cfg line s then { insertTrampoline cfg rnd s with instrumentNext := false }
  else s

/-- `R(100) < inst_ratio`, which draws a number. -/
def drawRatio (cfg : AsCfg) (rnd : Draws) (s : AsState) : Bool × AsState :=
  (decide (rnd s.drawn % 100 < cfg.instRatio), { s with drawn := s.drawn + 1 })

/-- OpenBSD has jump tables in the code, with a `p2align` directive around them. -/
def jumpTable (cfg : AsCfg) (line : Text) (s : AsState) : AsState :=
  if charAt line 0 == '\t' && charAt line 1 == '.' && !cfg.clangMode && s.flags.instrOk &&
      matchesAt line 2 "p2align " && (charAt line 10).isDigit && charAt line 11 == '\n' then
    { s with skipNextLabel := true }
  else s

/-- Does the label belong to the compiler? On Apple it is `L<whatever><digit>:`, elsewhere
`.L<whatever>:`. -/
def localLabel (cfg : AsCfg) (line : Text) : Bool :=
  if cfg.apple then
    let colon := line.length - ((strstr [':'] line).getD []).length
    charAt line 0 == 'L' && (charAt line (colon - 1)).isDigit
  else charAt line 0 == '.'

/-- Is it the destination of a branch? -/
def branchLabel (cfg : AsCfg) (line : Text) : Bool :=
  if cfg.apple then (charAt line 1).isDigit || (cfg.clangMode && matchesAt line 0 "LBB")
  else (charAt line 2).isDigit || (cfg.clangMode && matchesAt line 1 "LBB")

/-- The end of the loop body: a label of some sort. -/
def labels (cfg : AsCfg) (rnd : Draws) (line : Text) (s : AsState) : AsState :=
  if contains line ":" then
    if localLabel cfg line then
      if branchLabel cfg line then
        let (selected, s) := drawRatio cfg rnd s
        if selected then
          if !s.skipNextLabel then { s with instrumentNext := true }
          else { s with skipNextLabel := false }
        else s
      else s
    -- A function label is always instrumented.
    else { s with instrumentNext := true }
  else s

/-- Conditional branches, and then labels. -/
def branches (cfg : AsCfg) (rnd : Draws) (line : Text) (s : AsState) : AsState :=
  if !s.flags.eligible || charAt line 0 == '#' || charAt line 0 == ' ' then s
  else if charAt line 0 == '\t' then
    if charAt line 1 == 'j' && charAt line 2 != 'm' then
      let (selected, s) := drawRatio cfg rnd s
      if selected then insertTrampoline cfg rnd s else s
    else s
  else labels cfg rnd line s

/-! ### `add_instrumentation` -/

/-- The loop body, for a piece. -/
def asTurn (cfg : AsCfg) (rnd : Draws) (s : AsState) (piece : List U8) : AsState :=
  let line := lineOf piece
  let s := insertDeferred cfg rnd line s
  let s := { s with out := s.out ++ [.piece (cString piece)] }
  if cfg.passThru then s
  else
    let s := jumpTable cfg line s
    match s.flags.directives cfg line with
    | .error flags => { s with flags }
    | .ok flags => branches cfg rnd line { s with flags }

/-- The loop over a file. -/
def asLoop (cfg : AsCfg) (rnd : Draws) (input : List U8) : AsState :=
  (fileLines input.length input).foldl (asTurn cfg rnd) {}

/-- `add_instrumentation()`: what is written to the output file. -/
def addInstrumentation (cfg : AsCfg) (rnd : Draws) (input : List U8) : List AsItem :=
  let s := asLoop cfg rnd input
  if s.insLines ≠ 0 then s.out ++ [.payload cfg.use64] else s.out

end TriforceAFL.Spec
