import TriforceAFL.Spec.Redundant
import TriforceAFL.Spec.State

/-!
# `TriforceAFL.Spec.Dictionary`: user tokens and auto-detected tokens

`extras[]` holds the tokens of the dictionary given with `-x`, `a_extras[]` the tokens that the
fuzzer has detected itself. `load_extras` reads a directory with one token per file, or a file with
one `name="value"` pair per line. `maybe_add_auto` adds a detected token, unless it is a run of one
byte, a built-in interesting value, or a token that is known already. `load_auto` passes to it the
tokens that an earlier session has saved.

`main` calls `load_auto` before `load_extras` (`startDictionary`).

`qsort` may order equal elements in any way, so the three sorts are parameters (`DictEnv`). The
sizes that `load_extras` prints are left out.
-/

set_option autoImplicit false

namespace TriforceAFL.Spec

open Lib

/-- `struct extra_data`. The length of a token is the length of `data`. -/
structure Extra where
  data : List U8
  hitCnt : Nat := 0
deriving DecidableEq

/-- The tokens of the fuzzer. -/
structure Dictionary where
  extras : List Extra := []
  aExtras : List Extra := []
  autoChanged : Bool := false
deriving DecidableEq

/-- The sorts that the C library provides. -/
structure DictEnv where
  /-- `qsort` with `compare_extras_use_d`. -/
  sortByUse : List Extra → List Extra
  /-- `qsort` with `compare_extras_len`. -/
  sortByLen : List Extra → List Extra
  byUse_perm : ∀ l, (sortByUse l).Perm l
  byLen_perm : ∀ l, (sortByLen l).Perm l
  byLen_sorted : ∀ l, (sortByLen l).Pairwise fun a b => a.data.length ≤ b.data.length

/-- Why the process ended. Errors in a dictionary file carry the number of the line. -/
inductive DictFatal
  | unableToOpen (fn : Text)
  | unableToAccess (fn : Text)
  | unableToRead (fn : Text)
  | shortRead (fn : Text)
  | malformedValue (line : Nat)
  | malformedKeyword (line : Nat)
  | emptyKeyword (line : Nat)
  | nonPrintable (line : Nat)
  | invalidEscaping (line : Nat)
  | keywordTooBig (line len : Nat)
  | extraTooBig (fn : Text) (size : Nat)
  | levelsNotSupported
  | noUsableFiles (dir : Text)
deriving DecidableEq

/-! ### Characters -/

/-- The character of a byte, for the functions of `<ctype.h>` in the C locale. -/
def charOf (b : U8) : Char := Char.ofNat b.toNat

/-- `isxdigit`. -/
def isXDigit (c : Char) : Bool :=
  c.isDigit || ('a' ≤ c && c ≤ 'f') || ('A' ≤ c && c ≤ 'F')

/-- `tolower` on a byte. -/
def tolower (b : U8) : U8 := if (charOf b).isUpper then b + 32 else b

/-- `strchr(hexdigits, tolower(c)) - hexdigits`, for a hexadecimal digit. -/
def hexValue (b : U8) : U8 :=
  if (charOf b).isDigit then b - 48 else tolower b - 87

/-- `atoi`, as the 32-bit value that it is compared with. The result of `strtol` saturates at 64
bits and is cut to 32. -/
def atoi (s : List U8) : U32 :=
  let value (ds : List U8) : Nat :=
    Nat.ofDigitChars 10 ((ds.map charOf).takeWhile Char.isDigit) 0
  match s.dropWhile (isSpace ∘ charOf) with
  | [] => 0
  | c :: ds =>
    if charOf c = '-' then BitVec.ofInt 32 (-(min (value ds) (2 ^ 63) : Nat))
    else if charOf c = '+' then BitVec.ofNat 32 (min (value ds) (2 ^ 63 - 1))
    else BitVec.ofNat 32 (min (value (c :: ds)) (2 ^ 63 - 1))

/-! ### A dictionary file -/

/-- One call of `fgets`, for a buffer of `size + 1` bytes: the line, and what is left. -/
def fgets : Nat → List U8 → List U8 × List U8
  | 0, rest => ([], rest)
  | _, [] => ([], [])
  | size + 1, b :: rest =>
    if charOf b = '\n' then ([b], rest)
    else
      let (line, rest) := fgets size rest
      (b :: line, rest)

/-- The lines that a loop over `fgets` sees. The fuel is the number of bytes. -/
def fileLines : Nat → List U8 → List (List U8)
  | 0, _ => []
  | _, [] => []
  | fuel + 1, content =>
    let (line, rest) := fgets (MAX_LINE - 1) content
    line :: fileLines fuel rest

/-- The line as a C string, without blanks on both ends. -/
def trimLine (line : List U8) : List U8 :=
  let line := (line.takeWhile (· ≠ 0)).dropWhile (isSpace ∘ charOf)
  (line.reverse.dropWhile (isSpace ∘ charOf)).reverse

/-- Copy the data between the quotes, handling `\xNN`, `\\` and `\"`. -/
def decodeKeyword (line : Nat) : List U8 → Except DictFatal (List U8)
  | [] => .ok []
  | c :: rest =>
    if c.toNat < 32 ∨ 128 ≤ c.toNat then .error (.nonPrintable line)
    else if charOf c ≠ '\\' then (decodeKeyword line rest).map (c :: ·)
    else
      match rest with
      | [] => .error (.invalidEscaping line)
      | d :: rest =>
        if charOf d = '\\' ∨ charOf d = '"' then (decodeKeyword line rest).map (d :: ·)
        else
          match rest with
          | hi :: lo :: rest =>
            if charOf d ≠ 'x' || !isXDigit (charOf hi) || !isXDigit (charOf lo) then
              .error (.invalidEscaping line)
            else (decodeKeyword line rest).map ((hexValue hi <<< 4 ||| hexValue lo) :: ·)
          | _ => .error (.invalidEscaping line)

/-- The text between the quotes of a line, unless the line is empty, a comment or of a higher
level. -/
def quotedText (dictLevel : U32) (lineNo : Nat) (raw : List U8) :
    Except DictFatal (Option (List U8)) :=
  let line := trimLine raw
  if line = [] ∨ (line.head?.map charOf) = some '#' then .ok none
  -- All other lines must end with a quote, which we can consume.
  else if (line.getLast?.map charOf) ≠ some '"' then .error (.malformedValue lineNo)
  else
    -- Skip the label.
    let rest := line.dropLast.dropWhile fun b => (charOf b).isAlphanum || charOf b == '_'
    -- If `@number` follows, parse that.
    let atLevel := (rest.head?.map charOf) = some '@'
    let rest := if atLevel then rest.tail else rest
    if atLevel && atoi rest > dictLevel then .ok none
    else
      let rest := if atLevel then rest.dropWhile fun b => (charOf b).isDigit else rest
      let rest := rest.dropWhile fun b => isSpace (charOf b) || charOf b == '='
      if (rest.head?.map charOf) ≠ some '"' then .error (.malformedKeyword lineNo)
      else if rest.tail = [] then .error (.emptyKeyword lineNo)
      else .ok (some rest.tail)

/-- The token of one line, if it has one. -/
def parseLine (dictLevel : U32) (lineNo : Nat) (raw : List U8) :
    Except DictFatal (Option (List U8)) := do
  match ← quotedText dictLevel lineNo raw with
  | none => .ok none
  | some text =>
    let data ← decodeKeyword lineNo text
    if data.length > MAX_DICT_FILE then .error (.keywordTooBig lineNo data.length)
    else .ok (some data)

/-- Read extras from a file. -/
def loadExtrasFile (content : List U8) (dictLevel : U32) (extras : List Extra) :
    Except DictFatal (List Extra) :=
  ((fileLines content.length content).zipIdx 1).foldlM (fun extras (raw, lineNo) => do
    match ← parseLine dictLevel lineNo raw with
    | none => pure extras
    | some data => pure (extras ++ [{ data }])) extras

/-! ### `load_extras` -/

/-- A file in the dictionary directory. -/
structure ExtraFile where
  name : Text
  /-- `lstat` and `access` succeed. -/
  accessible : Bool := true
  regular : Bool := true
  opens : Bool := true
  /-- `ck_read` gets as many bytes as `lstat` has reported. -/
  readInFull : Bool := true
  content : List U8

/-- What `-x` points to. -/
inductive ExtrasSource
  /-- A directory, with its files in the order of `readdir`. -/
  | dir (files : List ExtraFile)
  /-- No directory (`ENOTDIR`): a file, if it can be opened. -/
  | file (readable : Bool) (content : List U8)
  /-- `opendir` fails for another reason. -/
  | unreadable

/-- One turn of the `readdir` loop. -/
def loadExtraFile (dir : Text) (extras : List Extra) (f : ExtraFile) :
    Except DictFatal (List Extra) :=
  let fn := dir ++ '/' :: f.name
  if !f.accessible then .error (.unableToAccess fn)
  -- This also takes care of . and ..
  else if !f.regular || f.content.isEmpty then .ok extras
  else if f.content.length > MAX_DICT_FILE then .error (.extraTooBig fn f.content.length)
  else if !f.opens then .error (.unableToOpen fn)
  else if !f.readInFull then .error (.shortRead fn)
  else .ok (extras ++ [{ data := f.content }])

/-- The part of `load_extras` up to the label `check_and_sort`. `dir` is the argument without its
level, and `fs` says what a path points to. -/
def readExtras (fs : Text → ExtrasSource) (dir : Text) (level : Option U32)
    (extras : List Extra) : Except DictFatal (List Extra) :=
  match fs dir with
  | .file readable content =>
    if readable then loadExtrasFile content (level.getD 0) extras
    else .error (.unableToOpen dir)
  | .unreadable => .error (.unableToOpen dir)
  | .dir files =>
    if level.isSome then .error .levelsNotSupported
    else files.foldlM (loadExtraFile dir) extras

/-- Read the dictionary and sort it by size. -/
def loadExtras (env : DictEnv) (fs : Text → ExtrasSource) (d : Dictionary) (arg : Text) :
    Except DictFatal Dictionary := do
  let dir := arg.takeWhile (· ≠ '@')
  -- If the name has an `@`, extract the level.
  let level : Option U32 :=
    if arg.contains '@' then
      some (atoi ((arg.dropWhile (· ≠ '@')).tail.map fun c => BitVec.ofNat 8 c.toNat))
    else none
  let extras ← readExtras fs dir level d.extras
  if extras.isEmpty then .error (.noUsableFiles dir)
  else .ok { d with extras := env.sortByLen extras }

/-! ### `maybe_add_auto` -/

/-- Do the first `len` bytes differ, up to ASCII case? -/
def memcmpNocase (m1 m2 : List U8) (len : Nat) : Bool :=
  (List.range len).any fun i => tolower (byteOf m1 i) ^^^ tolower (byteOf m2 i) ≠ 0

/-- A run of identical bytes. The scan starts at the second byte. -/
def isByteRun (mem : List U8) : Bool :=
  1 ≤ mem.length && (List.range' 1 (mem.length - 1)).all fun i => byteOf mem 0 ^^^ byteOf mem i = 0

/-- One of the built-in interesting values, in either byte order. A two-byte token is compared as a
non-negative number with the signed table. -/
def isBuiltin (mem : List U8) : Bool :=
  (mem.length = 2 && interesting16.any fun v =>
      ((load 2 mem 0).toNat : Int) = v || load 2 mem 0 = swap16 (BitVec.ofInt 16 v)) ||
    (mem.length = 4 && interesting32.any fun v =>
      load 4 mem 0 = BitVec.ofInt 32 v || load 4 mem 0 = swap32 (BitVec.ofInt 32 v))

/-- Does a user token match? The scan exploits that `extras[]` is sorted by size. -/
def matchesExtras (extras : List Extra) (mem : List U8) : Bool :=
  ((extras.dropWhile fun e => e.data.length < mem.length).takeWhile fun e =>
    e.data.length = mem.length).any fun e => !memcmpNocase e.data mem mem.length

/-- Does this auto-detected token match? -/
def matchesAuto (mem : List U8) (e : Extra) : Bool :=
  e.data.length = mem.length && !memcmpNocase e.data mem mem.length

/-- Count a hit of the first token that matches, or add the token. A full list loses a random token
of its lower half (`draw` is the random number). -/
def noteAuto (aExtras : List Extra) (mem : List U8) (draw : Nat) : List Extra :=
  match aExtras.findIdx? (matchesAuto mem) with
  | some i => aExtras.modify i fun e => { e with hitCnt := e.hitCnt + 1 }
  | none =>
    if aExtras.length < MAX_AUTO_EXTRAS then aExtras ++ [{ data := mem }]
    else aExtras.set (MAX_AUTO_EXTRAS / 2 + draw % ((MAX_AUTO_EXTRAS + 1) / 2)) { data := mem }

/-- Sort by use count, and then the tokens in use by size. -/
def sortAuto (env : DictEnv) (aExtras : List Extra) : List Extra :=
  let sorted := env.sortByUse aExtras
  env.sortByLen (sorted.take USE_AUTO_EXTRAS) ++ sorted.drop USE_AUTO_EXTRAS

/-- Maybe add an automatic extra. -/
def maybeAddAuto (env : DictEnv) (d : Dictionary) (mem : List U8) (draw : Nat) : Dictionary :=
  if isByteRun mem then d
  else if isBuiltin mem then d
  else if matchesExtras d.extras mem then d
  else { d with autoChanged := true, aExtras := sortAuto env (noteAuto d.aExtras mem draw) }

/-! ### Start-up -/

/-- A file `auto_NNNNNN` of the session that is resumed. -/
inductive AutoFile
  | missing
  | openFails
  | readFails
  | content (bytes : List U8)

/-- The name of the file, below the input directory. -/
def autoFileName (inDir : Text) (i : Nat) : Text :=
  inDir ++ "/.state/auto_extras/auto_".toList ++ padDec 6 i

/-- The loop of `load_auto`, from file `i` on. -/
def loadAutoFrom (env : DictEnv) (inDir : Text) (files : Nat → AutoFile) (draws : Nat → Nat) :
    Nat → Nat → Dictionary → Except DictFatal Dictionary
  | 0, _, d => .ok d
  | turns + 1, i, d =>
    match files i with
    | .missing => .ok d
    | .openFails => .error (.unableToOpen (autoFileName inDir i))
    | .readFails => .error (.unableToRead (autoFileName inDir i))
    | .content bytes =>
      -- One byte more is read to detect tokens that are too long.
      let tmp := bytes.take (MAX_AUTO_EXTRA + 1)
      let d :=
        if MIN_AUTO_EXTRA ≤ tmp.length ∧ tmp.length ≤ MAX_AUTO_EXTRA then
          maybeAddAuto env d tmp (draws i)
        else d
      loadAutoFrom env inDir files draws turns (i + 1) d

/-- Load the tokens of an earlier session. -/
def loadAuto (env : DictEnv) (inDir : Text) (files : Nat → AutoFile) (draws : Nat → Nat)
    (d : Dictionary) : Except DictFatal Dictionary :=
  loadAutoFrom env inDir files draws USE_AUTO_EXTRAS 0 d

/-- The tokens after the initialisation in `main`. `pivot_inputs` runs in between and touches none
of them. -/
def startDictionary (env : DictEnv) (inDir : Text) (files : Nat → AutoFile) (draws : Nat → Nat)
    (fs : Text → ExtrasSource) (extrasDir : Option Text) : Except DictFatal Dictionary := do
  let d ← loadAuto env inDir files draws {}
  match extrasDir with
  | some dir => loadExtras env fs d dir
  | none => pure d

/-- Further calls of `maybe_add_auto`. -/
def addAutos (env : DictEnv) (d : Dictionary) (calls : List (List U8 × Nat)) : Dictionary :=
  calls.foldl (fun d c => maybeAddAuto env d c.1 c.2) d

end TriforceAFL.Spec
