import TriforceAFL.Lib.SortUnique
import TriforceAFL.Spec.Showmap

/-!
# `TriforceAFL.Spec.Cmin`: the corpus minimisation script `afl-cmin`

The script is a pipeline of text tools. afl-showmap has written a trace file for each input file, a
line for each tuple; a line is the hit count class and the map index, with nothing between them. The
steps of the script are, under their numbers there:

* step 2 counts in how many traces a tuple is, and sorts the tuples by that number;
* step 3 makes a list of lines `<tuple> <file>`, smallest files first;
* step 4 keeps the first line for each tuple and turns it into a shell assignment to the array
  `BEST_FILE`;
* step 5 walks through the tuples of step 2. For a tuple that it does not have yet, it copies the
  best file, and then has all tuples of that file.

Each tool is a function on lists of lines. The order that `sort` and `ls` use depends on the locale,
so it is a parameter. The names of input files have no character that the shell or `sed` would
take for something else.
-/

set_option autoImplicit false

namespace TriforceAFL.Spec

open Lib

/-! ### Traces -/

/-- A tuple of a trace, as afl-showmap has it: a hit count class and a map index. -/
structure TracePair where
  cls : Nat
  index : Nat
  cls_pos : 1 ≤ cls
  cls_le : cls ≤ 8
  index_lt : index < MAP_SIZE
deriving DecidableEq

/-- The line `"%u%u"`. -/
def TracePair.line (p : TracePair) : Text := padDec 0 p.cls ++ padDec 0 p.index

/-- An input file, with what is in its trace file. -/
structure CorpusFile where
  name : Text
  size : Nat
  trace : List TracePair
deriving DecidableEq

/-- The lines of the trace file. -/
def CorpusFile.lines (f : CorpusFile) : List Text := f.trace.map TracePair.line

/-- What separates fields: the blanks of `IFS`. -/
def isBlank (c : Char) : Bool := c == ' ' || c == '\t' || c == '\n'

/-- Characters with a meaning for the shell, in double quotes or outside, or for `sed`. -/
def specialChars : Text := "\"\\'$`&;|<>()[]*?!#~^/\x7b\x7d".toList

/-- May the character be in a file name? -/
def plainChar (c : Char) : Bool := !isBlank c && !specialChars.contains c

/-- The files of the input directory. `ls` and the shell's `*` leave out a name that starts with a
dot. -/
structure Corpus where
  files : List CorpusFile
  distinct : (files.map CorpusFile.name).Nodup
  plain : ∀ f ∈ files, f.name.all plainChar = true
  listed : ∀ f ∈ files, f.name.head? ≠ some '.'

/-- The content of `"$TRACE_DIR/$FN"`. -/
def Corpus.traceLines (corpus : Corpus) (fn : Text) : List Text :=
  match corpus.files.find? fun f => f.name = fn with
  | some f => f.lines
  | none => []

/-! ### The tools -/

/-- The order of texts in a locale. -/
structure Collation where
  le : Text → Text → Bool
  trans : ∀ a b c, le a b → le b c → le a c
  total : ∀ a b, (le a b || le b a) = true
  antisymm : ∀ a b, le a b → le b a → a = b

namespace Collation

variable (c : Collation)

/-- `ls` -/
def ls (corpus : Corpus) : List CorpusFile := corpus.files.mergeSort fun a b => c.le a.name b.name

/-- `ls -rS`: the reverse of the order by size, largest first, and then by name. -/
def lsRS (corpus : Corpus) : List CorpusFile :=
  (corpus.files.mergeSort fun a b =>
    decide (b.size < a.size) || (decide (a.size = b.size) && c.le a.name b.name)).reverse

/-- `sort` -/
def sort (lines : List Text) : List Text := lines.mergeSort c.le

/-- `sort -u` -/
def sortU (lines : List Text) : List Text := sortUnique c.le id lines

end Collation

/-- `uniq -c`, before it is printed: how often each line is repeated. -/
def uniqCounts : List Text → List (Nat × Text)
  | [] => []
  | line :: lines =>
    match uniqCounts lines with
    | (n, line') :: rest =>
      if line = line' then (n + 1, line) :: rest else (1, line) :: (n, line') :: rest
    | [] => [(1, line)]

/-- The format of `uniq -c`: `"%7d "` and the line. -/
def uniqLine (n : Nat) (line : Text) : Text :=
  List.leftpad 7 ' ' (Nat.toDigits 10 n) ++ ' ' :: line

/-- `uniq -c` -/
def uniqC (lines : List Text) : List Text := (uniqCounts lines).map fun p => uniqLine p.1 p.2

/-- The number that a line begins with, after blanks. -/
def numericKey (line : Text) : Nat :=
  Nat.ofDigitChars 10 ((line.dropWhile isBlank).takeWhile Char.isDigit) 0

/-- `sort -n`, which compares whole lines if the numbers are equal. -/
def Collation.sortN (c : Collation) (lines : List Text) : List Text :=
  lines.mergeSort fun a b =>
    decide (numericKey a < numericKey b) ||
      (decide (numericKey a = numericKey b) && c.le a b)

/-- The second variable of `read -r cnt tuple`: what is behind the first field, without the blanks
around it. -/
def readTuple (line : Text) : Text :=
  let rest := (line.dropWhile isBlank).dropWhile fun ch => !isBlank ch
  ((rest.dropWhile isBlank).reverse.dropWhile isBlank).reverse

/-! ### Step 2: sorting tuples -/

/-- `.all_uniq` -/
def allUniq (c : Collation) (corpus : Corpus) : List Text :=
  c.sortN (uniqC (c.sort ((c.ls corpus).flatMap CorpusFile.lines)))

/-! ### Step 3: selecting candidate files -/

/-- `.candidate_list`. The `sed` command appends a blank and the file name to each line. -/
def candidateList (c : Collation) (corpus : Corpus) : List Text :=
  (c.lsRS corpus).flatMap fun f => f.lines.map fun line => line ++ ' ' :: f.name

/-! ### Step 4: loading candidates -/

/-- The key of `sort -k1,1`. -/
def firstField (line : Text) : Text := line.takeWhile fun ch => !isBlank ch

/-- What an assignment has in front of the subscript, and between the subscript and the value. -/
def assignOpen : Text := "BEST_FILE[".toList

@[inherit_doc assignOpen] def assignMiddle : Text := "]=\"".toList

/-- `s/^/BEST_FILE[/;s/ /]="/;s/$/"/` -/
def sedAssign (line : Text) : Text :=
  assignOpen ++ (line.takeWhile (· != ' ') ++
    (assignMiddle ++ ((line.dropWhile (· != ' ')).drop 1 ++ ['"'])))

/-- `.candidate_script` -/
def candidateScript (c : Collation) (corpus : Corpus) : List Text :=
  (sortUnique c.le firstField (candidateList c corpus)).map sedAssign

/-- The value of a number in an array subscript. A leading zero makes it octal. -/
def subscript : Text → Nat
  | '0' :: ds => Nat.ofDigitChars 8 ds 0
  | ds => Nat.ofDigitChars 10 ds 0

/-- `BEST_FILE`, an array with numbers as its subscripts. An element that is not set is empty. -/
abbrev BestFile := Nat → Text

/-- The shell runs the line `BEST_FILE[subscript]="value"`. -/
def assign (best : BestFile) (command : Text) : BestFile :=
  let rest := command.drop assignOpen.length
  let value := (rest.dropWhile (· != ']')).drop assignMiddle.length
  Function.update best (subscript (rest.takeWhile (· != ']'))) (value.takeWhile (· != '"'))

/-- `. "$TRACE_DIR/.candidate_script"` -/
def loadScript (script : List Text) : BestFile := script.foldl assign fun _ => []

/-! ### Step 5: writing output -/

/-- The variables of the loop. -/
structure CminState where
  cur : Nat := 0
  /-- `.already_have` -/
  alreadyHave : List Text := []
  /-- The files that were copied, each with the tuple it was copied for. -/
  copied : List (Text × Text) := []

/-- One turn of the loop, on a line of `.all_uniq`. -/
def cminTurn (c : Collation) (corpus : Corpus) (best : BestFile) (s : CminState) (line : Text) :
    CminState :=
  let tuple := readTuple line
  let cur := s.cur + 1
  -- `grep -q "^$tuple\$"`; a tuple has digits only.
  if tuple ∈ s.alreadyHave then { s with cur }
  else
    let fn := best (subscript tuple)
    { cur
      copied := s.copied ++ [(tuple, fn)]
      -- The list is cleaned up now and then.
      alreadyHave :=
        if cur % 5 = 0 then c.sortU (corpus.traceLines fn ++ s.alreadyHave)
        else s.alreadyHave ++ corpus.traceLines fn }

/-- The script, from step 2 on: the files that it copies, each with the tuple it was copied for, or
the message with which it exits. -/
def aflCmin (c : Collation) (corpus : Corpus) : Except Text (List (Text × Text)) :=
  if corpus.files = [] then
    .error "No inputs in the target directory - nothing to be done.".toList
  else if candidateScript c corpus = [] then
    .error "[-] Error: no traces obtained from test cases, check syntax!".toList
  else
    .ok ((allUniq c corpus).foldl (cminTurn c corpus (loadScript (candidateScript c corpus)))
      {}).copied

end TriforceAFL.Spec
