import Mathlib.Data.Char
import Mathlib.Data.List.Lex
import Mathlib.Data.List.Sort
import TriforceAFL.Spec.OutDir

/-!
# `TriforceAFL.Spec.Resume`: in-place resume of a session

With `-i -`, afl-fuzz moves the old `queue/` to `_resume/`, deletes what is left of `queue/`,
imports the test cases of `_resume/` into a new `queue/` under their old names or new ones, and
deletes `_resume/` again: `maybe_delete_out_dir`, `setup_dirs_fds`, `read_testcases`,
`pivot_inputs` and `nuke_resume_dir`, in the order of `main`.

Files outside of the two directories (`.synced`, `crashes`, `hangs`, `plot_data`, ...) are left
out, and so is the depth that `pivot_inputs` computes for an entry.
-/

set_option autoImplicit false

namespace TriforceAFL.Spec

open Lib

/-- What one attempt finds in its environment. -/
structure ResumeEnv where
  /-- The order in which `readdir` returns the names of a directory. -/
  readdir : DirPath → List Text → List Text
  readdir_perm : ∀ p names, (readdir p names).Perm names
  /-- The order of `shuffle_ptrs`; the identity without `AFL_SHUFFLE_QUEUE`. -/
  shuffle : List Text → List Text
  shuffle_perm : ∀ names, (shuffle names).Perm names
  /-- Does the file system support `link`? -/
  hardLinks : Bool

/-! ### Deleting directories -/

/-- Does `delete_files` remove a file of this name? -/
def deletes (pre : Option Text) (name : Text) : Bool :=
  name.head? != some '.' && pre.all (·.isPrefixOf name)

/-- Delete all files with a prefix in a directory, then the directory. Returns whether that
failed. -/
def deleteFiles (env : ResumeEnv) (p : DirPath) (pre : Option Text) : Prog Bool := do
  let s ← Process.get
  match s.dirs p with
  -- A directory that does not exist counts as deleted.
  | none => return false
  | some files =>
    (env.readdir p files.keys).forM fun name =>
      if deletes pre name then unlink p name else pure ()
    return (← rmdir p) != .ok

/-- `if (...) goto dir_cleanup_failed` -/
def cleanupFailedIf (failed : Bool) : Prog Unit := if failed then .fail else pure ()

/-- The deletion of `queue/` in `maybe_delete_out_dir` and of `_resume/` in `nuke_resume_dir`: the
directories of `.state`, `.state` itself, and the test cases. -/
def deleteRoot (env : ResumeEnv) (r : Root) : Prog Unit := do
  cleanupFailedIf (← deleteFiles env (.sub r .deterministicDone) casePrefix)
  cleanupFailedIf (← deleteFiles env (.sub r .autoExtras) "auto_".toList)
  cleanupFailedIf (← deleteFiles env (.sub r .redundantEdges) casePrefix)
  cleanupFailedIf (← deleteFiles env (.sub r .variableBehavior) casePrefix)
  cleanupFailedIf ((← rmdir (.state r)) == .notEmpty)
  cleanupFailedIf (← deleteFiles env (.root r) casePrefix)

/-- Delete the temporary directory used for in-place session resume. -/
def nukeResumeDir (env : ResumeEnv) : Prog Unit := deleteRoot env .resume

/-- Set `queue/` aside, unless an earlier attempt has left a `_resume/`, and delete what is still
at its place. -/
def maybeDeleteOutDir (env : ResumeEnv) : Prog Unit := do
  -- The errors of `rename` are ignored, so an old `_resume/` stays.
  Prog.op fun s => some ((), renameQueue s)
  deleteRoot env .queue

/-- The part of `setup_dirs_fds` that creates `queue/`. -/
def setupDirs : Prog Unit :=
  [.root .queue, .state .queue, .sub .queue .deterministicDone, .sub .queue .autoExtras,
    .sub .queue .redundantEdges, .sub .queue .variableBehavior].forM mkdir

/-! ### Reading the old test cases -/

/-- `strstr(fn, "/README.txt")` for the path `fn` of a file. -/
def isReadme (name : Text) : Bool := "README.txt".toList.isPrefixOf name

/-- Does `read_testcases` take the file as a test case? -/
def isTestCase (name : Text) (content : List U8) : Bool := !content.isEmpty && !isReadme name

/-- The loop of `read_testcases` over the names, with the flag files of `deterministic_done`. The
entries are the names and their `passed_det`; `none` is the exit for a file that is too big. -/
def readEntries (files : Files) (done : Option Files) : List Text → Option (List (Text × Bool))
  | [] => some []
  | name :: names =>
    let content := (files.lookup name).getD []
    if isTestCase name content then
      if content.length > MAX_FILE then none
      else (readEntries files done names).map ((name, done.any (name ∈ ·)) :: ·)
    else readEntries files done names

/-- Read all test cases of `_resume/`, in alphabetical order unless they are shuffled. -/
def readTestcases (env : ResumeEnv) : Prog (List (Text × Bool)) := do
  let s ← Process.get
  match s.dirs (.root .resume) with
  | none => .fail
  | some files =>
    -- A file `_resume/queue` would be taken for the input directory.
    if "queue".toList ∈ files then .fail
    else
      match readEntries files (s.dirs (.sub .resume .deterministicDone))
          (env.shuffle (files.keys.insertionSort (· ≤ ·))) with
      | none | some [] => .fail
      | some entries => return entries

/-! ### Importing them -/

/-- The name of a test case in the new queue: the old one if it already has the right id. -/
def pivotName (id : Nat) (name : Text) : Text :=
  if casePrefix.isPrefixOf name && scanUnsigned 6 (name.drop 3) == some id then name
  else
    let useName := match strstr ",orig:".toList name with
      | some rest => rest.drop 6
      | none => name
    casePrefix ++ padDec 6 id ++ ",orig:".toList ++ useName

/-- Bytes that `link_or_copy` moves at a time. -/
def COPY_CHUNK : Nat := 64 * 1024

/-- `link()` if possible, copy otherwise. -/
def linkOrCopy (env : ResumeEnv) (name newName : Text) : Prog Unit := do
  if ← link env.hardLinks (.root .resume) name (.root .queue) newName then return ()
  let s ← Process.get
  match (s.dirs (.root .resume)).bind (·.lookup name) with
  | none => .fail
  | some content =>
    -- The copy is made in chunks, and an abort can leave it unfinished.
    createExcl (.root .queue) newName
    (List.range ((content.length + COPY_CHUNK - 1) / COPY_CHUNK)).forM fun i =>
      append (.root .queue) newName ((content.drop (i * COPY_CHUNK)).take COPY_CHUNK)

/-- `mark_as_det_done`: create the flag file. -/
def markAsDetDone (name : Text) : Prog Unit :=
  createExcl (.sub .queue .deterministicDone) name

/-- `if (q->passed_det) mark_as_det_done(q)` -/
def carryDetDone (passedDet : Bool) (name : Text) : Prog Unit :=
  if passedDet then markAsDetDone name else pure ()

/-- The loop of `pivot_inputs`, from entry `id` on. -/
def pivotEntries (env : ResumeEnv) : Nat → List (Text × Bool) → Prog Unit
  | _, [] => return ()
  | id, (name, passedDet) :: entries => do
      linkOrCopy env name (pivotName id name)
      carryDetDone passedDet (pivotName id name)
      pivotEntries env (id + 1) entries

/-- Create hard links for the input test cases in the output directory. -/
def pivotInputs (env : ResumeEnv) (entries : List (Text × Bool)) : Prog Unit := do
  -- `in_place_resume` is set here, so `_resume/` goes away at once.
  pivotEntries env 0 entries
  nukeResumeDir env

/-- One attempt to resume in place. -/
def resumeSession (env : ResumeEnv) : Prog Unit := do
  maybeDeleteOutDir env
  setupDirs
  let entries ← readTestcases env
  pivotInputs env entries

end TriforceAFL.Spec
