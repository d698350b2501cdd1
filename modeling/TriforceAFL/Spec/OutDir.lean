import Mathlib.Data.List.AList
import TriforceAFL.Lib.Process
import TriforceAFL.Spec.State

/-!
# `TriforceAFL.Spec.OutDir`: the directories that an in-place resume works on

An output directory is seen as the two directories `queue/` and `_resume/`, each with its `.state`
directory and the four directories of flag files under it. Every operation is atomic. An operation
whose failure the code answers with `PFATAL` makes the program give up; one whose error is looked
at returns it. The points of a run are the states in which it can be aborted or has given up.
-/

set_option autoImplicit false

namespace TriforceAFL.Spec

open Lib

/-- The regular files of a directory: their names and contents. -/
abbrev Files := AList fun _ : Text => List U8

/-- The two directories that can hold the corpus. -/
inductive Root
  /-- `<out_dir>/queue` -/
  | queue
  /-- `<out_dir>/_resume` -/
  | resume
deriving DecidableEq

/-- The directories of flag files under `.state`. -/
inductive StateSub
  | deterministicDone
  | autoExtras
  | redundantEdges
  | variableBehavior
deriving DecidableEq

/-- The path of a directory. -/
inductive DirPath
  | root (r : Root)
  /-- `.state` -/
  | state (r : Root)
  | sub (r : Root) (d : StateSub)
deriving DecidableEq

namespace DirPath

/-- The directories that can lie in a directory. -/
def children : DirPath → List DirPath
  | .root r => [.state r]
  | .state r => [.sub r .deterministicDone, .sub r .autoExtras, .sub r .redundantEdges,
      .sub r .variableBehavior]
  | .sub _ _ => []

/-- The directory that a directory lies in; `none` is the output directory. -/
def parent : DirPath → Option DirPath
  | .root _ => none
  | .state r => some (.root r)
  | .sub r _ => some (.state r)

end DirPath

/-- The directories that exist, with their files. -/
structure OutDir where
  dirs : DirPath → Option Files

namespace OutDir

/-- Replace the directory at `p`. -/
def set (s : OutDir) (p : DirPath) (d : Option Files) : OutDir := ⟨Function.update s.dirs p d⟩

/-- Is there an empty directory at `p`? -/
def isEmptyDir (s : OutDir) (p : DirPath) : Bool :=
  match s.dirs p with
  | none => false
  | some files => files.keys.isEmpty && p.children.all fun c => (s.dirs c).isNone

end OutDir

/-- A program on the output directory. It gives up without a reason. -/
abbrev Prog (α : Type) : Type := Process OutDir Unit α

/-- An atomic operation. It either takes place or makes the program give up. -/
def Prog.op {α : Type} (g : OutDir → Option (α × OutDir)) : Prog α :=
  Process.step fun s => (g s).elim (.error ()) .ok

/-- Give up. -/
def Prog.fail {α : Type} : Prog α := .op fun _ => none

/-- What `rmdir` returns and leaves in `errno`. -/
inductive RmdirResult
  | ok
  | noEntry
  | notEmpty
deriving DecidableEq

/-- `rmdir(p)`. -/
def rmdir (p : DirPath) : Prog RmdirResult := .op fun s =>
  match s.dirs p with
  | none => some (.noEntry, s)
  -- `rmdir` refuses a directory that has files or directories in it.
  | some _ => if s.isEmptyDir p then some (.ok, s.set p none) else some (.notEmpty, s)

/-- `unlink(p/name)`, with `PFATAL` on failure. -/
def unlink (p : DirPath) (name : Text) : Prog Unit := .op fun s =>
  match s.dirs p with
  | none => none
  | some files => if name ∈ files then some ((), s.set p (some (files.erase name))) else none

/-- `mkdir(p)`, with `PFATAL` on failure. -/
def mkdir (p : DirPath) : Prog Unit := .op fun s =>
  if (s.dirs p).isNone && p.parent.all (fun q => (s.dirs q).isSome) then
    some ((), s.set p (some ∅))
  else none

/-- `open(p/name, O_CREAT | O_EXCL)`, with `PFATAL` on failure. -/
def createExcl (p : DirPath) (name : Text) : Prog Unit := .op fun s =>
  match s.dirs p with
  | none => none
  | some files => if name ∈ files then none else some ((), s.set p (some (files.insert name [])))

/-- `write()` at the end of `p/name`. -/
def append (p : DirPath) (name : Text) (bytes : List U8) : Prog Unit := .op fun s =>
  match s.dirs p with
  | none => none
  | some files =>
    match files.lookup name with
    | none => none
    | some old => some ((), s.set p (some (files.insert name (old ++ bytes))))

/-- `link(p/name, p'/name')`: does it succeed? Some file systems have no hard links. -/
def link (hardLinks : Bool) (p : DirPath) (name : Text) (p' : DirPath) (name' : Text) :
    Prog Bool := .op fun s =>
  match (s.dirs p).bind (·.lookup name), s.dirs p' with
  | some content, some files =>
    if hardLinks && !decide (name' ∈ files) then
      some (true, s.set p' (some (files.insert name' content)))
    else some (false, s)
  | _, _ => some (false, s)

/-- Can a directory be renamed to `_resume`? It must not exist, or be empty. -/
def resumeFree (s : OutDir) : Bool :=
  (s.dirs (.root .resume)).isNone || s.isEmptyDir (.root .resume)

/-- `queue/` and all that lies in it, under the name `_resume/`. -/
def moveQueue (s : OutDir) : OutDir where
  dirs
    | .root .queue | .state .queue | .sub .queue _ => none
    | .root .resume => s.dirs (.root .queue)
    | .state .resume => s.dirs (.state .queue)
    | .sub .resume d => s.dirs (.sub .queue d)

/-- The directories after `rename(queue, _resume)`, whose errors are ignored. -/
def renameQueue (s : OutDir) : OutDir :=
  if (s.dirs (.root .queue)).isSome && resumeFree s then moveQueue s else s

end TriforceAFL.Spec
