import TriforceAFL.Spec.State

/-!
# `TriforceAFL.Spec.Sync`: importing the queue of a peer fuzzer

One peer of `sync_fuzzers` and its queue directory. The peer's `save_if_interesting` creates a file
and writes it in a second step. Our fuzzer scans the directory again and again: a scan is one turn
of the outer loop of `sync_fuzzers`, and `visit` one turn of its inner loop. Peer and scanner take
their steps in any order.

`readdir` returns every name at most once, in any order; it returns the names that were there at
`opendir`, while a name that is added during the scan may be returned or not.

Every scan here runs to its end: the exit on `stop_soon` ends the whole session. Statistics and
what `save_if_interesting` does with the execution are left out.
-/

set_option autoImplicit false

namespace TriforceAFL.Spec

open Lib

/-- `sscanf(name, CASE_PREFIX "%06u", &syncing_case)` -/
def caseId (name : Text) : Option Nat :=
  if casePrefix.isPrefixOf name then scanUnsigned 6 (name.drop casePrefix.length) else none

/-- The name that `save_if_interesting` gives to entry `id` of its queue. -/
def caseName (id : Nat) (op : Text) : Text := casePrefix ++ padDec 6 id ++ ',' :: op

/-- A file of the peer's queue directory. -/
structure PeerFile where
  name : Text
  content : List U8
  /-- Has the peer written the content? -/
  complete : Bool
deriving DecidableEq

/-- A scan that is under way. -/
structure Scan where
  minAccept : Nat
  nextMinAccept : Nat
  /-- The names that `readdir` has returned so far. -/
  returned : List Text
  /-- The names that were there at `opendir`. -/
  listed : List Text
  /-- The files that the peer had completed at `opendir`. -/
  due : List PeerFile
deriving DecidableEq

/-- The peer's directory and our view of it. -/
structure SyncState where
  files : List PeerFile := []
  /-- The number in `.synced/<peer>`, if there is one. -/
  synced : Option Nat := none
  scan : Option Scan := none
  /-- The test cases that were executed, with their ids. -/
  executed : List (Nat × List U8) := []
deriving DecidableEq

namespace SyncState

/-- The peer creates an empty file. -/
def create (s : SyncState) (name : Text) : SyncState :=
  { s with files := s.files ++ [⟨name, [], false⟩] }

/-- The peer writes the content of a file that it has created. -/
def write (s : SyncState) (name : Text) (content : List U8) : SyncState :=
  { s with files := s.files.map fun f =>
      -- A file is written once; the peer does not come back to it.
      if f.name = name && !f.complete then { f with content, complete := true } else f }

/-- `opendir`, and the ID of the last seen test case. -/
def beginScan (s : SyncState) : SyncState :=
  let sc : Scan :=
    { minAccept := s.synced.getD 0
      nextMinAccept := s.synced.getD 0
      returned := []
      listed := s.files.map (·.name)
      due := s.files.filter (·.complete) }
  { s with scan := some sc }

/-- The id of a name that is not skipped. -/
def accepted (minAccept : Nat) (name : Text) : Option Nat :=
  if name.head? = some '.' then none
  else (caseId name).filter fun c => !decide (c < minAccept)

/-- Is the file executed? Zero-sized or oversized files are ignored. -/
def runnable (content : List U8) : Bool := !content.isEmpty && decide (content.length ≤ MAX_FILE)

/-- `readdir` returns a file, and the inner loop looks at it. -/
def visit (s : SyncState) (sc : Scan) (f : PeerFile) : SyncState :=
  let sc := { sc with returned := f.name :: sc.returned }
  match accepted sc.minAccept f.name with
  | none => { s with scan := some sc }
  | some syncingCase =>
    -- The mark is raised before the file is opened, whatever its size turns out to be.
    { s with
      scan := some { sc with
        nextMinAccept := if syncingCase ≥ sc.nextMinAccept then (syncingCase + 1) % 2 ^ 32
          else sc.nextMinAccept }
      executed := if runnable f.content then s.executed ++ [(syncingCase, f.content)]
        else s.executed }

/-- `readdir` has nothing left; the new mark is stored. -/
def finish (s : SyncState) (sc : Scan) : SyncState :=
  { s with synced := some sc.nextMinAccept, scan := none }

/-- The high-water mark. -/
def mark (s : SyncState) : Nat := s.synced.getD 0

end SyncState

/-- A step of the peer or of our fuzzer. -/
inductive SyncAct
  | create (name : Text)
  | write (name : Text) (content : List U8)
  | beginScan
  | visit (sc : Scan) (f : PeerFile)
  | finish (sc : Scan)

namespace SyncAct

/-- When a step can be taken. `MayCreate` says which names the peer uses. -/
def Enabled (MayCreate : SyncState → Text → Prop) (s : SyncState) : SyncAct → Prop
  | .create name => MayCreate s name ∧ ∀ f ∈ s.files, f.name ≠ name
  | .write name _ => ∃ f ∈ s.files, f.name = name ∧ f.complete = false
  | .beginScan => s.scan = none
  | .visit sc f => s.scan = some sc ∧ f ∈ s.files ∧ f.name ∉ sc.returned
  | .finish sc => s.scan = some sc ∧ ∀ name ∈ sc.listed, name ∈ sc.returned

/-- The state after a step. -/
def apply (s : SyncState) : SyncAct → SyncState
  | .create name => s.create name
  | .write name content => s.write name content
  | .beginScan => s.beginScan
  | .visit sc f => s.visit sc f
  | .finish sc => s.finish sc

end SyncAct

/-- A step of the two processes. -/
def SyncStep (MayCreate : SyncState → Text → Prop) (s s' : SyncState) : Prop :=
  ∃ act : SyncAct, act.Enabled MayCreate s ∧ act.apply s = s'

/-- A peer fuzzer: it creates files for increasing ids, one after the other. -/
def PeerCreates (s : SyncState) (name : Text) : Prop :=
  (∀ f ∈ s.files, f.complete = true) ∧
    ∃ id op, name = caseName id op ∧ ∀ f ∈ s.files, ∃ id' op', f.name = caseName id' op' ∧ id' < id

/-- A directory that grows by names with distinct ids below a million, in any order. -/
def DistinctIds (s : SyncState) (name : Text) : Prop :=
  ∀ c, caseId name = some c → c < 10 ^ 6 ∧ ∀ f ∈ s.files, caseId f.name ≠ some c

end TriforceAFL.Spec
