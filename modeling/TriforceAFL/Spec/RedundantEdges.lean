import TriforceAFL.Spec.QueueOps

/-!
# `TriforceAFL.Spec.RedundantEdges`: the marker files of `cull_queue`

After every recomputation of the favored set, `cull_queue` calls `mark_as_redundant` for each queue
entry. It creates a file in `queue/.state/redundant_edges` for an entry that is no longer favored
and removes the file of an entry that is favored again. `MarkedState` is the globals together with
the names in that directory, which `setup_dirs_fds` creates and which is therefore empty at first.

The file of an entry carries the last component of its `fname`. Test cases are created with
`O_EXCL`, or linked, in one directory. So a new entry has a name that no other entry has
(`MarkedOp.Valid`). `pivot_inputs` renames all entries, before the first call of `cull_queue`.
-/

set_option autoImplicit false

namespace TriforceAFL.Spec

variable {mapSize : Nat}

/-- What follows the last slash (`strrchr(path, '/') + 1`). -/
def fileNameOf (path : Text) : Text := (path.reverse.takeWhile (· != '/')).reverse

/-- The globals and the files in `queue/.state/redundant_edges`. -/
structure MarkedState (mapSize : Nat) where
  globals : FuzzState mapSize
  redundantEdges : List Text := []

/-- Why `mark_as_redundant` ends the process. -/
inductive MarkFatal
  | unableToCreate (fn : Text)
  | unableToRemove (fn : Text)
deriving DecidableEq

/-- Mark or unmark an entry as redundant. `diskOk` says for which names the file system carries out
an operation; one that is impossible fails anyway. -/
def markAsRedundant (diskOk : Text → Bool) (m : MarkedState mapSize) (q : Ptr) (state : Bool) :
    Except MarkFatal (MarkedState mapSize) :=
  let e := m.globals.entry q
  if state = e.fsRedundant then .ok m
  else
    let globals := m.globals.updateEntry q fun e => { e with fsRedundant := state }
    let fn := fileNameOf e.fname
    if state then
      if diskOk fn && !m.redundantEdges.contains fn then
        .ok { globals, redundantEdges := m.redundantEdges ++ [fn] }
      else .error (.unableToCreate fn)
    else
      if diskOk fn && m.redundantEdges.contains fn then
        .ok { globals, redundantEdges := m.redundantEdges.erase fn }
      else .error (.unableToRemove fn)

/-- `while (q) { mark_as_redundant(q, !q->favored); q = q->next; }`. -/
def markQueue (diskOk : Text → Bool) :
    Nat → Option Ptr → MarkedState mapSize → Except MarkFatal (MarkedState mapSize)
  | 0, _, m => .ok m
  | _, none, m => .ok m
  | fuel + 1, some q, m =>
    match markAsRedundant diskOk m q (!(m.globals.entry q).favored) with
    | .error e => .error e
    | .ok m => markQueue diskOk fuel (m.globals.entry q).next m

/-- The selection loop of `cull_queue` after its first `n` slots. -/
def selection (s : FuzzState mapSize) (n : Nat) : List U8 × FuzzState mapSize :=
  (List.range n).foldl cullSlot
    (List.replicate (mapSize >>> 3) 0xff,
      { s with
        scoreChanged := false
        queuedFavored := 0
        pendingFavored := 0
        entries := walkQueue (fun e => { e with favored := false }) s.entries.length s.queue
          s.entries })

/-- `cull_queue` with its effect on the disk. -/
def cullMarked (diskOk : Text → Bool) (m : MarkedState mapSize) :
    Except MarkFatal (MarkedState mapSize) :=
  if cullRecomputes m.globals then
    let s := (selection m.globals mapSize).2
    markQueue diskOk s.entries.length s.queue { m with globals := s }
  else .ok m

/-- A call that works on the queue or on the marker files. -/
inductive MarkedOp (mapSize : Nat)
  /-- Any call of `QueueOp` other than `cull_queue`. -/
  | call (op : QueueOp mapSize)
  /-- `pivot_inputs` gives every entry its new name. -/
  | pivot (names : List Text)
  /-- `cull_queue()`. -/
  | cull (diskOk : Text → Bool)

namespace MarkedOp

/-- The file names of the entries. -/
def entryFiles (s : FuzzState mapSize) : List Text := s.entries.map (fileNameOf ·.fname)

/-- Pointers that are passed point to an entry, files that are created did not exist, and inputs
are renamed before anything is marked. -/
def Valid (m : MarkedState mapSize) : MarkedOp mapSize → Prop
  | .call (.add fname _ _) => fileNameOf fname ∉ entryFiles m.globals
  | .call .cull => False
  | .call op => op.Valid m.globals
  | .pivot names => names.length = m.globals.entries.length ∧ (names.map fileNameOf).Nodup ∧
      ∀ e ∈ m.globals.entries, e.fsRedundant = false
  | .cull _ => True

/-- The state after the call, unless the process has ended. -/
def apply (m : MarkedState mapSize) : MarkedOp mapSize → Except MarkFatal (MarkedState mapSize)
  | .call op => .ok { m with globals := op.apply m.globals }
  | .pivot names =>
    .ok { m with globals := { m.globals with
      entries := m.globals.entries.zipWith (fun e fname => { e with fname }) names } }
  | .cull diskOk => cullMarked diskOk m

end MarkedOp

/-- Before the first entry is added, nothing is marked. -/
def MarkedStart (m : MarkedState mapSize) : Prop := ∃ dumbMode, m = { globals := { dumbMode } }

/-- One call in a run of the fuzzer. -/
def MarkedStep (m m' : MarkedState mapSize) : Prop :=
  ∃ op : MarkedOp mapSize, op.Valid m ∧ op.apply m = .ok m'

end TriforceAFL.Spec
