import TriforceAFL.Spec.Dictionary

/-!
# `TriforceAFL.Spec.AutoTable`: the memory behind `a_extras[]`, and its files

`maybe_add_auto` as it works on the block behind `a_extras`. The block can have room for more tokens
than there are. A token that is appended gets its data and its length, but `hit_cnt` is what the
block holds at that place: `ck_realloc_block` has zeroed it. `TriforceAFL.Spec.Dictionary` has the
same function on the list of the tokens in the table.

`save_auto` writes the tokens in use to files, where `load_auto` of a later session finds them.
-/

set_option autoImplicit false

namespace TriforceAFL.Spec

open Lib

/-- `compare_extras_use_d`: the difference of two `u32`, returned as an `int`. -/
def compareExtrasUseD (e1 e2 : Extra) : Int :=
  (BitVec.ofNat 32 e2.hitCnt - BitVec.ofNat 32 e1.hitCnt).toInt

/-- `a_extras`, `a_extras_cnt` and `auto_changed`. -/
structure AutoBlock where
  /-- The elements of the block, in use or not. -/
  slots : List Extra := []
  cnt : Nat := 0
  autoChanged : Bool := false
deriving DecidableEq

namespace AutoBlock

/-- The tokens in the table. -/
def table (t : AutoBlock) : List Extra := t.slots.take t.cnt

/-- An element of zeroed memory. -/
def zeroSlot : Extra := { data := [], hitCnt := 0 }

/-- `ck_realloc` to `n` elements. A newly-added tail is zeroed. -/
def ckRealloc (slots : List Extra) (n : Nat) : List Extra :=
  slots.take n ++ List.replicate (n - slots.length) zeroSlot

/-- `ck_realloc_block` to `n` elements. The increment of `ALLOC_BLK_INC` bytes is 16 elements. -/
def ckReallocBlock (debug : Bool) (slots : List Extra) (n : Nat) : List Extra :=
  if debug || slots.isEmpty then ckRealloc slots n
  else if slots.length ≥ n then slots
  else ckRealloc slots (n + 16)

/-- Count a hit of the first token that matches, or append the token, or replace a random one of the
lower half. -/
def noteAuto (debug : Bool) (t : AutoBlock) (mem : List U8) (draw : Nat) : AutoBlock :=
  match t.table.findIdx? (matchesAuto mem) with
  | some i =>
    { t with slots := t.slots.modify i fun e => { e with hitCnt := (e.hitCnt + 1) % 2 ^ 32 } }
  | none =>
    if t.cnt < MAX_AUTO_EXTRAS then
      -- The hit count of the new element is not assigned.
      { t with
        slots := (ckReallocBlock debug t.slots (t.cnt + 1)).modify t.cnt fun e =>
          { e with data := mem }
        cnt := t.cnt + 1 }
    else
      { t with
        slots := t.slots.modify (MAX_AUTO_EXTRAS / 2 + draw % ((MAX_AUTO_EXTRAS + 1) / 2))
          fun e => { e with data := mem, hitCnt := 0 } }

/-- Maybe add an automatic extra. `extras` is the user dictionary. -/
def maybeAddAuto (env : DictEnv) (debug : Bool) (extras : List Extra) (t : AutoBlock)
    (mem : List U8) (draw : Nat) : AutoBlock :=
  if isByteRun mem then t
  else if isBuiltin mem then t
  else if matchesExtras extras mem then t
  else
    let t := noteAuto debug { t with autoChanged := true } mem draw
    { t with slots := sortAuto env t.table ++ t.slots.drop t.cnt }

end AutoBlock

/-! ### `save_auto` -/

/-- The name of a file that `save_auto` writes. -/
def savedFileName (outDir : Text) (i : Nat) : Text :=
  outDir ++ "/queue/.state/auto_extras/auto_".toList ++ padDec 6 i

/-- Why `save_auto` ends the process. -/
inductive SaveFatal
  | unableToCreate (fn : Text)
  | shortWrite (fn : Text)
deriving DecidableEq

/-- What the disk does with a file. -/
inductive SaveOutcome
  | saved
  | openFails
  | writeFails
deriving DecidableEq

/-- The files, by name. -/
abbrev SavedFiles : Type := Text → Option (List U8)

/-- One turn of the loop of `save_auto`. A file that is there is truncated. -/
def saveToken (outDir : Text) (outcome : Text → SaveOutcome) (files : SavedFiles)
    (token : List U8 × Nat) : Except SaveFatal SavedFiles :=
  let fn := savedFileName outDir token.2
  match outcome fn with
  | .openFails => .error (.unableToCreate fn)
  | .writeFails => .error (.shortWrite fn)
  | .saved => .ok fun name => if name = fn then some token.1 else files name

/-- Save the tokens in use, if the table has changed since they were saved last. -/
def saveAuto (outDir : Text) (outcome : Text → SaveOutcome) (d : Dictionary) (files : SavedFiles) :
    Except SaveFatal (Dictionary × SavedFiles) :=
  if !d.autoChanged then .ok (d, files)
  else do
    let d := { d with autoChanged := false }
    let tokens := (d.aExtras.take USE_AUTO_EXTRAS).map (·.data)
    let files ← tokens.zipIdx.foldlM (saveToken outDir outcome) files
    .ok (d, files)

/-- What `load_auto` finds below `inDir`. -/
def autoFilesOf (files : SavedFiles) (inDir : Text) (i : Nat) : AutoFile :=
  match files (autoFileName inDir i) with
  | none => .missing
  | some bytes => .content bytes

end TriforceAFL.Spec
