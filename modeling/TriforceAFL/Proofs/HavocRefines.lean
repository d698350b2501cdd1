import TriforceAFL.Proofs.HavocMemory
import TriforceAFL.Proofs.Overwrite
import TriforceAFL.Proofs.QueueLengths

/-!
# `TriforceAFL.Proofs.HavocRefines`: the random stages on memory refine those on lists

A session answers the questions of the programs on memory (`havocAnswer`) and takes no step for
their reports. Run in this way, the havoc stage and the splicing take the same steps as those of
`TriforceAFL.Spec.Havoc` (`sim_havocStage`, `sim_splice`).

The relation between `out_buf` and the list is `BeginsWith`: the block begins with the list, whose
length is `temp_len`. So an access below `temp_len` does the same to both, and the rest of the block
does not matter.
-/

set_option autoImplicit false

namespace TriforceAFL.Proofs

open Lib Lib.Process Spec Spec.HavocMemory

/-! ### Accesses below `temp_len` -/

section Append
variable (buf rest : List U8)

/-- What `memcpy` reads. -/
theorem slice_append {start n : Nat} (h : start + n ≤ buf.length) :
    Session.slice (buf ++ rest) start n = Session.slice buf start n := by
  unfold Session.slice
  rw [List.drop_append_of_le_length (by omega), List.take_append_of_le_length]
  rw [List.length_drop]
  omega

/-- What `memcpy` and `memset` write. -/
theorem overwrite_append {pos : Nat} {data : List U8} (h : pos + data.length ≤ buf.length) :
    Session.overwrite (buf ++ rest) pos data = Session.overwrite buf pos data ++ rest := by
  unfold Session.overwrite
  rw [List.take_append_of_le_length (by omega), List.drop_append_of_le_length h,
    List.append_assoc, List.append_assoc, List.append_assoc]

/-- Writing a word. -/
theorem store_append {n pos : Nat} (word : BitVec (8 * n)) (h : pos + n ≤ buf.length) :
    store n (buf ++ rest) pos word = store n buf pos word ++ rest := by
  unfold store
  rw [List.mapIdx_append]
  congr 1
  refine List.ext_getElem (by simp) fun j hj _ => ?_
  rw [List.getElem_mapIdx, if_neg (by omega)]

/-- Reading a word. -/
theorem load_append {n pos : Nat} (h : pos + n ≤ buf.length) :
    load n (buf ++ rest) pos = load n buf pos := by
  apply eq_of_byteAt_eq
  intro i hi
  rw [byteAt_load _ _ _ hi, byteAt_load _ _ _ hi]
  unfold byteOf
  rw [List.getD_append _ _ _ _ (by omega)]

/-- Changing a byte. -/
theorem modify_append {pos : Nat} (f : U8 → U8) (h : pos < buf.length) :
    (buf ++ rest).modify pos f = buf.modify pos f ++ rest := by
  refine List.ext_getElem? fun j => ?_
  by_cases hj : j < buf.length
  · rw [List.getElem?_append_left (by rwa [List.length_modify]), List.getElem?_modify,
      List.getElem?_modify, List.getElem?_append_left hj]
  · rw [List.getElem?_append_right (by rw [List.length_modify]; omega), List.length_modify,
      List.getElem?_modify, List.getElem?_append_right (by omega)]
    have hne : pos ≠ j := by omega
    simp [hne]

omit buf rest in
/-- A write behind what was written before. -/
theorem overwrite_at_length (done next data : List U8) :
    Session.overwrite (done ++ next) done.length data = done ++ data ++ next.drop data.length := by
  unfold Session.overwrite
  rw [List.take_left, List.drop_append, Nat.add_sub_cancel_left,
    List.drop_eq_nil_of_le (Nat.le_add_right _ _), List.nil_append]

omit buf rest in
/-- A file that is read into a block of its length. -/
theorem overwrite_whole {newBuf file : List U8} (hlen : newBuf.length = file.length) :
    Session.overwrite newBuf 0 (Session.slice file 0 file.length) = file := by
  have hall : Session.slice file 0 file.length = file := List.take_length
  have hwrite := overwrite_at_length [] newBuf file
  rw [hall]
  refine hwrite.trans ?_
  rw [List.nil_append, List.drop_eq_nil_of_le hlen.le, List.append_nil]

omit buf rest in
/-- The head of one buffer is copied over another one. -/
theorem overwrite_head {origIn file : List U8} {n : Nat} (hn : n ≤ origIn.length) :
    Session.overwrite file 0 (Session.slice origIn 0 n) = origIn.take n ++ file.drop n := by
  have hhead : (Session.slice origIn 0 n).length = n := length_slice origIn (by omega)
  refine (overwrite_at_length [] file (Session.slice origIn 0 n)).trans ?_
  rw [hhead]
  rfl

/-- Head, inserted part and tail fill a new block. -/
theorem overwrite_insertAt {newBuf block : List U8} {pos : Nat} (hpos : pos ≤ buf.length)
    (hnew : newBuf.length = buf.length + block.length) :
    Session.overwrite (Session.overwrite (Session.overwrite newBuf 0 (buf.take pos)) pos block)
      (pos + block.length) (buf.drop pos) = Session.insertAt buf pos block := by
  have hhead : (buf.take pos).length = pos := List.length_take_of_le hpos
  have hboth : (buf.take pos ++ block).length = pos + block.length := by
    rw [List.length_append, hhead]
  have h₁ := overwrite_at_length [] newBuf (buf.take pos)
  have h₂ := overwrite_at_length (buf.take pos) (newBuf.drop pos) block
  have h₃ := overwrite_at_length (buf.take pos ++ block) ((newBuf.drop pos).drop block.length)
    (buf.drop pos)
  rw [List.nil_append, List.nil_append, List.length_nil] at h₁
  rw [hhead] at h₂
  rw [hboth] at h₃
  have hfull : ((newBuf.drop pos).drop block.length).drop (buf.drop pos).length = [] := by
    apply List.drop_eq_nil_of_le
    simp only [List.length_drop]
    omega
  rw [h₁, hhead, h₂, h₃, hfull, List.append_nil]
  rfl

end Append

/-! ### The answers of a session -/

section Session
variable {mapSize : Nat}

/-- What a session says about a splicing round. -/
def spliceGlobalsOf (q : Ptr) (s : Session mapSize) : SpliceGlobals where
  useSplicing := s.useSplicing
  queuedPaths := s.globals.queuedPaths
  currentEntry := s.op.currentEntry
  curLen := (s.globals.entry q).len

/-- A session answers the questions. Fresh memory has the contents `fresh`. -/
def havocAnswer (w : World mapSize) (q : Ptr) (fresh : Nat → List U8) :
    (x : HavocAsk) → Fuzz mapSize x.Answer
  | .ur limit => Session.ur w limit
  | .over10m => Process.step fun s => .ok (w.over10m s.clock, s.tick)
  | .queueCycle => do
      let s ← Process.get
      pure s.globals.queueCycle
  | .dict => do
      let s ← Process.get
      pure s.dict
  | .alloc size => pure (fresh size)
  | .setStacking useStacking => Session.setOp fun op => { op with stageCurVal := useStacking }
  | .exec buf => Session.commonFuzzStuff w buf
  | .queuedPaths => do
      let s ← Process.get
      pure s.globals.queuedPaths
  | .havocDiv => do
      let s ← Process.get
      pure s.havocDiv
  | .enterStage splicing => Session.setOp fun op => { op with
      stageCurByte := -1
      stageShort := if splicing then "splice".toList else "havoc".toList }
  | .spliceGlobals => do
      let s ← Process.get
      pure (spliceGlobalsOf q s)
  | .target tid => do
      let s ← Process.get
      let g := s.globals
      let target ← Session.seekTarget g tid
      let (target, splicingWith) := Session.skipTargets g q g.entries.length target tid
      Session.setOp fun op => { op with splicingWith }
      match target with
      | none => pure none
      | some p => do
          let file ← Session.readCase (g.entry p).fname (g.entry p).len
          pure (some file)
  | .outOfBudget => Process.exit .outOfBudget
  | .access _ _ _ | .lengths _ _ _ | .refill _ _ => pure ()

variable (w : World mapSize) (q : Ptr) (fresh : Nat → List U8)

/-- A program of the stages, run by a session. -/
def inSession {α : Type} (p : Havoc α) : Fuzz mapSize α := Asks.interp (havocAnswer w q fresh) p

section Rules
variable {α β : Type}

/-- A program that asks nothing. -/
@[simp]
theorem inSession_pure (a : α) : inSession w q fresh (pure a) = pure a := rfl

/-- Programs one after the other. -/
@[simp]
theorem inSession_bind (p : Havoc α) (f : α → Havoc β) :
    inSession w q fresh (p >>= f) = inSession w q fresh p >>= fun a => inSession w q fresh (f a) :=
  Asks.interp_bind (havocAnswer w q fresh) p f

/-- A branch. -/
@[simp]
theorem inSession_ite (c : Prop) [Decidable c] (p p' : Havoc α) :
    inSession w q fresh (if c then p else p') =
      if c then inSession w q fresh p else inSession w q fresh p' :=
  Asks.interp_ite (havocAnswer w q fresh) c p p'

/-- A question gets the answer of the session. -/
theorem inSession_ask (x : HavocAsk) : inSession w q fresh (ask x) = havocAnswer w q fresh x :=
  Asks.interp_query (havocAnswer w q fresh) x

/-- `UR`. -/
@[simp]
theorem inSession_ur (limit : Nat) : inSession w q fresh (ur limit) = Session.ur w limit :=
  inSession_ask w q fresh (.ur limit)

/-- A memory access needs no answer. -/
@[simp]
theorem inSession_access (block : List α) (pos n : Nat) :
    inSession w q fresh (access block pos n) = pure () :=
  inSession_ask w q fresh (.access block.length pos n)

/-- `ck_alloc_nozero`. What the block holds at first is left open. -/
@[simp]
theorem inSession_ckAllocNozero (size : Nat) :
    inSession w q fresh (ckAllocNozero size) = pure (fresh size) :=
  inSession_ask w q fresh (.alloc size)

/-- `memcpy`, with its two accesses. -/
@[simp]
theorem inSession_memcpy (dst src : List U8) (dstPos srcPos n : Nat) :
    inSession w q fresh (memcpy dst dstPos src srcPos n) =
      pure (Session.overwrite dst dstPos (Session.slice src srcPos n)) := by
  simp only [memcpy, inSession_bind, inSession_access, inSession_pure, pure_bind]

/-- `memset`, with its access. -/
@[simp]
theorem inSession_memset (dst : List U8) (pos : Nat) (value : U8) (n : Nat) :
    inSession w q fresh (memset dst pos value n) =
      pure (Session.overwrite dst pos (List.replicate n value)) := by
  simp only [memset, inSession_bind, inSession_access, inSession_pure, pure_bind]

end Rules

end Session

/-- `out_buf` carries `buf` in its first `temp_len` bytes. -/
structure BeginsWith (b : OutBuf) (buf : List U8) : Prop where
  tempLen_eq : b.tempLen = buf.length
  mem_eq : ∃ rest, b.mem = buf ++ rest
  pos : 1 ≤ buf.length
  le_max : buf.length ≤ MAX_FILE

/-- A tweak in place. -/
theorem BeginsWith.of_append {b : OutBuf} {mem buf buf' : List U8} (hb : BeginsWith b buf)
    (hmem : ∃ rest, mem = buf' ++ rest) (hlen : buf'.length = buf.length) :
    BeginsWith { b with mem } buf' where
  tempLen_eq := hb.tempLen_eq.trans hlen.symm
  mem_eq := hmem
  pos := hlen.symm ▸ hb.pos
  le_max := hlen.symm ▸ hb.le_max

section Tweaks
variable {mapSize : Nat} {w : World mapSize} {q : Ptr} {fresh : Nat → List U8}
  {I : Session mapSize → Prop} (hI : ∀ s, I s → I s.tick)
include hI

/-- Both sides draw the same number. -/
theorem sim_ur {limit limit' : Nat} (h : limit = limit') :
    Sim I (Session.ur w limit) (Session.ur w limit') fun a b s => (a = b ∧ a < limit) ∧ I s := by
  subst h
  refine ⟨fun s hs => ?_⟩
  by_cases hlimit : limit = 0
  · have hrun : Session.ur w limit s = ⟨[s], .error .divisionByZero, s⟩ := by
      simp only [Session.ur, Process.step, if_pos hlimit]
    exact ⟨[s], s, Or.inl ⟨.divisionByZero, hrun, hrun⟩⟩
  · have hrun : Session.ur w limit s = ⟨[s], .ok (w.random s.clock % limit), s.tick⟩ := by
      simp only [Session.ur, Process.step, if_neg hlimit]
    have hlt : w.random s.clock % limit < limit := Nat.mod_lt _ (Nat.pos_of_ne_zero hlimit)
    exact ⟨[s], s.tick, Or.inr ⟨_, _, hrun, hrun, ⟨rfl, hlt⟩, hI s hs⟩⟩

/-- Both sides draw the same number. -/
theorem sim_ur_bind {α β : Type} {f : Nat → Fuzz mapSize α} {g : Nat → Fuzz mapSize β}
    {R : α → β → Session mapSize → Prop} {limit limit' : Nat} (h : limit = limit')
    (hfg : ∀ r, r < limit → Sim I (f r) (g r) R) :
    Sim I (Session.ur w limit >>= f) (Session.ur w limit' >>= g) R := by
  refine (sim_ur hI h).bind_of_fact ?_
  rintro r _ ⟨rfl, hr⟩
  exact hfg r hr

/-- `choose_block_len`. -/
theorem sim_chooseBlockLen {limit limit' : Nat} (h : limit = limit') (hlimit : 1 ≤ limit) :
    Sim I (inSession w q fresh (chooseBlockLen limit)) (Session.chooseBlockLen w limit')
      fun a b s => (a = b ∧ 1 ≤ a ∧ a ≤ limit ∧ a ≤ HAVOC_BLK_LARGE) ∧ I s := by
  subst h
  have hcycle : Sim I (inSession w q fresh (ask .queueCycle)) Process.get
      fun (a : Nat) t s => a = t.globals.queueCycle ∧ I s :=
    ⟨fun s hs => ⟨[], s, Or.inr ⟨_, s, rfl, rfl, rfl, hs⟩⟩⟩
  have hover : Sim I (inSession w q fresh (ask .over10m))
      (Process.step fun s => .ok (w.over10m s.clock, s.tick))
      fun (a : Bool) b s => a = b ∧ I s :=
    ⟨fun s hs => ⟨[s], s.tick, Or.inr ⟨_, _, rfl, rfl, rfl, hI s hs⟩⟩⟩
  unfold chooseBlockLen Session.chooseBlockLen
  simp only [inSession_bind, inSession_ur, inSession_pure]
  refine hcycle.bind_of_fact ?_
  rintro _ t rfl
  refine hover.bind_of_fact ?_
  rintro over10m _ rfl
  refine sim_ur_bind hI rfl fun c _ => ?_
  obtain ⟨hone, hle, hlarge⟩ := blockRange_bounds c
  refine sim_ur_bind hI ?_ fun r hr => ?_
  · split <;> omega
  · refine Sim.pure fun s hs => ⟨⟨rfl, ?_⟩, hs⟩
    split at hr <;> split <;> omega

/-- A value of a table. -/
theorem sim_pickInteresting (table : List Int) :
    Sim I (inSession w q fresh (pickInteresting table)) (Session.pickInteresting w table)
      fun a b s => a = b ∧ I s := by
  unfold pickInteresting Session.pickInteresting
  simp only [inSession_bind, inSession_ur, inSession_access, inSession_pure, pure_bind]
  refine sim_ur_bind hI rfl fun i _ => ?_
  exact Sim.pure fun s hs => ⟨rfl, hs⟩

variable {b : OutBuf} {buf : List U8} (hb : BeginsWith b buf)

/-- The tweaks of a buffer run in step. -/
abbrev SimTweak (I : Session mapSize → Prop) (p : Fuzz mapSize OutBuf)
    (p' : Fuzz mapSize (List U8)) : Prop :=
  Sim I p p' fun b buf s => BeginsWith b buf ∧ I s

include hb

/-- Writing an interesting value. -/
theorem sim_setInteresting {n : Nat} (hn : 0 < n) (swap : BitVec (8 * n) → BitVec (8 * n))
    (table : List Int) :
    SimTweak I (inSession w q fresh (setInteresting n swap table b))
      (Session.setInteresting w n swap table buf) := by
  have htemp := hb.tempLen_eq
  obtain ⟨rest, hmem⟩ := hb.mem_eq
  unfold setInteresting Session.setInteresting
  simp only [inSession_ite, inSession_bind, inSession_pure, inSession_access, inSession_ur,
    pure_bind]
  refine Sim.ite (by rw [htemp]) (fun _ => Sim.pure fun s hs => ⟨hb, hs⟩) fun hlen => ?_
  refine sim_ur_bind hI rfl fun native _ => ?_
  refine sim_ur_bind hI (by rw [htemp]) fun pos hpos => ?_
  refine (sim_pickInteresting hI table).bind_of_fact ?_
  rintro v _ rfl
  refine Sim.pure fun s hs => ⟨hb.of_append ⟨rest, ?_⟩ (length_store _ _ _ _), hs⟩
  rw [hmem, store_append _ _ _ (by omega)]

/-- Adding or subtracting a random number. -/
theorem sim_randomArith {n : Nat} (hn : 0 < n) (swap : BitVec (8 * n) → BitVec (8 * n))
    (f : BitVec (8 * n) → BitVec (8 * n) → BitVec (8 * n)) :
    SimTweak I (inSession w q fresh (randomArith n swap f b))
      (Session.randomArith w n swap f buf) := by
  have htemp := hb.tempLen_eq
  obtain ⟨rest, hmem⟩ := hb.mem_eq
  unfold randomArith Session.randomArith
  simp only [inSession_ite, inSession_bind, inSession_pure, inSession_access, inSession_ur,
    pure_bind]
  refine Sim.ite (by rw [htemp]) (fun _ => Sim.pure fun s hs => ⟨hb, hs⟩) fun hlen => ?_
  refine sim_ur_bind hI rfl fun native _ => ?_
  refine sim_ur_bind hI (by rw [htemp]) fun pos hpos => ?_
  refine sim_ur_bind hI rfl fun r _ => ?_
  refine Sim.pure fun s hs => ⟨hb.of_append ⟨rest, ?_⟩ (length_store _ _ _ _), hs⟩
  rw [hmem, load_append _ _ (by omega), store_append _ _ _ (by omega)]

/-- Changing a random byte. -/
theorem sim_changeByte (limit : Nat) (f : U8 → U8 → U8) :
    SimTweak I (inSession w q fresh (changeByte limit f b)) (Session.changeByte w limit f buf) := by
  have htemp := hb.tempLen_eq
  obtain ⟨rest, hmem⟩ := hb.mem_eq
  unfold changeByte Session.changeByte
  simp only [inSession_bind, inSession_pure, inSession_access, inSession_ur, pure_bind]
  refine sim_ur_bind hI htemp fun pos hpos => ?_
  refine sim_ur_bind hI rfl fun r _ => ?_
  refine Sim.pure fun s hs => ⟨hb.of_append ⟨rest, ?_⟩ (List.length_modify _ _ _), hs⟩
  rw [hmem, modify_append _ _ _ (by omega)]

/-- Deleting bytes. -/
theorem sim_deleteBlock :
    SimTweak I (inSession w q fresh (deleteBlock b)) (Session.deleteBlock w buf) := by
  have htemp := hb.tempLen_eq
  have hmax := hb.le_max
  obtain ⟨rest, hmem⟩ := hb.mem_eq
  unfold deleteBlock Session.deleteBlock
  simp only [inSession_ite, inSession_bind, inSession_pure, inSession_memcpy, inSession_ur,
    pure_bind]
  refine Sim.ite (by rw [htemp]) (fun _ => Sim.pure fun s hs => ⟨hb, hs⟩) fun hlen => ?_
  refine (sim_chooseBlockLen hI (by rw [htemp]) (by omega)).bind_of_fact ?_
  rintro delLen _ ⟨rfl, hdel⟩
  refine sim_ur_bind hI (by omega) fun delFrom hfrom => ?_
  have hlength : (Session.deleteAt buf delFrom delLen).length = buf.length - delLen :=
    length_deleteAt buf (by omega)
  refine Sim.pure fun s hs => ⟨⟨by dsimp only; omega, ?_, by omega, by omega⟩, hs⟩
  -- The bytes behind the deleted block move down, and the block keeps its size.
  have htail : Session.slice b.mem (delFrom + delLen) (b.tempLen - delFrom - delLen) =
      buf.drop (delFrom + delLen) := by
    rw [hmem, slice_append _ _ (by omega)]
    refine List.take_of_length_le ?_
    rw [List.length_drop]
    omega
  refine ⟨b.mem.drop (delFrom + (buf.drop (delFrom + delLen)).length), ?_⟩
  dsimp only
  rw [htail]
  unfold Session.overwrite Session.deleteAt
  rw [hmem, List.take_append_of_le_length (by omega)]

variable (hfresh : ∀ size, (fresh size).length = size)
include hfresh

omit hI in
/-- An insertion with a limit that was checked before. The inserted part is written by `fill` here
and is the result of `block` there. -/
theorem sim_insertBlock {pos n : Nat} {fill : List U8 → Havoc (List U8)}
    {block : Fuzz mapSize (List U8)} (hpos : pos < buf.length) (hroom : buf.length + n ≤ MAX_FILE)
    (hfill : ∀ newBuf : List U8, newBuf.length = buf.length + n →
      Sim I (inSession w q fresh (fill newBuf)) block fun newBuf' data s =>
        (data.length = n ∧ newBuf' = Session.overwrite newBuf pos data) ∧ I s) :
    SimTweak I (inSession w q fresh (insertBlock b pos n fill)) (do
      let data ← block
      pure (Session.insertAt buf pos data)) := by
  have htemp := hb.tempLen_eq
  have hone := hb.pos
  obtain ⟨rest, hmem⟩ := hb.mem_eq
  have hhead : Session.slice b.mem 0 pos = buf.take pos := by
    rw [hmem, slice_append _ _ (by omega)]
    rfl
  have htail : Session.slice b.mem pos (b.tempLen - pos) = buf.drop pos := by
    rw [hmem, slice_append _ _ (by omega)]
    refine List.take_of_length_le ?_
    rw [List.length_drop]
    omega
  unfold insertBlock
  simp only [inSession_bind, inSession_pure, inSession_memcpy, inSession_ckAllocNozero, pure_bind,
    hhead, htail]
  have hlen : (Session.overwrite (fresh (b.tempLen + n)) 0 (buf.take pos)).length =
      buf.length + n := by
    rw [length_overwrite, hfresh, htemp]
    rw [hfresh, List.length_take]
    omega
  refine (hfill _ hlen).bind_of_fact ?_
  rintro _ data ⟨hdata, rfl⟩
  subst hdata
  refine Sim.pure fun s hs => ⟨⟨?_, ⟨[], ?_⟩, ?_, ?_⟩, hs⟩
  · rw [length_insertAt, htemp]
  · rw [List.append_nil]
    exact overwrite_insertAt buf hpos.le (by rw [hfresh, htemp])
  · rw [length_insertAt]
    omega
  · rw [length_insertAt]
    exact hroom

/-- The inserted part is a block of the buffer or of constant bytes. -/
theorem sim_cloneBlock :
    SimTweak I (inSession w q fresh (cloneBlock b)) (Session.cloneBlock w buf) := by
  have htemp := hb.tempLen_eq
  have hone := hb.pos
  unfold cloneBlock Session.cloneBlock
  simp only [inSession_ite, inSession_bind, inSession_pure, inSession_ur]
  refine Sim.ite (by rw [htemp]) (fun hroom => ?_) fun _ => Sim.pure fun s hs => ⟨hb, hs⟩
  refine (sim_chooseBlockLen hI htemp (by omega)).bind_of_fact ?_
  rintro cloneLen _ ⟨rfl, hclone⟩
  refine sim_ur_bind hI (by omega) fun cloneFrom hfrom => ?_
  refine sim_ur_bind hI htemp fun cloneTo hto => ?_
  refine sim_insertBlock hb hfresh (by omega) (by omega) fun newBuf hnew => ?_
  obtain ⟨rest, hmem⟩ := hb.mem_eq
  have hslice : Session.slice b.mem cloneFrom cloneLen = Session.slice buf cloneFrom cloneLen := by
    rw [hmem, slice_append _ _ (by omega)]
  unfold Session.randomBlock
  simp only [inSession_ite, inSession_bind, inSession_memcpy, inSession_memset, inSession_ur]
  refine sim_ur_bind hI rfl fun copy _ => ?_
  refine Sim.ite Iff.rfl (fun _ => Sim.pure fun s hs => ⟨⟨?_, by rw [hslice]⟩, hs⟩) fun _ => ?_
  · exact length_slice buf (by omega)
  · refine sim_ur_bind hI rfl fun value _ => ?_
    exact Sim.pure fun s hs => ⟨⟨List.length_replicate, rfl⟩, hs⟩

omit hfresh in
/-- Overwriting bytes with a chunk of the buffer, or with one value. -/
theorem sim_overwriteBlock :
    SimTweak I (inSession w q fresh (overwriteBlock b)) (Session.overwriteBlock w buf) := by
  have htemp := hb.tempLen_eq
  obtain ⟨rest, hmem⟩ := hb.mem_eq
  unfold overwriteBlock Session.overwriteBlock Session.randomBlock
  simp only [inSession_ite, inSession_bind, inSession_pure, inSession_memcpy, inSession_memset,
    inSession_ur, pure_bind, bind_assoc]
  refine Sim.ite (by rw [htemp]) (fun _ => Sim.pure fun s hs => ⟨hb, hs⟩) fun hlen => ?_
  refine (sim_chooseBlockLen hI (by rw [htemp]) (by omega)).bind_of_fact ?_
  rintro copyLen _ ⟨rfl, hcopy⟩
  refine sim_ur_bind hI (by omega) fun copyFrom hfrom => ?_
  refine sim_ur_bind hI (by omega) fun copyTo hto => ?_
  have hplace : ∀ data : List U8, data.length = copyLen → ∀ s, I s →
      BeginsWith { b with mem := Session.overwrite b.mem copyTo data }
        (Session.overwrite buf copyTo data) ∧ I s := by
    intro data hdata s hs
    have hin : copyTo + data.length ≤ buf.length := by omega
    refine ⟨hb.of_append ⟨rest, ?_⟩ (length_overwrite buf data hin), hs⟩
    rw [hmem, overwrite_append _ _ hin]
  refine sim_ur_bind hI rfl fun copy _ => ?_
  by_cases hcopy' : copy ≠ 0
  · have hslice : Session.slice b.mem copyFrom copyLen = Session.slice buf copyFrom copyLen := by
      rw [hmem, slice_append _ _ (by omega)]
    rw [if_pos hcopy', if_pos hcopy', pure_bind, hslice]
    split
    · exact Sim.pure (hplace _ (length_slice buf (by omega)))
    · rename_i hsame
      rw [not_not] at hsame
      rw [hsame, overwrite_slice]
      exact Sim.pure fun s hs => ⟨hb, hs⟩
  · rw [if_neg hcopy', if_neg hcopy', bind_assoc]
    refine sim_ur_bind hI rfl fun value _ => ?_
    rw [pure_bind]
    exact Sim.pure (hplace _ List.length_replicate)

variable {d : Dictionary} (hd : ∀ s, I s → s.dict = d)
include hd

omit hb hfresh in
/-- A user token or an auto-detected one. -/
theorem sim_pickExtra :
    Sim I (inSession w q fresh (pickExtra d)) (Session.pickExtra w) fun a b s => a = b ∧ I s := by
  have hchoose : Sim I (inSession w q fresh (chooseAuto d)) (Session.chooseAuto w d)
      fun a b s => a = b ∧ I s := by
    unfold chooseAuto Session.chooseAuto
    simp only [inSession_ite, inSession_bind, inSession_pure, inSession_ur]
    refine Sim.ite Iff.rfl (fun _ => Sim.pure fun s hs => ⟨rfl, hs⟩) fun _ => ?_
    refine Sim.ite Iff.rfl (fun _ => Sim.pure fun s hs => ⟨rfl, hs⟩) fun _ => ?_
    refine sim_ur_bind hI rfl fun r _ => ?_
    exact Sim.pure fun s hs => ⟨rfl, hs⟩
  unfold pickExtra Session.pickExtra
  simp only [inSession_bind, inSession_pure, inSession_access, inSession_ur, pure_bind]
  refine Sim.get_right fun t ht => ?_
  rw [hd t ht]
  refine (hchoose.mono (fun s (hs : s = t) => hs.symm ▸ ht) fun _ _ _ h => h).bind_of_fact ?_
  rintro useAuto _ rfl
  refine sim_ur_bind hI rfl fun i _ => ?_
  exact Sim.pure fun s hs => ⟨rfl, hs⟩

omit hfresh in
/-- Overwriting bytes with a token. -/
theorem sim_overwriteExtra :
    SimTweak I (inSession w q fresh (overwriteExtra d b)) (Session.overwriteExtra w buf) := by
  have htemp := hb.tempLen_eq
  obtain ⟨rest, hmem⟩ := hb.mem_eq
  unfold overwriteExtra Session.overwriteExtra
  simp only [inSession_ite, inSession_bind, inSession_pure, inSession_memcpy, inSession_ur,
    pure_bind]
  refine (sim_pickExtra hI hd).bind_of_fact ?_
  rintro data _ rfl
  refine Sim.ite (by rw [htemp]) (fun _ => Sim.pure fun s hs => ⟨hb, hs⟩) fun hlen => ?_
  refine sim_ur_bind hI (by omega) fun pos hpos => ?_
  have hin : pos + data.length ≤ buf.length := by omega
  have hdata : Session.slice data 0 data.length = data := List.take_length
  rw [hdata]
  refine Sim.pure fun s hs => ⟨hb.of_append ⟨rest, ?_⟩ (length_overwrite buf data hin), hs⟩
  rw [hmem, overwrite_append _ _ hin]

/-- Inserting a token. -/
theorem sim_insertExtra :
    SimTweak I (inSession w q fresh (insertExtra d b)) (Session.insertExtra w buf) := by
  have htemp := hb.tempLen_eq
  unfold insertExtra Session.insertExtra
  simp only [inSession_ite, inSession_bind, inSession_pure, inSession_ur]
  refine sim_ur_bind hI htemp fun pos hpos => ?_
  refine (sim_pickExtra hI hd).bind_of_fact ?_
  rintro data _ rfl
  refine Sim.ite (by rw [htemp]) (fun _ => Sim.pure fun s hs => ⟨hb, hs⟩) fun hroom => ?_
  have hdata : Session.slice data 0 data.length = data := List.take_length
  rw [← pure_bind (m := Fuzz mapSize) data fun data => pure (Session.insertAt buf pos data)]
  refine sim_insertBlock hb hfresh (by omega) (by omega) fun newBuf _ => ?_
  rw [inSession_memcpy, hdata]
  exact Sim.pure fun s hs => ⟨⟨rfl, rfl⟩, hs⟩

end Tweaks

/-! ### The stages -/

section Stages
variable {mapSize : Nat} (w : World mapSize) (q : Ptr) {fresh : Nat → List U8}
  (hfresh : ∀ size, (fresh size).length = size)
variable {b : OutBuf}
include hfresh

/-- No condition on the state. -/
abbrev AnyState (_ : Session mapSize) : Prop := True

omit hfresh in
/-- A question, and the same step of a session. -/
theorem sim_ask (x : HavocAsk) :
    Sim AnyState (inSession w q fresh (ask x)) (havocAnswer w q fresh x)
      fun a b s => a = b ∧ AnyState s := by
  rw [inSession_ask]
  exact Sim.refl fun _ _ _ _ => trivial

/-- One tweak, whichever the die gives. -/
theorem sim_havocTweak {buf : List U8} (hb : BeginsWith b buf) :
    SimTweak AnyState (inSession w q fresh (havocTweak b)) (Session.havocTweak w buf) := by
  have htemp := hb.tempLen_eq
  have hmax := hb.le_max
  obtain ⟨rest, hmem⟩ := hb.mem_eq
  have hdict : Sim AnyState (inSession w q fresh (ask .dict)) Process.get
      fun (d : Dictionary) t s => d = t.dict ∧ s.dict = d :=
    ⟨fun s _ => ⟨[], s, Or.inr ⟨_, s, rfl, rfl, rfl, rfl⟩⟩⟩
  unfold havocTweak Session.havocTweak
  simp only [inSession_bind, inSession_ur]
  refine hdict.bind_of_fact ?_
  rintro _ t rfl
  -- The tokens were counted before the draw, and a draw does not change them.
  have hI : ∀ s : Session mapSize, s.dict = t.dict → s.tick.dict = t.dict := fun s hs => hs
  refine Sim.mono (R := fun b buf s => BeginsWith b buf ∧ s.dict = t.dict) ?_ (fun s hs => hs)
    fun _ _ _ h => ⟨h.1, trivial⟩
  refine sim_ur_bind hI rfl fun c _ => ?_
  -- The cases of the switch, in its order.
  rcases c with _ | _ | _ | _ | _ | _ | _ | _ | _ | _ | _ | _ | _ | _ | _ | _ | c
  · simp only [inSession_bind, inSession_pure, inSession_access, inSession_ur, pure_bind]
    refine sim_ur_bind hI ?_ fun bit hbit => ?_
    · rw [htemp, Nat.shiftLeft_eq]
      unfold MAX_FILE at hmax
      omega
    · refine Sim.pure fun s hs => ⟨hb.of_append ⟨rest, ?_⟩ (length_flipBit _ _), hs⟩
      rw [hmem]
      refine modify_append _ _ _ ?_
      rw [htemp, Nat.shiftLeft_eq] at hbit
      rw [Nat.shiftRight_eq_div_pow]
      omega
  · simp only [inSession_bind, inSession_pure, inSession_access, inSession_ur, pure_bind]
    refine sim_ur_bind hI htemp fun pos hpos => ?_
    refine (sim_pickInteresting hI interesting8).bind_of_fact ?_
    rintro v _ rfl
    refine Sim.pure fun s hs => ⟨hb.of_append ⟨rest, ?_⟩ List.length_set, hs⟩
    rw [hmem, List.set_append_left _ _ (by omega)]
  · exact sim_setInteresting hI hb (by decide) _ _
  · exact sim_setInteresting hI hb (by decide) _ _
  · exact sim_changeByte hI hb _ _
  · exact sim_changeByte hI hb _ _
  · exact sim_randomArith hI hb (by decide) _ _
  · exact sim_randomArith hI hb (by decide) _ _
  · exact sim_randomArith hI hb (by decide) _ _
  · exact sim_randomArith hI hb (by decide) _ _
  · exact sim_changeByte hI hb _ _
  · exact sim_deleteBlock hI hb
  · exact sim_deleteBlock hI hb
  · exact sim_cloneBlock hI hb hfresh
  · exact sim_overwriteBlock hI hb
  · exact sim_overwriteExtra hI hb fun s hs => hs
  · exact sim_insertExtra hI hb hfresh fun s hs => hs

/-- The stacked tweaks of one execution. -/
theorem sim_havocStack (len n : Nat) {buf : List U8} (hb : BeginsWith b buf) :
    SimTweak AnyState (inSession w q fresh (havocStack len n b)) (Session.havocStack w n buf) := by
  -- The report of the lengths is no step of the session.
  have hreport : ∀ p : Havoc OutBuf, inSession w q fresh (do
      ask (.lengths b.mem.length b.tempLen len)
      p) = inSession w q fresh p :=
    fun p => pure_bind (m := Fuzz mapSize) () fun _ => inSession w q fresh p
  induction n generalizing b buf with
  | zero =>
    unfold havocStack Session.havocStack
    rw [hreport]
    exact Sim.pure fun s _ => ⟨hb, trivial⟩
  | succ n ih =>
    unfold havocStack Session.havocStack
    rw [hreport, inSession_bind]
    refine (sim_havocTweak w q hfresh hb).bind_of_fact fun b' buf' hb' => ih hb' fun p => ?_
    exact pure_bind (m := Fuzz mapSize) () fun _ => inSession w q fresh p

omit hfresh in
/-- After the refill, `out_buf` begins with the input again. -/
theorem inSession_refill (fresh : Nat → List U8) (inBuf : List U8) (b : OutBuf) :
    ∃ rest, inSession w q fresh (refill inBuf b) =
      pure { mem := inBuf ++ rest, tempLen := inBuf.length } := by
  have hrealloc : ∃ mem, inSession w q fresh
      (if b.tempLen < inBuf.length then ckRealloc b.mem inBuf.length else pure b.mem) =
        pure mem := by
    split
    · exact ⟨b.mem.take inBuf.length ++ (fresh inBuf.length).drop b.mem.length,
        pure_bind (m := Fuzz mapSize) (fresh inBuf.length) fun block =>
          pure (b.mem.take inBuf.length ++ block.drop b.mem.length)⟩
    · exact ⟨b.mem, rfl⟩
  obtain ⟨mem, hmem⟩ := hrealloc
  have hwrite : Session.overwrite mem 0 (Session.slice inBuf 0 inBuf.length) =
      inBuf ++ mem.drop inBuf.length := by
    have hall : Session.slice inBuf 0 inBuf.length = inBuf := List.take_length
    rw [hall]
    exact overwrite_at_length [] mem inBuf
  refine ⟨mem.drop inBuf.length, ?_⟩
  unfold refill
  rw [inSession_bind, hmem, pure_bind]
  simp only [inSession_bind, inSession_memcpy, inSession_pure, pure_bind, hwrite]
  exact pure_bind (m := Fuzz mapSize) () fun _ => _

omit hfresh in
/-- The bytes in use are the buffer. -/
theorem BeginsWith.bytes_eq {buf : List U8} (hb : BeginsWith b buf) :
    b.bytes = buf := by
  obtain ⟨rest, hmem⟩ := hb.mem_eq
  rw [OutBuf.bytes, hmem, hb.tempLen_eq, List.take_left]

variable {inBuf : List U8} (hpos : 1 ≤ inBuf.length) (hmax : inBuf.length ≤ MAX_FILE)
include hpos hmax

/-- The executions of the stage. -/
theorem sim_havocLoop (budget : Nat) (h : Session.HavocState) (hb : BeginsWith b inBuf) :
    Sim AnyState (inSession w q fresh (havocLoop inBuf budget h b))
      (Session.havocLoop w inBuf budget h) fun r bail _ => r.isNone = bail := by
  induction budget generalizing h b with
  | zero => exact ⟨fun s _ => ⟨[], s, Or.inl ⟨.outOfBudget, rfl, rfl⟩⟩⟩
  | succ budget ih =>
    have hpaths : Sim AnyState (inSession w q fresh (ask .queuedPaths)) Process.get
        fun (n : Nat) t _ => n = t.globals.queuedPaths ∧ True :=
      ⟨fun s _ => ⟨[], s, Or.inr ⟨_, s, rfl, rfl, rfl, trivial⟩⟩⟩
    unfold havocLoop Session.havocLoop
    simp only [inSession_ite, inSession_bind, inSession_pure, inSession_ur, inSession_access,
      pure_bind]
    refine Sim.ite Iff.rfl (fun _ => ?_) fun _ => Sim.pure fun s _ => rfl
    refine sim_ur_bind (fun _ _ => trivial) rfl fun pow _ => ?_
    refine (sim_ask w q (.setStacking (1 <<< (1 + pow)))).bind_of_fact ?_
    rintro _ _ rfl
    refine (sim_havocStack w q hfresh inBuf.length _ hb).bind_of_fact ?_
    intro b' buf' hb'
    rw [hb'.bytes_eq]
    refine (sim_ask w q (.exec buf')).bind_of_fact ?_
    rintro bail _ rfl
    refine Sim.ite Iff.rfl (fun _ => Sim.pure fun s _ => rfl) fun _ => ?_
    obtain ⟨rest, hrefill⟩ := inSession_refill w q fresh inBuf b'
    rw [hrefill, pure_bind]
    refine hpaths.bind_of_fact ?_
    rintro _ t rfl
    exact ih _ ⟨rfl, ⟨rest, rfl⟩, hpos, hmax⟩

/-- The havoc stage of a session is the one on memory. -/
theorem sim_havocStage (splicing : Bool) {mem : List U8} (hmem : ∃ rest, mem = inBuf ++ rest)
    (perfScore : Nat) :
    Sim AnyState (inSession w q fresh (havocStage w.budget splicing inBuf mem perfScore))
      (Session.havocStage w splicing inBuf perfScore) fun r bail _ => r.isNone = bail := by
  have hdiv : Sim AnyState (inSession w q fresh (ask .havocDiv)) Process.get
      fun (n : Nat) t s => n = t.havocDiv ∧ s = t :=
    ⟨fun s _ => ⟨[], s, Or.inr ⟨_, s, rfl, rfl, rfl, rfl⟩⟩⟩
  unfold havocStage Session.havocStage
  simp only [inSession_bind]
  refine (sim_ask w q (.enterStage splicing)).bind_of_fact ?_
  rintro _ _ rfl
  refine hdiv.bind_of_fact ?_
  rintro _ t rfl
  refine Sim.look_left (g := fun s => s.globals.queuedPaths) (fun _ => rfl) ?_
  rintro _ rfl
  exact (sim_havocLoop w q hfresh hpos hmax w.budget _ ⟨rfl, hmem, hpos, hmax⟩).mono
    (fun _ _ => trivial) fun _ _ _ h => h

end Stages

/-- A world in which nothing happens. -/
def stillWorld : World (8 * 1) := { quietWorld [] with budget := 300 }

/-- Four bytes, in a block of six. -/
theorem sim_havocStage_word :
    Sim AnyState (inSession stillWorld 0 (List.replicate · 0)
        (havocStage 300 false [1, 2, 3, 4] [1, 2, 3, 4, 0, 0] 100))
      (Session.havocStage stillWorld false [1, 2, 3, 4] 100) fun r bail _ => r.isNone = bail :=
  sim_havocStage stillWorld 0 (fun _ => List.length_replicate) (by decide) (by decide) false
    ⟨[0, 0], rfl⟩ 100

/-! ### Splicing -/

section Splicing
variable {mapSize : Nat} (w : World mapSize) (q : Ptr) {fresh : Nat → List U8}

/-- The choice of the entry to splice with. -/
theorem sim_pickOther {I : Session mapSize → Prop} (hI : ∀ s, I s → I s.tick)
    (queuedPaths currentEntry budget : Nat) :
    Sim I (inSession w q fresh (pickOther queuedPaths currentEntry budget))
      (Session.pickOther w queuedPaths currentEntry budget) fun a b s => a = b ∧ I s := by
  induction budget with
  | zero => exact ⟨fun s _ => ⟨[], s, Or.inl ⟨.outOfBudget, rfl, rfl⟩⟩⟩
  | succ budget ih =>
    unfold pickOther Session.pickOther
    simp only [inSession_ite, inSession_bind, inSession_pure, inSession_ur]
    refine sim_ur_bind hI rfl fun tid _ => ?_
    exact Sim.ite Iff.rfl (fun _ => ih) fun _ => Sim.pure fun s hs => ⟨rfl, hs⟩

variable (hfresh : ∀ size, (fresh size).length = size)
include hfresh

/-- Reading that entry, and splicing. -/
theorem sim_spliceFile (origIn file : List U8) :
    Sim AnyState (inSession w q fresh (spliceFile origIn file))
      (match Session.locateDiffs origIn file with
      | none => pure none
      | some (fDiff, lDiff) =>
        if lDiff < 2 ∨ fDiff = lDiff then pure none
        else do
          let r ← Session.ur w (lDiff - fDiff)
          pure (some (origIn.take (fDiff + r) ++ file.drop (fDiff + r))))
      fun a b _ => a = b := by
  have hread : Session.overwrite (fresh file.length) 0 (Session.slice file 0 file.length) = file :=
    overwrite_whole (hfresh file.length)
  unfold spliceFile
  simp only [inSession_bind, inSession_ckAllocNozero, inSession_memcpy, inSession_access, pure_bind,
    hread]
  cases hdiffs : Session.locateDiffs origIn file with
  | none => exact Sim.pure fun s _ => rfl
  | some diffs =>
    obtain ⟨fDiff, lDiff⟩ := diffs
    obtain ⟨horder, hin, hfile⟩ := locateDiffs_bounds hdiffs
    simp only [inSession_ite, inSession_bind, inSession_pure, inSession_ur, inSession_memcpy,
      pure_bind]
    refine Sim.ite Iff.rfl (fun _ => Sim.pure fun s _ => rfl) fun hsuitable => ?_
    refine sim_ur_bind (fun _ _ => trivial) rfl fun r hr => ?_
    refine Sim.pure fun s _ => congrArg some ?_
    exact overwrite_head (by omega)

/-- Splicing in a session is the one on memory. -/
theorem sim_splice (origIn : List U8) (g : SpliceGlobals) :
    Sim (fun s => spliceGlobalsOf q s = g) (inSession w q fresh (splice w.budget g origIn))
      (Session.splice w q origIn) fun a b _ => a = b := by
  unfold splice Session.splice
  simp only [inSession_bind]
  refine Sim.get_right fun t ht => ?_
  subst ht
  have hI : ∀ s : Session mapSize, s.globals = t.globals → s.tick.globals = t.globals :=
    fun s hs => hs
  refine ((sim_pickOther w q hI _ _ _).mono (fun s (hs : s = t) => hs ▸ rfl)
    fun _ _ _ h => h).bind_of_fact ?_
  rintro tid _ rfl
  rw [inSession_ask w q fresh (.target tid)]
  simp only [havocAnswer, bind_assoc]
  refine Sim.look_left (g := fun s => s) (fun _ => rfl) ?_
  intro t' ht'
  rw [ht']
  have hstep : ∀ {α : Type} (p : Fuzz mapSize α),
      Sim AnyState p p fun a b s => a = b ∧ AnyState s :=
    fun p => Sim.refl fun _ _ _ _ => trivial
  refine ((hstep _).mono (fun _ _ => trivial) fun _ _ _ h => h).bind_of_fact ?_
  rintro found _ rfl
  refine (hstep _).bind_of_fact ?_
  rintro _ _ -
  cases (Session.skipTargets t.globals q t.globals.entries.length found tid).1 with
  | none =>
    rw [pure_bind]
    exact Sim.pure fun s _ => rfl
  | some p =>
    rw [bind_assoc]
    refine (hstep _).bind_of_fact ?_
    rintro file _ rfl
    rw [pure_bind]
    exact sim_spliceFile w q hfresh origIn file

end Splicing

/-- Two entries of four bytes. -/
theorem sim_splice_bytes :
    Sim (fun s => spliceGlobalsOf 0 s = ⟨true, 2, 0, 4⟩)
      (inSession stillWorld 0 (List.replicate · 0) (splice 300 ⟨true, 2, 0, 4⟩ [1, 2, 3, 4]))
      (Session.splice stillWorld 0 [1, 2, 3, 4]) fun a b _ => a = b :=
  sim_splice stillWorld 0 (fun _ => List.length_replicate) [1, 2, 3, 4] ⟨true, 2, 0, 4⟩

end TriforceAFL.Proofs
