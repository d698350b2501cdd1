import TriforceAFL.Proofs.Dictionary
import TriforceAFL.Proofs.Effector
import TriforceAFL.Proofs.Havoc
import TriforceAFL.Spec.Overwrite

/-!
# `TriforceAFL.Proofs.Overwrite`: dictionary tokens without a restore in between

The stages write one token after another at the same offset and restore the buffer only before the
next offset. They rely on tokens that are sorted by length: a token then covers everything that the
tokens before it have written.

`load_extras` sorts the user tokens, and `maybe_add_auto` the auto-detected tokens that are in use
(`Maintained.sorted_extras`, `Maintained.sorted_auto`). The invariant at an offset is `Clobbered`:
`out_buf` is the input with the token that was executed last, and this token is no longer than those
to come. `overwrite_stages_faithful` states what follows for every question of both stages.

`overwriteExtras_eq` shows that a session runs these programs.
-/

set_option autoImplicit false

namespace TriforceAFL.Proofs

open Lib Spec Spec.Overwrite

/-! ### Tokens written at one offset -/

section Write
variable (buf : List U8) {i : Nat}

theorem overwrite_nil (i : Nat) : Session.overwrite buf i [] = buf := by
  simp [Session.overwrite]

/-- A write covers an earlier one that is no longer. -/
theorem overwrite_overwrite {last data : List U8} (hlen : last.length ≤ data.length)
    (hfits : i + data.length ≤ buf.length) :
    Session.overwrite (Session.overwrite buf i last) i data = Session.overwrite buf i data := by
  have hi : (buf.take i).length = i := List.length_take_of_le (by omega)
  have htake : (buf.take i ++ last ++ buf.drop (i + last.length)).take i = buf.take i := by
    rw [List.append_assoc, List.take_append_of_le_length hi.ge, List.take_of_length_le hi.le]
  have hdrop : (buf.take i ++ last ++ buf.drop (i + last.length)).drop (i + data.length) =
      buf.drop (i + data.length) := by
    rw [List.drop_append, List.drop_eq_nil_of_le (by rw [List.length_append]; omega),
      List.nil_append, List.length_append, hi, List.drop_drop]
    congr 1
    omega
  unfold Session.overwrite
  rw [htake, hdrop]

/-- Writing what is there changes nothing. -/
theorem overwrite_slice (i n : Nat) : Session.overwrite buf i (Session.slice buf i n) = buf := by
  have hrest : buf.drop (i + ((buf.drop i).take n).length) = (buf.drop i).drop n := by
    rw [List.drop_drop, List.length_take, List.length_drop]
    rcases Nat.le_total n (buf.length - i) with h | h
    · rw [Nat.min_eq_left h]
    · rw [Nat.min_eq_right h, List.drop_eq_nil_of_le (by omega), List.drop_eq_nil_of_le (by omega)]
  unfold Session.overwrite Session.slice
  rw [hrest, List.append_assoc, List.take_append_drop, List.take_append_drop]

end Write

/-! ### Sorted tokens -/

/-- The tokens that calls of `load_extras` and `maybe_add_auto` can lead to. -/
inductive Maintained (env : DictEnv) (fs : Text → ExtrasSource) : Dictionary → Prop
  | start : Maintained env fs {}
  | loadExtras {d d' : Dictionary} (arg : Text) (hd : Maintained env fs d)
      (h : loadExtras env fs d arg = .ok d') : Maintained env fs d'
  | maybeAddAuto {d : Dictionary} (mem : List U8) (draw : Nat) (hd : Maintained env fs d) :
      Maintained env fs (maybeAddAuto env d mem draw)

section Sorted
variable {env : DictEnv} {fs : Text → ExtrasSource} {d : Dictionary}

theorem Maintained.sorted_extras (h : Maintained env fs d) : SortedByLen d.extras := by
  induction h with
  | start => exact List.Pairwise.nil
  | loadExtras arg _ hload _ => exact (loadExtras_spec hload).2
  | maybeAddAuto mem draw _ ih => rwa [extras_maybeAddAuto]

/-- The second sort covers the tokens in use. -/
theorem sorted_sortAuto (env : DictEnv) (aExtras : List Extra) :
    SortedByLen ((sortAuto env aExtras).take USE_AUTO_EXTRAS) := by
  rw [(sortAuto_parts env aExtras).1]
  exact env.byLen_sorted _

theorem Maintained.sorted_auto (h : Maintained env fs d) :
    SortedByLen (d.aExtras.take USE_AUTO_EXTRAS) := by
  induction h with
  | start => exact List.Pairwise.nil
  | loadExtras arg _ hload ih => rwa [(loadExtras_spec hload).1]
  | @maybeAddAuto d mem draw _ ih =>
    rcases maybeAddAuto_cases env d mem draw with ⟨heq, _⟩ | ⟨_, _, heq⟩ <;> rw [heq]
    · exact ih
    · exact sorted_sortAuto env _

end Sorted

/-! ### The stages -/

/-- The executed buffers, with their offsets. -/
def executed : List OverAsk → List (Nat × List U8) :=
  List.filterMap fun
    | .exec i _ buf => some (i, buf)
    | _ => none

/-- What the stages do right. An executed buffer is the input with exactly the token at its offset.
A token that `memcmp` skips would give the input, or the buffer that was executed last, at this
offset. `memchr` stays in the effector map, and the restore gives the input. -/
def Faithful (tokens : List (List U8)) (inBuf : List U8) (asked : List OverAsk) : OverAsk → Prop
  | .exec i data buf =>
    data ∈ tokens ∧ i + data.length ≤ inBuf.length ∧ buf = Session.overwrite inBuf i data
  | .redundant i data =>
    Session.overwrite inBuf i data = inBuf ∨
      (executed asked).getLast? = some (i, Session.overwrite inBuf i data)
  | .inspect pos n => pos + n ≤ effAlen inBuf.length
  | .restored _ outBuf => outBuf = inBuf
  | .setCurByte _ | .ur _ => True

section Stages
variable {tokens : List (List U8)} {inBuf : List U8} {i : Nat} {asked : List OverAsk}

/-- Every answer counts. -/
abbrev AnyAnswer (x : OverAsk) (_ : x.Answer) : Prop := True

/-- `out_buf` and `last_len` at offset `i`, when `last` is the token that was written last. -/
structure Clobbered (inBuf : List U8) (i : Nat) (last : List U8) (asked : List OverAsk)
    (acc : List U8 × Nat) : Prop where
  acc_eq : acc = (Session.overwrite inBuf i last, last.length)
  fits : i + last.length ≤ inBuf.length
  last_executed : last = [] ∨
    (executed asked).getLast? = some (i, Session.overwrite inBuf i last)

/-- The invariant at offset `i`, with the tokens that are still to come. -/
def TurnInv (tokens : List (List U8)) (inBuf : List U8) (i : Nat) (rest : List (List U8))
    (acc : List U8 × Nat) (asked : List OverAsk) : Prop :=
  ∃ last, Clobbered inBuf i last asked acc ∧
    (last :: rest).Pairwise (fun a b => a.length ≤ b.length) ∧ ∀ data ∈ rest, data ∈ tokens

/-- A question that is no execution leaves the executed buffers as they are. -/
theorem Clobbered.ask {last : List U8} {acc : List U8 × Nat} {x : OverAsk}
    (h : Clobbered inBuf i last asked acc) (hx : executed [x] = []) :
    Clobbered inBuf i last (asked ++ [x]) acc where
  acc_eq := h.acc_eq
  fits := h.fits
  last_executed := by
    have happend : executed (asked ++ [x]) = executed asked ++ executed [x] :=
      List.filterMap_append
    rw [happend, hx, List.append_nil]
    exact h.last_executed

/-- A write with its execution. -/
theorem Clobbered.exec {data : List U8} (hfits : i + data.length ≤ inBuf.length) :
    Clobbered inBuf i data (asked ++ [.exec i data (Session.overwrite inBuf i data)])
      (Session.overwrite inBuf i data, data.length) where
  acc_eq := rfl
  fits := hfits
  last_executed := by
    refine Or.inr ?_
    unfold executed
    rw [List.filterMap_append]
    exact List.getLast?_concat

/-- The dice ask for a random number at most. -/
theorem safe_unlucky {P : List OverAsk → OverAsk → Prop} (manyLimit : Option Nat) (cnt : Nat)
    (hP : P asked (.ur cnt)) :
    Asks.Safe AnyAnswer P (unlucky manyLimit cnt) asked
      fun _ asked' => asked' = asked ∨ asked' = asked ++ [.ur cnt] := by
  cases manyLimit with
  | none => exact Or.inl rfl
  | some limit =>
    refine Asks.Safe.ite (fun _ => ?_) fun _ => Or.inl rfl
    exact ⟨hP, fun r _ => Or.inr rfl⟩

theorem safe_overwriteTurn (manyLimit : Option Nat) (cnt : Nat) (effMap : List Bool)
    (hi : i < inBuf.length) {data : List U8} {rest : List (List U8)} {acc : (List U8 × Nat) × U32}
    (h : TurnInv tokens inBuf i (data :: rest) acc.1 asked) :
    Asks.Safe AnyAnswer (Faithful tokens inBuf) (overwriteTurn manyLimit cnt effMap i acc data)
      asked fun r asked' => r.elim True (TurnInv tokens inBuf i rest ·.1 asked') := by
  obtain ⟨last, hacc, hsorted, htokens⟩ := h
  have hle : last.length ≤ data.length := List.rel_of_pairwise_cons hsorted List.mem_cons_self
  -- A skipped token leaves the last one in its place.
  have hskip : ∀ asked', Clobbered inBuf i last asked' acc.1 →
      TurnInv tokens inBuf i rest acc.1 asked' :=
    fun asked' hc => ⟨last, hc,
      hsorted.sublist (List.Sublist.cons_cons last (List.sublist_cons_self data rest)),
      fun x hx => htokens x (List.mem_cons_of_mem data hx)⟩
  have hlen : acc.1.1.length = inBuf.length := by
    rw [hacc.acc_eq]
    exact length_overwrite inBuf last hacc.fits
  refine (safe_unlucky manyLimit cnt trivial).bind fun skip asked' hasked => ?_
  have hacc' : Clobbered inBuf i last asked' acc.1 := by
    rcases hasked with rfl | rfl
    · exact hacc
    · exact hacc.ask rfl
  refine Asks.Safe.ite (fun _ => hskip asked' hacc') fun _ => ?_
  refine Asks.Safe.ite (fun _ => hskip asked' hacc') fun hroom => ?_
  rw [hlen] at hroom
  have hfits : i + data.length ≤ inBuf.length := by omega
  have hcover : Session.overwrite acc.1.1 i data = Session.overwrite inBuf i data := by
    rw [hacc.acc_eq]
    exact overwrite_overwrite inBuf hle hfits
  refine Asks.Safe.ite (fun hsame => ?_) fun hdiff => ?_
  · refine ⟨?_, fun _ _ => hskip _ (hacc'.ask rfl)⟩
    -- The write would leave `out_buf` as it is.
    have hbuf : Session.overwrite inBuf i data = Session.overwrite inBuf i last := by
      rw [← hcover, hsame, overwrite_slice, hacc.acc_eq]
    show Session.overwrite inBuf i data = inBuf ∨ _
    rw [hbuf]
    rcases hacc'.last_executed with rfl | hlast
    · exact Or.inl (overwrite_nil inBuf i)
    · exact Or.inr hlast
  · -- An empty token is what `out_buf` has.
    have hpos : 0 < data.length := by
      rcases data with _ | ⟨b, data⟩
      · exact absurd rfl hdiff
      · exact Nat.succ_pos _
    refine ⟨effSpan_le hpos hfits, fun _ _ => ?_⟩
    refine Asks.Safe.ite (fun _ => ?_) fun _ => hskip _ (hacc'.ask rfl)
    rw [hcover]
    refine ⟨⟨htokens data List.mem_cons_self, hfits, rfl⟩, fun bail _ => ?_⟩
    cases bail with
    | true => exact trivial
    | false =>
      exact ⟨data, Clobbered.exec hfits, hsorted.of_cons,
        fun x hx => htokens x (List.mem_cons_of_mem data hx)⟩

theorem safe_overwriteOffset (manyLimit : Option Nat) (effMap : List Bool)
    (hsorted : tokens.Pairwise fun a b => a.length ≤ b.length) (hi : i < inBuf.length)
    (stageMax : U32) :
    Asks.Safe AnyAnswer (Faithful tokens inBuf)
      (overwriteOffset manyLimit tokens effMap inBuf (inBuf, stageMax) i) asked
      fun r _ => ∀ out ∈ r, out.1 = inBuf := by
  refine ⟨trivial, fun _ _ => ?_⟩
  have hstart : TurnInv tokens inBuf i tokens (inBuf, 0) (asked ++ [.setCurByte i]) := by
    refine ⟨[], ⟨?_, hi.le, Or.inl rfl⟩, hsorted.cons fun x _ => Nat.zero_le _, fun x hx => hx⟩
    rw [overwrite_nil]
    rfl
  refine (Asks.Safe.foldUntil (J := fun rest acc => TurnInv tokens inBuf i rest acc.1)
    (L := fun _ => True)
    (fun data rest acc asked' h => safe_overwriteTurn manyLimit _ effMap hi h) hstart).bind ?_
  rintro (_ | ⟨⟨outBuf, lastLen⟩, stageMax⟩) asked' hr
  · exact fun out h => absurd h (Option.not_mem_none _)
  · obtain ⟨last, hacc, _, _⟩ := hr
    obtain ⟨rfl, rfl⟩ := Prod.ext_iff.mp hacc.acc_eq
    -- The restore covers the last token, and so everything that was written.
    have hslice : (Session.slice inBuf i last.length).length = last.length :=
      length_slice inBuf hacc.fits
    have hrestored : Session.overwrite (Session.overwrite inBuf i last) i
        (Session.slice inBuf i last.length) = inBuf := by
      rw [overwrite_overwrite inBuf hslice.ge (by rw [hslice]; exact hacc.fits), overwrite_slice]
    refine ⟨hrestored, fun _ _ out h => ?_⟩
    rw [← Option.mem_some_iff.mp h]
    exact hrestored

theorem safe_overwriteExtras (manyLimit : Option Nat) (effMap : List Bool)
    (hsorted : tokens.Pairwise fun a b => a.length ≤ b.length) (inBuf : List U8) :
    Asks.Safe AnyAnswer (Faithful tokens inBuf) (overwriteExtras manyLimit tokens effMap inBuf) []
      fun r _ => ∀ out ∈ r, out.1 = inBuf := by
  refine (Asks.Safe.foldUntil
    (J := fun offsets acc _ => (∀ i ∈ offsets, i < inBuf.length) ∧ acc.1 = inBuf)
    (L := fun _ => True) ?_ ⟨fun i hi => List.mem_range.mp hi, rfl⟩).mono ?_
  · rintro i offsets ⟨_, stageMax⟩ asked ⟨hoffsets, rfl⟩
    refine (safe_overwriteOffset manyLimit effMap hsorted
      (hoffsets i List.mem_cons_self) stageMax).mono fun r asked' hr => ?_
    cases r with
    | none => exact trivial
    | some out => exact ⟨fun j hj => hoffsets j (List.mem_cons_of_mem i hj), hr out rfl⟩
  · intro r _ hr out h
    rw [Option.mem_def.mp h] at hr
    exact hr.2

end Stages

/-- For every input, every effector map and all tokens that `load_extras` and `maybe_add_auto` can
lead to: whatever the dice and the executions say, both stages are faithful. If a stage is not
abandoned, it leaves `out_buf` as the input. -/
theorem overwrite_stages_faithful (env : DictEnv) (fs : Text → ExtrasSource) (d : Dictionary)
    (hd : Maintained env fs d) (effMap : List Bool) (inBuf : List U8) :
    Asks.Safe AnyAnswer (Faithful (d.extras.map (·.data)) inBuf)
        (userExtrasOver d effMap inBuf) [] (fun r _ => ∀ out ∈ r, out.1 = inBuf) ∧
      Asks.Safe AnyAnswer (Faithful ((d.aExtras.take USE_AUTO_EXTRAS).map (·.data)) inBuf)
        (autoExtrasOver d effMap inBuf) [] (fun r _ => ∀ out ∈ r, out.1 = inBuf) :=
  ⟨safe_overwriteExtras _ effMap (List.pairwise_map.mpr hd.sorted_extras) inBuf,
    safe_overwriteExtras _ effMap (List.pairwise_map.mpr hd.sorted_auto) inBuf⟩

/-- The user token `xyz` and the auto-detected token `abc`. -/
def xyzDictionary : Dictionary where
  extras := [⟨bytesOf "xyz", 0⟩]
  aExtras := [⟨bytesOf "abc", 0⟩]
  autoChanged := true

/-- The input `abxyz`, which has the user token at offset 2. -/
theorem overwrite_stages_faithful_xyz :
    Maintained insertionEnv (dictFile "k=\"xyz\"\n") xyzDictionary ∧
      Asks.Safe AnyAnswer (Faithful [bytesOf "xyz"] (bytesOf "abxyz"))
        (userExtrasOver xyzDictionary [true] (bytesOf "abxyz")) []
        (fun r _ => ∀ out ∈ r, out.1 = bytesOf "abxyz") ∧
      Asks.Safe AnyAnswer (Faithful [bytesOf "abc"] (bytesOf "abxyz"))
        (autoExtrasOver xyzDictionary [true] (bytesOf "abxyz")) []
        (fun r _ => ∀ out ∈ r, out.1 = bytesOf "abxyz") := by
  have hd : Maintained insertionEnv (dictFile "k=\"xyz\"\n") xyzDictionary :=
    .loadExtras "dict".toList (.maybeAddAuto (bytesOf "abc") 0 .start) (by decide +kernel)
  exact ⟨hd, overwrite_stages_faithful _ _ _ hd [true] (bytesOf "abxyz")⟩

/-! ### The stages of a session -/

/-- A session answers the questions. -/
def overAnswer {mapSize : Nat} (w : World mapSize) : (x : OverAsk) → Fuzz mapSize x.Answer
  | .setCurByte i => Session.setOp fun op => { op with stageCurByte := i }
  | .ur limit => Session.ur w limit
  | .exec _ _ buf => Session.commonFuzzStuff w buf
  | .redundant _ _ | .inspect _ _ | .restored _ _ => pure ()

section Session
variable {mapSize : Nat} (w : World mapSize) (manyLimit : Option Nat) (effMap : List Bool)

theorem interp_ask (x : OverAsk) : Asks.interp (overAnswer w) (ask x) = overAnswer w x :=
  Asks.interp_query (overAnswer w) x

theorem interp_unlucky (cnt : Nat) :
    Asks.interp (overAnswer w) (unlucky manyLimit cnt) = Session.unlucky w manyLimit cnt := by
  cases manyLimit with
  | none => rfl
  | some limit => exact Asks.interp_ite _ _ _ _

/-- A turn of a session is one of the program, without `stage_max`. -/
theorem interp_overwriteTurn (cnt i : Nat) (acc : (List U8 × Nat) × U32) (data : List U8) :
    Option.map Prod.fst <$>
        Asks.interp (overAnswer w) (overwriteTurn manyLimit cnt effMap i acc data) =
      Session.overwriteTurn w manyLimit cnt effMap i acc.1 data := by
  unfold overwriteTurn Session.overwriteTurn
  rw [Asks.interp_bind, interp_unlucky, map_bind]
  refine bind_congr fun skip => ?_
  rw [Asks.interp_ite, Asks.interp_ite, Asks.interp_ite]
  by_cases hskip : skip = true
  · simp [hskip]
  · by_cases hroom : data.length > acc.1.1.length - i
    · simp [hskip, hroom]
    · rw [if_neg hskip, if_neg hroom]
      by_cases hsame : data = Session.slice acc.1.1 i data.length
      · rw [if_pos hsame, if_pos (by simp [← hsame])]
        rfl
      · -- What `memchr` looks at is only reported.
        rw [if_neg hsame, Asks.interp_bind, interp_ask]
        refine (congrArg _ (pure_bind (m := Fuzz mapSize) () fun _ => _)).trans ?_
        rw [Asks.interp_ite]
        by_cases heff : Session.effSpan effMap i data.length = true
        · rw [if_pos heff, if_neg (by simp [hskip, hroom, hsame, heff]), Asks.interp_bind,
            interp_ask, map_bind]
          refine bind_congr fun bail => ?_
          cases bail <;> rfl
        · rw [if_neg heff, if_pos (by simp [heff])]
          rfl

theorem interp_overwriteOffset (tokens : List (List U8)) (inBuf : List U8) (acc : List U8 × U32)
    (i : Nat) :
    Option.map Prod.fst <$>
        Asks.interp (overAnswer w) (overwriteOffset manyLimit tokens effMap inBuf acc i) =
      Session.overwriteOffset w manyLimit tokens effMap inBuf acc.1 i := by
  have hloop := Process.map_foldUntil
    (interp_overwriteTurn w manyLimit effMap tokens.length i) tokens ((acc.1, 0), acc.2)
  unfold overwriteOffset Session.overwriteOffset
  rw [Asks.interp_bind, interp_ask, map_bind]
  refine bind_congr fun _ => ?_
  rw [Asks.interp_bind, Asks.interp_foldUntil, map_bind, ← hloop, bind_map_left]
  refine bind_congr fun r => ?_
  cases r with
  | none => rfl
  | some acc => rfl

/-- The stage of a session is the program, with the answers of the session. -/
theorem overwriteExtras_eq (short : Text) (tokens : List (List U8)) (inBuf : List U8) :
    Session.overwriteExtras w short manyLimit tokens effMap inBuf =
      Session.setOp (fun op => { op with stageShort := short, stageValType := .none }) >>= fun _ =>
        Option.map Prod.fst <$>
          Asks.interp (overAnswer w) (overwriteExtras manyLimit tokens effMap inBuf) := by
  unfold overwriteExtras Session.overwriteExtras
  rw [Asks.interp_foldUntil,
    Process.map_foldUntil (interp_overwriteOffset w manyLimit effMap tokens inBuf)]

end Session

end TriforceAFL.Proofs
