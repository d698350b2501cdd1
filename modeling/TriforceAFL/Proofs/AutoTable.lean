import Mathlib.Data.List.Induction
import TriforceAFL.Lib.Qsort
import TriforceAFL.Proofs.Dictionary
import TriforceAFL.Spec.AutoTable

/-!
# `TriforceAFL.Proofs.AutoTable`: the table of auto-detected tokens

A call of `maybe_add_auto` counts a hit, appends a token or replaces one, up to the order of the
table (`noteAuto_cases`). What does not depend on the order follows from this (`TokensOk`). The two
sorts then put the tokens with the most hits in front, and sort those by size (`Ranked`).

The block behind `a_extras` holds nothing but zeros behind the tokens in the table, so a token that
is appended starts with a hit count of zero (`noteAuto_refines`).

`auto_table_invariant` assembles what holds after every call, and what a call does to the table.
-/

set_option autoImplicit false

namespace TriforceAFL.Proofs

open Lib Spec

/-! ### One call, up to the order -/

section Multiset
variable {α : Type} {l : List α} {i : Nat}

/-- A list without the element at position `i`. -/
def without (l : List α) (i : Nat) : List α := l.take i ++ l.drop (i + 1)

theorem perm_without (hi : i < l.length) : l.Perm (l[i] :: without l i) := by
  have hsplit : l.take i ++ l[i] :: l.drop (i + 1) = l := by
    rw [List.getElem_cons_drop, List.take_append_drop]
  refine List.Perm.trans ?_ List.perm_middle
  rw [hsplit]

theorem modify_perm (hi : i < l.length) (f : α → α) :
    (l.modify i f).Perm (f l[i] :: without l i) := by
  rw [List.modify_eq_take_cons_drop hi]
  exact List.perm_middle

theorem set_perm (hi : i < l.length) (x : α) : (l.set i x).Perm (x :: without l i) := by
  rw [List.set_eq_take_append_cons_drop, if_pos hi]
  exact List.perm_middle

end Multiset

/-- What a call that is not rejected does to the tokens. -/
theorem noteAuto_cases {aExtras : List Extra} (hsize : aExtras.length ≤ MAX_AUTO_EXTRAS)
    (mem : List U8) (draw : Nat) :
    (∃ e rest, SameToken e.data mem ∧ aExtras.Perm (e :: rest) ∧
        (noteAuto aExtras mem draw).Perm ({ e with hitCnt := e.hitCnt + 1 } :: rest)) ∨
      ((∀ e ∈ aExtras, ¬ SameToken e.data mem) ∧ aExtras.length < MAX_AUTO_EXTRAS ∧
        (noteAuto aExtras mem draw).Perm ({ data := mem } :: aExtras)) ∨
      ((∀ e ∈ aExtras, ¬ SameToken e.data mem) ∧ aExtras.length = MAX_AUTO_EXTRAS ∧
        ∃ i e rest, MAX_AUTO_EXTRAS / 2 ≤ i ∧ aExtras[i]? = some e ∧ aExtras.Perm (e :: rest) ∧
          (noteAuto aExtras mem draw).Perm ({ data := mem } :: rest)) := by
  unfold noteAuto
  split
  · rename_i i hfind
    obtain ⟨hi, hmatch, _⟩ := List.findIdx?_eq_some_iff_getElem.mp hfind
    exact Or.inl ⟨aExtras[i], without aExtras i, matchesAuto_iff.mp hmatch, perm_without hi,
      modify_perm hi _⟩
  · rename_i hfind
    have hnew : ∀ e ∈ aExtras, ¬ SameToken e.data mem := by
      intro e he hsame
      have hmatch := List.findIdx?_eq_none_iff.mp hfind e he
      rw [matchesAuto_iff.mpr hsame] at hmatch
      cases hmatch
    split
    · rename_i hroom
      exact Or.inr (Or.inl ⟨hnew, hroom, List.perm_append_singleton _ _⟩)
    · -- The table is full: the draw picks a token of its second half.
      rename_i hfull
      have hlen : aExtras.length = MAX_AUTO_EXTRAS := by omega
      have hdraw : draw % ((MAX_AUTO_EXTRAS + 1) / 2) < 250 := Nat.mod_lt _ (by decide)
      have hmax : MAX_AUTO_EXTRAS = 500 := rfl
      have hi : MAX_AUTO_EXTRAS / 2 + draw % ((MAX_AUTO_EXTRAS + 1) / 2) < aExtras.length := by
        omega
      exact Or.inr (Or.inr ⟨hnew, hlen, _, _, without aExtras _, Nat.le_add_right _ _,
        List.getElem?_eq_getElem hi, perm_without hi, set_perm hi _⟩)

/-- A token that the filters let pass, whatever the table holds. -/
structure AdmissibleToken (mem : List U8) : Prop where
  min : MIN_AUTO_EXTRA ≤ mem.length
  max : mem.length ≤ MAX_AUTO_EXTRA
  accepted : acceptable mem = true

/-- What holds of the tokens, in any order. -/
structure TokensOk (tokens : List (List U8)) : Prop where
  size : tokens.length ≤ MAX_AUTO_EXTRAS
  distinct : tokens.Pairwise fun a b => ¬ SameToken a b
  each : ∀ a ∈ tokens, AdmissibleToken a

/-- The tokens of a table, without their hit counts. -/
def dataOf (table : List Extra) : List (List U8) := table.map Extra.data

section Tokens
variable {tokens tokens' : List (List U8)} {table : List Extra} {mem : List U8}

theorem TokensOk.of_perm (h : TokensOk tokens) (hperm : tokens'.Perm tokens) :
    TokensOk tokens' where
  size := hperm.length_eq.trans_le h.size
  distinct := by
    refine (hperm.pairwise_iff ?_).mpr h.distinct
    intro a b hne hsame
    exact hne hsame.symm
  each := fun a ha => h.each a (hperm.mem_iff.mp ha)

/-- One token in place of another one, or in addition. -/
theorem TokensOk.cons (h : TokensOk tokens) (hsize : tokens.length < MAX_AUTO_EXTRAS)
    (hnew : ∀ a ∈ tokens, ¬ SameToken a mem) (hmem : AdmissibleToken mem) :
    TokensOk (mem :: tokens) where
  size := hsize
  distinct := List.pairwise_cons.mpr ⟨fun a ha hsame => hnew a ha hsame.symm, h.distinct⟩
  each := List.forall_mem_cons.mpr ⟨hmem, h.each⟩

theorem TokensOk.tail {a : List U8} (h : TokensOk (a :: tokens)) : TokensOk tokens where
  size := (Nat.le_succ _).trans h.size
  distinct := (List.pairwise_cons.mp h.distinct).2
  each := fun b hb => h.each b (List.mem_cons_of_mem a hb)

theorem length_dataOf (table : List Extra) : (dataOf table).length = table.length :=
  List.length_map Extra.data

theorem TokensOk.length_le (h : TokensOk (dataOf table)) : table.length ≤ MAX_AUTO_EXTRAS :=
  length_dataOf table ▸ h.size

theorem TokensOk.note (h : TokensOk (dataOf table)) (hmem : AdmissibleToken mem) (draw : Nat) :
    TokensOk (dataOf (noteAuto table mem draw)) := by
  rcases noteAuto_cases h.length_le mem draw with ⟨e, rest, _, hold, hnew⟩ |
    ⟨hnone, hroom, hnew⟩ | ⟨hnone, _, i, e, rest, _, _, hold, hnew⟩
  · -- The same tokens, with one hit more.
    exact h.of_perm ((hnew.map Extra.data).trans (hold.map Extra.data).symm)
  · have hfresh : ∀ a ∈ dataOf table, ¬ SameToken a mem := List.forall_mem_map.mpr hnone
    have hsize : (dataOf table).length < MAX_AUTO_EXTRAS := (length_dataOf table).trans_lt hroom
    exact (h.cons hsize hfresh hmem).of_perm (hnew.map Extra.data)
  · -- The replaced token goes first, which makes the room that `cons` asks for.
    have hcons : TokensOk (e.data :: dataOf rest) := h.of_perm (hold.map Extra.data).symm
    have hfresh : ∀ a ∈ dataOf rest, ¬ SameToken a mem :=
      List.forall_mem_map.mpr fun a ha => hnone a (hold.mem_iff.mpr (List.mem_cons_of_mem e ha))
    have hsize : (e.data :: dataOf rest).length ≤ MAX_AUTO_EXTRAS := hcons.size
    exact (hcons.tail.cons hsize hfresh hmem).of_perm (hnew.map Extra.data)

/-- A call counts one hit at most. -/
theorem hitCnt_note {n : Nat} (hsize : table.length ≤ MAX_AUTO_EXTRAS)
    (h : ∀ e ∈ table, e.hitCnt ≤ n) (mem : List U8) (draw : Nat) :
    ∀ e ∈ noteAuto table mem draw, e.hitCnt ≤ n + 1 := by
  intro a ha
  rcases noteAuto_cases hsize mem draw with ⟨e, rest, _, hold, hnew⟩ | ⟨_, _, hnew⟩ |
    ⟨_, _, i, e, rest, _, _, hold, hnew⟩
  · rcases List.mem_cons.mp (hnew.mem_iff.mp ha) with rfl | hrest
    · exact Nat.succ_le_succ (h e (hold.mem_iff.mpr List.mem_cons_self))
    · exact (h a (hold.mem_iff.mpr (List.mem_cons_of_mem e hrest))).trans (Nat.le_succ n)
  · rcases List.mem_cons.mp (hnew.mem_iff.mp ha) with rfl | hrest
    · exact Nat.zero_le _
    · exact (h a hrest).trans (Nat.le_succ n)
  · rcases List.mem_cons.mp (hnew.mem_iff.mp ha) with rfl | hrest
    · exact Nat.zero_le _
    · exact (h a (hold.mem_iff.mpr (List.mem_cons_of_mem e hrest))).trans (Nat.le_succ n)

/-- The table never gets shorter. -/
theorem length_le_noteAuto (hsize : table.length ≤ MAX_AUTO_EXTRAS) (mem : List U8) (draw : Nat) :
    table.length ≤ (noteAuto table mem draw).length := by
  rcases noteAuto_cases hsize mem draw with ⟨e, rest, _, hold, hnew⟩ | ⟨_, _, hnew⟩ |
    ⟨_, _, i, e, rest, _, _, hold, hnew⟩
  · exact (hold.length_eq.trans hnew.length_eq.symm).le
  · rw [hnew.length_eq]
    exact Nat.le_succ _
  · exact (hold.length_eq.trans hnew.length_eq.symm).le

end Tokens

/-! ### The order of the table -/

/-- The tokens in use are sorted by size, and nothing behind them has more hits. -/
structure Ranked (table : List Extra) : Prop where
  byLen : SortedByLen (table.take USE_AUTO_EXTRAS)
  used : ∀ a ∈ table.take USE_AUTO_EXTRAS, ∀ b ∈ table.drop USE_AUTO_EXTRAS, b.hitCnt ≤ a.hitCnt
  byUse : (table.drop USE_AUTO_EXTRAS).Pairwise fun a b => b.hitCnt ≤ a.hitCnt

section Order
variable {table : List Extra}

/-- Below `2 ^ 31` hits, the difference that `compare_extras_use_d` returns does not wrap. -/
theorem compareExtrasUseD_eq {a b : Extra} (ha : a.hitCnt < 2 ^ 31) (hb : b.hitCnt < 2 ^ 31) :
    compareExtrasUseD a b = (b.hitCnt : Int) - a.hitCnt := by
  unfold compareExtrasUseD
  rw [BitVec.toInt_sub, BitVec.toInt_ofNat', BitVec.toInt_ofNat']
  simp only [Int.bmod_def]
  omega

theorem sortByUse_pairwise {env : DictEnv} (hsort : Qsort compareExtrasUseD env.sortByUse)
    (hhits : ∀ e ∈ table, e.hitCnt < 2 ^ 31) :
    (env.sortByUse table).Pairwise fun a b => b.hitCnt ≤ a.hitCnt := by
  -- The comparison is descending, so the key of the sort is the negated count.
  refine (hsort.pairwise (fun e => -(e.hitCnt : Int)) ?_).imp ?_
  · intro a ha b hb
    rw [compareExtrasUseD_eq (hhits a ha) (hhits b hb)]
    constructor <;> constructor <;> intro h <;> omega
  · intro a b h
    omega

theorem ranked_sortAuto {env : DictEnv} (hsort : Qsort compareExtrasUseD env.sortByUse)
    (hhits : ∀ e ∈ table, e.hitCnt < 2 ^ 31) : Ranked (sortAuto env table) := by
  obtain ⟨htake, hdrop⟩ := sortAuto_parts env table
  have hsorted := sortByUse_pairwise hsort hhits
  -- The second sort permutes the tokens in use among themselves only.
  have hsplit := hsorted
  rw [← List.take_append_drop USE_AUTO_EXTRAS (env.sortByUse table)] at hsplit
  obtain ⟨_, hrest, hcross⟩ := List.pairwise_append.mp hsplit
  refine ⟨?_, ?_, ?_⟩
  · rw [htake]
    exact env.byLen_sorted _
  · rw [htake, hdrop]
    intro a ha b hb
    exact hcross a ((env.byLen_perm _).mem_iff.mp ha) b hb
  · rw [hdrop]
    exact hrest

/-- A token behind those in use has no more hits than any token before it. -/
theorem Ranked.hitCnt_le (h : Ranked table) {i j : Nat} {e a : Extra} (hi : USE_AUTO_EXTRAS ≤ i)
    (hji : j < i) (he : table[i]? = some e) (ha : table[j]? = some a) : e.hitCnt ≤ a.hitCnt := by
  have hedrop : (table.drop USE_AUTO_EXTRAS)[i - USE_AUTO_EXTRAS]? = some e := by
    rw [List.getElem?_drop, Nat.add_sub_of_le hi, he]
  by_cases hj : j < USE_AUTO_EXTRAS
  · have hatake : (table.take USE_AUTO_EXTRAS)[j]? = some a := by
      rw [List.getElem?_take_of_lt hj, ha]
    exact h.used a (List.mem_of_getElem? hatake) e (List.mem_of_getElem? hedrop)
  · have hadrop : (table.drop USE_AUTO_EXTRAS)[j - USE_AUTO_EXTRAS]? = some a := by
      rw [List.getElem?_drop, Nat.add_sub_of_le (Nat.le_of_not_lt hj), ha]
    obtain ⟨hilt, hival⟩ := List.getElem?_eq_some_iff.mp hedrop
    obtain ⟨hjlt, hjval⟩ := List.getElem?_eq_some_iff.mp hadrop
    rw [← hival, ← hjval]
    exact List.pairwise_iff_getElem.mp h.byUse _ _ hjlt hilt (by omega)

end Order

/-! ### The block behind the table -/

/-- The table fits in the block, and the rest of the block is zero. -/
structure BlockOk (t : AutoBlock) : Prop where
  room : t.cnt ≤ t.slots.length
  zeroed : ∀ e ∈ t.slots.drop t.cnt, e = AutoBlock.zeroSlot

/-- The table as part of the dictionary. -/
def AutoBlock.dictionary (t : AutoBlock) (extras : List Extra) : Dictionary :=
  { extras, aExtras := t.table, autoChanged := t.autoChanged }

section Block
variable {t : AutoBlock} {mem : List U8}

theorem BlockOk.length_table (h : BlockOk t) : t.table.length = t.cnt := by
  unfold AutoBlock.table
  rw [List.length_take, Nat.min_eq_left h.room]

/-- A reallocation keeps the elements in use, and all others are zero. -/
theorem ckRealloc_zeroed {slots : List Extra} {n k : Nat} (hn : n ≤ slots.length) (hk : n < k)
    (hzero : ∀ e ∈ slots.drop n, e = AutoBlock.zeroSlot) :
    (AutoBlock.ckRealloc slots k).take n = slots.take n ∧
      n < (AutoBlock.ckRealloc slots k).length ∧
      ∀ e ∈ (AutoBlock.ckRealloc slots k).drop n, e = AutoBlock.zeroSlot := by
  have hlen : n ≤ (slots.take k).length := by
    rw [List.length_take]
    omega
  unfold AutoBlock.ckRealloc
  refine ⟨?_, ?_, ?_⟩
  · rw [List.take_append_of_le_length hlen, List.take_take, Nat.min_eq_left (by omega)]
  · rw [List.length_append, List.length_take, List.length_replicate]
    omega
  · intro e he
    rw [List.drop_append_of_le_length hlen, List.drop_take] at he
    rcases List.mem_append.mp he with hold | hnew
    · exact hzero e (List.mem_of_mem_take hold)
    · exact List.eq_of_mem_replicate hnew

theorem ckReallocBlock_zeroed (debug : Bool) {slots : List Extra} {n : Nat}
    (hn : n ≤ slots.length) (hzero : ∀ e ∈ slots.drop n, e = AutoBlock.zeroSlot) :
    (AutoBlock.ckReallocBlock debug slots (n + 1)).take n = slots.take n ∧
      n < (AutoBlock.ckReallocBlock debug slots (n + 1)).length ∧
      ∀ e ∈ (AutoBlock.ckReallocBlock debug slots (n + 1)).drop n, e = AutoBlock.zeroSlot := by
  unfold AutoBlock.ckReallocBlock
  split
  · exact ckRealloc_zeroed hn (Nat.lt_succ_self n) hzero
  · split
    · rename_i hroom
      exact ⟨rfl, hroom, hzero⟩
    · exact ckRealloc_zeroed hn (by omega) hzero

/-- A write to an element of the table. -/
theorem BlockOk.modify (h : BlockOk t) {i : Nat} (hi : i < t.cnt) (f : Extra → Extra) :
    AutoBlock.table { t with slots := t.slots.modify i f } = t.table.modify i f ∧
      BlockOk { t with slots := t.slots.modify i f } := by
  refine ⟨List.take_modify f i t.cnt t.slots, ?_, ?_⟩
  · show t.cnt ≤ (t.slots.modify i f).length
    rw [List.length_modify]
    exact h.room
  · show ∀ e ∈ (t.slots.modify i f).drop t.cnt, _
    rw [List.drop_modify_of_lt _ _ _ _ hi]
    exact h.zeroed

/-- An appended element is zero but for its data. -/
theorem BlockOk.append (debug : Bool) (h : BlockOk t) (mem : List U8) :
    let t' := { t with
      slots := (AutoBlock.ckReallocBlock debug t.slots (t.cnt + 1)).modify t.cnt fun e =>
        { e with data := mem }
      cnt := t.cnt + 1 }
    t'.table = t.table ++ [{ data := mem, hitCnt := 0 }] ∧ BlockOk t' := by
  obtain ⟨htake, hroom, hzero⟩ := ckReallocBlock_zeroed debug h.room h.zeroed
  generalize AutoBlock.ckReallocBlock debug t.slots (t.cnt + 1) = slots at htake hroom hzero
  rw [← List.getElem_cons_drop hroom, List.forall_mem_cons] at hzero
  have hmodify : slots.modify t.cnt (fun e => { e with data := mem })
      = t.table ++ { data := mem, hitCnt := 0 } :: slots.drop (t.cnt + 1) := by
    rw [List.modify_eq_take_cons_drop hroom, htake, hzero.1]
    rfl
  refine ⟨?_, ?_, ?_⟩
  · show (slots.modify t.cnt _).take (t.cnt + 1) = _
    rw [hmodify, List.take_append, h.length_table,
      List.take_of_length_le (Nat.le_succ_of_le h.length_table.le), Nat.add_sub_cancel_left]
    rfl
  · show t.cnt + 1 ≤ (slots.modify t.cnt _).length
    rw [List.length_modify]
    exact hroom
  · show ∀ e ∈ (slots.modify t.cnt _).drop (t.cnt + 1), _
    rw [List.drop_modify_of_lt _ _ _ _ (Nat.lt_succ_self _)]
    exact hzero.2

/-- A counter that is far from its limit does not wrap. -/
theorem modify_hitCnt {table : List Extra} (hhits : ∀ e ∈ table, e.hitCnt < 2 ^ 31) (i : Nat) :
    table.modify i (fun e => { e with hitCnt := (e.hitCnt + 1) % 2 ^ 32 })
      = table.modify i fun e => { e with hitCnt := e.hitCnt + 1 } := by
  by_cases hi : i < table.length
  · have hsmall := hhits table[i] (List.getElem_mem hi)
    rw [List.modify_eq_take_cons_drop hi, List.modify_eq_take_cons_drop hi,
      Nat.mod_eq_of_lt (by omega)]
  · rw [List.modify_eq_self (Nat.le_of_not_lt hi), List.modify_eq_self (Nat.le_of_not_lt hi)]

/-- In any case the tokens stay. -/
theorem dataOf_modify (count : Nat → Nat) (table : List Extra) (i : Nat) :
    dataOf (table.modify i fun e => { e with hitCnt := count e.hitCnt }) = dataOf table := by
  unfold dataOf
  by_cases hi : i < table.length
  · have hsplit : table = table.take i ++ table[i] :: table.drop (i + 1) := by
      rw [List.getElem_cons_drop, List.take_append_drop]
    conv_rhs => rw [hsplit, List.map_append, List.map_cons]
    rw [List.modify_eq_take_cons_drop hi, List.map_append, List.map_cons]
  · rw [List.modify_eq_self (Nat.le_of_not_lt hi)]

/-- What the block holds after a call, next to the list of tokens that `noteAuto` gives: the same
tokens, and the same hit counts unless one wraps. -/
structure NotedAs (t t' : AutoBlock) (table : List Extra) : Prop where
  block : BlockOk t'
  tokens : dataOf t'.table = dataOf table
  hits : (∀ e ∈ t.table, e.hitCnt < 2 ^ 31) → t'.table = table

/-- On the block a call does the same as on the list of tokens. -/
theorem noteAuto_refines (debug : Bool) (h : BlockOk t) (mem : List U8) (draw : Nat) :
    NotedAs t (t.noteAuto debug mem draw) (noteAuto t.table mem draw) ∧
      (t.noteAuto debug mem draw).autoChanged = t.autoChanged := by
  have hlen := h.length_table
  unfold AutoBlock.noteAuto noteAuto
  cases hfind : t.table.findIdx? (matchesAuto mem) with
  | some i =>
    obtain ⟨hi, _, _⟩ := List.findIdx?_eq_some_iff_getElem.mp hfind
    obtain ⟨htable, hok⟩ := h.modify (hlen ▸ hi) fun e =>
      { e with hitCnt := (e.hitCnt + 1) % 2 ^ 32 }
    -- The counter of the block is a `u32`, that of the list is not.
    refine ⟨⟨hok, ?_, fun hhits => htable.trans (modify_hitCnt hhits i)⟩, rfl⟩
    exact (congrArg dataOf htable).trans ((dataOf_modify (fun n => (n + 1) % 2 ^ 32) _ i).trans
      (dataOf_modify (· + 1) _ i).symm)
  | none =>
    dsimp only
    rw [hlen]
    split
    · obtain ⟨htable, hok⟩ := h.append debug mem
      exact ⟨⟨hok, congrArg dataOf htable, fun _ => htable⟩, rfl⟩
    · rename_i hfull
      have hdraw : draw % ((MAX_AUTO_EXTRAS + 1) / 2) < 250 := Nat.mod_lt _ (by decide)
      have hmax : MAX_AUTO_EXTRAS = 500 := rfl
      have hi : MAX_AUTO_EXTRAS / 2 + draw % ((MAX_AUTO_EXTRAS + 1) / 2) < t.cnt := by omega
      generalize MAX_AUTO_EXTRAS / 2 + draw % ((MAX_AUTO_EXTRAS + 1) / 2) = i at hi
      obtain ⟨htable, hok⟩ := h.modify hi fun e => { e with data := mem, hitCnt := 0 }
      have hin : i < t.table.length := by rwa [hlen]
      have hset : AutoBlock.table { t with
          slots := t.slots.modify i fun e => { e with data := mem, hitCnt := 0 } }
          = t.table.set i { data := mem } := by
        rw [htable, List.modify_eq_take_cons_drop hin, List.set_eq_take_append_cons_drop,
          if_pos hin]
      exact ⟨⟨hok, congrArg dataOf hset, fun _ => hset⟩, rfl⟩

/-- The sorts permute the table, and leave the rest of the block alone. -/
theorem BlockOk.sort (h : BlockOk t) (env : DictEnv) :
    AutoBlock.table { t with slots := sortAuto env t.table ++ t.slots.drop t.cnt }
        = sortAuto env t.table ∧
      BlockOk { t with slots := sortAuto env t.table ++ t.slots.drop t.cnt } := by
  have hsorted : (sortAuto env t.table).length = t.cnt := by
    rw [(sortAuto_perm env _).length_eq, h.length_table]
  refine ⟨List.take_left' hsorted, ?_, ?_⟩
  · show t.cnt ≤ (sortAuto env t.table ++ t.slots.drop t.cnt).length
    rw [List.length_append, hsorted]
    exact Nat.le_add_right _ _
  · show ∀ e ∈ (sortAuto env t.table ++ t.slots.drop t.cnt).drop t.cnt, _
    rw [List.drop_left' hsorted]
    exact h.zeroed

/-- The whole call: the token is rejected, or noted and the table is sorted. In both cases the call
on the list of tokens does the same. -/
theorem maybeAddAuto_refines (env : DictEnv) (debug : Bool) (extras : List Extra) (h : BlockOk t)
    (mem : List U8) (draw : Nat) :
    (t.maybeAddAuto env debug extras mem draw = t ∧
        maybeAddAuto env (AutoBlock.dictionary t extras) mem draw = AutoBlock.dictionary t extras) ∨
      (acceptable mem = true ∧
        ∃ t₁, NotedAs t t₁ (noteAuto t.table mem draw) ∧
          BlockOk (t.maybeAddAuto env debug extras mem draw) ∧
          (t.maybeAddAuto env debug extras mem draw).autoChanged = true ∧
          (t.maybeAddAuto env debug extras mem draw).table = sortAuto env t₁.table ∧
          (maybeAddAuto env (AutoBlock.dictionary t extras) mem draw).aExtras
            = sortAuto env (noteAuto t.table mem draw)) := by
  rcases maybeAddAuto_cases env (AutoBlock.dictionary t extras) mem draw with
    ⟨hsame, hreject⟩ | ⟨haccept, hmatch, hadd⟩
  · refine Or.inl ⟨?_, hsame⟩
    unfold AutoBlock.maybeAddAuto
    split
    · rfl
    · rename_i hrun
      split
      · rfl
      · rename_i hbuiltin
        have haccept : acceptable mem = true := by
          unfold acceptable
          rw [(Bool.not_eq_true _).mp hrun, (Bool.not_eq_true _).mp hbuiltin]
          rfl
        exact if_pos (hreject haccept)
  · obtain ⟨hnoted, hchanged⟩ :=
      noteAuto_refines (t := { t with autoChanged := true }) debug ⟨h.room, h.zeroed⟩ mem draw
    have hcall : t.maybeAddAuto env debug extras mem draw =
        let t₁ := AutoBlock.noteAuto debug { t with autoChanged := true } mem draw
        { t₁ with slots := sortAuto env t₁.table ++ t₁.slots.drop t₁.cnt } := by
      unfold acceptable at haccept
      rw [Bool.and_eq_true, Bool.not_eq_true', Bool.not_eq_true'] at haccept
      unfold AutoBlock.maybeAddAuto
      rw [haccept.1, haccept.2]
      exact if_neg (fun hm => Bool.false_ne_true (hmatch.symm.trans hm))
    obtain ⟨htable, hok⟩ := hnoted.block.sort env
    refine Or.inr ⟨haccept, _, ⟨hnoted.block, hnoted.tokens, hnoted.hits⟩, ?_⟩
    rw [hcall, hadd]
    exact ⟨hok, hchanged, htable, rfl⟩

/-- A call keeps the block and its tokens in order, whatever the user dictionary is. -/
theorem TokensOk.maybeAddAuto (h : TokensOk (dataOf t.table)) (hblock : BlockOk t)
    (hmin : MIN_AUTO_EXTRA ≤ mem.length) (hmax : mem.length ≤ MAX_AUTO_EXTRA) (env : DictEnv)
    (debug : Bool) (extras : List Extra) (draw : Nat) :
    TokensOk (dataOf (t.maybeAddAuto env debug extras mem draw).table) ∧
      BlockOk (t.maybeAddAuto env debug extras mem draw) ∧
      t.cnt ≤ (t.maybeAddAuto env debug extras mem draw).cnt := by
  rcases maybeAddAuto_refines env debug extras hblock mem draw with
    ⟨hsame, _⟩ | ⟨haccept, t₁, hnoted, hok, _, htable, _⟩
  · rw [hsame]
    exact ⟨h, hblock, Nat.le_refl _⟩
  · have hperm : (dataOf (sortAuto env t₁.table)).Perm
        (dataOf (noteAuto t.table mem draw)) := by
      rw [← hnoted.tokens]
      exact (sortAuto_perm env _).map _
    refine ⟨?_, hok, ?_⟩
    · rw [htable]
      exact (h.note ⟨hmin, hmax, haccept⟩ draw).of_perm hperm
    · have hlen := hperm.length_eq
      rw [length_dataOf, length_dataOf] at hlen
      rw [← hblock.length_table, ← hok.length_table, htable, hlen]
      exact length_le_noteAuto h.length_le mem draw

end Block

/-! ### Sequences of calls -/

/-- A call of `maybe_add_auto`, with the sorts that it makes, the user dictionary that it finds and
the random number that it draws. -/
structure AutoCall where
  env : DictEnv
  extras : List Extra
  mem : List U8
  draw : Nat

/-- The token has an admissible length, and the sorts are those of a C library. -/
structure AutoCall.Valid (c : AutoCall) : Prop where
  min : MIN_AUTO_EXTRA ≤ c.mem.length
  max : c.mem.length ≤ MAX_AUTO_EXTRA
  qsort : Qsort compareExtrasUseD c.env.sortByUse

/-- The block after a sequence of calls. -/
def afterCalls (debug : Bool) (calls : List AutoCall) : AutoBlock :=
  calls.foldl (fun t c => t.maybeAddAuto c.env debug c.extras c.mem c.draw) {}

/-- What a call does to the table, up to its order. -/
inductive AutoChange (mem : List U8) (table table' : List Extra) : Prop
  | same : table'.Perm table → AutoChange mem table table'
  | hit (e : Extra) (rest : List Extra) : table.Perm (e :: rest) →
      table'.Perm ({ e with hitCnt := e.hitCnt + 1 } :: rest) → AutoChange mem table table'
  | appended : table.length < MAX_AUTO_EXTRAS →
      table'.Perm ({ data := mem, hitCnt := 0 } :: table) → AutoChange mem table table'
  | replaced (e : Extra) (rest : List Extra) : table.length = MAX_AUTO_EXTRAS →
      table.Perm (e :: rest) → (∀ a ∈ table.take (MAX_AUTO_EXTRAS / 2), e.hitCnt ≤ a.hitCnt) →
      table'.Perm ({ data := mem, hitCnt := 0 } :: rest) → AutoChange mem table table'

section Calls
variable {n : Nat}

/-- The invariant after `n` calls. -/
structure AutoInv (n : Nat) (t : AutoBlock) : Prop where
  block : BlockOk t
  tokens : TokensOk (dataOf t.table)
  hits : ∀ e ∈ t.table, e.hitCnt ≤ n
  ranked : Ranked t.table

/-- A random token of the lower half has no more hits than any of the upper half. -/
theorem autoChange_of_note {table table' : List Extra} {mem : List U8}
    (hsize : table.length ≤ MAX_AUTO_EXTRAS) (hranked : Ranked table) (draw : Nat)
    (hperm : table'.Perm (noteAuto table mem draw)) : AutoChange mem table table' := by
  rcases noteAuto_cases hsize mem draw with ⟨e, rest, _, hold, hnew⟩ | ⟨_, hroom, hnew⟩ |
    ⟨_, hfull, i, e, rest, hi, he, hold, hnew⟩
  · exact .hit e rest hold (hperm.trans hnew)
  · exact .appended hroom (hperm.trans hnew)
  · refine .replaced e rest hfull hold ?_ (hperm.trans hnew)
    intro a ha
    obtain ⟨j, hj⟩ := List.getElem?_of_mem ha
    have hjlt : j < MAX_AUTO_EXTRAS / 2 := by
      obtain ⟨hlt, _⟩ := List.getElem?_eq_some_iff.mp hj
      rw [List.length_take] at hlt
      omega
    rw [List.getElem?_take_of_lt hjlt] at hj
    have huse : USE_AUTO_EXTRAS ≤ MAX_AUTO_EXTRAS / 2 := by decide
    exact hranked.hitCnt_le (by omega) (by omega) he hj

/-- One call. -/
theorem AutoInv.call {t : AutoBlock} (h : AutoInv n t) (hn : n + 1 < 2 ^ 31) (debug : Bool)
    {c : AutoCall} (hc : c.Valid) :
    AutoInv (n + 1) (t.maybeAddAuto c.env debug c.extras c.mem c.draw) ∧
      AutoChange c.mem t.table (t.maybeAddAuto c.env debug c.extras c.mem c.draw).table := by
  have hsize := h.tokens.length_le
  obtain ⟨htokens, hblock, _⟩ :=
    h.tokens.maybeAddAuto h.block hc.min hc.max c.env debug c.extras c.draw
  rcases maybeAddAuto_refines c.env debug c.extras h.block c.mem c.draw with
    ⟨hsame, _⟩ | ⟨_, t₁, hnoted, _, _, htable, _⟩
  · -- The token is rejected.
    refine ⟨⟨hblock, htokens, ?_, ?_⟩, .same ?_⟩
    · rw [hsame]
      intro e he
      exact (h.hits e he).trans (Nat.le_succ n)
    · rw [hsame]
      exact h.ranked
    · rw [hsame]
  · -- So few calls cannot make a counter wrap.
    have hnote : t₁.table = noteAuto t.table c.mem c.draw := hnoted.hits fun e he =>
      Nat.lt_of_le_of_lt (h.hits e he) (by omega)
    have hhits := hitCnt_note hsize h.hits c.mem c.draw
    have hperm := sortAuto_perm c.env (noteAuto t.table c.mem c.draw)
    rw [hnote] at htable
    refine ⟨⟨hblock, htokens, ?_, ?_⟩, ?_⟩
    · rw [htable]
      intro e he
      exact hhits e (hperm.mem_iff.mp he)
    · rw [htable]
      exact ranked_sortAuto hc.qsort fun e he => Nat.lt_of_le_of_lt (hhits e he) hn
    · rw [htable]
      exact autoChange_of_note hsize h.ranked c.draw hperm

theorem autoInv_afterCalls (debug : Bool) {calls : List AutoCall} (hcalls : ∀ c ∈ calls, c.Valid)
    (hfew : calls.length < 2 ^ 31) : AutoInv calls.length (afterCalls debug calls) := by
  induction calls using List.reverseRecOn with
  | nil =>
    refine ⟨⟨Nat.zero_le _, ?_⟩, ⟨Nat.zero_le _, List.Pairwise.nil, ?_⟩, ?_,
      ⟨List.Pairwise.nil, ?_, List.Pairwise.nil⟩⟩ <;>
    · intro e he
      cases he
  | append_singleton calls c ih =>
    rw [List.length_append, List.length_singleton] at hfew ⊢
    have hrest := ih (fun c' hc' => hcalls c' (List.mem_append_left _ hc')) (by omega)
    unfold afterCalls at hrest ⊢
    rw [List.foldl_append]
    exact (hrest.call hfew debug
      (hcalls c (List.mem_append_right _ (List.mem_singleton_self c)))).1

end Calls

/-! ### The invariant in full -/

/-- A run of one byte is not accepted. -/
theorem ne_replicate_of_acceptable {mem : List U8} (hlen : 0 < mem.length)
    (h : acceptable mem = true) (b : U8) : mem ≠ List.replicate mem.length b := by
  intro heq
  have hbyte : ∀ i < mem.length, byteOf mem i = b := by
    intro i hi
    rw [heq]
    unfold byteOf
    rw [List.getD_eq_getElem?_getD, List.getElem?_replicate, if_pos hi]
    rfl
  have hrun : isByteRun mem = true := by
    unfold isByteRun
    rw [Bool.and_eq_true]
    refine ⟨decide_eq_true hlen, List.all_eq_true.mpr ?_⟩
    intro i hi
    obtain ⟨j, hj, rfl⟩ := List.mem_range'.mp hi
    rw [hbyte 0 hlen, hbyte _ (by omega)]
    exact decide_eq_true BitVec.xor_self
  unfold acceptable at h
  rw [hrun] at h
  cases h

/-- Neither is a built-in value of four bytes. -/
theorem ne_interesting32_of_acceptable {mem : List U8} (hlen : mem.length = 4)
    (h : acceptable mem = true) {v : Int} (hv : v ∈ interesting32) :
    load 4 mem 0 ≠ BitVec.ofInt 32 v ∧ load 4 mem 0 ≠ swap32 (BitVec.ofInt 32 v) := by
  have hnot : isBuiltin mem = false := by
    unfold acceptable at h
    rw [Bool.and_eq_true] at h
    simpa using h.2
  have hfour : (interesting32.any fun v =>
      load 4 mem 0 = BitVec.ofInt 32 v || load 4 mem 0 = swap32 (BitVec.ofInt 32 v)) = false := by
    unfold isBuiltin at hnot
    rw [Bool.or_eq_false_iff, decide_eq_true hlen, Bool.true_and] at hnot
    exact hnot.2
  have hone := List.any_eq_false.mp hfour v hv
  rw [Bool.or_eq_true, decide_eq_true_iff, decide_eq_true_iff, not_or] at hone
  exact hone

/-- The table of auto-detected tokens is in order. -/
structure AutoTableOk (table : List Extra) : Prop where
  size : table.length ≤ MAX_AUTO_EXTRAS
  /-- No two tokens have the same length and the same bytes up to ASCII case. -/
  distinct : table.Pairwise fun a b =>
    ¬ (a.data.length = b.data.length ∧ a.data.map tolower = b.data.map tolower)
  notRun : ∀ e ∈ table, ∀ b, e.data ≠ List.replicate e.data.length b
  notBuiltin : ∀ e ∈ table, e.data.length = 4 → ∀ v ∈ interesting32,
    load 4 e.data 0 ≠ BitVec.ofInt 32 v ∧ load 4 e.data 0 ≠ swap32 (BitVec.ofInt 32 v)
  /-- The tokens in use are sorted by size. -/
  byLen : (table.take USE_AUTO_EXTRAS).Pairwise fun a b => a.data.length ≤ b.data.length
  /-- None of the others has more hits than one of them. -/
  used : ∀ a ∈ table.take USE_AUTO_EXTRAS, ∀ b ∈ table.drop USE_AUTO_EXTRAS, b.hitCnt ≤ a.hitCnt

theorem AutoInv.tableOk {n : Nat} {t : AutoBlock} (h : AutoInv n t) : AutoTableOk t.table where
  size := h.tokens.length_le
  distinct := (List.pairwise_map.mp h.tokens.distinct).imp fun hne hboth => hne hboth.2
  notRun := by
    intro e he b
    have hadm := h.tokens.each e.data (List.mem_map_of_mem he)
    have hpos : 0 < MIN_AUTO_EXTRA := by decide
    exact ne_replicate_of_acceptable (Nat.lt_of_lt_of_le hpos hadm.min) hadm.accepted b
  notBuiltin := fun e he hlen v hv =>
    ne_interesting32_of_acceptable hlen
      (h.tokens.each e.data (List.mem_map_of_mem he)).accepted hv
  byLen := h.ranked.byLen
  used := h.ranked.used

/-- For every sequence of fewer than `2 ^ 31` calls, with any tokens of an admissible length, any
user dictionaries, any draws and any order that the sorts give to ties: the table is in order after
the last call, its entries are those of `a_extras[]`, and a further call leaves the table as it is,
counts a hit, appends a token without hits, or replaces a token of a full table. -/
theorem auto_table_invariant (debug : Bool) (calls : List AutoCall)
    (hcalls : ∀ c ∈ calls, c.Valid) (hfew : calls.length < 2 ^ 31) :
    (afterCalls debug calls).table.length = (afterCalls debug calls).cnt ∧
    AutoTableOk (afterCalls debug calls).table ∧
    ∀ c : AutoCall, c.Valid → calls.length + 1 < 2 ^ 31 →
      AutoChange c.mem (afterCalls debug calls).table (afterCalls debug (calls ++ [c])).table := by
  have hinv := autoInv_afterCalls debug hcalls hfew
  refine ⟨hinv.block.length_table, hinv.tableOk, ?_⟩
  intro c hc hmore
  have hcall := (hinv.call hmore debug hc).2
  have hstep : afterCalls debug (calls ++ [c])
      = (afterCalls debug calls).maybeAddAuto c.env debug c.extras c.mem c.draw := by
    unfold afterCalls
    rw [List.foldl_append]
    rfl
  rw [hstep]
  exact hcall

/-- The sort by hits with the comparison function of the code. -/
def byHitsEnv : DictEnv :=
  { insertionEnv with
    sortByUse := List.insertionSort fun a b => compareExtrasUseD a b ≤ 0
    byUse_perm := List.perm_insertionSort _ }

/-- A call with a token of three bytes. -/
def tokenCall (token : String) : AutoCall where
  env := byHitsEnv
  extras := []
  mem := bytesOf token
  draw := 0

theorem auto_table_invariant_three :
    (afterCalls false [tokenCall "abc", tokenCall "xyz", tokenCall "XYZ"]).table
        = [{ data := bytesOf "xyz", hitCnt := 1 }, { data := bytesOf "abc", hitCnt := 0 }] ∧
    AutoTableOk (afterCalls false [tokenCall "abc", tokenCall "xyz", tokenCall "XYZ"]).table := by
  have hvalid : ∀ c ∈ [tokenCall "abc", tokenCall "xyz", tokenCall "XYZ"], c.Valid := by
    intro c hc
    have henv : c.env = byHitsEnv ∧ c.mem.length = 3 := by
      simp only [List.mem_cons, List.not_mem_nil, or_false] at hc
      rcases hc with rfl | rfl | rfl <;> exact ⟨rfl, by decide⟩
    refine ⟨henv.2.ge, henv.2.trans_le (by decide), ?_⟩
    rw [henv.1]
    exact qsort_insertionSort compareExtrasUseD
  exact ⟨by decide, (auto_table_invariant false _ hvalid (by decide)).2.1⟩

end TriforceAFL.Proofs
