import Mathlib.Data.List.Sort
import TriforceAFL.Spec.Dictionary

/-!
# `TriforceAFL.Proofs.Dictionary`: auto-detected tokens against the user dictionary

`maybe_add_auto` rejects a token that matches a user token, up to ASCII case. So a token that is
added after `load_extras` matches none (`noClash_maybeAddAuto`); the scan that stops early is right,
since `load_extras` has sorted the dictionary (`matchesExtras_iff`).

The tokens of `load_auto` are added when the dictionary is still empty, and `load_extras` does not
look at them. `auto_tokens_iff` is the exact condition: no state after the start-up has a clash, if
and only if no token that `load_auto` accepts matches a user token. `auto_token_clash` is a start-up
with a clash.
-/

set_option autoImplicit false

namespace TriforceAFL.Proofs

open Lib Spec

variable {d : Dictionary} {env : DictEnv}

/-! ### Matching -/

/-- The tokens are equal up to ASCII case, and so of the same length. -/
def SameToken (a b : List U8) : Prop := a.map tolower = b.map tolower

instance (a b : List U8) : Decidable (SameToken a b) :=
  inferInstanceAs (Decidable (a.map tolower = b.map tolower))

theorem SameToken.symm {a b : List U8} (h : SameToken a b) : SameToken b a := Eq.symm h

theorem SameToken.trans {a b c : List U8} (h : SameToken a b) (h' : SameToken b c) :
    SameToken a c := Eq.trans h h'

theorem SameToken.length_eq {a b : List U8} (h : SameToken a b) : a.length = b.length := by
  have hlen := congrArg List.length h
  simpa using hlen

theorem memcmpNocase_eq_false_iff {a b : List U8} (hlen : a.length = b.length) :
    memcmpNocase a b b.length = false ↔ SameToken a b := by
  unfold memcmpNocase SameToken
  rw [List.any_eq_false]
  simp only [List.mem_range, ne_eq, decide_eq_true_eq, not_not]
  constructor
  · intro h
    refine List.ext_getElem (by simp [hlen]) fun i hi hi' => ?_
    have hbyte := BitVec.xor_eq_zero_iff.mp (h i (by simpa using hi'))
    simp only [List.length_map] at hi hi'
    simpa [byteOf, List.getD_eq_getElem?_getD, hi, hi'] using hbyte
  · intro h i hi
    have hbyte := congrArg (fun l => l[i]?) h
    simp only [List.getElem?_map, List.getElem?_eq_getElem hi,
      List.getElem?_eq_getElem (hlen ▸ hi), Option.map_some, Option.some.injEq] at hbyte
    refine BitVec.xor_eq_zero_iff.mpr ?_
    simpa [byteOf, List.getD_eq_getElem?_getD, hi, hlen ▸ hi] using hbyte

theorem matchesAuto_iff {mem : List U8} {e : Extra} :
    matchesAuto mem e = true ↔ SameToken e.data mem := by
  unfold matchesAuto
  rw [Bool.and_eq_true, decide_eq_true_eq, Bool.not_eq_true']
  constructor
  · rintro ⟨hlen, hcmp⟩
    exact (memcmpNocase_eq_false_iff hlen).mp hcmp
  · intro h
    exact ⟨h.length_eq, (memcmpNocase_eq_false_iff h.length_eq).mpr h⟩

/-- A list of tokens that is sorted by size. -/
def SortedByLen (extras : List Extra) : Prop :=
  extras.Pairwise fun a b => a.data.length ≤ b.data.length

/-- Behind the shorter tokens, the tokens of one length come first. -/
theorem mem_takeWhile_length {extras : List Extra} {n : Nat} (hsorted : SortedByLen extras)
    (hlong : ∀ e ∈ extras, n ≤ e.data.length) (e : Extra) :
    e ∈ extras.takeWhile (fun e => decide (e.data.length = n)) ↔
      e ∈ extras ∧ e.data.length = n := by
  induction extras with
  | nil => simp
  | cons x extras ih =>
    obtain ⟨hhead, htail⟩ := List.pairwise_cons.mp hsorted
    have ih := ih htail fun e he => hlong e (List.mem_cons_of_mem x he)
    by_cases hx : x.data.length = n
    · rw [List.takeWhile_cons_of_pos (by simpa using hx), List.mem_cons, ih, List.mem_cons]
      constructor
      · rintro (rfl | ⟨hmem, hlen⟩)
        · exact ⟨Or.inl rfl, hx⟩
        · exact ⟨Or.inr hmem, hlen⟩
      · rintro ⟨rfl | hmem, hlen⟩
        · exact Or.inl rfl
        · exact Or.inr ⟨hmem, hlen⟩
    · rw [List.takeWhile_cons_of_neg (by simpa using hx)]
      -- From here on, all tokens are longer.
      have hgt : n < x.data.length := Nat.lt_of_le_of_ne (hlong x List.mem_cons_self) (Ne.symm hx)
      constructor
      · intro h
        cases h
      · rintro ⟨hmem, hlen⟩
        rcases List.mem_cons.mp hmem with rfl | hmem
        · exact absurd hlen hx
        · exact absurd (hhead e hmem) (by omega)

/-- The scan over a sorted dictionary sees every token of the right length. -/
theorem matchesExtras_iff {extras : List Extra} {mem : List U8} (hsorted : SortedByLen extras) :
    matchesExtras extras mem = true ↔ ∃ e ∈ extras, SameToken e.data mem := by
  unfold matchesExtras
  induction extras with
  | nil => simp
  | cons x extras ih =>
    obtain ⟨hhead, htail⟩ := List.pairwise_cons.mp hsorted
    by_cases hx : x.data.length < mem.length
    · rw [List.dropWhile_cons_of_pos (by simpa using hx), ih htail]
      constructor
      · rintro ⟨e, he, h⟩
        exact ⟨e, List.mem_cons_of_mem x he, h⟩
      · rintro ⟨e, he, h⟩
        rcases List.mem_cons.mp he with rfl | he
        · exact absurd h.length_eq (by omega)
        · exact ⟨e, he, h⟩
    · rw [List.dropWhile_cons_of_neg (by simpa using hx), List.any_eq_true]
      have hlong : ∀ e ∈ x :: extras, mem.length ≤ e.data.length := by
        intro e he
        rcases List.mem_cons.mp he with rfl | he
        · omega
        · exact (Nat.le_of_not_lt hx).trans (hhead e he)
      constructor
      · rintro ⟨e, he, hcmp⟩
        obtain ⟨hmem, hlen⟩ := (mem_takeWhile_length hsorted hlong e).mp he
        rw [Bool.not_eq_true'] at hcmp
        exact ⟨e, hmem, (memcmpNocase_eq_false_iff hlen).mp hcmp⟩
      · rintro ⟨e, he, h⟩
        refine ⟨e, (mem_takeWhile_length hsorted hlong e).mpr ⟨he, h.length_eq⟩, ?_⟩
        rw [Bool.not_eq_true']
        exact (memcmpNocase_eq_false_iff h.length_eq).mpr h

/-! ### One call of `maybe_add_auto` -/

theorem sortAuto_perm (env : DictEnv) (aExtras : List Extra) :
    (sortAuto env aExtras).Perm aExtras := by
  unfold sortAuto
  dsimp only
  have htop := env.byLen_perm ((env.sortByUse aExtras).take USE_AUTO_EXTRAS)
  refine (htop.append_right _).trans ?_
  rw [List.take_append_drop]
  exact env.byUse_perm aExtras

/-- The two parts of the sorted table: the tokens in use, and the others. -/
theorem sortAuto_parts (env : DictEnv) (aExtras : List Extra) :
    (sortAuto env aExtras).take USE_AUTO_EXTRAS
        = env.sortByLen ((env.sortByUse aExtras).take USE_AUTO_EXTRAS) ∧
      (sortAuto env aExtras).drop USE_AUTO_EXTRAS
        = (env.sortByUse aExtras).drop USE_AUTO_EXTRAS := by
  have hlen := (env.byLen_perm ((env.sortByUse aExtras).take USE_AUTO_EXTRAS)).length_eq
  rw [List.length_take] at hlen
  unfold sortAuto
  dsimp only
  by_cases hfull : USE_AUTO_EXTRAS ≤ (env.sortByUse aExtras).length
  · rw [Nat.min_eq_left hfull] at hlen
    exact ⟨List.take_left' hlen, List.drop_left' hlen⟩
  · -- There is no other part.
    have hnone : (env.sortByUse aExtras).drop USE_AUTO_EXTRAS = [] :=
      List.drop_eq_nil_of_le (by omega)
    rw [hnone, List.append_nil]
    exact ⟨List.take_of_length_le (by omega), List.drop_eq_nil_of_le (by omega)⟩

/-- The tokens after a hit or an addition are old ones and the new one. -/
theorem data_of_mem_noteAuto {aExtras : List Extra} {mem : List U8} {draw : Nat} {a : Extra}
    (h : a ∈ noteAuto aExtras mem draw) : a.data = mem ∨ ∃ a' ∈ aExtras, a'.data = a.data := by
  unfold noteAuto at h
  split at h
  · obtain ⟨i, hi⟩ := List.mem_iff_getElem?.mp h
    rw [List.getElem?_modify] at hi
    cases hget : aExtras[i]? with
    | none =>
      rw [hget] at hi
      split at hi <;> cases hi
    | some e =>
      rw [hget] at hi
      have hmem : e ∈ aExtras := List.mem_of_getElem? hget
      refine Or.inr ⟨e, hmem, ?_⟩
      split at hi <;> cases hi <;> rfl
  · split at h
    · rcases List.mem_append.mp h with h | h
      · exact Or.inr ⟨a, h, rfl⟩
      · rw [List.mem_singleton.mp h]
        exact Or.inl rfl
    · rcases List.mem_or_eq_of_mem_set h with h | h
      · exact Or.inr ⟨a, h, rfl⟩
      · rw [h]
        exact Or.inl rfl

/-- The filters that do not look at other tokens. -/
def acceptable (mem : List U8) : Bool := !isByteRun mem && !isBuiltin mem

/-- A call does nothing, or it notes a token that passes all filters. -/
theorem maybeAddAuto_cases (env : DictEnv) (d : Dictionary) (mem : List U8) (draw : Nat) :
    (maybeAddAuto env d mem draw = d ∧
        (acceptable mem = true → matchesExtras d.extras mem = true)) ∨
      (acceptable mem = true ∧ matchesExtras d.extras mem = false ∧
        maybeAddAuto env d mem draw = { d with
          autoChanged := true
          aExtras := sortAuto env (noteAuto d.aExtras mem draw) }) := by
  unfold maybeAddAuto acceptable
  split
  · rename_i hrun
    rw [hrun]
    exact Or.inl ⟨rfl, fun h => by cases h⟩
  · rename_i hrun
    split
    · rename_i hbuiltin
      rw [hbuiltin, Bool.not_true, Bool.and_false]
      exact Or.inl ⟨rfl, fun h => by cases h⟩
    · rename_i hbuiltin
      rw [Bool.not_eq_true] at hrun hbuiltin
      split
      · rename_i hmatch
        exact Or.inl ⟨rfl, fun _ => hmatch⟩
      · rename_i hmatch
        rw [hrun, hbuiltin]
        exact Or.inr ⟨rfl, (Bool.not_eq_true _).mp hmatch, rfl⟩

theorem extras_maybeAddAuto (env : DictEnv) (d : Dictionary) (mem : List U8) (draw : Nat) :
    (maybeAddAuto env d mem draw).extras = d.extras := by
  rcases maybeAddAuto_cases env d mem draw with ⟨h, _⟩ | ⟨_, _, h⟩ <;> rw [h]

/-- No auto-detected token matches a user token. -/
def NoClash (d : Dictionary) : Prop :=
  ∀ a ∈ d.aExtras, ∀ e ∈ d.extras, ¬ SameToken a.data e.data

theorem noClash_maybeAddAuto (h : NoClash d) (hsorted : SortedByLen d.extras) (mem : List U8)
    (draw : Nat) :
    NoClash (maybeAddAuto env d mem draw) := by
  rcases maybeAddAuto_cases env d mem draw with ⟨hsame, _⟩ | ⟨_, hmatch, hadd⟩
  · rw [hsame]
    exact h
  · rw [hadd]
    intro a ha e he hclash
    rcases data_of_mem_noteAuto ((sortAuto_perm env _).mem_iff.mp ha) with hnew | ⟨a', ha', hold⟩
    · -- The new token was compared with the whole dictionary.
      have hmatched : matchesExtras d.extras mem = true :=
        (matchesExtras_iff hsorted).mpr ⟨e, he, hnew ▸ hclash.symm⟩
      rw [hmatch] at hmatched
      cases hmatched
    · exact h a' ha' e he (hold ▸ hclash)

theorem noClash_addAutos (h : NoClash d) (hsorted : SortedByLen d.extras)
    (calls : List (List U8 × Nat)) :
    NoClash (addAutos env d calls) := by
  -- The dictionary stays sorted, since no call changes it.
  have hboth : NoClash (addAutos env d calls) ∧ SortedByLen (addAutos env d calls).extras := by
    unfold addAutos
    refine List.foldlRecOn
      (motive := fun d : Dictionary => NoClash d ∧ SortedByLen d.extras) _ _ ⟨h, hsorted⟩ ?_
    intro d hd c _
    refine ⟨noClash_maybeAddAuto hd.1 hd.2 c.1 c.2, ?_⟩
    rw [extras_maybeAddAuto]
    exact hd.2
  exact hboth.1

/-! ### The tokens of an earlier session -/

/-- The tokens in the files `auto_NNNNNN` that `load_auto` accepts, from file `i` on. -/
def autoTokensFrom (files : Nat → AutoFile) : Nat → Nat → List (List U8)
  | 0, _ => []
  | turns + 1, i =>
    match files i with
    | .content bytes =>
      let tmp := bytes.take (MAX_AUTO_EXTRA + 1)
      (if MIN_AUTO_EXTRA ≤ tmp.length ∧ tmp.length ≤ MAX_AUTO_EXTRA ∧ acceptable tmp then [tmp]
        else []) ++ autoTokensFrom files turns (i + 1)
    | _ => []

/-- The tokens in the files `auto_NNNNNN` that `load_auto` accepts. -/
def autoTokens (files : Nat → AutoFile) : List (List U8) := autoTokensFrom files USE_AUTO_EXTRAS 0

/-- While there is room, a noted token is there afterwards, and so is every token from before. -/
theorem exists_of_noteAuto {aExtras : List Extra} (mem : List U8) (draw : Nat)
    (hroom : aExtras.length < MAX_AUTO_EXTRAS) :
    (noteAuto aExtras mem draw).length ≤ aExtras.length + 1 ∧
      (∃ a ∈ noteAuto aExtras mem draw, SameToken a.data mem) ∧
      ∀ a ∈ aExtras, ∃ a' ∈ noteAuto aExtras mem draw, a'.data = a.data := by
  unfold noteAuto
  split
  · rename_i i hfind
    obtain ⟨hi, hmatch, _⟩ := List.findIdx?_eq_some_iff_getElem.mp hfind
    -- A hit changes the counter of one token.
    have hkeep : ∀ j (hj : j < aExtras.length), ∃ a' ∈ aExtras.modify i
        (fun e => { e with hitCnt := e.hitCnt + 1 }), a'.data = aExtras[j].data := by
      intro j hj
      have hj' : j < (aExtras.modify i fun e => { e with hitCnt := e.hitCnt + 1 }).length := by
        rwa [List.length_modify]
      refine ⟨_, List.getElem_mem hj', ?_⟩
      rw [List.getElem_modify]
      split <;> rfl
    refine ⟨by simp, ?_, fun a ha => ?_⟩
    · obtain ⟨a', ha', hdata⟩ := hkeep i hi
      exact ⟨a', ha', hdata ▸ matchesAuto_iff.mp hmatch⟩
    · obtain ⟨j, hj, rfl⟩ := List.getElem_of_mem ha
      exact hkeep j hj
  · rw [if_pos hroom]
    refine ⟨by simp, ⟨{ data := mem }, by simp, rfl⟩, fun a ha => ?_⟩
    exact ⟨a, List.mem_append_left _ ha, rfl⟩

/-- What `load_auto` leaves, from file `i` on, when the dictionary is still empty. -/
structure AutoLoaded (tokens : List (List U8)) (d d' : Dictionary) : Prop where
  extras : d'.extras = []
  /-- Tokens come from before or from the files. -/
  origin : ∀ a ∈ d'.aExtras, a.data ∈ tokens ∨ ∃ a' ∈ d.aExtras, a'.data = a.data
  /-- Tokens from before are kept. -/
  kept : ∀ a ∈ d.aExtras, ∃ a' ∈ d'.aExtras, a'.data = a.data
  /-- The tokens of the files are there, up to case. -/
  loaded : ∀ t ∈ tokens, ∃ a ∈ d'.aExtras, SameToken a.data t

theorem autoLoaded_nil (h : d.extras = []) : AutoLoaded [] d d :=
  ⟨h, fun a ha => Or.inr ⟨a, ha, rfl⟩, fun a ha => ⟨a, ha, rfl⟩,
    fun _ ht => absurd ht List.not_mem_nil⟩

theorem AutoLoaded.trans {tokens tokens' : List (List U8)} {d d' d'' : Dictionary}
    (h : AutoLoaded tokens d d') (h' : AutoLoaded tokens' d' d'') :
    AutoLoaded (tokens ++ tokens') d d'' := by
  refine ⟨h'.extras, fun a ha => ?_, fun a ha => ?_, fun t ht => ?_⟩
  · rcases h'.origin a ha with hnew | ⟨a', ha', hdata⟩
    · exact Or.inl (List.mem_append_right _ hnew)
    · rw [← hdata]
      rcases h.origin a' ha' with hfirst | hold
      · exact Or.inl (List.mem_append_left _ hfirst)
      · exact Or.inr hold
  · obtain ⟨a', ha', hdata⟩ := h.kept a ha
    obtain ⟨a'', ha'', hdata'⟩ := h'.kept a' ha'
    exact ⟨a'', ha'', hdata'.trans hdata⟩
  · rcases List.mem_append.mp ht with ht | ht
    · obtain ⟨a, ha, hsame⟩ := h.loaded t ht
      obtain ⟨a', ha', hdata⟩ := h'.kept a ha
      exact ⟨a', ha', hdata ▸ hsame⟩
    · exact h'.loaded t ht

/-- One token, with an empty dictionary and room for it. -/
theorem autoLoaded_maybeAddAuto (env : DictEnv) (hextras : d.extras = [])
    (hroom : d.aExtras.length < MAX_AUTO_EXTRAS) (mem : List U8) (draw : Nat) :
    AutoLoaded (if acceptable mem then [mem] else []) d (maybeAddAuto env d mem draw) ∧
      (maybeAddAuto env d mem draw).aExtras.length ≤ d.aExtras.length + 1 := by
  rcases maybeAddAuto_cases env d mem draw with ⟨hsame, hreject⟩ | ⟨haccept, _, hadd⟩
  · have hnot : acceptable mem = false := by
      cases hacc : acceptable mem with
      | false => rfl
      | true =>
        have hmatch := hreject hacc
        rw [hextras] at hmatch
        cases hmatch
    rw [hsame, hnot]
    exact ⟨autoLoaded_nil hextras, by omega⟩
  · obtain ⟨hlen, hnew, hold⟩ := exists_of_noteAuto mem draw hroom
    have hperm := sortAuto_perm env (noteAuto d.aExtras mem draw)
    rw [hadd, haccept, if_pos rfl]
    refine ⟨⟨hextras, fun a ha => ?_, fun a ha => ?_, fun t ht => ?_⟩, ?_⟩
    · rcases data_of_mem_noteAuto (hperm.mem_iff.mp ha) with hdata | hdata
      · exact Or.inl (List.mem_singleton.mpr hdata)
      · exact Or.inr hdata
    · obtain ⟨a', ha', hdata⟩ := hold a ha
      exact ⟨a', hperm.mem_iff.mpr ha', hdata⟩
    · obtain ⟨a, ha, hsame⟩ := hnew
      rw [List.mem_singleton.mp ht]
      exact ⟨a, hperm.mem_iff.mpr ha, hsame⟩
    · show (sortAuto env _).length ≤ _
      rw [hperm.length_eq]
      exact hlen

theorem autoLoaded_loadAutoFrom (env : DictEnv) (inDir : Text) (files : Nat → AutoFile)
    (draws : Nat → Nat) (turns : Nat) :
    ∀ (i : Nat) (d d' : Dictionary), d.extras = [] →
      d.aExtras.length + turns ≤ MAX_AUTO_EXTRAS →
      loadAutoFrom env inDir files draws turns i d = .ok d' →
      AutoLoaded (autoTokensFrom files turns i) d d' := by
  -- Induction on the number of files; every file adds one token at most, so nothing is evicted.
  induction turns with
  | zero =>
    intro i d d' hextras _ hrun
    cases hrun
    exact autoLoaded_nil hextras
  | succ turns ih =>
    intro i d d' hextras hroom hrun
    rw [loadAutoFrom] at hrun
    rw [autoTokensFrom]
    cases hfile : files i with
    | missing =>
      rw [hfile] at hrun
      cases hrun
      exact autoLoaded_nil hextras
    | openFails =>
      rw [hfile] at hrun
      cases hrun
    | readFails =>
      rw [hfile] at hrun
      cases hrun
    | content bytes =>
      rw [hfile] at hrun
      dsimp only at hrun ⊢
      generalize bytes.take (MAX_AUTO_EXTRA + 1) = tmp at hrun ⊢
      by_cases hlen : MIN_AUTO_EXTRA ≤ tmp.length ∧ tmp.length ≤ MAX_AUTO_EXTRA
      · rw [if_pos hlen] at hrun
        obtain ⟨hone, hsize⟩ :=
          autoLoaded_maybeAddAuto env hextras (by omega) tmp (draws i)
        have hrest := ih (i + 1) _ d' hone.extras (by omega) hrun
        have htokens : (if MIN_AUTO_EXTRA ≤ tmp.length ∧ tmp.length ≤ MAX_AUTO_EXTRA ∧
            acceptable tmp then [tmp] else []) = if acceptable tmp then [tmp] else [] := by
          simp only [hlen.1, hlen.2, true_and]
        rw [htokens]
        exact hone.trans hrest
      · rw [if_neg hlen] at hrun
        rw [if_neg fun h => hlen ⟨h.1, h.2.1⟩, List.nil_append]
        exact ih (i + 1) d d' hextras (by omega) hrun

/-! ### Start-up -/

/-- `load_extras` sorts the dictionary and leaves the auto-detected tokens alone. -/
theorem loadExtras_spec {fs : Text → ExtrasSource} {d d' : Dictionary} {arg : Text}
    (h : loadExtras env fs d arg = .ok d') :
    d'.aExtras = d.aExtras ∧ SortedByLen d'.extras := by
  unfold loadExtras at h
  dsimp only at h
  cases hread : readExtras fs (arg.takeWhile (· ≠ '@'))
      (if arg.contains '@' then
        some (atoi ((arg.dropWhile (· ≠ '@')).tail.map fun c => BitVec.ofNat 8 c.toNat))
      else none) d.extras with
  | error e =>
    rw [hread] at h
    cases h
  | ok extras =>
    rw [hread] at h
    change (if extras.isEmpty then _ else _) = _ at h
    split at h
    · cases h
    · cases h
      exact ⟨rfl, env.byLen_sorted extras⟩

/-- The start-up loads the auto-detected tokens, and then sorts the dictionary. -/
theorem startDictionary_spec {inDir : Text} {files : Nat → AutoFile} {draws : Nat → Nat}
    {fs : Text → ExtrasSource} {extrasDir : Option Text}
    (h : startDictionary env inDir files draws fs extrasDir = .ok d) :
    SortedByLen d.extras ∧ (∀ a ∈ d.aExtras, a.data ∈ autoTokens files) ∧
      ∀ t ∈ autoTokens files, ∃ a ∈ d.aExtras, SameToken a.data t := by
  unfold startDictionary at h
  cases hauto : loadAuto env inDir files draws {} with
  | error e =>
    rw [hauto] at h
    cases h
  | ok d₁ =>
    rw [hauto] at h
    have hloaded := autoLoaded_loadAutoFrom env inDir files draws USE_AUTO_EXTRAS 0 {} d₁ rfl
      (by decide) hauto
    have horigin : ∀ a ∈ d₁.aExtras, a.data ∈ autoTokens files := by
      intro a ha
      refine (hloaded.origin a ha).resolve_right ?_
      rintro ⟨a', ha', _⟩
      cases ha'
    cases extrasDir with
    | none =>
      cases h
      refine ⟨?_, horigin, hloaded.loaded⟩
      rw [hloaded.extras]
      exact List.Pairwise.nil
    | some dir =>
      obtain ⟨hsame, hsorted⟩ := loadExtras_spec h
      rw [hsame]
      exact ⟨hsorted, horigin, hloaded.loaded⟩

/-- For every start-up that is completed: no state after it, whatever `maybe_add_auto` is called
with, has an auto-detected token that matches a user token, if and only if no token that `load_auto`
accepts matches a user token. -/
theorem auto_tokens_iff (env : DictEnv) (inDir : Text) (files : Nat → AutoFile)
    (draws : Nat → Nat) (fs : Text → ExtrasSource) (extrasDir : Option Text) (d : Dictionary)
    (h : startDictionary env inDir files draws fs extrasDir = .ok d) :
    (∀ calls, NoClash (addAutos env d calls)) ↔
      ∀ t ∈ autoTokens files, ∀ e ∈ d.extras, ¬ SameToken t e.data := by
  obtain ⟨hsorted, horigin, hloaded⟩ := startDictionary_spec h
  constructor
  · intro hall t ht e he hsame
    obtain ⟨a, ha, hdata⟩ := hloaded t ht
    exact hall [] a ha e he (hdata.trans hsame)
  · intro hnone
    refine noClash_addAutos (fun a ha e he => ?_) hsorted
    exact hnone a.data (horigin a ha) e he

/-- The sorts by insertion. -/
def insertionEnv : DictEnv where
  sortByUse := List.insertionSort fun a b => b.hitCnt ≤ a.hitCnt
  sortByLen := List.insertionSort fun a b => a.data.length ≤ b.data.length
  byUse_perm := List.perm_insertionSort _
  byLen_perm := List.perm_insertionSort _
  byLen_sorted l :=
    haveI : Std.Total fun a b : Extra => a.data.length ≤ b.data.length :=
      ⟨fun _ _ => Nat.le_total _ _⟩
    haveI : IsTrans Extra fun a b => a.data.length ≤ b.data.length :=
      ⟨fun _ _ _ => Nat.le_trans⟩
    List.pairwise_insertionSort _ l

/-- The bytes of a text. -/
def bytesOf (s : String) : List U8 := s.toList.map fun c => BitVec.ofNat 8 c.toNat

/-- A session is resumed that has detected the token `abc`. -/
def abcFiles : Nat → AutoFile
  | 0 => .content (bytesOf "abc")
  | _ => .missing

/-- A dictionary file with one token. -/
def dictFile (line : String) : Text → ExtrasSource := fun _ => .file true (bytesOf line)

/-- The user dictionary has the token `xyz`. -/
theorem auto_tokens_iff_xyz :
    ∃ d, startDictionary insertionEnv [] abcFiles (fun _ => 0) (dictFile "k=\"xyz\"\n")
        (some "dict".toList) = .ok d ∧
      ∀ calls, NoClash (addAutos insertionEnv d calls) := by
  refine ⟨⟨[⟨bytesOf "xyz", 0⟩], [⟨bytesOf "abc", 0⟩], true⟩, by decide +kernel, ?_⟩
  exact (auto_tokens_iff insertionEnv [] abcFiles (fun _ => 0) (dictFile "k=\"xyz\"\n")
    (some "dict".toList) _ (by decide +kernel)).mpr (by decide +kernel)

/-- The user dictionary has the token `ABC`, which the resumed session has as `abc`. -/
theorem auto_token_clash :
    ¬ ∀ (env : DictEnv) (inDir : Text) (files : Nat → AutoFile) (draws : Nat → Nat)
      (fs : Text → ExtrasSource) (extrasDir : Option Text) (d : Dictionary),
        startDictionary env inDir files draws fs extrasDir = .ok d →
          ∀ calls, NoClash (addAutos env d calls) := by
  intro h
  refine h insertionEnv [] abcFiles (fun _ => 0) (dictFile "k=\"ABC\"\n") (some "dict".toList)
    ⟨[⟨bytesOf "ABC", 0⟩], [⟨bytesOf "abc", 0⟩], true⟩ (by decide +kernel) []
    ⟨bytesOf "abc", 0⟩ List.mem_cons_self ⟨bytesOf "ABC", 0⟩ List.mem_cons_self ?_
  decide +kernel

end TriforceAFL.Proofs
