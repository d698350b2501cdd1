import TriforceAFL.Spec.Qemu

/-!
# `TriforceAFL.Proofs.QemuTrace`: the edge map of a guest

A traced block adds one to the map at its hash xor half the hash of the traced block before it.
`edges` says this about a list of hashes, and `Logged hs q` says that the map of `q` has come
from the hashes `hs`. Every act of a guest that is not a traced block leaves the map and `prev_loc`
alone, whatever it does to the traced range (`Logged.act`), so a whole run adds the hashes of its
traced blocks and no others (`logs_guest`), and no write is outside of the map.

`edge_map_counts` is the case of one `startWork` call with blocks behind it. The map depends on the
traced blocks alone, so two runs that agree on these have the same map.
-/

set_option autoImplicit false

namespace TriforceAFL.Proofs

open Spec

variable {t : Target} {hs : List Nat} {q q' : Qemu t} {r : Nat}

/-! ### The hash -/

/-- The mask leaves a map index. -/
theorem maskedHash_lt (loc : TargetUlong t) : (Qemu.maskedHash loc).toNat < MAP_SIZE := by
  unfold Qemu.maskedHash
  rw [BitVec.toNat_and, BitVec.toNat_ofNat]
  have hmask : (MAP_SIZE - 1) % 2 ^ t.longBits ≤ MAP_SIZE - 1 := Nat.mod_le _ _
  have hpos : 0 < MAP_SIZE := by decide
  exact Nat.lt_of_le_of_lt (Nat.and_le_right.trans hmask) (by omega)

/-- A hash is a map index. -/
theorem aflHash_lt (q : Qemu t) (loc : TargetUlong t) : (q.aflHash loc).toNat < MAP_SIZE := by
  have hpos : (0 : TargetUlong t).toNat < MAP_SIZE := by simp [MAP_SIZE]
  unfold Qemu.aflHash
  split
  · exact hpos
  · split
    · exact hpos
    · simp only
      split
      · exact hpos
      · exact maskedHash_lt loc

/-- Half a map index, and the xor of two of them, are map indices. -/
theorem xor_half_lt {h prev : Nat} (hh : h < MAP_SIZE) (hp : prev < MAP_SIZE) :
    h ^^^ (prev >>> 1) < MAP_SIZE := by
  have hhalf : prev >>> 1 ≤ prev := by
    rw [Nat.shiftRight_eq_div_pow]
    exact Nat.div_le_self _ _
  exact Nat.xor_lt_two_pow (n := 21) hh (Nat.lt_of_le_of_lt hhalf hp)

/-! ### Edges -/

/-- The map indices for a list of hashes, with the hash that was before them. -/
def edges : Nat → List Nat → List Nat
  | _, [] => []
  | prev, h :: hs => (h ^^^ (prev >>> 1)) :: edges h hs

theorem edges_concat (prev : Nat) (hs : List Nat) (h : Nat) :
    edges prev (hs ++ [h]) = edges prev hs ++ [h ^^^ (hs.getLastD prev >>> 1)] := by
  induction hs generalizing prev with
  | nil => rfl
  | cons g hs ih =>
    have hlast : (g :: hs).getLastD prev = hs.getLastD g := by cases hs <;> rfl
    rw [List.cons_append, edges, ih, edges, hlast, List.cons_append]

theorem getLastD_lt {n d : Nat} (hsmall : ∀ h ∈ hs, h < n) (hd : d < n) :
    hs.getLastD d < n := by
  rcases List.mem_cons.mp (List.getLastD_mem_cons (l := hs) (a := d)) with hlast | hlast
  · rw [hlast]
    exact hd
  · exact hsmall _ hlast

theorem edges_lt {prev : Nat} (hp : prev < MAP_SIZE) (hsmall : ∀ h ∈ hs, h < MAP_SIZE) :
    ∀ e ∈ edges prev hs, e < MAP_SIZE := by
  induction hs generalizing prev with
  | nil => simp [edges]
  | cons h hs ih =>
    have hh : h < MAP_SIZE := hsmall h List.mem_cons_self
    intro e he
    rcases List.mem_cons.mp he with rfl | he
    · exact xor_half_lt hh hp
    · exact ih hh (fun g hg => hsmall g (List.mem_cons_of_mem h hg)) e he

/-! ### The map after a list of hashes -/

/-- The map and `prev_loc` have come from the hashes `hs`, starting from an empty map. -/
structure Logged (hs : List Nat) (q : Qemu t) : Prop where
  small : ∀ h ∈ hs, h < MAP_SIZE
  prev : q.prevLoc.toNat = hs.getLastD 0 >>> 1
  counts : ∃ m, q.area = some m ∧
    ∀ i < MAP_SIZE, (m.byte i).toNat = (edges 0 hs).count i % 256

/-- A step that keeps the map and `prev_loc` adds no hash. -/
theorem Logged.of_eq (hq : Logged hs q) (harea : q'.area = q.area)
    (hprev : q'.prevLoc = q.prevLoc) : Logged hs q' where
  small := hq.small
  prev := by rw [hprev]; exact hq.prev
  counts := by rw [harea]; exact hq.counts

/-- An empty map, and a CPU thread that has just started. -/
theorem Logged.nil (harea : q.area = some (TraceMap.fill MAP_SIZE 0)) (hprev : q.prevLoc = 0) :
    Logged [] q where
  small := by simp
  prev := by rw [hprev]; simp
  counts := by
    refine ⟨_, harea, ?_⟩
    intro i hi
    simp [edges, TraceMap.byte, TraceMap.fill, Lib.byteOf, hi]

/-- What an increment does to a byte of the map. -/
theorem byte_increment (m : TraceMap MAP_SIZE) {i j : Nat} (hj : j < MAP_SIZE) :
    (Qemu.increment m i).byte j = if i = j then m.byte j + 1 else m.byte j := by
  have hlen : j < m.bytes.length := by rw [m.length_eq]; exact hj
  have hlen' : j < (m.bytes.modify i (· + 1)).length := by rwa [List.length_modify]
  simp only [TraceMap.byte, Qemu.increment, Lib.byteOf, List.getD_eq_getElem _ _ hlen,
    List.getD_eq_getElem _ _ hlen', List.getElem_modify]

/-- A traced block adds its hash, and its write is inside the map. -/
theorem Logged.helperAflMaybeLog (hq : Logged hs q) {h : TargetUlong t} (hh : h.toNat < MAP_SIZE) :
    ∃ q', q.helperAflMaybeLog h = .ok q' ∧ Logged (hs ++ [h.toNat]) q' := by
  obtain ⟨m, harea, hcounts⟩ := hq.counts
  have hlast : hs.getLastD 0 < MAP_SIZE := getLastD_lt hq.small (by decide)
  have hindex : (h ^^^ q.prevLoc).toNat = h.toNat ^^^ (hs.getLastD 0 >>> 1) := by
    rw [BitVec.toNat_xor, hq.prev]
  have hlt : (h ^^^ q.prevLoc).toNat < MAP_SIZE := by
    rw [hindex]
    exact xor_half_lt hh hlast
  refine ⟨{ q with
    area := some (Qemu.increment m (h ^^^ q.prevLoc).toNat)
    prevLoc := h >>> 1 }, ?_, ?_, ?_, ?_⟩
  · unfold Qemu.helperAflMaybeLog
    simp only [harea, hlt, if_true]
  · intro g hg
    rcases List.mem_append.mp hg with hg | hg
    · exact hq.small g hg
    · rw [List.mem_singleton.mp hg]
      exact hh
  · simp [BitVec.toNat_ushiftRight]
  · refine ⟨_, rfl, ?_⟩
    intro i hi
    rw [byte_increment m hi, edges_concat, List.count_append, hindex, List.count_singleton]
    have hi' := hcounts i hi
    -- a byte that is hit goes up by one, and wraps around with the count modulo 256
    by_cases heq : h.toNat ^^^ (hs.getLastD 0 >>> 1) = i
    · rw [if_pos heq, if_pos (beq_iff_eq.mpr heq), BitVec.toNat_add, hi']
      exact Nat.mod_add_mod _ _ _
    · rw [if_neg heq, if_neg (fun h => heq (beq_iff_eq.mp h)), hi']
      rfl

/-! ### The acts of a guest -/

/-- The hash that an act logs. -/
def loggedBy (q : Qemu t) : GuestAct t → List Nat
  | .executed pc => if q.aflHash pc ≠ 0 then [(q.aflHash pc).toNat] else []
  | .enter _ | .aflCall _ _ _ | .store _ _ => []

/-- The hashes that a guest logs. -/
def hashesOf : Qemu t → List (GuestAct t) → List Nat
  | _, [] => []
  | q, a :: acts =>
    loggedBy q a ++
      match q.act a with
      | .ok q' => hashesOf q' acts
      | .error _ => []

/-- A block adds its hash, if it is traced, and the guest goes on. -/
theorem Logged.aflMaybeLog (hq : Logged hs q) (pc : TargetUlong t) :
    ∃ q', q.aflMaybeLog pc = .ok q' ∧ Logged (hs ++ loggedBy q (.executed pc)) q' := by
  rw [loggedBy, Qemu.aflMaybeLog]
  by_cases hzero : q.aflHash pc = 0
  · rw [if_neg (not_not_intro hzero), if_neg (not_not_intro hzero), List.append_nil]
    exact ⟨q, rfl, hq⟩
  · rw [if_pos hzero, if_pos hzero]
    exact hq.helperAflMaybeLog (aflHash_lt q pc)

/-- What the acts other than blocks do: they leave the map and `prev_loc` alone, and they do not
take `startWork` back. -/
def KeepsMap (q : Qemu t) : Guest t (Qemu t) → Prop
  | .ok q' => q'.area = q.area ∧ q'.prevLoc = q.prevLoc ∧ (q.aflStart = true → q'.aflStart = true)
  | .error (.gone _ q') => q' = q
  | .error .outOfMap => False

theorem keepsMap_copyWork (content : List U8) (ptr sz retsz : TargetUlong t) (q : Qemu t) :
    KeepsMap q (.ok (Qemu.copyWork content ptr sz retsz q).2) := by
  induction content generalizing ptr retsz q with
  | nil => exact ⟨rfl, rfl, id⟩
  | cons ch rest ih =>
    unfold Qemu.copyWork
    split
    · exact ih (ptr + 1) (retsz + 1) (q.cpuStb ptr ch)
    · exact ⟨rfl, rfl, id⟩

theorem keepsMap_helperAflCall (q : Qemu t) (code a0 a1 : TargetUlong t) :
    KeepsMap q ((q.helperAflCall code a0 a1).map Prod.snd) := by
  unfold Qemu.helperAflCall
  split
  · unfold Qemu.startForkserver
    split
    · exact rfl
    · exact ⟨rfl, rfl, id⟩
  · unfold Qemu.getWork Qemu.assert
    cases hstart : q.aflStart with
    | true => exact rfl
    | false =>
      cases hfile : q.aflFile with
      | none => exact ⟨rfl, rfl, id⟩
      | some content => exact keepsMap_copyWork content a0 a1 0 q
  · exact ⟨rfl, rfl, fun _ => rfl⟩
  · unfold Qemu.doneWork Qemu.assert
    cases hstart : q.aflStart with
    | true => exact rfl
    | false => exact rfl
  · exact ⟨rfl, rfl, id⟩

theorem keepsMap_aflBBlock (q : Qemu t) (pc : TargetUlong t) : KeepsMap q (q.aflBBlock pc) := by
  have hlog : KeepsMap q (.ok (if pc.setWidth 64 = q.aflDmesgAddr then q.helperAflInterceptLog
      else q)) := by
    split
    · exact ⟨rfl, rfl, id⟩
    · exact ⟨rfl, rfl, id⟩
  unfold Qemu.aflBBlock
  split
  · unfold Qemu.helperAflInterceptPanic
    split
    · exact rfl
    · exact hlog
  · exact hlog

/-- An act that is not a traced block. -/
theorem keepsMap_act (q : Qemu t) {a : GuestAct t} (ha : ∀ pc, a ≠ .executed pc) :
    KeepsMap q (q.act a) := by
  cases a with
  | enter pc => exact keepsMap_aflBBlock q pc
  | executed pc => exact absurd rfl (ha pc)
  | aflCall code a0 a1 => exact keepsMap_helperAflCall q code a0 a1
  | store addr val => exact ⟨rfl, rfl, id⟩

/-- `Logged`, for a guest that goes on and for one that has ended. No write was outside of the
map. -/
def GuestLogged (hs : List Nat) : Guest t (Qemu t) → Prop
  | .ok q => Logged hs q
  | .error (.gone _ q) => Logged hs q
  | .error .outOfMap => False

theorem Logged.of_keepsMap (hq : Logged hs q) {res : Guest t (Qemu t)} (hres : KeepsMap q res) :
    GuestLogged hs res :=
  match res, hres with
  | .ok _, ⟨harea, hprev, _⟩ => hq.of_eq harea hprev
  | .error (.gone _ _), rfl => hq

/-- An act of a guest adds the hash that it logs. -/
theorem Logged.act (hq : Logged hs q) (a : GuestAct t) :
    GuestLogged (hs ++ loggedBy q a) (q.act a) := by
  by_cases ha : ∃ pc, a = .executed pc
  · obtain ⟨pc, rfl⟩ := ha
    obtain ⟨q', hok, hq'⟩ := hq.aflMaybeLog pc
    rw [Qemu.act, hok]
    exact hq'
  · have hnone : loggedBy q a = [] := by
      cases a with
      | executed pc => exact absurd ⟨pc, rfl⟩ ha
      | enter | aflCall | store => rfl
    rw [hnone, List.append_nil]
    exact hq.of_keepsMap (keepsMap_act q fun pc hpc => ha ⟨pc, hpc⟩)

/-- A guest adds the hashes that it logs, in their order. -/
theorem logs_guest (hq : Logged hs q) (acts : List (GuestAct t)) :
    GuestLogged (hs ++ hashesOf q acts) (q.guest acts) := by
  induction acts generalizing hs q with
  | nil =>
    rw [hashesOf, List.append_nil]
    exact hq
  | cons a acts ih =>
    have hact := hq.act a
    rw [hashesOf, Qemu.guest, List.foldlM_cons]
    -- The guest goes on, or it has ended and the other acts are not looked at.
    match hres : q.act a with
    | .ok q' =>
      rw [hres] at hact
      rw [← List.append_assoc]
      exact ih hact
    | .error (.gone status q') =>
      rw [hres] at hact
      rw [List.append_nil]
      exact hact
    | .error .outOfMap =>
      rw [hres] at hact
      exact hact.elim

/-! ### One call of `startWork` -/

/-- Is a block in the range, and does the ratio select it? -/
def sampled (start stop : TargetUlong t) (r : Nat) (pc : TargetUlong t) : Bool :=
  decide (start ≤ pc ∧ pc ≤ stop) && decide ((Qemu.maskedHash pc).toNat ≠ 0) &&
    decide ((Qemu.maskedHash pc).toNat < r)

/-- The hashes of the sampled blocks, in their order. -/
def sampledHashes (start stop : TargetUlong t) (r : Nat) (pcs : List (TargetUlong t)) : List Nat :=
  (pcs.filter (sampled start stop r)).map fun pc => (Qemu.maskedHash pc).toNat

/-- A machine with an empty map and a new CPU thread, whose memory holds the range `start` to `stop`
at `ptr`, and whose ratio is `r`. -/
structure ReadyToStart (q : Qemu t) (ptr start stop : TargetUlong t) (r : Nat) : Prop where
  empty : q.area = some (TraceMap.fill MAP_SIZE 0)
  fresh : q.prevLoc = 0
  start_eq : (q.cpuLdq ptr).setWidth t.longBits = start
  stop_eq : (q.cpuLdq (ptr + BitVec.ofNat _ (t.longBits / 8))).setWidth t.longBits = stop
  ratio : q.aflInstRms = r

/-- Tracing is on, for the range `start` to `stop` and the ratio `r`. -/
structure Tracing (q : Qemu t) (start stop : TargetUlong t) (r : Nat) : Prop where
  on : q.aflStart = true
  start_eq : q.aflStartCode = start
  stop_eq : q.aflEndCode = stop
  ratio : q.aflInstRms = r
  attached : q.area.isSome

/-- What a block logs while tracing is on. -/
theorem Tracing.loggedBy_executed {start stop : TargetUlong t} (hq : Tracing q start stop r)
    (pc : TargetUlong t) :
    loggedBy q (.executed pc) = sampledHashes start stop r [pc] := by
  have hsome : q.area.isNone = false := by
    rw [Option.isNone_eq_false_iff]
    exact hq.attached
  have hhash : q.aflHash pc =
      if sampled start stop r pc then Qemu.maskedHash pc else 0 := by
    unfold Qemu.aflHash sampled
    rw [hq.on, hq.start_eq, hq.stop_eq, hq.ratio, hsome]
    by_cases hin : start ≤ pc ∧ pc ≤ stop
    · by_cases hr : (Qemu.maskedHash pc).toNat < r
      · by_cases hz : (Qemu.maskedHash pc).toNat = 0
        · have hzero : Qemu.maskedHash pc = 0 := BitVec.eq_of_toNat_eq (by simpa using hz)
          simp [hzero]
        · simp [hin, hr, hz, BitVec.not_lt.mpr hin.1, BitVec.not_lt.mpr hin.2, Nat.not_le.mpr hr]
      · simp [hr, Nat.le_of_not_lt hr]
    · have hout : stop < pc ∨ pc < start := by
        rw [← BitVec.not_le, ← BitVec.not_le]
        tauto
      simp [hin, hout]
  rw [loggedBy, sampledHashes, hhash]
  cases hs : sampled start stop r pc with
  | false => simp [hs]
  | true =>
    have hne : Qemu.maskedHash pc ≠ 0#t.longBits := by
      intro hzero
      simp [sampled, hzero] at hs
    simp [hs, hne]

/-- A block changes the map and `prev_loc` only. -/
theorem aflMaybeLog_eq {pc : TargetUlong t} (hok : q.aflMaybeLog pc = .ok q') :
    q' = q ∨ ∃ m prev, q' = { q with area := some m, prevLoc := prev } := by
  unfold Qemu.aflMaybeLog at hok
  simp only at hok
  split at hok
  · unfold Qemu.helperAflMaybeLog at hok
    simp only at hok
    split at hok
    · split at hok
      · exact Or.inr ⟨_, _, (Except.ok.inj hok).symm⟩
      · cases hok
    · cases hok
  · exact Or.inl (Except.ok.inj hok).symm

/-- So it does not change what is traced. -/
theorem Tracing.executed {start stop : TargetUlong t} (hq : Tracing q start stop r)
    {pc : TargetUlong t} (hact : q.act (.executed pc) = .ok q') :
    Tracing q' start stop r := by
  rcases aflMaybeLog_eq hact with rfl | ⟨m, prev, rfl⟩
  · exact hq
  · exact ⟨hq.on, hq.start_eq, hq.stop_eq, hq.ratio, rfl⟩

/-- While tracing is on, blocks log the hashes of the sampled ones, and the guest goes on. -/
theorem Tracing.guest {start stop : TargetUlong t} (hq : Tracing q start stop r)
    (hlogged : Logged hs q) (pcs : List (TargetUlong t)) :
    ∃ q', q.guest (pcs.map .executed) = .ok q' ∧
      Logged (hs ++ sampledHashes start stop r pcs) q' := by
  induction pcs generalizing hs q with
  | nil => exact ⟨q, rfl, by simpa [sampledHashes] using hlogged⟩
  | cons pc pcs ih =>
    obtain ⟨q', hok, hq'⟩ := hlogged.aflMaybeLog pc
    rw [hq.loggedBy_executed] at hq'
    have hsplit : hs ++ sampledHashes start stop r (pc :: pcs) =
        hs ++ sampledHashes start stop r [pc] ++ sampledHashes start stop r pcs := by
      simp only [sampledHashes, List.append_assoc, ← List.map_append, ← List.filter_append,
        List.singleton_append]
    rw [hsplit, List.map_cons, Qemu.guest, List.foldlM_cons, Qemu.act, hok]
    exact ih (hq.executed hok) hq'

/-- `startWork` turns tracing on. -/
theorem ReadyToStart.tracing {ptr start stop : TargetUlong t} (hq : ReadyToStart q ptr start stop r)
    (a1 : TargetUlong t) :
    ∃ q', q.act (.aflCall 3 ptr a1) = .ok q' ∧ Tracing q' start stop r ∧ Logged [] q' := by
  have hcode : (3 : TargetUlong t).toNat = 3 := by cases t <;> rfl
  rw [Qemu.act, Qemu.helperAflCall, hcode]
  refine ⟨_, rfl, ⟨rfl, hq.start_eq, hq.stop_eq, hq.ratio, ?_⟩, ?_⟩
  · exact hq.empty ▸ rfl
  · exact (Logged.nil hq.empty hq.fresh).of_eq rfl rfl

/-- The map after `startWork` and some blocks, from their sampled hashes. -/
theorem ReadyToStart.guest {ptr start stop : TargetUlong t} (hq : ReadyToStart q ptr start stop r)
    (a1 : TargetUlong t) (pcs : List (TargetUlong t)) :
    ∃ q', q.guest (.aflCall 3 ptr a1 :: pcs.map .executed) = .ok q' ∧
      Logged (sampledHashes start stop r pcs) q' := by
  obtain ⟨q₁, hcall, htracing, hlogged⟩ := hq.tracing a1
  obtain ⟨q', hblocks, hq'⟩ := htracing.guest hlogged pcs
  refine ⟨q', ?_, hq'⟩
  rw [Qemu.guest, List.foldlM_cons, hcall]
  exact hblocks

/-- The hashes determine the map. -/
theorem Logged.area_eq (hq : Logged hs q) (hq' : Logged hs q') :
    q'.area = q.area := by
  obtain ⟨m, harea, hcounts⟩ := hq.counts
  obtain ⟨m', harea', hcounts'⟩ := hq'.counts
  have hbytes : m'.bytes = m.bytes := by
    apply List.ext_getElem (m'.length_eq.trans m.length_eq.symm)
    intro i hi' hi
    have hbyte : (m'.byte i).toNat = (m.byte i).toNat := by
      rw [hcounts i (m.length_eq ▸ hi), hcounts' i (m.length_eq ▸ hi)]
    simp only [TraceMap.byte, Lib.byteOf, List.getD_eq_getElem _ _ hi,
      List.getD_eq_getElem _ _ hi'] at hbyte
    exact BitVec.eq_of_toNat_eq hbyte
  have hmaps : m' = m := by
    cases m
    cases m'
    simp_all
  rw [harea, harea', hmaps]

/-- After a `startWork` call and any blocks, byte `i` of the map is, modulo 256, the number of
sampled blocks whose hash xor half the hash before it is `i`, and all these numbers are indices of
the map. A run that has the same sampled blocks has the same map, whatever other blocks it
executes. -/
theorem edge_map_counts {q : Qemu t} {ptr start stop : TargetUlong t} {r : Nat}
    (hq : ReadyToStart q ptr start stop r) (a1 : TargetUlong t) (pcs : List (TargetUlong t)) :
    ∃ q' m, q.guest (.aflCall 3 ptr a1 :: pcs.map .executed) = .ok q' ∧ q'.area = some m ∧
      (∀ i < MAP_SIZE,
        (m.byte i).toNat = (edges 0 (sampledHashes start stop r pcs)).count i % 256) ∧
      (∀ e ∈ edges 0 (sampledHashes start stop r pcs), e < MAP_SIZE) ∧
      ∀ (q₂ : Qemu t) (ptr₂ b1 : TargetUlong t) (pcs₂ : List (TargetUlong t)),
        ReadyToStart q₂ ptr₂ start stop r →
        pcs₂.filter (sampled start stop r) = pcs.filter (sampled start stop r) →
        ∃ q₂', q₂.guest (.aflCall 3 ptr₂ b1 :: pcs₂.map .executed) = .ok q₂' ∧
          q₂'.area = some m := by
  obtain ⟨q', hrun, hlogged⟩ := hq.guest a1 pcs
  obtain ⟨m, harea, hcounts⟩ := hlogged.counts
  refine ⟨q', m, hrun, harea, hcounts, edges_lt (by decide) hlogged.small, ?_⟩
  intro q₂ ptr₂ b1 pcs₂ hq₂ hsame
  obtain ⟨q₂', hrun₂, hlogged₂⟩ := hq₂.guest b1 pcs₂
  have hhashes : sampledHashes start stop r pcs₂ = sampledHashes start stop r pcs := by
    rw [sampledHashes, hsame, sampledHashes]
  rw [hhashes] at hlogged₂
  exact ⟨q₂', hrun₂, (hlogged.area_eq hlogged₂).trans harea⟩

/-- A machine of 64 bits that is about to trace all addresses. -/
def bootedGuest : Qemu .bits64 :=
  { area := some (TraceMap.fill MAP_SIZE 0)
    mem := fun a => if a < 8 then 0 else 0xff }

/-- It logs the blocks at 1, 1 and 2. -/
theorem edge_map_counts_booted :
    ReadyToStart bootedGuest 0 0 (-1) MAP_SIZE ∧
      ∃ q' m, bootedGuest.guest (.aflCall 3 0 0 :: [1, 1, 2].map .executed) = .ok q' ∧
        q'.area = some m ∧ ∀ i < MAP_SIZE, (m.byte i).toNat =
          (edges 0 (sampledHashes (0 : TargetUlong .bits64) (-1) MAP_SIZE [1, 1, 2])).count i %
            256 := by
  have hready : ReadyToStart bootedGuest 0 0 (-1) MAP_SIZE :=
    ⟨rfl, rfl, by decide +kernel, by decide +kernel, rfl⟩
  obtain ⟨q', m, hrun, harea, hcounts, -⟩ := edge_map_counts hready 0 [1, 1, 2]
  exact ⟨hready, q', m, hrun, harea, hcounts⟩

end TriforceAFL.Proofs
