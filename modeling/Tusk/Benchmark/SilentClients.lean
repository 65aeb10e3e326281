import Tusk.Benchmark.ClientSchedule
import Tusk.Primary.SilentAuthorities

/-!
# The clients of silent authorities are silent

The schedule of a client and the protocol are written twice: the script sorts the authorities and takes
the first ones, and the primary counts how many come before it. They select the same authorities
(`mem_silentIn_iff`), and the schedules of the clients say in every round which authorities are silent
(`schedules_agree`).
-/

set_option autoImplicit false

namespace Tusk.Benchmark

open Lib

section Selection

variable [Primitives] {ordered : List PublicKey} {round faults seed : ℕ}

/-- The rounds whose leaders are ranked for a round. -/
def candidateRounds (round faults : ℕ) : List ℕ :=
  (List.range (3 * faults + 1)).map fun offset =>
    2 * ((max (round / 2) 1 - 1) / (3 * faults + 1) * (3 * faults + 1) + 1 + offset)

theorem score_eq (roundFits : round < 2 ^ 64) (seedFits : seed < 2 ^ 64) (authority : PublicKey)
    (domain : UInt8) :
    score authority round seed domain = .ok (Adversary.score authority round seed domain) := by
  rw [score, toBytes, if_pos seedFits, toBytes, if_pos roundFits]
  rfl

/-- The candidates in the order of the primary's keys. -/
theorem sortedByScore_eq (roundFits : round < 2 ^ 64) (seedFits : seed < 2 ^ 64)
    (candidates : List PublicKey) :
    sortedByScore candidates round seed =
      .ok (sortByKey (Adversary.drawKey round seed) candidates) := by
  have keyed : (candidates.mapM fun key => do return (← score key round seed 0, key) :
      Except Raised (List (Digest × PublicKey))) =
      .ok (candidates.map fun key => (Adversary.score key round seed 0, key)) :=
    mapM_eq_ok fun key _ => by
      rw [score_eq roundFits seedFits]
      rfl
  rw [sortedByScore, keyed]
  show Except.ok _ = Except.ok _
  rw [sortByKey_map, List.map_map]
  exact congrArg Except.ok (List.map_id _)

/-- The leader rounds that the script ranks are those that the primary ranks. -/
theorem silentLeaderRounds_eq (seedFits : seed < 2 ^ 64)
    (fits : ∀ candidate ∈ candidateRounds round faults, candidate < 2 ^ 64) :
    silentLeaderRounds ordered round faults seed =
      .ok (((sortByKey toLex (Adversary.leaderSlots ordered round faults seed)).take faults).map
        Prod.snd) := by
  have start : max (round / 2) 1 - 1 = round / 2 - 1 := by omega
  have slots : ((List.range (3 * faults + 1)).mapM fun offset => do
      let candidateRound := 2 * ((max (round / 2) 1 - 1) / (3 * faults + 1) * (3 * faults + 1) + 1 +
        offset)
      let leader := ordered.getD (candidateRound % ordered.length) default
      return (← score leader candidateRound seed 2, candidateRound) :
      Except Raised (List (Digest × ℕ))) =
      .ok (Adversary.leaderSlots ordered round faults seed) := by
    refine mapM_eq_ok fun offset member => ?_
    have bound : 2 * ((max (round / 2) 1 - 1) / (3 * faults + 1) * (3 * faults + 1) + 1 + offset) <
        2 ^ 64 := fits _ (List.mem_map_of_mem member)
    dsimp only
    rw [score_eq bound seedFits]
    rw [start] at bound ⊢
    rw [Nat.mod_eq_of_lt bound]
    rfl
  rw [silentLeaderRounds]
  dsimp only
  rw [slots]
  rfl

theorem decide_mem_silentRounds :
    decide (round ∈ ((sortByKey toLex (Adversary.leaderSlots ordered round faults seed)).take
      faults).map Prod.snd) = Adversary.leaderIsSilent ordered round faults seed := by
  rw [Adversary.leaderIsSilent, Bool.eq_iff_iff, decide_eq_true_eq, List.any_eq_true, List.mem_map]
  simp only [decide_eq_true_eq]

/-- The authorities of lowest rank are the first ones of the sorted list. -/
theorem mem_take_drawn_iff {candidates : List PublicKey} (distinct : candidates.Nodup) {k : ℕ}
    {key : PublicKey} :
    key ∈ (sortByKey (Adversary.drawKey round seed) candidates).take k ↔
      key ∈ candidates ∧ rankIn (Adversary.drawKey round seed) candidates key < k :=
  mem_take_sortByKey_iff (Adversary.drawKeys_nodup distinct round seed)

/-- The selection in a round with a leader. -/
theorem mem_silentIn_leaderRound (distinct : ordered.Nodup) (roundFits : round < 2 ^ 64)
    (seedFits : seed < 2 ^ 64) (enough : faults ≤ ordered.length) (positive : 0 < faults)
    (even : round % 2 = 0) (fits : ∀ candidate ∈ candidateRounds round faults, candidate < 2 ^ 64) :
    ∃ selected, silentIn ordered round faults seed = .ok selected ∧
      ∀ key ∈ ordered,
        (key ∈ selected ↔ Adversary.selected key ordered round faults seed = true) := by
  let leader := Adversary.leaderOf ordered round
  let silent := Adversary.leaderIsSilent ordered round faults seed
  let candidates := ordered.filter fun key => decide (key ≠ leader)
  let taken := (sortByKey (Adversary.drawKey round seed) candidates).take (faults - silent.toNat)
  have result : silentIn ordered round faults seed =
      .ok (if silent then leader :: taken else taken) := by
    unfold silentIn
    rw [if_pos ⟨positive, even⟩, silentLeaderRounds_eq seedFits fits]
    dsimp only [bind, Except.bind]
    rw [sortedByScore_eq roundFits seedFits, decide_mem_silentRounds]
    rfl
  refine ⟨_, result, fun key member => ?_⟩
  have ofTaken : key ∈ taken ↔
      key ∈ candidates ∧ rankIn (Adversary.drawKey round seed) candidates key <
        faults - silent.toNat := mem_take_drawn_iff (distinct.filter _)
  rw [Adversary.selected_of_even even positive enough]
  by_cases leads : key = leader
  · have untaken : key ∉ taken := fun drawn => by
      simpa [candidates, leads] using (ofTaken.mp drawn).1
    rw [if_pos leads]
    show key ∈ (if silent then leader :: taken else taken) ↔ silent = true
    cases silent with
    | false => simp [untaken]
    | true => simp [leads]
  · have candidate : key ∈ candidates := List.mem_filter.mpr ⟨member, by simpa using leads⟩
    rw [if_neg leads, decide_eq_true_eq]
    have drawn : key ∈ (if silent then leader :: taken else taken) ↔ key ∈ taken := by
      cases silent <;> simp [leads]
    rw [drawn, ofTaken]
    exact and_iff_right candidate

/-- The selection in another round, or without faults. -/
theorem mem_silentIn_otherRound (distinct : ordered.Nodup) (roundFits : round < 2 ^ 64)
    (seedFits : seed < 2 ^ 64) (enough : faults ≤ ordered.length)
    (other : ¬ (0 < faults ∧ round % 2 = 0)) :
    ∃ selected, silentIn ordered round faults seed = .ok selected ∧
      ∀ key ∈ ordered,
        (key ∈ selected ↔ Adversary.selected key ordered round faults seed = true) := by
  have result : silentIn ordered round faults seed =
      .ok ((sortByKey (Adversary.drawKey round seed) ordered).take faults) := by
    unfold silentIn
    rw [if_neg other, sortedByScore_eq roundFits seedFits]
    rfl
  refine ⟨_, result, fun key member => ?_⟩
  rw [mem_take_drawn_iff distinct, and_iff_right member]
  rcases Nat.eq_zero_or_pos faults with rfl | positive
  · simp [Adversary.selected_zero]
  · have odd : round % 2 = 1 := by omega
    rw [Adversary.selected_of_odd odd positive enough, decide_eq_true_eq]

/-- **The script and the primary select the same authorities.** -/
theorem mem_silentIn_iff (distinct : ordered.Nodup) (roundFits : round < 2 ^ 64)
    (seedFits : seed < 2 ^ 64) (enough : faults ≤ ordered.length)
    (fits : round % 2 = 0 → ∀ candidate ∈ candidateRounds round faults, candidate < 2 ^ 64) :
    ∃ selected, silentIn ordered round faults seed = .ok selected ∧
      ∀ key ∈ ordered,
        (key ∈ selected ↔ Adversary.selected key ordered round faults seed = true) := by
  by_cases leaderRound : 0 < faults ∧ round % 2 = 0
  · obtain ⟨positive, even⟩ := leaderRound
    exact mem_silentIn_leaderRound distinct roundFits seedFits enough positive even (fits even)
  · exact mem_silentIn_otherRound distinct roundFits seedFits enough leaderRound

end Selection

section Schedules

variable {authorities : List (String × PublicKey)} {name : String} {key : PublicKey}

theorem keyOfBytes_asRef (key : PublicKey) : keyOfBytes key.asRef = key := by
  rcases key with ⟨word⟩
  refine congrArg PublicKey.mk (BitVec.eq_of_toNat_eq ?_)
  have bound : word.toNat < 2 ^ 256 := word.isLt
  rw [PublicKey.asRef, wordBytes, List.reverse_reverse, ofLittleEndian_littleEndian,
    BitVec.toNat_ofNat, show 256 ^ 32 = 2 ^ 256 by norm_num, Nat.mod_mod, Nat.mod_eq_of_lt bound]

/-- What a round adds to the schedule of an authority. -/
theorem get_appendRound (distinct : (authorities.map Prod.fst).Nodup)
    (member : (name, key) ∈ authorities) (pause : Bool) (selected : List PublicKey)
    (schedules : HashMap String (List Char)) :
    HashMap.get (appendRound authorities pause selected schedules) name =
      some ((HashMap.get schedules name).getD [] ++
        [if pause && decide (key ∈ selected) then '1' else '0']) := by
  simp only [appendRound, List.contains_eq_mem]
  induction authorities generalizing schedules with
  | nil => cases member
  | cons entry rest ih =>
      obtain ⟨fresh, distinctRest⟩ := List.nodup_cons.mp distinct
      rw [List.foldl_cons]
      rcases List.mem_cons.mp member with rfl | later
      · rw [HashMap.get_foldl_upsert Prod.fst (fun entry bits => bits.getD [] ++
          [if pause && decide (entry.2 ∈ selected) then '1' else '0']) _ fresh,
          HashMap.get_upsert, if_pos rfl]
      · have different : name ≠ entry.1 := fun same =>
          fresh (same ▸ List.mem_map_of_mem later)
        rw [ih distinctRest later, HashMap.get_upsert, if_neg different]

/-- **A schedule has one character for each round.** -/
theorem get_rounds (distinct : (authorities.map Prod.fst).Nodup)
    (member : (name, key) ∈ authorities) (pause : Bool) (selected : ℕ → List PublicKey)
    (rounds : List ℕ) (schedules : HashMap String (List Char)) {bits : List Char}
    (before : HashMap.get schedules name = some bits) :
    HashMap.get (rounds.foldl (fun schedules round =>
        appendRound authorities pause (selected round) schedules) schedules) name =
      some (bits ++ rounds.map fun round =>
        if pause && decide (key ∈ selected round) then '1' else '0') := by
  induction rounds generalizing schedules bits with
  | nil => simpa using before
  | cons round rounds ih =>
      have next := get_appendRound distinct member pause (selected round) schedules
      rw [before, Option.getD_some] at next
      rw [List.foldl_cons, ih _ next, List.map_cons, List.append_assoc]
      rfl

end Schedules

section Agreement

variable [Primitives] {authorities : List (String × PublicKey)}

/-- The authorities in the order of their keys. -/
def sortedKeys (authorities : List (String × PublicKey)) : List PublicKey :=
  (authorities.map Prod.snd).insertionSort (· ≤ ·)

/-- No round number that is computed for a schedule of some length exceeds 64 bits. -/
def RoundsFit (slots faults : ℕ) : Prop :=
  ∀ round, 1 ≤ round → round ≤ slots → round < 2 ^ 64 ∧
    (round % 2 = 0 → ∀ candidate ∈ candidateRounds round faults, candidate < 2 ^ 64)

/-- The primary limits the faults to the number of authorities as well. -/
theorem selected_min (key : PublicKey) (ordered : List PublicKey) (round faults seed : ℕ) :
    Adversary.selected key ordered round (min faults ordered.length) seed =
      Adversary.selected key ordered round faults seed := by
  unfold Adversary.selected
  rw [Nat.min_assoc, Nat.min_self]

omit [Primitives] in
theorem names_nodup (distinct : (authorities.map Prod.snd).Nodup)
    (decoded : ∀ entry ∈ authorities, b64decode entry.1 = .ok entry.2.asRef) :
    (authorities.map Prod.fst).Nodup := by
  refine List.pairwise_map.mpr ((List.pairwise_map.mp distinct).imp_of_mem ?_)
  intro entry other member member' different same
  have both := decoded entry member
  rw [same, decoded other member'] at both
  exact different (PublicKey.asRef_injective (Except.ok.inj both)).symm

variable (authorities) in
/-- The loop of the script over the rounds. -/
theorem rounds_eq {ordered : List PublicKey} (distinct : ordered.Nodup) {seed faults slots : ℕ}
    (seedFits : seed < 2 ^ 64) (fits : RoundsFit slots (min faults ordered.length))
    (pause : Bool) (schedules : HashMap String (List Char)) :
    ∃ selected : ℕ → List PublicKey,
      ((List.range' 1 slots).foldlM (fun schedules roundNumber => do
        let chosen ← silentIn ordered roundNumber (min faults ordered.length) seed
        return appendRound authorities pause chosen schedules) schedules :
          Except Raised (HashMap String (List Char))) =
        .ok ((List.range' 1 slots).foldl (fun schedules round =>
          appendRound authorities pause (selected round) schedules) schedules) ∧
      ∀ round, 1 ≤ round → round ≤ slots → ∀ key ∈ ordered,
        (key ∈ selected round ↔ Adversary.selected key ordered round faults seed = true) := by
  have chosen : ∀ round, ∃ selected, 1 ≤ round → round ≤ slots →
      silentIn ordered round (min faults ordered.length) seed = .ok selected ∧
      ∀ key ∈ ordered,
        (key ∈ selected ↔ Adversary.selected key ordered round faults seed = true) := by
    intro round
    by_cases inside : 1 ≤ round ∧ round ≤ slots
    · obtain ⟨roundFits, windowFits⟩ := fits round inside.1 inside.2
      obtain ⟨selected, result, agree⟩ :=
        mem_silentIn_iff distinct roundFits seedFits (Nat.min_le_right _ _) windowFits
      refine ⟨selected, fun _ _ => ⟨result, fun key member => ?_⟩⟩
      rw [agree key member, selected_min]
    · exact ⟨[], fun first last => absurd ⟨first, last⟩ inside⟩
  choose selected spec using chosen
  refine ⟨selected, foldlM_eq_ok (fun round member schedules => ?_) _,
    fun round first last => (spec round first last).2⟩
  have inside := List.mem_range'_1.mp member
  rw [(spec round inside.1 (by omega)).1]
  rfl

/-- What the script computes from valid arguments. -/
theorem build_eq (decoded : ∀ entry ∈ authorities, b64decode entry.1 = .ok entry.2.asRef)
    {environ : Environ}
    (paused : (environ.clientDuringSilence.getD "pause").toList.map Char.toLower = "pause".toList)
    (faults : ℕ) {seed : ℕ} (seeded : environ.adversarySeed.getD 0 = seed)
    (seedFits : seed < 2 ^ 64) {duration slotMs slots : ℤ} (positive : 0 < slotMs)
    (counted : slotCount duration slotMs = .ok slots) :
    buildClientSchedules environ (authorities.map Prod.fst) faults duration slotMs =
      (List.range' 1 slots.toNat).foldlM (fun schedules roundNumber => do
        let chosen ← silentIn (sortedKeys authorities) roundNumber
          (min faults (sortedKeys authorities).length) seed
        return appendRound authorities true chosen schedules)
        (HashMap.ofList ((authorities.map Prod.fst).map fun name => (name, []))) := by
  have texts : ((authorities.map Prod.fst).mapM fun name => do return (name, ← b64decode name) :
      Except Raised (List (String × List UInt8))) =
      .ok (authorities.map fun entry => (entry.1, entry.2.asRef)) := by
    rw [List.mapM_map]
    refine mapM_eq_ok fun entry member => ?_
    show (do return (entry.1, ← b64decode entry.1)) = _
    rw [decoded entry member]
    rfl
  have lengths : ((authorities.map fun entry => (entry.1, entry.2.asRef)).any fun entry =>
      decide (entry.2.length ≠ 32)) = false := by simp
  have keys : ((authorities.map fun entry => (entry.1, entry.2.asRef)).map fun entry =>
      (entry.1, keyOfBytes entry.2)) = authorities := by
    rw [List.map_map]
    refine (List.map_congr_left fun entry _ => ?_).trans (List.map_id _)
    dsimp only [Function.comp_apply]
    rw [keyOfBytes_asRef]
    rfl
  have sorted : (authorities.map Prod.snd).insertionSort (· ≤ ·) = sortedKeys authorities := rfl
  have clamped : (min (max (faults : ℤ) 0) (sortedKeys authorities).length).toNat =
      min faults (sortedKeys authorities).length := by omega
  unfold buildClientSchedules
  rw [paused, seeded, if_neg (by simp), if_neg (by omega), if_neg (by omega), texts]
  dsimp only [bind, Except.bind, pure, Except.pure]
  rw [lengths, keys, if_neg Bool.false_ne_true, counted, sorted, clamped, Int.toNat_natCast,
    decide_eq_true rfl]

/-- **The schedules of the clients say which authorities are silent.** The characters of a schedule
tell in pause mode, round by round, what the primary of that authority finds. -/
theorem schedules_agree (distinct : (authorities.map Prod.snd).Nodup)
    (decoded : ∀ entry ∈ authorities, b64decode entry.1 = .ok entry.2.asRef) {environ : Environ}
    (paused : (environ.clientDuringSilence.getD "pause").toList.map Char.toLower = "pause".toList)
    (faults : ℕ) {seed : ℕ} (seeded : environ.adversarySeed.getD 0 = seed)
    (seedFits : seed < 2 ^ 64) {duration slotMs slots : ℤ} (positive : 0 < slotMs)
    (counted : slotCount duration slotMs = .ok slots)
    (fits : RoundsFit slots.toNat (min faults authorities.length)) :
    ∃ schedules,
      buildClientSchedules environ (authorities.map Prod.fst) faults duration slotMs =
        .ok schedules ∧
      ∀ name key, (name, key) ∈ authorities →
        ∃ bits, HashMap.get schedules name = some bits ∧ bits.length = slots.toNat ∧
          ∀ i (inside : i < bits.length), (bits[i] = '1' ↔
            Adversary.selected key (sortedKeys authorities) (i + 1) faults seed = true) := by
  let ordered := sortedKeys authorities
  have perm : ordered.Perm (authorities.map Prod.snd) := List.perm_insertionSort _ _
  have size : ordered.length = authorities.length := by rw [perm.length_eq, List.length_map]
  have names := names_nodup distinct decoded
  obtain ⟨selected, rounds, agree⟩ := rounds_eq authorities
    (perm.nodup_iff.mpr distinct) seedFits (size ▸ fits) true
    (HashMap.ofList ((authorities.map Prod.fst).map fun name => (name, [])))
  have build := build_eq decoded paused faults seeded seedFits positive counted
  refine ⟨_, build.trans rounds, fun name key member => ?_⟩
  have opened : HashMap.get (HashMap.ofList ((authorities.map Prod.fst).map fun name =>
      (name, ([] : List Char)))) name = some [] := by
    refine (HashMap.get_ofList ?_).mpr (List.mem_map_of_mem (List.mem_map_of_mem member))
    rwa [List.map_map, show Prod.fst ∘ (fun name : String => (name, ([] : List Char))) = id from rfl,
      List.map_id]
  refine ⟨_, get_rounds names member true selected _ _ opened, by simp, fun i inside => ?_⟩
  rw [List.nil_append, List.length_map, List.length_range'] at inside
  have silent := agree (i + 1) (by omega) (by omega) key
    (perm.mem_iff.mpr (List.mem_map_of_mem member))
  simp only [List.nil_append, List.getElem_map, List.getElem_range', Bool.true_and]
  rw [Nat.one_mul, Nat.add_comm 1 i, ← silent]
  by_cases chosen : key ∈ selected (i + 1) <;> simp [chosen]

end Agreement

section TwoClients

local instance clientPrimitives : Primitives := executable fun _ _ => true

/-- Two authorities under the base 64 of their keys. -/
def twoAuthorities : List (String × PublicKey) :=
  [("AAAAAAAAAAAAAAAAAAAAAAAAAAAAAAAAAAAAAAAAAAI=", ⟨2⟩),
    ("AAAAAAAAAAAAAAAAAAAAAAAAAAAAAAAAAAAAAAAAAAE=", ⟨1⟩)]

theorem twoAuthorities_decode :
    ∀ entry ∈ twoAuthorities, b64decode entry.1 = .ok entry.2.asRef := by
  decide +kernel

theorem twentyRoundsFit : RoundsFit 20 1 := by
  intro round first last
  refine ⟨by omega, fun even candidate member => ?_⟩
  obtain ⟨offset, inside, rfl⟩ := List.mem_map.mp member
  have bound := List.mem_range.mp inside
  omega

theorem schedules_agree_twenty :
    ∃ schedules,
      buildClientSchedules ⟨none, some 7⟩ (twoAuthorities.map Prod.fst) (1 : ℕ) 15 1000 =
        .ok schedules ∧
      ∀ name key, (name, key) ∈ twoAuthorities →
        ∃ bits, HashMap.get schedules name = some bits ∧ bits.length = (20 : ℤ).toNat ∧
          ∀ i (inside : i < bits.length), (bits[i] = '1' ↔
            Adversary.selected key (sortedKeys twoAuthorities) (i + 1) 1 7 = true) :=
  schedules_agree (by decide) twoAuthorities_decode (by decide) 1 rfl (by decide) (by decide)
    (by decide +kernel) twentyRoundsFit

end TwoClients

end Tusk.Benchmark
