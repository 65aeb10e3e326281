import Tusk.Consensus.Run
import Tusk.Primary.Proposer
import Tusk.Primary.SilentAuthorities

/-!
# Windows of leader rounds

The even rounds are cut into windows of `3f + 1`. In a window the leaders of `f` rounds are silent, and
`f + 2` of the other rounds are selected for direct commit (`windows_meet_ratios`). Both functions
compute the window anew for each round they are asked about, and they find the same one
(`windowRounds_eq`).
-/

set_option autoImplicit false

namespace Tusk.Adversary

open Lib

/-! ## The rounds of lowest draw -/

section Draws

variable {draw : ℕ → Digest} {rounds : List ℕ} {n : ℕ}

/-- The rounds with the lowest draws. -/
def lowest (draw : ℕ → Digest) (rounds : List ℕ) (n : ℕ) : List ℕ :=
  ((sortByKey toLex (rounds.map fun r => (draw r, r))).take n).map Prod.snd

theorem slots_perm (draw : ℕ → Digest) (rounds : List ℕ) :
    ((sortByKey toLex (rounds.map fun r => (draw r, r))).map Prod.snd).Perm rounds := by
  let slots := rounds.map fun r => (draw r, r)
  have sorted : (sortByKey toLex slots).Perm slots := sortByKey_perm slots
  have perm := sorted.map Prod.snd
  rw [List.map_map, show Prod.snd ∘ (fun r => (draw r, r)) = id from rfl, List.map_id] at perm
  exact perm

theorem lowest_subset : lowest draw rounds n ⊆ rounds := by
  rw [lowest, List.map_take]
  exact fun r member => (slots_perm draw rounds).subset (List.mem_of_mem_take member)

theorem lowest_nodup (distinct : rounds.Nodup) : (lowest draw rounds n).Nodup := by
  rw [lowest, List.map_take]
  exact ((slots_perm draw rounds).nodup_iff.mpr distinct).sublist (List.take_sublist _ _)

theorem length_lowest : (lowest draw rounds n).length = min n rounds.length := by
  rw [lowest, List.map_take, List.length_take, (slots_perm draw rounds).length_eq]

/-- Looking a round up among the slots of lowest draw. -/
theorem any_slot_eq (draw : ℕ → Digest) (rounds : List ℕ) (n r : ℕ) :
    (((sortByKey toLex (rounds.map fun r => (draw r, r))).take n).any
      fun slot => decide (slot.2 = r)) = decide (r ∈ lowest draw rounds n) := by
  rw [Bool.eq_iff_iff, List.any_eq_true, decide_eq_true_eq, lowest, List.mem_map]
  simp only [decide_eq_true_eq]

end Draws

/-! ## Windows -/

/-- The leader rounds of a window. -/
def leaderWindow (faults k : ℕ) : List ℕ :=
  (List.range (3 * faults + 1)).map fun offset => 2 * (k * (3 * faults + 1) + 1 + offset)

/-- The leader rounds that are computed from a round of the window. -/
def windowRounds (round faults : ℕ) : List ℕ :=
  (List.range (3 * faults + 1)).map fun offset =>
    2 * ((round / 2 - 1) / (3 * faults + 1) * (3 * faults + 1) + 1 + offset) % 2 ^ 64

variable {faults k r : ℕ}

theorem leaderWindow_nodup (faults k : ℕ) : (leaderWindow faults k).Nodup :=
  List.nodup_range.map fun _ _ same => by simpa using same

theorem length_leaderWindow (faults k : ℕ) : (leaderWindow faults k).length = 3 * faults + 1 := by
  simp [leaderWindow]

theorem even_of_mem_leaderWindow (member : r ∈ leaderWindow faults k) : r % 2 = 0 := by
  obtain ⟨offset, -, rfl⟩ := List.mem_map.mp member
  exact Nat.mul_mod_right 2 _

/-- **Every round of a window leads to this window.** -/
theorem windowRounds_eq (member : r ∈ leaderWindow faults k)
    (fits : 2 * ((k + 1) * (3 * faults + 1)) < 2 ^ 64) :
    windowRounds r faults = leaderWindow faults k := by
  obtain ⟨offset, inside, rfl⟩ := List.mem_map.mp member
  have bound := List.mem_range.mp inside
  have ordinal : 2 * (k * (3 * faults + 1) + 1 + offset) / 2 - 1 =
      offset + k * (3 * faults + 1) := by omega
  have start : (offset + k * (3 * faults + 1)) / (3 * faults + 1) = k := by
    rw [Nat.add_mul_div_right _ _ (Nat.succ_pos _), Nat.div_eq_of_lt bound, Nat.zero_add]
  refine List.map_congr_left fun other inside' => ?_
  have bound' := List.mem_range.mp inside'
  have below : 2 * (k * (3 * faults + 1) + 1 + other) < 2 ^ 64 := by
    refine lt_of_le_of_lt (Nat.mul_le_mul_left 2 ?_) fits
    rw [Nat.add_mul, Nat.one_mul]
    omega
  rw [ordinal, start, Nat.mod_eq_of_lt below]

section Windows

variable [Primitives] {authorities : List PublicKey} {seed : ℕ}

/-- The draw of a round's leader. -/
def leaderDraw (authorities : List PublicKey) (seed : ℕ) (domain : UInt8) (r : ℕ) : Digest :=
  score (leaderOf authorities r) r seed domain

/-- The rounds of a window whose leaders are silent. -/
def silentRounds (authorities : List PublicKey) (faults seed k : ℕ) : List ℕ :=
  lowest (leaderDraw authorities seed 2) (leaderWindow faults k) faults

/-- **The leader of a round is silent when the round is among those of lowest draw.** -/
theorem selected_leader (positive : 0 < faults) (enough : faults ≤ authorities.length)
    (member : r ∈ leaderWindow faults k) (fits : 2 * ((k + 1) * (3 * faults + 1)) < 2 ^ 64) :
    selected (leaderOf authorities r) authorities r faults seed =
      decide (r ∈ silentRounds authorities faults seed k) := by
  have slots : leaderSlots authorities r faults seed =
      (windowRounds r faults).map fun r => (leaderDraw authorities seed 2 r, r) := by
    rw [windowRounds, List.map_map]
    rfl
  rw [selected_of_even (even_of_mem_leaderWindow member) positive enough, if_pos rfl,
    leaderIsSilent, slots, windowRounds_eq member fits]
  exact any_slot_eq _ _ _ _

/-- The rounds of a window whose leaders are not silent. -/
def availableRounds (authorities : List PublicKey) (faults seed k : ℕ) : List ℕ :=
  (leaderWindow faults k).filter fun r => !selected (leaderOf authorities r) authorities r faults seed

/-- **A round is selected for direct commit when it is among the available ones of lowest draw.** -/
theorem directCommitSelected_eq (positive : 0 < faults) (enough : faults ≤ authorities.length)
    (member : r ∈ leaderWindow faults k) (fits : 2 * ((k + 1) * (3 * faults + 1)) < 2 ^ 64) :
    directCommitSelected authorities r faults seed =
      decide (r ∈ lowest (leaderDraw authorities seed 1)
        (availableRounds authorities faults seed k) (min (faults + 2) (3 * faults + 1))) := by
  have nonempty : ¬ (faults = 0 ∨ authorities.isEmpty = true) := by
    rintro (zero | empty)
    · exact positive.ne' zero
    · rw [List.isEmpty_iff.mp empty] at enough
      exact absurd enough (Nat.not_le.mpr positive)
  have available : ((List.range (3 * faults + 1)).filterMap fun offset =>
      let candidateRound :=
        2 * ((r / 2 - 1) / (3 * faults + 1) * (3 * faults + 1) + 1 + offset) % 2 ^ 64
      if selected (leaderOf authorities candidateRound) authorities candidateRound faults seed then
        none
      else
        some (leaderDraw authorities seed 1 candidateRound, candidateRound)) =
      (availableRounds authorities faults seed k).map fun r =>
        (leaderDraw authorities seed 1 r, r) := by
    rw [availableRounds, ← windowRounds_eq member fits, windowRounds, List.filter_map,
      List.map_map, ← List.filterMap_eq_map, List.filterMap_filter]
    refine List.filterMap_congr fun offset _ => ?_
    dsimp only [Function.comp_apply]
    split
    · next silent => exact (if_neg fun awake => by rw [silent] at awake; cases awake).symm
    · next awake => exact (if_pos (Bool.not_eq_true' _ ▸ Bool.eq_false_iff.mpr awake)).symm
  unfold directCommitSelected
  rw [if_neg nonempty, ← any_slot_eq]
  exact congrArg (fun slots => ((sortByKey toLex slots).take _).any _) available

/-- As many leaders of a window are silent as there are faults. -/
theorem countP_silent (positive : 0 < faults) (enough : faults ≤ authorities.length)
    (fits : 2 * ((k + 1) * (3 * faults + 1)) < 2 ^ 64) :
    ((leaderWindow faults k).countP fun r =>
      selected (leaderOf authorities r) authorities r faults seed) = faults := by
  have window := leaderWindow_nodup faults k
  calc ((leaderWindow faults k).countP fun r =>
        selected (leaderOf authorities r) authorities r faults seed)
      = (leaderWindow faults k).countP fun r =>
          decide (r ∈ silentRounds authorities faults seed k) :=
        List.countP_congr fun r member => by rw [selected_leader positive enough member fits]
    _ = (silentRounds authorities faults seed k).length :=
        countP_mem_of_subset window (lowest_nodup window) lowest_subset
    _ = faults := by
        rw [silentRounds, length_lowest, length_leaderWindow]
        omega

/-- The other leaders are available. -/
theorem length_availableRounds (positive : 0 < faults) (enough : faults ≤ authorities.length)
    (fits : 2 * ((k + 1) * (3 * faults + 1)) < 2 ^ 64) :
    (availableRounds authorities faults seed k).length = 2 * faults + 1 := by
  have silent : ((leaderWindow faults k).countP fun r =>
      selected (leaderOf authorities r) authorities r faults seed) = faults :=
    countP_silent positive enough fits
  have all := (leaderWindow faults k).length_eq_countP_add_countP fun r =>
    selected (leaderOf authorities r) authorities r faults seed
  rw [length_leaderWindow, silent] at all
  have available : (availableRounds authorities faults seed k).length =
      (leaderWindow faults k).countP fun r =>
        decide (¬ selected (leaderOf authorities r) authorities r faults seed = true) := by
    rw [availableRounds, ← List.countP_eq_length_filter]
    exact List.countP_congr fun r _ => by simp
  omega

/-- Two more leaders than there are faults are selected for direct commit. -/
theorem countP_directCommit (positive : 0 < faults) (enough : faults ≤ authorities.length)
    (fits : 2 * ((k + 1) * (3 * faults + 1)) < 2 ^ 64) :
    ((leaderWindow faults k).countP fun r => directCommitSelected authorities r faults seed) =
      faults + 2 := by
  let direct := lowest (leaderDraw authorities seed 1)
    (availableRounds authorities faults seed k) (min (faults + 2) (3 * faults + 1))
  have window := leaderWindow_nodup faults k
  have inside : direct ⊆ leaderWindow faults k := fun r member =>
    List.mem_of_mem_filter (lowest_subset member)
  calc ((leaderWindow faults k).countP fun r => directCommitSelected authorities r faults seed)
      = (leaderWindow faults k).countP fun r => decide (r ∈ direct) :=
        List.countP_congr fun r member => by
          rw [directCommitSelected_eq positive enough member fits]
    _ = direct.length := countP_mem_of_subset window (lowest_nodup (window.filter _)) inside
    _ = faults + 2 := by
        rw [length_lowest, length_availableRounds positive enough fits]
        omega

/-- A round with a silent leader is not selected for direct commit. -/
theorem awake_of_directCommit (positive : 0 < faults) (enough : faults ≤ authorities.length)
    (member : r ∈ leaderWindow faults k) (fits : 2 * ((k + 1) * (3 * faults + 1)) < 2 ^ 64)
    (direct : directCommitSelected authorities r faults seed = true) :
    selected (leaderOf authorities r) authorities r faults seed = false := by
  rw [directCommitSelected_eq positive enough member fits, decide_eq_true_eq] at direct
  simpa using (List.mem_filter.mp (lowest_subset direct)).2

end Windows

/-! ## The Proposer of a leader -/

section Proposers

/-- **The consensus elects the leader that the adversary knows.** -/
theorem leaderName_eq (consensus : Consensus) (round : ℕ)
    (nonempty : consensus.committee.authorities.keys ≠ []) :
    consensus.leaderName round = some (leaderOf consensus.committee.authorities.keys round) := by
  have sorted : consensus.committee.authorities.keys.Pairwise (· ≤ ·) :=
    consensus.committee.authorities.keys_sorted.imp le_of_lt
  have size : consensus.committee.size = consensus.committee.authorities.keys.length :=
    (List.length_map Prod.fst).symm
  have bound : round % consensus.committee.authorities.keys.length <
      consensus.committee.authorities.keys.length :=
    Nat.mod_lt _ (List.length_pos_iff.mpr nonempty)
  rw [Consensus.leaderName, sorted.insertionSort_eq, size, leaderOf, List.getD_eq_getElem?_getD,
    List.getElem?_eq_getElem bound, Option.getD_some]

variable [Primitives] (proposer : Proposer)

/-- The Proposer knows in every state whether it is silent in its round. -/
theorem silent_of_run (inputs : List (Bool × Proposer.Event)) :
    (proposer.run inputs).silent = proposer.selected (proposer.run inputs).round := by
  induction inputs using List.reverseRecOn with
  | nil => rfl
  | append_singleton inputs input ih =>
      have checked : ∀ s : Proposer.State, s.silent = proposer.selected s.round →
          (proposer.checkProposal s input.1).silent =
            proposer.selected (proposer.checkProposal s input.1).round := by
        intro s same
        unfold Proposer.checkProposal
        split_ifs
        · exact same
        · exact same
        · exact same
      rw [Proposer.run, List.foldl_append]
      show (proposer.receive (proposer.checkProposal (proposer.run inputs) input.1) input.2).silent =
        proposer.selected
          (proposer.receive (proposer.checkProposal (proposer.run inputs) input.1) input.2).round
      have before := checked _ ih
      cases input.2 with
      | parents digests round =>
          unfold Proposer.receive
          dsimp only
          split_ifs
          · exact before
          · rfl
      | report => exact before
      | timer => exact before

/-- **Leader windows meet the ratios.** In a window the leaders of `f` rounds are silent and `f + 2`
rounds are selected for direct commit. No round is both, and the Proposer of a leader whose round is
selected for direct commit is not silent in it. -/
theorem windows_meet_ratios {authorities : List PublicKey} {faults : ℕ} (positive : 1 ≤ faults)
    (fewer : faults < authorities.length) (seed k : ℕ)
    (fits : 2 * ((k + 1) * (3 * faults + 1)) < 2 ^ 64) :
    ((leaderWindow faults k).countP fun r =>
        selected (leaderOf authorities r) authorities r faults seed) = faults ∧
      ((leaderWindow faults k).countP fun r => directCommitSelected authorities r faults seed) =
        faults + 2 ∧
      ∀ r ∈ leaderWindow faults k, directCommitSelected authorities r faults seed = true →
        selected (leaderOf authorities r) authorities r faults seed = false ∧
        ∀ (consensus : Consensus) (proposer : Proposer) (inputs : List (Bool × Proposer.Event)),
          consensus.committee.authorities.keys = authorities → proposer.authorities = authorities →
          proposer.adversaryFaults = faults → proposer.adversarySeed = seed →
          consensus.leaderName r = some proposer.name →
          (proposer.run inputs).round = r → (proposer.run inputs).silent = false := by
  refine ⟨countP_silent positive fewer.le fits, countP_directCommit positive fewer.le fits,
    fun r member direct => ?_⟩
  have awake := awake_of_directCommit positive fewer.le member fits direct
  refine ⟨awake, ?_⟩
  rintro consensus proposer inputs same rfl rfl rfl elected round
  have nonempty : consensus.committee.authorities.keys ≠ [] :=
    List.ne_nil_of_length_pos (same ▸ by omega)
  rw [leaderName_eq consensus r nonempty, same] at elected
  rw [silent_of_run, round, Proposer.selected, ← Option.some.inj elected]
  exact awake

end Proposers

section FourKeys

local instance windowPrimitives : Primitives := executable fun _ _ => true

theorem windows_meet_ratios_first :
    ((leaderWindow 1 0).countP fun r => selected (leaderOf fourKeys r) fourKeys r 1 7) = 1 ∧
      ((leaderWindow 1 0).countP fun r => directCommitSelected fourKeys r 1 7) = 3 ∧
      ∀ r ∈ leaderWindow 1 0, directCommitSelected fourKeys r 1 7 = true →
        selected (leaderOf fourKeys r) fourKeys r 1 7 = false ∧
        ∀ (consensus : Consensus) (proposer : Proposer) (inputs : List (Bool × Proposer.Event)),
          consensus.committee.authorities.keys = fourKeys → proposer.authorities = fourKeys →
          proposer.adversaryFaults = 1 → proposer.adversarySeed = 7 →
          consensus.leaderName r = some proposer.name →
          (proposer.run inputs).round = r → (proposer.run inputs).silent = false :=
  windows_meet_ratios le_rfl (by decide) 7 0 (by decide)

end FourKeys

end Tusk.Adversary
