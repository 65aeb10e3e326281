import Tusk.Consensus.Run
import Tusk.Lib.RoundRobin
import Tusk.Thresholds

/-!
# The authorities that lead

The leader of a round is the authority at the round modulo the size of the committee, and only even
rounds have a leader. The counter of the rotation so grows by two from one election to the next:
with an odd number of authorities each of them leads once in as many elections
(`leaderName_once_iff`), with an even number every second authority never leads
(`leaderName_ne_of_even`).
-/

set_option autoImplicit false

namespace Tusk.Consensus

open Lib

variable (node : Consensus)

/-- The keys of a committee are sorted already. -/
theorem leaderName_eq_getElem? (round : ℕ) :
    node.leaderName round = node.committee.authorities.keys[round % node.committee.size]? := by
  have sorted : node.committee.authorities.keys.Pairwise (· ≤ ·) :=
    node.committee.authorities.keys_sorted.imp le_of_lt
  rw [leaderName, sorted.insertionSort_eq]

theorem size_eq_length_keys : node.committee.size = node.committee.authorities.keys.length :=
  (List.length_map Prod.fst).symm

/-- **In an even committee every second authority never leads.** -/
theorem leaderName_ne_of_even (even : node.committee.size % 2 = 0) {index : ℕ}
    (odd : index % 2 = 1) (bound : index < node.committee.authorities.keys.length) (k : ℕ) :
    node.leaderName (2 * k) ≠ some node.committee.authorities.keys[index] := by
  rw [leaderName_eq_getElem?, size_eq_length_keys]
  rw [size_eq_length_keys] at even
  intro isTurn
  have residue := (turn_eq_some_iff node.committee.authorities.keys_nodup bound _).mp isTurn
  have divides := residue_dvd (Nat.dvd_refl 2) (Nat.dvd_of_mod_eq_zero even) k
  omega

/-- **The election is fair exactly in odd committees**: in every block of consecutive even rounds,
as many as there are authorities, each authority leads once. -/
theorem leaderName_once_iff (nonempty : 1 ≤ node.committee.size) (k : ℕ) :
    (∀ name ∈ node.committee.authorities.keys,
      ∃! i, i < node.committee.size ∧ node.leaderName (2 * (k + i)) = some name) ↔
      node.committee.size % 2 = 1 := by
  have turns := turns_once_iff node.committee.authorities.keys_nodup
    (node.size_eq_length_keys ▸ nonempty) 2 k
  simp only [leaderName_eq_getElem?, size_eq_length_keys] at turns ⊢
  rw [turns, Nat.coprime_two_left, Nat.odd_iff]

/-- A node of a committee that commits every leader it can. -/
def ofCommittee (committee : Committee) : Consensus where
  committee := committee
  gcDepth := 50
  directCommitSelected := fun _ => true

/-- Three authorities. -/
def threeAuthorities : Committee where
  authorities := ⟨[(⟨0⟩, .ofStake 1), (⟨1⟩, .ofStake 1), (⟨2⟩, .ofStake 1)], by decide⟩

theorem leaderName_once_three :
    1 ≤ (ofCommittee threeAuthorities).committee.size ∧
      ∀ name ∈ threeAuthorities.authorities.keys,
        ∃! i, i < 3 ∧ (ofCommittee threeAuthorities).leaderName (2 * (1 + i)) = some name :=
  ⟨by decide, (leaderName_once_iff (ofCommittee threeAuthorities) (by decide) 1).mpr (by decide)⟩

/-- **Of two authorities the second never leads.** -/
theorem second_never_leads :
    1 ≤ (ofCommittee Committee.evenCommittee).committee.size ∧
      ¬ ∀ name ∈ (ofCommittee Committee.evenCommittee).committee.authorities.keys,
        ∃! i, i < (ofCommittee Committee.evenCommittee).committee.size ∧
          (ofCommittee Committee.evenCommittee).leaderName (2 * (1 + i)) = some name := by
  refine ⟨by decide, fun once => ?_⟩
  obtain ⟨i, ⟨-, elected⟩, -⟩ := once ⟨1⟩ (by decide)
  exact leaderName_ne_of_even (ofCommittee Committee.evenCommittee) (by decide)
    (show 1 % 2 = 1 by decide) (by decide) (1 + i) elected

end Tusk.Consensus
