import Tusk.Config

/-!
# When the thresholds are quorums

The thresholds are meant to make any two quorums share a valid set, and any quorum meet any valid
set. Below a total stake of `2 ^ 31` they do, and the real total need not be `3 f + 1`. From there
on `2 * N` wraps and the quorum threshold falls to a third of the total or less, so that two
disjoint sets reach it, except where one authority outweighs all others (`quorums_iff`).
-/

set_option autoImplicit false

namespace Tusk.Committee

open Lib

variable (committee : Committee)

/-! ## The thresholds with wrapping -/

theorem totalVotes_toNat_mod :
    committee.totalVotes.toNat = committee.weights.total % 2 ^ 32 := by
  rw [totalVotes, toNat_sum_stakes, List.map_map, weights_total]
  rfl

/-- The quorum threshold, for every total stake. -/
theorem quorumThreshold_toNat_mod :
    committee.quorumThreshold.toNat = 2 * committee.weights.total % 2 ^ 32 / 3 + 1 := by
  have total := committee.totalVotes_toNat_mod
  have one : (1 : UInt32).toNat = 1 := rfl
  have two : (2 : UInt32).toNat = 2 := rfl
  have three : (3 : UInt32).toNat = 3 := rfl
  simp only [quorumThreshold, UInt32.toNat_add, UInt32.toNat_div, UInt32.toNat_mul, total, one,
    two, three, Nat.mul_mod_mod]
  omega

/-- The validity threshold, for every total stake. -/
theorem validityThreshold_toNat_mod :
    committee.validityThreshold.toNat = (committee.weights.total + 2) % 2 ^ 32 / 3 := by
  have total := committee.totalVotes_toNat_mod
  have two : (2 : UInt32).toNat = 2 := rfl
  have three : (3 : UInt32).toNat = 3 := rfl
  simp only [validityThreshold, UInt32.toNat_add, UInt32.toNat_div, total, two, three]
  omega

/-! ## What the thresholds are for -/

/-- The thresholds are real quorums: all authorities together reach the quorum threshold, two sets
that reach it share a set that reaches the validity threshold, and a set that reaches the one
meets a set that reaches the other. -/
structure RealQuorums : Prop where
  reachable : committee.quorumThreshold.toNat ≤ committee.weights.total
  shared : ∀ s t : Finset PublicKey,
    committee.quorumThreshold.toNat ≤ committee.weights.of s →
    committee.quorumThreshold.toNat ≤ committee.weights.of t →
    committee.validityThreshold.toNat ≤ committee.weights.of (s ∩ t)
  meet : ∀ s t : Finset PublicKey,
    committee.quorumThreshold.toNat ≤ committee.weights.of s →
    committee.validityThreshold.toNat ≤ committee.weights.of t →
    ∃ a, a ∈ s ∧ a ∈ t ∧ 0 < committee.weights.weight a

variable {committee}

/-- Without wrapping the thresholds are real quorums. -/
theorem NoWrap.realQuorums (noWrap : committee.NoWrap) (positive : 0 < committee.weights.total) :
    committee.RealQuorums := by
  have quorum := committee.quorumThreshold_toNat noWrap
  have validity := committee.validityThreshold_toNat noWrap
  constructor
  · rw [quorum, Weights.quorum]
    omega
  · intro s t heavy heavy'
    rw [quorum] at heavy heavy'
    rw [validity]
    have both := committee.weights.weight_add_weight_le s t
    have twice := committee.weights.total_add_validity_le
    omega
  · intro s t heavy valid
    rw [quorum] at heavy
    rw [validity] at valid
    exact committee.weights.quorum_meets_valid heavy valid

/-- With a dominant authority they are real quorums as long as the validity threshold does not
wrap: both thresholds stand for that authority. -/
theorem realQuorums_of_dominant {name : PublicKey} (fits : committee.weights.total + 2 < 2 ^ 32)
    (wraps : 2 ^ 32 ≤ 2 * committee.weights.total)
    (dominant : 2 ^ 32 + committee.weights.total ≤ 3 * (committee.stake name).toNat) :
    committee.RealQuorums := by
  have quorum := committee.quorumThreshold_toNat_mod
  have validity := committee.validityThreshold_toNat_mod
  rw [show 2 * committee.weights.total % 2 ^ 32 = 2 * committee.weights.total - 2 ^ 32 by omega]
    at quorum
  rw [Nat.mod_eq_of_lt fits] at validity
  have weight : committee.weights.weight name = (committee.stake name).toNat := rfl
  have inside : ∀ {s : Finset PublicKey},
      committee.quorumThreshold.toNat ≤ committee.weights.of s → name ∈ s := fun heavy =>
    committee.weights.mem_of_dominant (by omega) heavy
  have own : ∀ {s : Finset PublicKey}, name ∈ s →
      committee.weights.weight name ≤ committee.weights.of s := fun member =>
    Finset.single_le_sum (fun _ _ => Nat.zero_le _) member
  constructor
  · omega
  · intro s t heavy heavy'
    have common := own (Finset.mem_inter.mpr ⟨inside heavy, inside heavy'⟩)
    omega
  · intro s t heavy valid
    exact ⟨name, inside heavy, inside (by omega), by omega⟩

/-- A committee whose validity threshold is zero has no real quorums. -/
theorem RealQuorums.validity_pos (real : committee.RealQuorums) :
    0 < committee.validityThreshold.toNat := by
  by_contra zero
  obtain ⟨a, -, inEmpty, -⟩ := real.meet committee.weights.members ∅ real.reachable (by omega)
  simp at inEmpty

/-- Where the thresholds are real quorums and `2 * N` wraps, one authority is dominant. -/
theorem RealQuorums.dominant (real : committee.RealQuorums)
    (wraps : 2 ^ 32 ≤ 2 * committee.weights.total) :
    ∃ name, committee.weights.total <
      committee.quorumThreshold.toNat + committee.weights.weight name := by
  by_contra none
  push Not at none
  have quorum := committee.quorumThreshold_toNat_mod
  obtain ⟨s, t, apart, heavy, heavy'⟩ :=
    committee.weights.exists_disjoint (by omega) committee.quorumThreshold_pos none
  have shared := real.shared s t heavy heavy'
  rw [Finset.disjoint_iff_inter_eq_empty.mp apart] at shared
  have zero : committee.weights.of ∅ = 0 := rfl
  have positive := real.validity_pos
  omega

/-- **The thresholds are real quorums** exactly when `2 * N` does not wrap, or `N + 2` does not and
one authority outweighs all others by far. -/
theorem quorums_iff (positive : 0 < committee.weights.total) :
    committee.RealQuorums ↔
      2 * committee.weights.total < 2 ^ 32 ∨
        committee.weights.total + 2 < 2 ^ 32 ∧
          ∃ name, 2 ^ 32 + committee.weights.total ≤ 3 * (committee.stake name).toNat := by
  constructor
  · intro real
    by_cases noWrap : 2 * committee.weights.total < 2 ^ 32
    · exact .inl noWrap
    · obtain ⟨name, dominant⟩ := real.dominant (by omega)
      rw [committee.weights_weight, quorumThreshold_toNat_mod] at dominant
      have small := (committee.stake name).toNat_lt
      have below : committee.weights.total < 2 ^ 32 := by
        by_contra wraps
        have rest : 2 * committee.weights.total % 2 ^ 32 ≤
            2 * (committee.weights.total - 2 ^ 32) := by omega
        omega
      rw [show 2 * committee.weights.total % 2 ^ 32 = 2 * committee.weights.total - 2 ^ 32
        by omega] at dominant
      have valid := real.validity_pos
      rw [validityThreshold_toNat_mod] at valid
      refine .inr ⟨?_, name, ?_⟩ <;> omega
  · rintro (noWrap | ⟨fits, name, dominant⟩)
    · exact NoWrap.realQuorums noWrap positive
    · by_cases wraps : 2 ^ 32 ≤ 2 * committee.weights.total
      · exact realQuorums_of_dominant fits wraps dominant
      · exact NoWrap.realQuorums (show committee.NoWrap by unfold NoWrap; omega) positive

/-- Two authorities that together hold half of the `u32` range. -/
def evenCommittee : Committee where
  authorities := ⟨[(⟨0⟩, .ofStake (2 ^ 30)), (⟨1⟩, .ofStake (2 ^ 30))], by decide⟩

theorem quorums_iff_even :
    0 < evenCommittee.weights.total ∧
      (evenCommittee.RealQuorums ↔
        2 * evenCommittee.weights.total < 2 ^ 32 ∨
          evenCommittee.weights.total + 2 < 2 ^ 32 ∧
            ∃ name, 2 ^ 32 + evenCommittee.weights.total ≤
              3 * (evenCommittee.stake name).toNat) :=
  ⟨by decide +kernel, quorums_iff (by decide +kernel)⟩

/-- With two authorities of stake `2 ^ 30` the quorum threshold is 1, and each is a quorum. -/
theorem quorums_apart :
    0 < evenCommittee.weights.total ∧
      ∃ s t : Finset PublicKey,
        evenCommittee.quorumThreshold.toNat ≤ evenCommittee.weights.of s ∧
        evenCommittee.quorumThreshold.toNat ≤ evenCommittee.weights.of t ∧
        ¬ evenCommittee.validityThreshold.toNat ≤ evenCommittee.weights.of (s ∩ t) ∧
        ¬ ∃ a, a ∈ s ∧ a ∈ t :=
  ⟨by decide +kernel, {⟨0⟩}, {⟨1⟩}, by decide +kernel, by decide +kernel, by decide +kernel,
    by decide +kernel⟩

end Tusk.Committee
