import Mathlib.Algebra.BigOperators.Group.Finset.Piecewise
import Mathlib.Algebra.Order.BigOperators.Group.Finset
import Mathlib.Tactic.Linarith

/-!
# Weighted quorums

Members of a finite set carry weights, and everybody else weighs nothing. Two sets whose
weights exceed the total have a common member of positive weight (`exists_common`), and the
weight two sets share is at least what they weigh together beyond the total
(`weight_add_weight_le`).

With total weight `N`, a quorum weighs at least `2 * N / 3 + 1` and a valid set at least
`(N + 2) / 3`. The two divisions round differently, and the facts below hold for every `N` and
not only for `N = 3 f + 1`: a quorum meets a valid set (`total_lt_quorum_add_validity`), and two
quorums share a valid set (`total_add_validity_le`).
-/

set_option autoImplicit false

namespace Tusk.Lib

universe u

/-- A weight that is zero outside a finite set of members. -/
structure Weights (α : Type u) where
  members : Finset α
  weight : α → ℕ
  outside : ∀ a, a ∉ members → weight a = 0

namespace Weights

variable {α : Type u} (W : Weights α)

/-- The weight of a set. -/
def of (s : Finset α) : ℕ := ∑ a ∈ s, W.weight a

/-- The weight of everybody. -/
def total : ℕ := W.of W.members

/-- The weight required of a quorum. -/
def quorum : ℕ := 2 * W.total / 3 + 1

/-- The weight required to have one correct member. -/
def validity : ℕ := (W.total + 2) / 3

theorem total_lt_quorum_add_validity : W.total < W.quorum + W.validity := by
  unfold quorum validity
  omega

theorem total_add_validity_le : W.total + W.validity ≤ W.quorum + W.quorum := by
  unfold quorum validity
  omega

theorem of_mono {s t : Finset α} (subset : s ⊆ t) : W.of s ≤ W.of t :=
  Finset.sum_le_sum_of_subset subset

/-- A set of positive weight has a member of positive weight. -/
theorem exists_weight_pos {s : Finset α} (positive : 0 < W.of s) : ∃ a ∈ s, 0 < W.weight a := by
  by_contra none
  push Not at none
  have zero : W.of s = 0 := Finset.sum_eq_zero fun a member => Nat.le_zero.mp (none a member)
  omega

variable [DecidableEq α]

/-- No set outweighs the total. -/
theorem of_le_total (s : Finset α) : W.of s ≤ W.total := by
  have inside : W.of s = W.of (s ∩ W.members) := by
    refine (Finset.sum_subset Finset.inter_subset_left fun a member absent => ?_).symm
    exact W.outside a fun here => absent (Finset.mem_inter.mpr ⟨member, here⟩)
  rw [inside]
  exact W.of_mono Finset.inter_subset_right

/-- The weight that two sets share is at least their joint weight beyond the total. -/
theorem weight_add_weight_le (s t : Finset α) : W.of s + W.of t ≤ W.total + W.of (s ∩ t) := by
  have split : W.of (s ∪ t) + W.of (s ∩ t) = W.of s + W.of t := Finset.sum_union_inter
  have bound := W.of_le_total (s ∪ t)
  omega

/-- **Two sets that together outweigh the total have a common member of positive weight.** -/
theorem exists_common {s t : Finset α} (heavy : W.total < W.of s + W.of t) :
    ∃ a, a ∈ s ∧ a ∈ t ∧ 0 < W.weight a := by
  have shared := W.weight_add_weight_le s t
  obtain ⟨a, member, positive⟩ := W.exists_weight_pos (s := s ∩ t) (by omega)
  exact ⟨a, Finset.mem_of_mem_inter_left member, Finset.mem_of_mem_inter_right member, positive⟩

/-- A quorum and a valid set have a common member of positive weight. -/
theorem quorum_meets_valid {s t : Finset α} (hs : W.quorum ≤ W.of s) (ht : W.validity ≤ W.of t) :
    ∃ a, a ∈ s ∧ a ∈ t ∧ 0 < W.weight a := by
  have beyond := W.total_lt_quorum_add_validity
  exact W.exists_common (by omega)

/-- Two quorums share a member outside any set too light to be valid. -/
theorem quorums_meet_outside {s t light : Finset α} (hs : W.quorum ≤ W.of s)
    (ht : W.quorum ≤ W.of t) (small : W.of light < W.validity) :
    ∃ a, a ∈ s ∧ a ∈ t ∧ a ∉ light ∧ 0 < W.weight a := by
  have shared := W.weight_add_weight_le s t
  have twice := W.total_add_validity_le
  by_contra none
  push Not at none
  have inLight : W.of (s ∩ t) ≤ W.of light := by
    have dropped : W.of ((s ∩ t) \ light) = 0 := Finset.sum_eq_zero fun a member => by
      simp only [Finset.mem_sdiff, Finset.mem_inter] at member
      exact Nat.le_zero.mp (none a member.1.1 member.1.2 member.2)
    have split : W.of ((s ∩ t) \ light) + W.of ((s ∩ t) ∩ light) = W.of (s ∩ t) := by
      rw [add_comm]
      exact Finset.sum_inter_add_sum_sdiff (s ∩ t) light W.weight
    have rest := W.of_mono (s := (s ∩ t) ∩ light) (t := light) Finset.inter_subset_right
    omega
  omega

/-- What a quorum has outside a set too light to be valid is a valid set. -/
theorem validity_le_outside {s light : Finset α} (hs : W.quorum ≤ W.of s)
    (small : W.of light < W.validity) : W.validity ≤ W.of (s \ light) := by
  have split : W.of (s ∩ light) + W.of (s \ light) = W.of s :=
    Finset.sum_inter_add_sum_sdiff s light W.weight
  have inLight : W.of (s ∩ light) ≤ W.of light := W.of_mono Finset.inter_subset_right
  unfold quorum validity at *
  omega

/-! ## Any weight as threshold

Sets that weigh at least `q` need not meet. When `q` is at most a third of the total, rounded as
below, they do exactly when one member is so heavy that all others together weigh less than `q`. -/

/-- A set of light members has a part that weighs at least `q` and less than twice `q`. -/
theorem exists_part {q : ℕ} (positive : 0 < q) (light : ∀ a, W.weight a < q) {s : Finset α}
    (heavy : q ≤ W.of s) : ∃ t ⊆ s, q ≤ W.of t ∧ W.of t + 2 ≤ 2 * q := by
  induction s using Finset.induction_on with
  | empty =>
      have zero : W.of ∅ = 0 := rfl
      omega
  | insert a s fresh ih =>
      have added : W.of (insert a s) = W.weight a + W.of s := Finset.sum_insert fresh
      by_cases enough : q ≤ W.of s
      · obtain ⟨t, subset, rest⟩ := ih enough
        exact ⟨t, subset.trans (Finset.subset_insert a s), rest⟩
      · have small := light a
        exact ⟨insert a s, le_rfl, heavy, by omega⟩

/-- **Without a dominant member two disjoint sets reach a third of the total.** -/
theorem exists_disjoint {q : ℕ} (third : 3 * q ≤ W.total + 2) (positive : 0 < q)
    (balanced : ∀ a, q + W.weight a ≤ W.total) :
    ∃ s t : Finset α, Disjoint s t ∧ q ≤ W.of s ∧ q ≤ W.of t := by
  have rest : ∀ s ⊆ W.members, W.of (W.members \ s) + W.of s = W.total := fun s subset =>
    Finset.sum_sdiff subset
  by_cases single : ∃ a, q ≤ W.weight a
  · obtain ⟨a, heavy⟩ := single
    have member : a ∈ W.members := by
      by_contra absent
      have zero := W.outside a absent
      omega
    have alone : W.of {a} = W.weight a := Finset.sum_singleton _ _
    have others := rest {a} (Finset.singleton_subset_iff.mpr member)
    have bound := balanced a
    exact ⟨{a}, W.members \ {a}, Finset.disjoint_sdiff, by omega, by omega⟩
  · push Not at single
    have whole : q ≤ W.of W.members := by
      show q ≤ W.total
      omega
    obtain ⟨t, subset, heavy, bound⟩ := W.exists_part positive single whole
    have others := rest t subset
    exact ⟨t, W.members \ t, Finset.disjoint_sdiff, heavy, by omega⟩

/-- A dominant member is in every set that weighs at least `q`. -/
theorem mem_of_dominant {q : ℕ} {a : α} (dominant : W.total < q + W.weight a) {s : Finset α}
    (heavy : q ≤ W.of s) : a ∈ s := by
  by_contra absent
  have together : W.of (insert a s) = W.weight a + W.of s := Finset.sum_insert absent
  have bound := W.of_le_total (insert a s)
  omega

/-- The weights of distinct members of a list add up to the weight of the set they form. -/
theorem sum_map_eq_of {l : List α} (distinct : l.Nodup) :
    (l.map W.weight).sum = W.of l.toFinset :=
  (List.sum_toFinset W.weight distinct).symm

end Weights

end Tusk.Lib
