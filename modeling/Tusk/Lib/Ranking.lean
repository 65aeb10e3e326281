import Mathlib.Data.List.Nodup
import Mathlib.Data.List.Sort

/-!
# Ranks and sorting

The rank of an item is the number of candidates with a smaller key. To take the items of rank below
`k` is to sort the candidates by their keys and to take the first `k`, when no two keys are equal
(`mem_take_sortByKey_iff`), and there are `k` of them if there are enough candidates
(`countP_rankIn`).
-/

set_option autoImplicit false

namespace Tusk.Lib

universe u v

variable {α : Type u} {κ : Type v} [LinearOrder κ] (key : α → κ)

/-- How many candidates have a smaller key. -/
def rankIn (candidates : List α) (a : α) : ℕ := candidates.countP fun b => decide (key b < key a)

/-- The candidates in the order of their keys. -/
def sortByKey (candidates : List α) : List α := candidates.insertionSort fun a b => key a ≤ key b

variable {key} {candidates : List α} {k : ℕ}

theorem rankIn_perm {l l' : List α} (perm : l.Perm l') (a : α) : rankIn key l a = rankIn key l' a :=
  perm.countP_eq _

theorem sortByKey_perm (candidates : List α) : (sortByKey key candidates).Perm candidates :=
  List.perm_insertionSort _ _

/-- Sorting items that carry their keys. -/
theorem sortByKey_map {β : Type*} (f : β → α) (items : List β) :
    sortByKey key (items.map f) = (sortByKey (key ∘ f) items).map f :=
  (List.map_insertionSort _ _ f items fun _ _ _ _ => Iff.rfl).symm

/-- Sorting by distinct keys makes the keys increase. -/
theorem pairwise_sortByKey (distinct : (candidates.map key).Nodup) :
    (sortByKey key candidates).Pairwise fun a b => key a < key b := by
  have total : Std.Total fun a b : α => key a ≤ key b := ⟨fun a b => le_total (key a) (key b)⟩
  have transitive : IsTrans α fun a b => key a ≤ key b := ⟨fun _ _ _ => le_trans⟩
  have sorted : (sortByKey key candidates).Pairwise fun a b => key a ≤ key b :=
    List.pairwise_insertionSort _ _
  have different : (sortByKey key candidates).Pairwise fun a b => key a ≠ key b := by
    have nodup : ((sortByKey key candidates).map key).Nodup :=
      ((sortByKey_perm candidates).map key).nodup_iff.mpr distinct
    exact List.pairwise_map.mp nodup
  exact (sorted.and different).imp fun both => lt_of_le_of_ne both.1 both.2

/-- **Where the keys increase, the items of rank below `k` are the first `k`.** -/
theorem filter_rankIn_of_pairwise {l : List α} (sorted : l.Pairwise fun a b => key a < key b)
    (k : ℕ) : (l.filter fun a => decide (rankIn key l a < k)) = l.take k := by
  induction l generalizing k with
  | nil => simp
  | cons a l ih =>
      obtain ⟨first, rest⟩ := List.pairwise_cons.mp sorted
      have zero : rankIn key (a :: l) a = 0 := by
        refine List.countP_eq_zero.mpr fun b member => ?_
        rcases List.mem_cons.mp member with rfl | later
        · simp
        · simpa using (first b later).le
      have next : ∀ b ∈ l, rankIn key (a :: l) b = rankIn key l b + 1 := fun b member =>
        List.countP_cons_of_pos (by simpa using first b member)
      cases k with
      | zero => simp
      | succ k =>
          have others : (l.filter fun b => decide (rankIn key (a :: l) b < k + 1)) =
              l.filter fun b => decide (rankIn key l b < k) :=
            List.filter_congr fun b member => by simp [next b member]
          rw [List.filter_cons_of_pos (by simp [zero]), others, ih rest, List.take_succ_cons]

/-- **Counting ranks selects the same items as sorting and slicing.** -/
theorem mem_take_sortByKey_iff (distinct : (candidates.map key).Nodup) {a : α} :
    a ∈ (sortByKey key candidates).take k ↔ a ∈ candidates ∧ rankIn key candidates a < k := by
  rw [← filter_rankIn_of_pairwise (pairwise_sortByKey distinct), List.mem_filter,
    (sortByKey_perm candidates).mem_iff, rankIn_perm (sortByKey_perm candidates), decide_eq_true_eq]

/-- **There are `k` items of rank below `k`**, if there are `k` candidates. -/
theorem countP_rankIn (distinct : (candidates.map key).Nodup) (k : ℕ) :
    (candidates.countP fun a => decide (rankIn key candidates a < k)) = min k candidates.length := by
  have sorted := filter_rankIn_of_pairwise (pairwise_sortByKey distinct) k
  calc (candidates.countP fun a => decide (rankIn key candidates a < k))
      = (sortByKey key candidates).countP fun a =>
          decide (rankIn key (sortByKey key candidates) a < k) := by
        simp only [rankIn_perm (sortByKey_perm candidates)]
        exact ((sortByKey_perm candidates).countP_eq _).symm
    _ = ((sortByKey key candidates).take k).length := by rw [List.countP_eq_length_filter, sorted]
    _ = min k candidates.length := by
        rw [List.length_take, (sortByKey_perm candidates).length_eq]

/-- The items that are also in a list of distinct ones are as many as that list is long. -/
theorem countP_mem_of_subset [DecidableEq α] {l taken : List α} (distinct : l.Nodup)
    (distinct' : taken.Nodup) (inside : taken ⊆ l) :
    (l.countP fun a => decide (a ∈ taken)) = taken.length := by
  have perm : (l.filter fun a => decide (a ∈ taken)).Perm taken := by
    refine (List.perm_ext_iff_of_nodup (distinct.filter _) distinct').mpr fun a => ?_
    rw [List.mem_filter, decide_eq_true_eq]
    exact ⟨And.right, fun member => ⟨inside member, member⟩⟩
  rw [List.countP_eq_length_filter, perm.length_eq]

end Tusk.Lib
