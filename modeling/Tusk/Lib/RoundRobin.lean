import Mathlib.Data.Fintype.EquivFin
import Mathlib.Data.List.Nodup
import Mathlib.Data.Nat.ModEq
import Mathlib.Data.Nat.Prime.Basic

/-!
# Taking turns

A rotation hands the turn to the item whose index is a counter modulo the number of items. When
the counter grows by one, any window of as many turns as there are items gives each item one turn.
When it grows by a larger step, this holds exactly if the step and the number of items are coprime
(`turns_once_iff`): a common divisor keeps the turns on every item at a distance of it.
-/

set_option autoImplicit false

namespace Tusk.Lib

universe u

/-- Turns that start at the multiple `k` of a step hit every residue once in a window of `n` turns,
for a step coprime to `n`. -/
theorem residues_once {step n : ℕ} (coprime : step.Coprime n) (k : ℕ) {r : ℕ} (bound : r < n) :
    ∃! i, i < n ∧ step * (k + i) % n = r := by
  have positive : 0 < n := by omega
  let turn : Fin n → Fin n := fun i => ⟨step * (k + i) % n, Nat.mod_lt _ positive⟩
  have injective : Function.Injective turn := by
    intro i j same
    have residues : step * (k + i) ≡ step * (k + j) [MOD n] := congrArg Fin.val same
    have shifted : k + i ≡ k + j [MOD n] :=
      Nat.ModEq.cancel_left_of_coprime (by rwa [Nat.gcd_comm]) residues
    exact Fin.ext ((Nat.ModEq.add_left_cancel' k shifted).eq_of_lt_of_lt i.2 j.2)
  obtain ⟨i, isTurn⟩ := (Finite.injective_iff_surjective.mp injective) ⟨r, bound⟩
  refine ⟨i, ⟨i.2, congrArg Fin.val isTurn⟩, ?_⟩
  rintro j ⟨inWindow, residue⟩
  have same : turn ⟨j, inWindow⟩ = turn i := isTurn.symm ▸ Fin.ext residue
  exact congrArg Fin.val (injective same)

/-- A step with a common divisor never hits a residue that the divisor does not divide. -/
theorem residue_dvd {step n d : ℕ} (inStep : d ∣ step) (inCount : d ∣ n) (k : ℕ) :
    d ∣ step * k % n :=
  (Nat.dvd_mod_iff inCount).mpr (inStep.mul_right k)

section Items

variable {α : Type u} {items : List α}

/-- An item has the turns whose counter is its index. -/
theorem turn_eq_some_iff (distinct : items.Nodup) {index : ℕ} (bound : index < items.length)
    (count : ℕ) :
    items[count % items.length]? = some items[index] ↔ count % items.length = index := by
  rw [List.getElem?_eq_some_iff]
  constructor
  · rintro ⟨inside, same⟩
    exact (distinct.getElem_inj_iff).mp same
  · rintro rfl
    exact ⟨bound, rfl⟩

/-- **Every item has one turn in a window**, exactly if the step of the counter is coprime to the
number of items. -/
theorem turns_once_iff (distinct : items.Nodup) (nonempty : 1 ≤ items.length) (step k : ℕ) :
    (∀ a ∈ items, ∃! i, i < items.length ∧ items[step * (k + i) % items.length]? = some a) ↔
      step.Coprime items.length := by
  constructor
  · intro once
    by_contra common
    -- the second item is skipped
    obtain ⟨p, prime, inStep, inCount⟩ := Nat.Prime.not_coprime_iff_dvd.mp common
    have two : 1 < items.length := prime.one_lt.trans_le (Nat.le_of_dvd nonempty inCount)
    obtain ⟨i, ⟨-, isTurn⟩, -⟩ := once items[1] (List.getElem_mem two)
    have divides := residue_dvd inStep inCount (k + i)
    rw [(turn_eq_some_iff distinct two _).mp isTurn] at divides
    exact prime.one_lt.ne' (Nat.dvd_one.mp divides)
  · intro coprime a member
    obtain ⟨index, bound, rfl⟩ := List.getElem_of_mem member
    simp only [turn_eq_some_iff distinct bound]
    exact residues_once coprime k bound

end Items

end Tusk.Lib
