import Tusk.Lib.Ranking
import Tusk.Primary.Adversary

/-!
# How many authorities are silent

In every round exactly as many authorities are silent as there are faults (`silences_exactly`). In an
odd round these are the ones of lowest rank. In an even round the leader is decided on first, and it
is counted as one of the silent authorities when it is silent.
-/

set_option autoImplicit false

namespace Tusk.Adversary

open Lib

section Counting

variable [Primitives] {authority : PublicKey} {authorities : List PublicKey}
  {round faults seed : ℕ}

/-- The key by which a round orders the authorities. -/
def drawKey (round seed : ℕ) (authority : PublicKey) : Digest ×ₗ PublicKey :=
  toLex (score authority round seed 0, authority)

/-- Whether the leader of an even round is silent. -/
def leaderIsSilent (authorities : List PublicKey) (round faults seed : ℕ) : Bool :=
  ((sortByKey toLex (leaderSlots authorities round faults seed)).take faults).any
    fun slot => decide (slot.2 = round)

theorem drawKey_injective (round seed : ℕ) : Function.Injective (drawKey round seed) :=
  fun _ _ same => congrArg Prod.snd (toLex.injective same)

/-- The keys of distinct authorities are distinct. -/
theorem drawKeys_nodup (distinct : authorities.Nodup) (round seed : ℕ) :
    (authorities.map (drawKey round seed)).Nodup :=
  distinct.map (drawKey_injective round seed)

theorem selected_zero : selected authority authorities round 0 seed = false := by simp [selected]

/-- **Who is silent in an odd round.** -/
theorem selected_of_odd (odd : round % 2 = 1) (positive : 0 < faults)
    (enough : faults ≤ authorities.length) :
    selected authority authorities round faults seed =
      decide (rankIn (drawKey round seed) authorities authority < faults) := by
  unfold selected
  rw [Nat.min_eq_left enough]
  dsimp only
  rw [if_neg positive.ne', if_neg (by omega)]
  rfl

/-- **Who is silent in an even round.** -/
theorem selected_of_even (even : round % 2 = 0) (positive : 0 < faults)
    (enough : faults ≤ authorities.length) :
    selected authority authorities round faults seed =
      if authority = leaderOf authorities round then
        leaderIsSilent authorities round faults seed
      else
        decide (rankIn (drawKey round seed)
          (authorities.filter fun a => decide (a ≠ leaderOf authorities round)) authority <
            faults - (leaderIsSilent authorities round faults seed).toNat) := by
  unfold selected
  rw [Nat.min_eq_left enough]
  dsimp only
  rw [if_neg positive.ne', if_pos even]
  rfl

omit [Primitives] in
theorem leaderOf_mem (nonempty : authorities ≠ []) : leaderOf authorities round ∈ authorities := by
  have bound : round % authorities.length < authorities.length :=
    Nat.mod_lt _ (List.length_pos_iff.mpr nonempty)
  rw [leaderOf, List.getD_eq_getElem?_getD, List.getElem?_eq_getElem bound, Option.getD_some]
  exact List.getElem_mem _

/-- **Exactly as many authorities are silent as there are faults.** -/
theorem silences_exactly (distinct : authorities.Nodup) (fewer : faults < authorities.length)
    (round seed : ℕ) :
    (authorities.countP fun a => selected a authorities round faults seed) = faults := by
  rcases Nat.eq_zero_or_pos faults with rfl | positive
  · exact List.countP_eq_zero.mpr fun a _ => by simp [selected_zero]
  rcases Nat.mod_two_eq_zero_or_one round with even | odd
  · let leader := leaderOf authorities round
    let silent := leaderIsSilent authorities round faults seed
    let others := authorities.filter fun a => decide (a ≠ leader)
    have member : leader ∈ authorities := leaderOf_mem (List.ne_nil_of_length_pos (by omega))
    have erased : authorities.erase leader = others := by
      rw [distinct.erase_eq_filter]
      exact List.filter_congr fun a _ => by simp [bne, beq_eq_decide]
    have split : authorities.Perm (leader :: others) := erased ▸ List.perm_cons_erase member
    have length : others.length + 1 = authorities.length := by
      rw [← List.length_cons, split.length_eq]
    have ofLeader : selected leader authorities round faults seed = silent := by
      rw [selected_of_even even positive fewer.le, if_pos rfl]
    have ofOthers : (others.countP fun a => selected a authorities round faults seed) =
        faults - silent.toNat := by
      have ranks := @countP_rankIn _ _ _ (drawKey round seed) others
        (drawKeys_nodup (distinct.filter _) round seed) (faults - silent.toNat)
      rw [Nat.min_eq_left (by omega)] at ranks
      refine (List.countP_congr fun a other => ?_).trans ranks
      have different : a ≠ leader := by simpa using (List.mem_filter.mp other).2
      rw [selected_of_even even positive fewer.le, if_neg different]
    calc (authorities.countP fun a => selected a authorities round faults seed)
        = (leader :: others).countP fun a => selected a authorities round faults seed :=
          split.countP_eq _
      _ = faults - silent.toNat + silent.toNat := by
          rw [List.countP_cons, ofOthers, ofLeader]
          cases silent <;> rfl
      _ = faults := by
          have bound : silent.toNat ≤ 1 := Bool.toNat_le silent
          omega
  · have ranks := countP_rankIn (drawKeys_nodup distinct round seed) faults
    rw [Nat.min_eq_left fewer.le] at ranks
    simp only [selected_of_odd odd positive fewer.le]
    exact ranks

end Counting

section FourKeys

local instance silentPrimitives : Primitives := executable fun _ _ => true

def fourKeys : List PublicKey := [⟨1⟩, ⟨2⟩, ⟨3⟩, ⟨4⟩]

theorem silences_exactly_one : (fourKeys.countP fun a => selected a fourKeys 6 1 7) = 1 :=
  silences_exactly (by decide) (by decide) 6 7

end FourKeys

end Tusk.Adversary
