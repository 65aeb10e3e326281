import Tusk.Consensus.Filing
import Tusk.Consensus.FinitePool

/-!
# What the two searches compute

On a dag whose certificates are in their place, `orderDag` returns the sub-dag below a leader that
was not committed yet, in the order of rounds, exactly if no sum of `gc_depth` and a round drops a
certificate of it by wrapping (`orderDag_exact_iff`). And `linked` decides whether a chain of
certificates leads from one leader to another (`linked_iff_chained`).
-/

set_option autoImplicit false

namespace Tusk.Consensus

open Lib

section Searches

variable [Primitives]

omit [Primitives] in
/-- The last of a list in the order of rounds, when it is above the others. -/
theorem getLast?_of_above {leader : Certificate} {ordered : List Certificate}
    (member : leader ∈ ordered) (sorted : ordered.Pairwise fun x y => x.round ≤ y.round)
    (above : ∀ x ∈ ordered, x = leader ∨ x.round < leader.round) :
    ordered.getLast? = some leader := by
  induction ordered using List.reverseRecOn with
  | nil => cases member
  | append_singleton front last _ =>
      rw [List.getLast?_append_cons, List.getLast?_singleton]
      rcases List.mem_append.mp member with before | isLast
      · have order := (List.pairwise_append.mp sorted).2.2 leader before last (by simp)
        rcases above last (by simp) with rfl | lower
        · rfl
        · omega
      · rw [List.mem_singleton.mp isLast]

/-- **`orderDag` returns the certificates below the leader**: those it gets to through parents in
the dag that are not the last committed ones of their authors, within the depth of the garbage
collection, each once, sorted by round and with the leader at the end. It does so exactly if for none
of these certificates the sum of its round and the depth wraps to less than the last committed
round. -/
theorem orderDag_exact_iff (node : Consensus) {state : State} (filed : state.dag.Filed)
    {leader : Certificate} (held : state.dag.Holds leader.round leader)
    (above : state.lastCommittedRound < leader.round) :
    (∃ ordered, node.orderDag leader state = some ordered ∧
      ordered.Nodup ∧
      (∀ x, x ∈ ordered ↔
        StepsDown state leader x ∧ state.lastCommittedRound ≤ x.round + node.gcDepth) ∧
      (ordered.Pairwise fun x y => x.round ≤ y.round) ∧
      ordered.getLast? = some leader) ↔
    ∀ x, StepsDown state leader x → state.lastCommittedRound ≤ x.round + node.gcDepth →
      state.lastCommittedRound ≤ (x.round + node.gcDepth) % 2 ^ 64 := by
  obtain ⟨n, found⟩ := held
  have rooted := filed.rooted found
  obtain ⟨ordered, computed, mem_iff, nodup, sorted⟩ := filed.orderDag_spec node rooted
    fun r p here same => filed.eq_of_digest here ⟨n, found⟩ same
  constructor
  · rintro ⟨ordered', computed', -, mem_iff', -⟩ x down recent
    cases computed.symm.trans computed'
    exact ((mem_iff x).mp ((mem_iff' x).mpr ⟨down, recent⟩)).2
  · intro stays
    refine ⟨ordered, computed, nodup, fun x => ?_, sorted, getLast?_of_above ?_ sorted ?_⟩
    · rw [mem_iff]
      exact and_congr_right fun down => ⟨fun kept => kept.trans (horizon_le _ _), stays x down⟩
    · exact (mem_iff leader).mpr ⟨.refl, stays leader .refl (by omega)⟩
    · intro x member
      exact StepsDown.eq_or_round_lt filed rooted ((mem_iff x).mp member).1

/-- Nothing wraps below a leader whose own sum does not. -/
theorem sums_fit (node : Consensus) {state : State} (filed : state.dag.Filed) {leader : Certificate}
    (rooted : Rooted leader) (fits : leader.round + node.gcDepth < 2 ^ 64) {x : Certificate}
    (down : StepsDown state leader x) :
    (x.round + node.gcDepth) % 2 ^ 64 = x.round + node.gcDepth := by
  refine Nat.mod_eq_of_lt ?_
  rcases StepsDown.eq_or_round_lt filed rooted down with rfl | lower
  · exact fits
  · omega

/-- **`linked` decides whether a chain leads from one leader to the other**, one certificate per
round. -/
theorem linked_iff_chained {dag : Dag} (filed : dag.RoundFiled) {leader prevLeader : Certificate}
    (held : dag.Holds prevLeader.round prevLeader) (below : prevLeader.round < leader.round)
    (nonempty : ∀ r, prevLeader.round < r → r < leader.round → ∃ c, dag.Holds r c) :
    ∃ isLinked, linked leader prevLeader dag = some isLinked ∧
      (isLinked = true ↔ Chained dag leader prevLeader) := by
  have present : ∀ r, prevLeader.round ≤ r → r < leader.round → HashMap.get dag r ≠ none := by
    intro r low high absent
    have some : ∃ c, dag.Holds r c := by
      rcases Nat.eq_or_lt_of_le low with rfl | between
      · exact ⟨_, held⟩
      · exact nonempty r between high
    obtain ⟨c, n, found⟩ := some
    rw [Dag.entry, absent] at found
    cases found
  have start : ∀ c, c ∈ [leader] ↔ Chained dag leader c ∧
      c.round = prevLeader.round + (leader.round - prevLeader.round) := by
    intro c
    rw [List.mem_singleton, Nat.add_sub_of_le below.le]
    constructor
    · rintro rfl
      exact ⟨.refl, rfl⟩
    · rintro ⟨chained, round⟩
      exact chained.eq_or_round_lt.resolve_right round.not_lt
  obtain ⟨last, computed, mem_last⟩ := filed.foldlM_parentsAt (by omega) start present
  refine ⟨last.any fun x => x.partialEq prevLeader, by rw [linked, computed]; rfl, ?_⟩
  rw [List.any_eq_true]
  constructor
  · rintro ⟨c, isLast, same⟩
    obtain ⟨chained, round⟩ := (mem_last c).mp isLast
    have here := chained.holds (round ▸ below)
    rwa [← filed.eq_of_partialEq here held same]
  · intro chained
    exact ⟨prevLeader, (mem_last prevLeader).mpr ⟨chained, rfl⟩,
      Certificate.partialEq_iff.mpr ⟨rfl, rfl, rfl⟩⟩

end Searches

/-! ## A dag of three certificates -/

section ShortDag

local instance searchPrimitives : Primitives := executable fun _ _ => true

/-- A dag with the certificates of one author. -/
def shortDag : Dag := (((∅ : Dag).insert (spine 1)).insert (spine 2)).insert (spine 3)

theorem filed_shortDag : shortDag.Filed := by
  have one : Rooted (spine 1) := fun zero => absurd zero (by decide +kernel)
  have two : Rooted (spine 2) := fun zero => absurd zero (by decide +kernel)
  have three : Rooted (spine 3) := fun zero => absurd zero (by decide +kernel)
  refine ((Dag.filed_empty.insert one fun r x held => ?_).insert two fun r x held same => ?_).insert
    three fun r x held same => ?_
  · exact absurd held (Dag.not_holds_empty r x)
  · rcases Dag.holds_insert held with rfl | held
    · exact absurd same (by decide +kernel)
    · exact absurd held (Dag.not_holds_empty r x)
  · rcases Dag.holds_insert held with rfl | held
    · exact absurd same (by decide +kernel)
    · rcases Dag.holds_insert held with rfl | held
      · exact absurd same (by decide +kernel)
      · exact absurd held (Dag.not_holds_empty r x)

/-- A state with that dag, after the second authority had a certificate of round 2 committed. -/
def shortState : State :=
  { lastCommittedRound := 2, lastCommitted := .ofList [(⟨1⟩, 2)], dag := shortDag }

/-- A node that keeps no round below the last committed one. -/
def shallowNode : Consensus := { heavyNode with gcDepth := 0 }

/-- The certificate of round 1 is out of the depth. -/
theorem orderDag_exact_iff_short :
    ∃ ordered, shallowNode.orderDag (spine 3) shortState = some ordered ∧ ordered.Nodup ∧
      (∀ x, x ∈ ordered ↔ StepsDown shortState (spine 3) x ∧ 2 ≤ x.round + 0) ∧
      (ordered.Pairwise fun x y => x.round ≤ y.round) ∧ ordered.getLast? = some (spine 3) := by
  have rooted : Rooted (spine 3) := fun zero => absurd zero (by decide +kernel)
  have fits : (spine 3).round + shallowNode.gcDepth < 2 ^ 64 := by decide +kernel
  refine (orderDag_exact_iff shallowNode filed_shortDag ⟨⟨0⟩, by rfl⟩ (by decide +kernel)).mpr ?_
  intro x down recent
  rwa [sums_fit shallowNode filed_shortDag rooted fits down]

/-- A state after the commit of round 4, with a certificate of round 8. -/
def lateState : State :=
  { lastCommittedRound := 4, lastCommitted := .ofList [(⟨0⟩, 4)], dag := (∅ : Dag).insert (spine 8) }

/-- **With a sum that wraps, `orderDag` drops the leader itself.** -/
theorem orderDag_drops_leader :
    lateState.dag.Filed ∧ lateState.dag.Holds (spine 8).round (spine 8) ∧
      lateState.lastCommittedRound < (spine 8).round ∧
      ¬ ∃ ordered, deepNode.orderDag (spine 8) lateState = some ordered ∧ ordered.Nodup ∧
        (∀ x, x ∈ ordered ↔ StepsDown lateState (spine 8) x ∧
          lateState.lastCommittedRound ≤ x.round + deepNode.gcDepth) ∧
        (ordered.Pairwise fun x y => x.round ≤ y.round) ∧ ordered.getLast? = some (spine 8) := by
  have filed : lateState.dag.Filed := Dag.filed_empty.insert
    (fun zero => absurd zero (by decide +kernel)) fun r x held => absurd held (Dag.not_holds_empty r x)
  refine ⟨filed, ⟨⟨0⟩, by rfl⟩, by decide +kernel, ?_⟩
  rintro ⟨ordered, computed, -, -, -, last⟩
  have none : deepNode.orderDag (spine 8) lateState = some [] := by decide +kernel
  cases none.symm.trans computed
  cases last

theorem linked_iff_chained_short :
    ∃ isLinked, linked (spine 3) (spine 1) shortDag = some isLinked ∧
      (isLinked = true ↔ Chained shortDag (spine 3) (spine 1)) := by
  refine linked_iff_chained filed_shortDag.toRoundFiled ⟨⟨0⟩, by rfl⟩ (by decide +kernel) ?_
  intro r low high
  have two : r = 2 := by
    have one : (spine 1).round = 1 := by rfl
    have three : (spine 3).round = 3 := by rfl
    omega
  subst two
  exact ⟨spine 2, ⟨0⟩, by rfl⟩

end ShortDag

end Tusk.Consensus
