import Tusk.Consensus.CommitOnce
import Tusk.Consensus.Completeness

/-!
# The output respects causality

Within the sub-dag of a leader the sort by round puts ancestors first. Across sub-dags a
certificate can come after one it is an ancestor of only when `orderDag` did not reach it from
the earlier leader although it was in the dag, because the cleanup had removed every path to it
(`Connected`). A run in which this does not happen outputs ancestors strictly before their
descendants (`ancestors_first`).
-/

set_option autoImplicit false

namespace Tusk.Consensus

open Lib

section Causality

variable [Primitives] {node : Consensus} {pool : Pool node.committee}
  {delivered : List Certificate} {state : State}

variable (node pool) in
/-- The dependencies of the leader that are in the dag and were not output are reached through
certificates in the dag. -/
def Connected (before : List SubDag) (o : SubDag) : Prop :=
  ∀ x, Dependency node pool o x → x ∉ outputs before →
    o.before.dag.entry x.round x.origin = some (x.digest, x) → Visits o.before o.leader x

/-- The dag only loses certificates that a leader reaches, when none is delivered twice. -/
theorem Execution.entry_of_entry {subDags : List SubDag}
    (execution : Execution node pool delivered state subDags) (once : delivered.Nodup)
    {x : Certificate} (found : state.dag.entry x.round x.origin = some (x.digest, x)) :
    ∀ before o after, subDags = before ++ o :: after → pool.dag.Reaches o.leader x →
      o.before.dag.entry x.round x.origin = some (x.digest, x) := by
  induction execution with
  | start =>
      intro before o after split
      simp at split
  | @receive delivered state subDags c earlier computed delivery fits ih =>
      intro before o after split reaches
      refine ih once.of_append_left ?_ before o after split reaches
      rw [Dag.entry_insert] at found
      split_ifs at found with here
      · -- the certificate was received before the sub-dag and cannot be received again
        have same : c = x := congrArg Prod.snd (Option.some.inj found)
        rw [split] at earlier
        obtain ⟨received, _, first, before, member, -⟩ := earlier.split
        have again := first.subset (before.delivery.mem_of_reaches member reaches)
        exact absurd (same ▸ List.mem_singleton_self c)
          (List.disjoint_of_nodup_append once again)
      · exact found
  | @commit delivered state subDags leader final subDag earlier member above computed ih =>
      intro before o after split reaches
      have flattened := earlier.tracks.flattened earlier.delivery member computed
      have found := (flattened.entry above found).1
      rcases List.eq_nil_or_concat after with rfl | ⟨after, last, rfl⟩
      · obtain ⟨-, same⟩ := List.append_inj' split rfl
        cases same
        rwa [flattened.before_eq]
      · rw [List.concat_eq_append, ← List.cons_append, ← List.append_assoc] at split
        exact ih once found before o after (List.append_inj' split rfl).1 reaches

/-- In the sub-dag of a leader ancestors come first. -/
theorem Flattened.pairwise {leader : Certificate} {final : State} {subDag : SubDag}
    (flattened : Flattened node state leader final subDag) :
    subDag.certificates.Pairwise fun y x => ¬ pool.dag.Ancestor y x :=
  flattened.sorted.imp fun le ancestor => absurd ancestor.round_lt (not_lt.mpr le)

/-- When the dependencies are connected throughout a run, no certificate is output after one it is
an ancestor of. -/
theorem Execution.pairwise {subDags : List SubDag}
    (execution : Execution node pool delivered state subDags) (once : delivered.Nodup)
    (connected : ∀ before o after, subDags = before ++ o :: after →
      Connected node pool before o) :
    (outputs subDags).Pairwise fun y x => ¬ pool.dag.Ancestor y x := by
  induction execution with
  | start => exact List.Pairwise.nil
  | receive _ _ _ _ ih => exact ih once.of_append_left connected
  | @commit delivered state subDags leader final subDag earlier member above computed ih =>
      have flattened := earlier.tracks.flattened earlier.delivery member computed
      have connected' : ∀ before o after, subDags = before ++ o :: after →
          Connected node pool before o := fun before o after split =>
        connected before o (after ++ [subDag]) (by simp [split])
      rw [outputs_append, outputs_singleton]
      refine List.pairwise_append.mpr ⟨ih once connected', flattened.pairwise, ?_⟩
      intro y old x new ancestor
      obtain ⟨o, isSubDag, visited⟩ := List.mem_flatMap.mp old
      obtain ⟨before, after, rfl⟩ := List.append_of_mem isSubDag
      obtain ⟨_, _, -, earlier', member', above', flattened'⟩ := earlier.split
      -- x was in the dag when the sub-dag with y was ordered, and was not output yet
      have reached := (flattened'.mem_delivered earlier'.tracks earlier'.delivery member' visited).2
      obtain ⟨visits, recent⟩ := (flattened.mem_iff x).mp new
      have found : state.dag.entry x.round x.origin = some (x.digest, x) := by
        rcases Relation.ReflTransGen.cases_tail visits with rfl | ⟨z, -, follows⟩
        · exact earlier.tracks.kept _ member
            ((earlier.tracks.committed_le _).trans above.le) (by omega)
        · exact follows.2.2.1
      have found' := earlier.entry_of_entry once found before o after rfl
        (reached.trans ancestor.reaches)
      have nodup := (earlier.commit member above computed).nodup_of_once once
      rw [outputs_append, outputs_singleton] at nodup
      have unseen : x ∉ outputs (before ++ o :: after) := fun isOutput =>
        List.disjoint_of_nodup_append nodup isOutput new
      have dependency : Dependency node pool o x := by
        refine ⟨.trans_right reached ancestor, ?_⟩
        have lower := (earlier'.tracks.committed_mono earlier.tracks (by
          rw [outputs_split]
          exact List.subset_append_left _ _)).2
        exact lower.trans recent
      have unseen' : x ∉ outputs before := fun isOutput => unseen (by
        rw [outputs_split]
        exact List.mem_append_left _ isOutput)
      have visits' := connected' before o after rfl x dependency unseen' found'
      refine unseen (outputs_subset before after o ?_)
      rw [outputs_append, outputs_singleton]
      exact List.mem_append_right _ ((flattened'.mem_iff x).mpr ⟨visits', dependency.2⟩)

/-- **Ancestors are output strictly before their descendants** in a run in which the dependencies
of every leader are connected to it. -/
theorem ancestors_first {subDags : List SubDag} (delivery : pool.Delivery delivered)
    (fits : node.NoOverflow delivered) (once : delivered.Nodup)
    (computed : node.run delivered = some (state, subDags))
    (connected : ∀ before o after, subDags = before ++ o :: after → Connected node pool before o) :
    ∀ x y, pool.dag.Ancestor y x → ∀ i j : ℕ, (outputs subDags)[i]? = some x →
      (outputs subDags)[j]? = some y → i < j := by
  intro x y ancestor i j atI atJ
  have pairwise := (Execution.of_run delivery fits computed).pairwise once connected
  obtain ⟨iBound, rfl⟩ := List.getElem?_eq_some_iff.mp atI
  obtain ⟨jBound, rfl⟩ := List.getElem?_eq_some_iff.mp atJ
  by_contra notBefore
  rcases Nat.eq_or_lt_of_le (not_lt.mp notBefore) with rfl | after
  · exact absurd ancestor.round_lt (lt_irrefl _)
  · exact List.pairwise_iff_getElem.mp pairwise j i jBound iBound after ancestor

/-- Dependencies that are available throughout a run are connected. -/
theorem Execution.connected_of_available {subDags : List SubDag}
    (execution : Execution node pool delivered state subDags)
    (available : ∀ before o after, subDags = before ++ o :: after → Available node pool before o) :
    ∀ before o after, subDags = before ++ o :: after → Connected node pool before o := by
  rintro before o after rfl x dependency unseen -
  obtain ⟨received, _, -, earlier, member, -⟩ := execution.split
  have complete : ∀ front o' back, before = front ++ o' :: back → Complete node pool front o' := by
    rintro front o' back rfl
    exact execution.complete_of_available available front o' (back ++ o :: after) (by simp)
  exact earlier.tracks.visits_of_available earlier.delivery (available before o after rfl)
    dependency.2 .refl member member dependency.1.reaches
    fun z _ toX => execution.unseen_above complete dependency.2 unseen toX

end Causality

/-! ## Two runs -/

section SlowAuthor

local instance causalityPrimitives : Primitives := executable fun _ _ => true

theorem ancestors_first_stray :
    ∃ (pool : Pool heavyNode.committee) (state : State) (subDags : List SubDag),
      heavyNode.run strayLate = some (state, subDags) ∧ leaders subDags = [fork, trunk 2] ∧
      ∀ x y, pool.dag.Ancestor y x → ∀ i j : ℕ, (outputs subDags)[i]? = some x →
        (outputs subDags)[j]? = some y → i < j := by
  have lists : Pool.Lists heavyNode.committee strayLate := by decide +kernel
  have delivery := Pool.delivery_ofList lists (show Pool.Arrive _ _ [] strayLate by decide +kernel)
  have fits : heavyNode.NoOverflow strayLate := by decide +kernel
  obtain ⟨state, subDags, computed, twoLeaders, holds⟩ := stray_commits
  have connected := (Execution.of_run delivery fits computed).connected_of_available
    fun before o after split => available_of_holdsBelow lists (holds before o after split)
  exact ⟨_, state, subDags, computed, twoLeaders,
    ancestors_first delivery fits (by decide +kernel) computed connected⟩

/-- The passed certificate comes early, and the leader of round 12 is committed as well. -/
def passedLong : List Certificate := passedEarly ++ [quick 12, quick 13, quick 14, quick 15]

/-- **An ancestor can be output after its descendant**: the fourth authority's certificate of
round 3 is output before the third authority's certificate of round 1. -/
theorem ancestor_last :
    ∃ (pool : Pool heavyNode.committee) (delivered : List Certificate) (state : State)
      (subDags : List SubDag), pool.Delivery delivered ∧ delivered.Nodup ∧
      heavyNode.run delivered = some (state, subDags) ∧
      ¬ ∀ x y, pool.dag.Ancestor y x → ∀ i j : ℕ, (outputs subDags)[i]? = some x →
        (outputs subDags)[j]? = some y → i < j := by
  have lists : Pool.Lists heavyNode.committee passedLong := by decide +kernel
  have reversed : (heavyNode.run passedLong).any (fun r =>
      decide ((outputs r.2)[14]? = some (other 1)) && decide ((outputs r.2)[5]? = some (slow 3))) =
        true := by
    decide +kernel
  obtain ⟨⟨state, subDags⟩, computed, found⟩ := (Option.any_eq_true _ _).mp reversed
  simp only [Bool.and_eq_true, decide_eq_true_eq] at found
  refine ⟨.ofList _ lists, passedLong, state, subDags,
    Pool.delivery_ofList lists (by decide +kernel), by decide +kernel, computed, fun first => ?_⟩
  have ancestor : (Pool.ofList passedLong lists).dag.Ancestor (slow 3) (other 1) :=
    Pool.ancestor_ofList lists [passed] (by decide +kernel)
  exact absurd (first _ _ ancestor 14 5 found.1 found.2) (by decide)

end SlowAuthor

end Tusk.Consensus
