import Tusk.Consensus.Execution
import Tusk.Consensus.FinitePool

/-!
# The dependencies of a committed leader

Committing a leader is meant to commit all its ancestors within the depth of the garbage
collection. `orderDag` finds an ancestor only when it is still in the dag, with all certificates
on the way to it. The cleanup removes certificates of an author who committed a later one, also
when they were never output. A run commits the dependencies of all its leaders exactly when this
does not happen to an ancestor of a leader before the leader is ordered
(`complete_iff_available`).
-/

set_option autoImplicit false

namespace Tusk.Consensus

open Lib

section Completeness

variable [Primitives] {node : Consensus} {pool : Pool node.committee}
  {delivered : List Certificate} {state : State}

variable (node pool) in
/-- The ancestors of a leader that are within the depth when its sub-dag is ordered. -/
def Dependency (o : SubDag) (x : Certificate) : Prop :=
  pool.dag.Ancestor o.leader x ∧ o.before.lastCommittedRound ≤ x.round + node.gcDepth

variable (node pool) in
/-- The dependencies of the leader are output with it or before. -/
def Complete (before : List SubDag) (o : SubDag) : Prop :=
  ∀ x, Dependency node pool o x → x ∈ outputs (before ++ [o])

variable (node pool) in
/-- The dependencies of the leader that were not output are still in the dag. -/
def Available (before : List SubDag) (o : SubDag) : Prop :=
  ∀ x, Dependency node pool o x → x ∉ outputs before →
    o.before.dag.entry x.round x.origin = some (x.digest, x)

/-- A sub-dag that outputs the dependencies of its leader found them in the dag. -/
theorem Execution.available_of_complete {before after : List SubDag} {o : SubDag}
    (execution : Execution node pool delivered state (before ++ o :: after))
    (complete : Complete node pool before o) : Available node pool before o := by
  intro x dependency unseen
  obtain ⟨received, final, -, earlier, member, above, flattened⟩ := execution.split
  have isOutput := complete x dependency
  rw [outputs_append, outputs_singleton] at isOutput
  have visits := ((flattened.mem_iff x).mp ((List.mem_append.mp isOutput).resolve_left unseen)).1
  rcases Relation.ReflTransGen.cases_tail visits with rfl | ⟨y, -, follows⟩
  · exact absurd dependency.1.round_lt (lt_irrefl _)
  · exact follows.2.2.1

/-- `orderDag` follows a path to a certificate when the certificates on it are available and were
not output. -/
theorem Tracks.visits_of_available {before : List SubDag} {o : SubDag}
    {received : List Certificate} (tracks : Tracks node received o.before (outputs before))
    (delivery : pool.Delivery received) (available : Available node pool before o)
    {x y : Certificate} (recent : o.before.lastCommittedRound ≤ x.round + node.gcDepth)
    (start : Visits o.before o.leader y) (member : y ∈ received) (here : o.leader ∈ received)
    (reaches : pool.dag.Reaches y x)
    (unseen : ∀ z, pool.dag.Reaches o.leader z → pool.dag.Reaches z x → z ∉ outputs before) :
    Visits o.before o.leader x := by
  induction reaches using Relation.ReflTransGen.head_induction_on with
  | refl => exact start
  | @head y z parent rest ih =>
      have reached := (tracks.visits_spec pool delivery here start).2
      have isNew := unseen z (reached.tail parent) rest
      have below : z.round + 1 = y.round := parent.round
      have high : x.round ≤ z.round := RoundDag.Reaches.round_le rest
      have ancestor : pool.dag.Ancestor o.leader z := .tail' reached parent
      have found := available z ⟨ancestor, by omega⟩ isNew
      have notLast : o.before.committed z.origin ≠ z.round := by
        intro last
        rcases tracks.committed_output z.origin with zero | ⟨c, isOutput, origin, round⟩
        · have positive := pool.round_pos z parent.2.1
          omega
        · -- the author's last committed certificate would be this one
          obtain rfl := pool.unique c (delivery.mem c (tracks.output_delivered c isOutput)) z
            parent.2.1 origin (round.trans last)
          exact isNew isOutput
      have follows : Follows o.before y z := ⟨parent.2.2, below, found, notLast⟩
      exact ih (start.tail follows) (tracks.parent_of_follows pool delivery member follows).1

/-- When the leaders before are complete, nothing above a dependency that was not output was output. -/
theorem Execution.unseen_above {before after : List SubDag} {o : SubDag}
    (execution : Execution node pool delivered state (before ++ o :: after))
    (complete : ∀ front o' back, before = front ++ o' :: back → Complete node pool front o')
    {x z : Certificate} (recent : o.before.lastCommittedRound ≤ x.round + node.gcDepth)
    (unseen : x ∉ outputs before) (toX : pool.dag.Reaches z x) : z ∉ outputs before := by
  obtain ⟨_, _, -, earlier, -⟩ := execution.split
  intro isOutput
  obtain ⟨o', isBefore, visited⟩ := List.mem_flatMap.mp isOutput
  obtain ⟨front, back, rfl⟩ := List.append_of_mem isBefore
  obtain ⟨_, _, -, earlier', member', above', flattened'⟩ := earlier.split
  have reached := (flattened'.mem_delivered earlier'.tracks earlier'.delivery member' visited).2
  have lower := (earlier'.tracks.committed_mono earlier.tracks (by
    rw [outputs_append]
    exact List.subset_append_left _ _)).2
  -- x would have been output with it
  refine unseen (outputs_subset front back o' ?_)
  rcases RoundDag.reaches_iff.mp (reached.trans toX) with rfl | ancestor'
  · rw [outputs_append, outputs_singleton]
    exact List.mem_append_right _ (flattened'.leader_mem above')
  · exact complete front o' back rfl x ⟨ancestor', lower.trans recent⟩

/-- When all dependencies are available throughout a run, each leader is complete. -/
theorem Execution.complete_of_available {subDags : List SubDag}
    (execution : Execution node pool delivered state subDags)
    (available : ∀ before o after, subDags = before ++ o :: after → Available node pool before o) :
    ∀ before o after, subDags = before ++ o :: after → Complete node pool before o := by
  intro before
  induction hn : before.length using Nat.strong_induction_on generalizing before with
  | _ n ih =>
      rintro o after rfl x dependency
      subst hn
      obtain ⟨received, final, -, earlier, member, above, flattened⟩ := execution.split
      rw [outputs_append, outputs_singleton, List.mem_append]
      by_contra neither
      push Not at neither
      obtain ⟨ancestor, recent⟩ := dependency
      have complete : ∀ front o' back, before = front ++ o' :: back → Complete node pool front o' := by
        rintro front o' back rfl
        exact ih front.length (by simp) front rfl o' (back ++ o :: after) (by simp)
      have visits := earlier.tracks.visits_of_available earlier.delivery
        (available before o after rfl) recent .refl member member ancestor.reaches
        fun z _ toX => execution.unseen_above complete recent neither.1 toX
      exact neither.2 ((flattened.mem_iff x).mpr ⟨visits, recent⟩)

/-- **The leaders of a run commit all their dependencies exactly when the dependencies that were
not output are in the dag each time a leader is ordered.** -/
theorem complete_iff_available {subDags : List SubDag} (delivery : pool.Delivery delivered)
    (fits : node.NoOverflow delivered) (computed : node.run delivered = some (state, subDags)) :
    (∀ before o after, subDags = before ++ o :: after → Complete node pool before o) ↔
      ∀ before o after, subDags = before ++ o :: after → Available node pool before o := by
  have execution := Execution.of_run delivery fits computed
  constructor
  · intro complete before o after split
    exact (split ▸ execution).available_of_complete (complete before o after split)
  · exact execution.complete_of_available

end Completeness

/-! ## Two runs -/

section SlowAuthor

local instance slowAuthorPrimitives : Primitives := executable fun _ _ => true

/-- The listed parents below the leader that were not output are in the dag. -/
def HoldsBelow (certificates output : List Certificate) (o : SubDag) : Prop :=
  ∀ x ∈ certificates, Pool.HasChild certificates x → x.round < o.leader.round → x ∉ output →
    o.before.dag.entry x.round x.origin = some (x.digest, x)

instance (certificates output : List Certificate) (o : SubDag) :
    Decidable (HoldsBelow certificates output o) :=
  inferInstanceAs (Decidable (∀ x ∈ certificates, _))

theorem available_of_holdsBelow {certificates : List Certificate}
    (lists : Pool.Lists heavyNode.committee certificates) {before : List SubDag} {o : SubDag}
    (holds : HoldsBelow certificates (outputs before) o) :
    Available heavyNode (.ofList certificates lists) before o := by
  intro x dependency unseen
  obtain ⟨member, child⟩ := Pool.hasChild_of_ancestor lists dependency.1
  exact holds x member child dependency.1.round_lt unseen

/-- Two leaders are committed, the second one with a stray certificate in the dag. -/
theorem stray_commits :
    ∃ state subDags, heavyNode.run strayLate = some (state, subDags) ∧
      leaders subDags = [fork, trunk 2] ∧ ∀ before o after, subDags = before ++ o :: after →
        HoldsBelow strayLate (outputs before) o := by
  have held : (heavyNode.run strayLate).any (fun r => decide (leaders r.2 = [fork, trunk 2] ∧
      ∀ i < r.2.length, ∀ o ∈ r.2[i]?, HoldsBelow strayLate (outputs (r.2.take i)) o)) = true := by
    decide +kernel
  obtain ⟨⟨state, subDags⟩, computed, held⟩ := (Option.any_eq_true _ _).mp held
  obtain ⟨twoLeaders, held⟩ := of_decide_eq_true held
  exact ⟨state, subDags, computed, twoLeaders, forall_splits held⟩

theorem complete_iff_available_stray :
    ∃ (pool : Pool heavyNode.committee) (state : State) (subDags : List SubDag),
      heavyNode.run strayLate = some (state, subDags) ∧ leaders subDags = [fork, trunk 2] ∧
      ∀ before o after, subDags = before ++ o :: after → Complete heavyNode pool before o := by
  have lists : Pool.Lists heavyNode.committee strayLate := by decide +kernel
  obtain ⟨state, subDags, computed, twoLeaders, holds⟩ := stray_commits
  exact ⟨_, state, subDags, computed, twoLeaders,
    (complete_iff_available (Pool.delivery_ofList lists (by decide +kernel)) (by decide +kernel)
      computed).mpr fun before o after split => available_of_holdsBelow lists
        (holds before o after split)⟩

/-- A complete leader of round 8 would have output the passed certificate. -/
theorem passed_dependency {lists : Pool.Lists heavyNode.committee passedEarly} {o : SubDag}
    (leader : o.leader = quick 8) (recent : o.before.lastCommittedRound ≤ passed.round + 50) :
    Dependency heavyNode (.ofList passedEarly lists) o passed := by
  refine ⟨?_, recent⟩
  rw [leader]
  exact Pool.ancestor_ofList lists [slow 7, slow 6, slow 5, slow 4, slow 3] (by decide +kernel)

/-- **A committed leader can have an ancestor within the depth that is not output.** -/
theorem dependency_missing :
    ∃ (pool : Pool heavyNode.committee) (delivered : List Certificate) (state : State)
      (subDags : List SubDag), pool.Delivery delivered ∧ delivered.Nodup ∧
      heavyNode.run delivered = some (state, subDags) ∧
      ¬ ∀ before o after, subDags = before ++ o :: after →
        Complete heavyNode pool before o := by
  have lists : Pool.Lists heavyNode.committee passedEarly := by decide +kernel
  have missing : (heavyNode.run passedEarly).any (fun r =>
      (r.2.any fun o => decide (o.leader = quick 8) &&
        decide (o.before.lastCommittedRound ≤ passed.round + 50)) &&
      decide (passed ∉ outputs r.2)) = true := by
    decide +kernel
  obtain ⟨⟨state, subDags⟩, computed, found⟩ := (Option.any_eq_true _ _).mp missing
  refine ⟨.ofList _ lists, passedEarly, state, subDags,
    Pool.delivery_ofList lists (by decide +kernel), by decide +kernel, computed, fun complete => ?_⟩
  simp only [Bool.and_eq_true, List.any_eq_true, decide_eq_true_eq] at found
  obtain ⟨⟨o, isSubDag, leader, recent⟩, unseen⟩ := found
  obtain ⟨before, after, rfl⟩ := List.append_of_mem isSubDag
  have isOutput := complete before o after rfl passed (passed_dependency leader recent)
  exact unseen (outputs_subset before after o isOutput)

end SlowAuthor

end Tusk.Consensus
