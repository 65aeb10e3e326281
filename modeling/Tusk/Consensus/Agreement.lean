import Tusk.Consensus.LeaderAgreement

/-!
# Agreement on the output

Two nodes order the sub-dag of a leader in the same way when what `orderDag` reaches is the same
in both. It differs when one of them holds a certificate below the last committed round of its
author and the other has cleaned it up. A sub-dag without such certificates (`NoneOverdue`) is
determined by its leader and by what was output before (`certificates_eq`). Since nodes agree on
the leaders, runs without such certificates output prefixes of one another (`outputs_prefix`).
-/

set_option autoImplicit false

namespace Tusk.Consensus

open Lib

section Agreement

variable [Primitives] {node : Consensus} {pool : Pool node.committee}
  {delivered delivered' output : List Certificate} {state state' : State}

/-- `orderDag` reaches no certificate within the depth that is below the last committed round of
its author. -/
def NoneOverdue (node : Consensus) (state : State) (leader : Certificate) : Prop :=
  ∀ x, Visits state leader x → state.lastCommittedRound ≤ x.round + node.gcDepth →
    state.committed x.origin ≤ x.round

/-- What is found below a delivered leader is kept when it is within the depth. -/
theorem Tracks.arrange_eq (tracks : Tracks node delivered state output)
    (delivery : pool.Delivery delivered) {leader : Certificate} (member : leader ∈ delivered)
    {out : List (Digest × Certificate)}
    (searched : Worklist.search Prod.fst (fun x : Digest × Certificate => state.parentsToOrder x.2)
      (state.dag.certificates.length + 1) [(leader.digest, leader)] [] = some out) :
    node.arrange state (out.map Prod.snd) =
      ((out.filter fun e => decide (state.lastCommittedRound ≤ e.2.round + node.gcDepth)).map
        Prod.snd).insertionSort fun x y => x.round ≤ y.round := by
  rw [arrange, List.filter_map]
  congr 2
  refine List.filter_congr fun e isOut => ?_
  obtain ⟨s, onStack, reach⟩ := (Worklist.runs_of_search searched).sound e isOut
  rw [List.mem_singleton.mp onStack] at reach
  obtain ⟨y, rfl, visits⟩ := (tracks.reach_iff pool delivery member).mp reach
  have isDelivered := (tracks.visits_spec pool delivery member visits).1
  simp [horizon_eq (tracks.fits y isDelivered)]

/-! ## Two nodes that order one leader -/

section OneLeader

variable (tracks : Tracks node delivered state output)
  (tracks' : Tracks node delivered' state' output) (delivery : pool.Delivery delivered)
  (delivery' : pool.Delivery delivered') {leader : Certificate} (member : leader ∈ delivered)
  (member' : leader ∈ delivered')

include tracks tracks' delivery delivery' member member'

/-- A step within the depth that one node makes the other makes too. -/
theorem Tracks.follows_transfer (punctual : NoneOverdue node state leader) {y z : Certificate}
    (recent : state.lastCommittedRound ≤ z.round + node.gcDepth) (visits : Visits state leader y)
    (visits' : Visits state' leader y) (follows : Follows state y z) : Follows state' y z := by
  obtain ⟨sameCommitted, sameRound⟩ := tracks.committed_eq tracks'
  have above := punctual z (visits.tail follows) recent
  have yDelivered := (tracks.visits_spec pool delivery member visits).1
  have parent := (tracks.parent_of_follows pool delivery yDelivered follows).2
  have yDelivered' := (tracks'.visits_spec pool delivery' member' visits').1
  have zDelivered' := delivery'.mem_of_reaches yDelivered' (.single parent)
  obtain ⟨isParent, below, -, notLast⟩ := follows
  rw [sameCommitted] at above notLast
  rw [sameRound] at recent
  exact ⟨isParent, below, tracks'.kept z zDelivered' above recent, notLast⟩

/-- What one node reaches within the depth the other reaches too. -/
theorem Tracks.visits_transfer (punctual : NoneOverdue node state leader) {x : Certificate}
    (recent : state.lastCommittedRound ≤ x.round + node.gcDepth) (visits : Visits state leader x) :
    Visits state' leader x := by
  induction visits with
  | refl => exact .refl
  | @tail y z before follows ih =>
      have below := follows.2.1
      have visits' := ih (by omega)
      exact visits'.tail (tracks.follows_transfer tracks' delivery delivery' member member'
        punctual recent before visits' follows)

/-- The two nodes go on with the same parents within the depth. -/
theorem Tracks.parentsToOrder_filter_eq (punctual : NoneOverdue node state leader)
    (punctual' : NoneOverdue node state' leader) {y : Certificate}
    (visits : Visits state leader y) (visits' : Visits state' leader y) :
    (state.parentsToOrder y).filter
        (fun e => decide (state.lastCommittedRound ≤ e.2.round + node.gcDepth)) =
      (state'.parentsToOrder y).filter
        (fun e => decide (state.lastCommittedRound ≤ e.2.round + node.gcDepth)) := by
  have sameRound := (tracks.committed_eq tracks').2
  have yDelivered := (tracks.visits_spec pool delivery member visits).1
  have yDelivered' := (tracks'.visits_spec pool delivery' member' visits').1
  rw [State.parentsToOrder, State.parentsToOrder, List.filter_filterMap, List.filter_filterMap]
  refine List.filterMap_congr fun parent isParent => ?_
  ext e
  simp only [Option.filter_eq_some_iff, decide_eq_true_eq,
    tracks.parentToOrder_eq_some_iff pool delivery yDelivered isParent,
    tracks'.parentToOrder_eq_some_iff pool delivery' yDelivered' isParent]
  refine and_congr_left fun recent => exists_congr fun z => and_congr_right fun isEntry =>
    and_congr_right fun _ => ?_
  have recent : state.lastCommittedRound ≤ z.round + node.gcDepth := by rwa [isEntry] at recent
  constructor
  · exact tracks.follows_transfer tracks' delivery delivery' member member' punctual recent visits
      visits'
  · exact tracks'.follows_transfer tracks delivery' delivery member' member punctual'
      (sameRound ▸ recent) visits' visits

/-- **Two nodes with the same output order the sub-dag of a leader in the same way.** -/
theorem Tracks.orderDag_eq (punctual : NoneOverdue node state leader)
    (punctual' : NoneOverdue node state' leader) :
    node.orderDag leader state = node.orderDag leader state' := by
  have sameRound := (tracks.committed_eq tracks').2
  obtain ⟨out, searched⟩ := exists_search state leader
  obtain ⟨out', searched'⟩ := exists_search state' leader
  let recent (e : Digest × Certificate) : Prop :=
    state.lastCommittedRound ≤ e.2.round + node.gcDepth
  have descends : ∀ {delivered : List Certificate} {state : State},
      Tracks node delivered state output → pool.Delivery delivered → leader ∈ delivered →
      ∀ x, Worklist.Reach (fun e : Digest × Certificate => state.parentsToOrder e.2)
        (leader.digest, leader) x → ¬ recent x → ∀ a ∈ state.parentsToOrder x.2, ¬ recent a := by
    intro delivered state tracks delivery member x reach old a step
    obtain ⟨y, rfl, visits⟩ := (tracks.reach_iff pool delivery member).mp reach
    have yDelivered := (tracks.visits_spec pool delivery member visits).1
    obtain ⟨z, rfl, follows⟩ := (tracks.mem_parentsToOrder_iff pool delivery yDelivered).mp step
    have below := follows.2.1
    simp only [recent] at old ⊢
    omega
  have kept : out.filter recent = out'.filter recent := by
    refine (Worklist.runs_of_search searched).restrict_unique
      (Worklist.runs_of_search searched') ?_ ?_ (descends tracks delivery member)
      (descends tracks' delivery' member') ?_
    · intro x y a b ha hb same
      rw [tracks.determined pool delivery x y a b ha hb same]
    · intro x y a b ha hb same
      rw [tracks'.determined pool delivery' x y a b ha hb same]
    · intro x reach isRecent
      obtain ⟨y, rfl, visits⟩ := (tracks.reach_iff pool delivery member).mp reach
      exact tracks.parentsToOrder_filter_eq tracks' delivery delivery' member member' punctual
        punctual' visits (tracks.visits_transfer tracks' delivery delivery' member member' punctual
          isRecent visits)
  have arranged : node.arrange state (out.map Prod.snd) =
      node.arrange state' (out'.map Prod.snd) := by
    rw [tracks.arrange_eq delivery member searched, tracks'.arrange_eq delivery' member' searched',
      ← sameRound]
    exact congrArg (fun l : List (Digest × Certificate) => (l.map Prod.snd).insertionSort
      fun x y => x.round ≤ y.round) kept
  simp only [orderDag, searched, searched', Option.bind_eq_bind, Option.bind_some, arranged]

end OneLeader

/-! ## Two runs -/

/-- Runs whose leaders agree output the same, sub-dag by sub-dag. -/
theorem Execution.outputs_eq {subDags subDags' : List SubDag}
    (execution : Execution node pool delivered state subDags)
    (execution' : Execution node pool delivered' state' subDags')
    (punctual : ∀ o ∈ subDags, NoneOverdue node o.before o.leader)
    (punctual' : ∀ o ∈ subDags', NoneOverdue node o.before o.leader)
    (before after : List SubDag) (split : subDags = before ++ after)
    (agree : leaders before <+: leaders subDags') :
    ∃ before' after', subDags' = before' ++ after' ∧ leaders before' = leaders before ∧
      outputs before' = outputs before := by
  induction before using List.reverseRecOn generalizing after with
  | nil => exact ⟨[], subDags', rfl, rfl, rfl⟩
  | append_singleton before o ih =>
      have shorter : leaders before <+: leaders subDags' :=
        (List.prefix_append _ _).trans (by simpa [leaders] using agree)
      obtain ⟨before', after', split', sameLeaders, sameOutputs⟩ := ih (o :: after)
        (by simp [split]) shorter
      -- the next sub-dags have the same leader
      obtain ⟨o', after', rfl, sameLeader⟩ : ∃ o' rest, after' = o' :: rest ∧
          o'.leader = o.leader := by
        rw [split', leaders, leaders, List.map_append, List.map_append] at agree
        rw [leaders, leaders] at sameLeaders
        rw [sameLeaders, List.prefix_append_right_inj] at agree
        cases after' with
        | nil => simp at agree
        | cons o' rest =>
            rw [List.map_singleton, List.map_cons, List.cons_prefix_cons] at agree
            exact ⟨o', rest, rfl, agree.1.symm⟩
      have parts : subDags = before ++ o :: after := by simp [split]
      obtain ⟨_, _, -, earlier, member, -, flattened⟩ := (parts ▸ execution).split
      obtain ⟨_, _, -, earlier', member', -, flattened'⟩ := (split' ▸ execution').split
      have tracks' := earlier'.tracks
      rw [sameOutputs] at tracks'
      have punctualO := punctual o (by simp [parts])
      have punctualO' := punctual' o' (by simp [split'])
      have ordered' := flattened'.ordered
      rw [sameLeader] at member' punctualO' ordered'
      have ordered := earlier.tracks.orderDag_eq tracks' earlier.delivery earlier'.delivery member
        member' punctualO punctualO'
      rw [flattened.ordered, ordered'] at ordered
      refine ⟨before' ++ [o'], after', by simp [split'], ?_, ?_⟩
      · simp only [leaders, List.map_append, List.map_singleton, sameLeader] at sameLeaders ⊢
        rw [sameLeaders]
      · rw [outputs_append, outputs_append, sameOutputs, outputs_singleton, outputs_singleton,
          Option.some.inj ordered]

/-- **The outputs of two nodes are prefixes of one another** when neither orders a leader from
which it reaches a certificate below the last committed round of its author. -/
theorem outputs_prefix (noWrap : node.committee.NoWrap) (delivery : pool.Delivery delivered)
    (delivery' : pool.Delivery delivered') (fits : node.NoOverflow delivered)
    (fits' : node.NoOverflow delivered') {subDags subDags' : List SubDag}
    (computed : node.run delivered = some (state, subDags))
    (computed' : node.run delivered' = some (state', subDags'))
    (punctual : ∀ o ∈ subDags, NoneOverdue node o.before o.leader)
    (punctual' : ∀ o ∈ subDags', NoneOverdue node o.before o.leader) :
    outputs subDags <+: outputs subDags' ∨ outputs subDags' <+: outputs subDags := by
  obtain ⟨_, _, run, committed⟩ := run_leaders noWrap delivery fits
  obtain ⟨_, _, run', committed'⟩ := run_leaders noWrap delivery' fits'
  rw [computed] at run
  rw [computed'] at run'
  cases run
  cases run'
  have execution := Execution.of_run delivery fits computed
  have execution' := Execution.of_run delivery' fits' computed'
  rcases committed.prefix noWrap committed' with agree | agree
  · obtain ⟨before', after', rfl, -, same⟩ :=
      execution.outputs_eq execution' punctual punctual' _ [] (List.append_nil _).symm agree
    exact .inl (by rw [outputs_append, same]; exact List.prefix_append _ _)
  · obtain ⟨before', after', rfl, -, same⟩ :=
      execution'.outputs_eq execution punctual' punctual _ [] (List.append_nil _).symm agree
    exact .inr (by rw [outputs_append, same]; exact List.prefix_append _ _)

end Agreement

/-! ## Runs that agree and runs that do not -/

section Runs

local instance agreementPrimitives : Primitives := executable fun _ _ => true

/-- The listed certificates in the dag that are overdue have no child and are not the leader. -/
def OverdueAside (certificates : List Certificate) (o : SubDag) : Prop :=
  ∀ x ∈ certificates, o.before.dag.entry x.round x.origin = some (x.digest, x) →
    o.before.committed x.origin ≤ x.round ∨ x ≠ o.leader ∧ ¬ Pool.HasChild certificates x

instance (certificates : List Certificate) (o : SubDag) : Decidable (OverdueAside certificates o) :=
  inferInstanceAs (Decidable (∀ x ∈ certificates, _))

theorem noneOverdue_of_aside {certificates delivered : List Certificate} {state : State}
    {subDags : List SubDag} (lists : Pool.Lists heavyNode.committee certificates)
    (execution : Execution heavyNode (.ofList certificates lists) delivered state subDags)
    (aside : ∀ o ∈ subDags, OverdueAside certificates o) :
    ∀ o ∈ subDags, NoneOverdue heavyNode o.before o.leader := by
  intro o isSubDag x visits _
  obtain ⟨before, after, rfl⟩ := List.append_of_mem isSubDag
  obtain ⟨_, _, -, earlier, member, above, -⟩ := execution.split
  have isDelivered := (earlier.tracks.visits_spec _ earlier.delivery member visits).1
  rcases Relation.ReflTransGen.cases_tail visits with rfl | ⟨y, start, follows⟩
  · exact (earlier.tracks.committed_le _).trans above.le
  · rcases aside o isSubDag x (earlier.delivery.mem x isDelivered) follows.2.2.1 with
      punctual | ⟨-, childless⟩
    · exact punctual
    · have yDelivered := (earlier.tracks.visits_spec _ earlier.delivery member start).1
      exact absurd ⟨y, earlier.delivery.mem y yDelivered, follows.1⟩ childless

/-- One node has cleaned the stray certificate up when the second leader is ordered. The other one has it
in its dag, overdue. -/
theorem outputs_prefix_stray :
    ∃ state subDags state' subDags',
      heavyNode.run strayEarly = some (state, subDags) ∧
      heavyNode.run strayLate = some (state', subDags') ∧ leaders subDags' = [fork, trunk 2] ∧
      (outputs subDags <+: outputs subDags' ∨ outputs subDags' <+: outputs subDags) := by
  have lists : Pool.Lists heavyNode.committee strayEarly := by decide +kernel
  have delivery := Pool.delivery_ofList lists (show Pool.Arrive _ _ [] strayEarly by decide +kernel)
  have delivery' := Pool.delivery_ofList lists (show Pool.Arrive _ _ [] strayLate by decide +kernel)
  have fits : heavyNode.NoOverflow strayEarly := by decide +kernel
  have fits' : heavyNode.NoOverflow strayLate := by decide +kernel
  have aside : (heavyNode.run strayEarly).any (fun r => decide (∀ o ∈ r.2, OverdueAside strayEarly o)) =
      true := by decide +kernel
  have aside' : (heavyNode.run strayLate).any (fun r => decide (leaders r.2 = [fork, trunk 2] ∧
      ∀ o ∈ r.2, OverdueAside strayEarly o)) = true := by decide +kernel
  obtain ⟨⟨state, subDags⟩, computed, aside⟩ := (Option.any_eq_true _ _).mp aside
  obtain ⟨⟨state', subDags'⟩, computed', aside'⟩ := (Option.any_eq_true _ _).mp aside'
  obtain ⟨twoLeaders, aside'⟩ := of_decide_eq_true aside'
  exact ⟨state, subDags, state', subDags', computed, computed', twoLeaders,
    outputs_prefix (by decide +kernel) delivery delivery' fits fits' computed computed'
      (noneOverdue_of_aside lists (.of_run delivery fits computed) (of_decide_eq_true aside))
      (noneOverdue_of_aside lists (.of_run delivery' fits' computed') aside')⟩

/-- **Two nodes can output different sequences**: the passed certificate is output by the node that
receives it late. -/
theorem outputs_disagree :
    ∃ (pool : Pool heavyNode.committee) (delivered delivered' : List Certificate)
      (state state' : State) (subDags subDags' : List SubDag),
      pool.Delivery delivered ∧ pool.Delivery delivered' ∧ delivered.Nodup ∧ delivered'.Nodup ∧
      heavyNode.run delivered = some (state, subDags) ∧
      heavyNode.run delivered' = some (state', subDags') ∧
      ¬ (outputs subDags <+: outputs subDags' ∨ outputs subDags' <+: outputs subDags) := by
  have lists : Pool.Lists heavyNode.committee passedEarly := by decide +kernel
  have different : (heavyNode.run passedEarly).any (fun r => (heavyNode.run passedLate).any fun r' =>
      decide (¬ (outputs r.2 <+: outputs r'.2 ∨ outputs r'.2 <+: outputs r.2))) = true := by
    decide +kernel
  obtain ⟨⟨state, subDags⟩, computed, different⟩ := (Option.any_eq_true _ _).mp different
  obtain ⟨⟨state', subDags'⟩, computed', different⟩ := (Option.any_eq_true _ _).mp different
  exact ⟨.ofList _ lists, passedEarly, passedLate, state, state', subDags, subDags',
    Pool.delivery_ofList lists (by decide +kernel), Pool.delivery_ofList lists (by decide +kernel),
    by decide +kernel, by decide +kernel, computed, computed', of_decide_eq_true different⟩

end Runs

end Tusk.Consensus
