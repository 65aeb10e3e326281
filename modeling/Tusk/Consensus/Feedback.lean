import Tusk.Consensus.CommittedRound

/-!
# What the consensus returns

The consensus returns the certificates that it has ordered to the primary, which collects garbage by their
rounds. Whatever it was given, it returns certificates that it was given or that are of the genesis, and its
last committed round is the highest round that it has returned (`returned_run`).
-/

set_option autoImplicit false

namespace Tusk.Consensus

open Lib

variable [Primitives] {node : Consensus} {state final : State} {holds : Certificate → Prop}

omit [Primitives] in
theorem outputs_cons (o : SubDag) (subDags : List SubDag) :
    outputs (o :: subDags) = o.certificates ++ outputs subDags := List.flatMap_cons

omit [Primitives] in
/-- The dag files certificates that have something under their rounds. -/
def Dag.Files (holds : Certificate → Prop) (dag : Dag) : Prop :=
  ∀ r n e, dag.entry r n = some e → e.2.round = r ∧ holds e.2

omit [Primitives] in
theorem Dag.Files.leader {dag : Dag} (files : dag.Files holds) {r : ℕ} {e : Digest × Certificate}
    (found : node.leader r dag = some e) : e.2.round = r ∧ holds e.2 := by
  obtain ⟨name, -, found⟩ := Option.bind_eq_some_iff.mp found
  exact files r name e found

/-- What a sub-dag orders is its leader or in the dag. -/
theorem Dag.Files.orderDag (files : state.dag.Files holds) {leader : Certificate}
    (leads : holds leader) {ordered : List Certificate}
    (computed : node.orderDag leader state = some ordered) : ∀ x ∈ ordered, holds x := by
  obtain ⟨out, searched, same⟩ := Option.bind_eq_some_iff.mp computed
  cases same
  have run := Worklist.runs_of_search searched
  simp only [arrange, List.mem_insertionSort, List.mem_filter, List.mem_map]
  rintro x ⟨⟨e, isOut, rfl⟩, -⟩
  obtain ⟨s, onStack, reach⟩ := run.sound e isOut
  rw [List.mem_singleton.mp onStack] at reach
  cases reach with
  | refl => exact leads
  | tail _ step =>
      obtain ⟨n, found⟩ := entry_of_mem_parentsToOrder step
      exact (files _ n e found).2

/-- What sub-dags return: certificates that have something, which raise the last committed round. -/
structure Returns (holds : Certificate → Prop) (round : ℕ) (final : State) (subDags : List SubDag) :
    Prop where
  files : final.dag.Files holds
  consistent : final.Consistent
  outputs : ∀ x ∈ outputs subDags, holds x
  raised : final.lastCommittedRound = raised round (Consensus.outputs subDags)

theorem returns_flattenAll (files : state.dag.Files holds) (consistent : state.Consistent)
    {leaders : List Certificate} (lead : ∀ l ∈ leaders, holds l) {subDags : List SubDag}
    (computed : node.flattenAll leaders state = some (final, subDags)) :
    Returns holds state.lastCommittedRound final subDags := by
  induction leaders generalizing state subDags with
  | nil =>
      cases computed
      exact ⟨files, consistent, fun _ inside => absurd inside List.not_mem_nil, rfl⟩
  | cons leader leaders ih =>
      obtain ⟨leads, others⟩ := List.forall_mem_cons.mp lead
      obtain ⟨⟨next, o⟩, first, rest⟩ := Option.bind_eq_some_iff.mp computed
      obtain ⟨⟨last, more⟩, remaining, same⟩ := Option.bind_eq_some_iff.mp rest
      cases same
      obtain ⟨ordered, searched, same⟩ := Option.bind_eq_some_iff.mp first
      cases same
      obtain ⟨isNext, certificates⟩ := flattenFrom_eq node ordered state
      have sequence : SubDag.certificates ⟨state, leader, (node.flattenFrom ordered state).2⟩ = ordered :=
        certificates
      obtain ⟨round, consistent'⟩ := State.lastCommittedRound_updateAll consistent node.gcDepth ordered
      have files' : (state.updateAll node.gcDepth ordered).dag.Files holds := fun r n e found =>
        files r n e (State.entry_of_updateAll found)
      rw [← isNext] at round consistent' files'
      have returns := ih files' consistent' others remaining
      refine ⟨returns.files, returns.consistent, ?_, ?_⟩
      · rw [outputs_cons, sequence]
        exact List.forall_mem_append.mpr ⟨files.orderDag leads searched, returns.outputs⟩
      · rw [returns.raised, round, outputs_cons, sequence, raised_append]

/-- **A step returns what is in the dag.** -/
theorem returns_step {c : Certificate} (files : (state.dag.insert c).Files holds)
    (consistent : state.Consistent) {subDags : List SubDag}
    (stepped : node.step state c = some (final, subDags)) :
    Returns holds state.lastCommittedRound final subDags := by
  have unchanged : Returns holds state.lastCommittedRound { state with dag := state.dag.insert c } [] :=
    ⟨files, consistent, fun _ inside => absurd inside List.not_mem_nil, rfl⟩
  rcases step_cases node state c with idle | ⟨w, -, -, -, -, commits⟩
  · rw [stepped] at idle
    cases idle
    exact unchanged
  rw [stepped] at commits
  split_ifs at commits
  rcases commit_cases node { state with dag := state.dag.insert c } w with
    idle | ⟨e, found, ⟨-, panics⟩ | ⟨authorities, -, -, orders⟩⟩
  · rw [idle] at commits
    cases commits
    exact unchanged
  · rw [panics] at commits
    cases commits
  · rw [orders] at commits
    obtain ⟨leaders, ordered, flattened⟩ := Option.bind_eq_some_iff.mp commits.symm
    obtain ⟨toCommit, past, same⟩ := Option.bind_eq_some_iff.mp ordered
    cases same
    have lead := (orderLeadersFrom_rounds (fun r _ e isFound => files.leader isFound) past).2
    have inserted : ({ state with dag := state.dag.insert c } : State).Consistent := consistent
    refine returns_flattenAll files inserted (fun l inside => ?_) flattened
    rcases List.mem_cons.mp (List.mem_reverse.mp inside) with rfl | earlier
    · exact (files.leader found).2
    · exact lead l earlier

/-- **The consensus returns certificates that it was given**, or of the genesis, and its last committed
round is the highest round that it has returned. -/
theorem returned_run {delivered : List Certificate} {state : State} {subDags : List SubDag}
    (computed : node.run delivered = some (state, subDags)) :
    (∀ c ∈ outputs subDags, c ∈ delivered ∨ c ∈ Certificate.genesis node.committee) ∧
      state.lastCommittedRound = raised 0 (outputs subDags) := by
  suffices state.dag.Files (fun c => c ∈ delivered ∨ c ∈ Certificate.genesis node.committee) ∧
      state.Consistent ∧
      (∀ c ∈ outputs subDags, c ∈ delivered ∨ c ∈ Certificate.genesis node.committee) ∧
      state.lastCommittedRound = raised 0 (outputs subDags) from this.2.2
  induction delivered using List.reverseRecOn generalizing state subDags with
  | nil =>
      cases computed
      refine ⟨fun r n e found => ?_, tracks_new.consistent,
        fun _ inside => absurd inside List.not_mem_nil, rfl⟩
      obtain ⟨rfl, -, -, isGenesis⟩ := entry_new found
      exact ⟨(Certificate.round_of_mem_genesis isGenesis).1, .inr isGenesis⟩
  | append_singleton delivered c ih =>
      obtain ⟨before, first, more, run, stepped, rfl⟩ := run_snoc_eq_some.mp computed
      obtain ⟨files, consistent, returned, round⟩ := ih run
      have wider : ∀ x, (x ∈ delivered ∨ x ∈ Certificate.genesis node.committee) →
          x ∈ delivered ++ [c] ∨ x ∈ Certificate.genesis node.committee := fun x known =>
        known.imp_left (List.mem_append_left _)
      have inserted : (before.dag.insert c).Files
          fun x => x ∈ delivered ++ [c] ∨ x ∈ Certificate.genesis node.committee := by
        intro r n e found
        rw [Dag.entry_insert] at found
        split_ifs at found with here
        · cases found
          exact ⟨here.1.symm, .inl (List.mem_append_right _ List.mem_cons_self)⟩
        · obtain ⟨sameRound, known⟩ := files r n e found
          exact ⟨sameRound, wider _ known⟩
      have returns := returns_step inserted consistent stepped
      refine ⟨returns.files, returns.consistent, ?_, ?_⟩
      · rw [outputs_append]
        exact List.forall_mem_append.mpr ⟨fun x old => wider x (returned x old), returns.outputs⟩
      · rw [returns.raised, round, outputs_append, raised_append]

end Tusk.Consensus
