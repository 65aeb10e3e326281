import Tusk.Consensus.LeaderOrder

/-!
# Executions

A run alternates between receiving a certificate and committing a leader. `Execution` is the
relation of the states that a run passes through, also in the middle of a step that commits
several leaders: one constructor receives a certificate, and one flattens the sub-dag of a
delivered leader above the last committed round. Every run is an execution (`Execution.of_run`),
the facts of `Tracks` hold in it (`Execution.tracks`), and the results about output sequences are
inductions over it.
-/

set_option autoImplicit false

namespace Tusk.Consensus

open Lib

variable [Primitives]

/-! ## Flattening a sub-dag -/

/-- Update a state with several certificates, in order. -/
def State.updateAll (gcDepth : ℕ) (xs : List Certificate) (state : State) : State :=
  xs.foldl (fun state x => state.update x gcDepth) state

variable {node : Consensus} {pool : Pool node.committee} {delivered output : List Certificate}
  {state : State}

theorem Tracks.updateAll (tracks : Tracks node delivered state output) {xs : List Certificate}
    (members : ∀ x ∈ xs, x ∈ delivered) :
    Tracks node delivered (state.updateAll node.gcDepth xs) (output ++ xs) := by
  induction xs generalizing state output with
  | nil => simpa [State.updateAll] using tracks
  | cons x xs ih =>
      have first := tracks.update (members x List.mem_cons_self)
      have rest := ih first fun y member => members y (.tail _ member)
      rwa [List.append_assoc] at rest

omit [Primitives] in
/-- What was committed last decides which certificates stay in the dag. -/
theorem State.entry_updateAll {gcDepth : ℕ} {xs : List Certificate} (nonempty : xs ≠ []) {r : ℕ}
    {n : PublicKey} {e : Digest × Certificate}
    (found : (state.updateAll gcDepth xs).dag.entry r n = some e) :
    state.dag.entry r n = some e ∧ (state.updateAll gcDepth xs).committed n ≤ r ∧
      (state.updateAll gcDepth xs).lastCommittedRound ≤ horizon gcDepth r := by
  induction xs generalizing state with
  | nil => exact absurd rfl nonempty
  | cons x xs ih =>
      cases xs with
      | nil => exact State.entry_update.mp found
      | cons y xs =>
          obtain ⟨before, above, recent⟩ := ih (by simp) found
          exact ⟨(State.entry_update.mp before).1, above, recent⟩

theorem flattenFrom_eq (node : Consensus) (xs : List Certificate) (state : State) :
    (node.flattenFrom xs state).1 = state.updateAll node.gcDepth xs ∧
      (node.flattenFrom xs state).2.map Prod.fst = xs := by
  induction xs generalizing state with
  | nil => exact ⟨rfl, rfl⟩
  | cons x xs ih =>
      obtain ⟨final, sequence⟩ := ih (state.update x node.gcDepth)
      refine ⟨final, ?_⟩
      rw [flattenFrom, List.map_cons, sequence]

/-- What flattening the sub-dag of a leader does. -/
structure Flattened (node : Consensus) (state : State) (leader : Certificate) (final : State)
    (subDag : SubDag) : Prop where
  before_eq : subDag.before = state
  leader_eq : subDag.leader = leader
  ordered : node.orderDag leader state = some subDag.certificates
  final_eq : final = state.updateAll node.gcDepth subDag.certificates
  mem_iff : ∀ x, x ∈ subDag.certificates ↔
    Visits state leader x ∧ state.lastCommittedRound ≤ x.round + node.gcDepth
  nodup : subDag.certificates.Nodup
  sorted : subDag.certificates.Pairwise fun x y => x.round ≤ y.round

/-- Flattening a delivered leader succeeds. -/
theorem Tracks.flatten_spec (tracks : Tracks node delivered state output)
    (delivery : pool.Delivery delivered) {leader : Certificate} (member : leader ∈ delivered) :
    ∃ final subDag, node.flatten leader state = some (final, subDag) ∧
      Flattened node state leader final subDag := by
  obtain ⟨ordered, computed, mem_iff, nodup, sorted⟩ := tracks.orderDag_spec pool delivery member
  obtain ⟨final, sequence⟩ := flattenFrom_eq node ordered state
  refine ⟨(node.flattenFrom ordered state).1,
    ⟨state, leader, (node.flattenFrom ordered state).2⟩, ?_, ?_⟩
  · simp only [flatten, computed]
    rfl
  · have certificates : SubDag.certificates
        ⟨state, leader, (node.flattenFrom ordered state).2⟩ = ordered := sequence
    constructor
    · rfl
    · rfl
    · rw [certificates, computed]
    · rw [certificates, final]
    · rw [certificates]
      exact mem_iff
    · rw [certificates]
      exact nodup
    · rw [certificates]
      exact sorted

theorem Tracks.flattened (tracks : Tracks node delivered state output)
    (delivery : pool.Delivery delivered) {leader : Certificate} (member : leader ∈ delivered)
    {final : State} {subDag : SubDag} (computed : node.flatten leader state = some (final, subDag)) :
    Flattened node state leader final subDag := by
  obtain ⟨final', subDag', computed', flattened⟩ := tracks.flatten_spec delivery member
  rw [computed] at computed'
  cases computed'
  exact flattened

section Flattened

variable {leader : Certificate} {final : State} {subDag : SubDag}

theorem Flattened.mem_delivered (flattened : Flattened node state leader final subDag)
    (tracks : Tracks node delivered state output) (delivery : pool.Delivery delivered)
    (member : leader ∈ delivered) {x : Certificate} (isOutput : x ∈ subDag.certificates) :
    x ∈ delivered ∧ pool.dag.Reaches leader x :=
  tracks.visits_spec pool delivery member ((flattened.mem_iff x).mp isOutput).1

/-- A leader above the last committed round is in its own sequence. -/
theorem Flattened.leader_mem (flattened : Flattened node state leader final subDag)
    (above : state.lastCommittedRound < leader.round) : leader ∈ subDag.certificates :=
  (flattened.mem_iff leader).mpr ⟨.refl, by omega⟩

theorem Flattened.tracks (flattened : Flattened node state leader final subDag)
    (tracks : Tracks node delivered state output) (delivery : pool.Delivery delivered)
    (member : leader ∈ delivered) :
    Tracks node delivered final (output ++ subDag.certificates) := by
  rw [flattened.final_eq]
  exact tracks.updateAll fun x isOutput =>
    (flattened.mem_delivered tracks delivery member isOutput).1

/-- The dag keeps the certificates not below the last committed round of their author. -/
theorem Flattened.entry (flattened : Flattened node state leader final subDag)
    (above : state.lastCommittedRound < leader.round) {r : ℕ} {n : PublicKey}
    {e : Digest × Certificate} (found : final.dag.entry r n = some e) :
    state.dag.entry r n = some e ∧ final.committed n ≤ r ∧
      final.lastCommittedRound ≤ r + node.gcDepth := by
  rw [flattened.final_eq] at found ⊢
  obtain ⟨before, low, recent⟩ :=
    State.entry_updateAll (List.ne_nil_of_mem (flattened.leader_mem above)) found
  exact ⟨before, low, recent.trans (horizon_le _ _)⟩

/-- Afterwards the last committed round is the round of the leader. -/
theorem Flattened.lastCommittedRound (flattened : Flattened node state leader final subDag)
    (tracks : Tracks node delivered state output) (delivery : pool.Delivery delivered)
    (member : leader ∈ delivered) (above : state.lastCommittedRound < leader.round) :
    final.lastCommittedRound = leader.round := by
  have after := flattened.tracks tracks delivery member
  have low : leader.round ≤ final.lastCommittedRound :=
    after.output_le (List.mem_append_right _ (flattened.leader_mem above))
  refine le_antisymm ?_ low
  rcases after.round_output with zero | ⟨c, isOutput, round⟩
  · omega
  · rw [← round]
    rcases List.mem_append.mp isOutput with old | new
    · exact (tracks.output_le old).trans above.le
    · exact (flattened.mem_delivered tracks delivery member new).2.round_le

end Flattened

/-! ## Executions -/

variable (node pool)

/-- The states a run passes through, with what was received and which sub-dags were output. -/
inductive Execution : List Certificate → State → List SubDag → Prop where
  | start : Execution [] (.new (Certificate.genesis node.committee)) []
  | receive {delivered : List Certificate} {state : State} {subDags : List SubDag}
      {c : Certificate} :
      Execution delivered state subDags → node.run delivered = some (state, subDags) →
      pool.Delivery (delivered ++ [c]) → node.NoOverflow (delivered ++ [c]) →
      Execution (delivered ++ [c]) { state with dag := state.dag.insert c } subDags
  | commit {delivered : List Certificate} {state : State} {subDags : List SubDag}
      {leader : Certificate} {final : State} {subDag : SubDag} :
      Execution delivered state subDags → leader ∈ delivered →
      state.lastCommittedRound < leader.round →
      node.flatten leader state = some (final, subDag) →
      Execution delivered final (subDags ++ [subDag])

variable {node pool}

omit [Primitives] in
theorem outputs_append (subDags more : List SubDag) :
    outputs (subDags ++ more) = outputs subDags ++ outputs more := List.flatMap_append

omit [Primitives] in
theorem outputs_singleton (subDag : SubDag) : outputs [subDag] = subDag.certificates := by
  simp [outputs]

omit [Primitives] in
theorem outputs_split (before after : List SubDag) (o : SubDag) :
    outputs (before ++ o :: after) = outputs before ++ (o.certificates ++ outputs after) := by
  simp [outputs]

omit [Primitives] in
/-- What is output up to a sub-dag stays output. -/
theorem outputs_subset (before after : List SubDag) (o : SubDag) :
    outputs (before ++ [o]) ⊆ outputs (before ++ o :: after) := by
  rw [outputs_append, outputs_singleton, outputs_split, ← List.append_assoc]
  exact List.subset_append_left _ _

theorem Execution.delivery {subDags : List SubDag}
    (execution : Execution node pool delivered state subDags) : pool.Delivery delivered := by
  induction execution with
  | start => exact Pool.delivery_nil
  | receive _ _ delivery _ _ => exact delivery
  | commit _ _ _ _ ih => exact ih

/-- The facts of `Tracks` hold throughout a run. -/
theorem Execution.tracks {subDags : List SubDag}
    (execution : Execution node pool delivered state subDags) :
    Tracks node delivered state (outputs subDags) := by
  induction execution with
  | start => exact tracks_new
  | receive _ _ delivery fits ih => exact ih.insert delivery fits
  | commit before member above computed ih =>
      rw [outputs_append, outputs_singleton]
      exact (ih.flattened before.delivery member computed).tracks ih before.delivery member

/-- Each sub-dag of an execution was flattened in a state of the execution. -/
theorem Execution.split {before after : List SubDag} {o : SubDag}
    (execution : Execution node pool delivered state (before ++ o :: after)) :
    ∃ received final, received <+: delivered ∧ Execution node pool received o.before before ∧
      o.leader ∈ received ∧ o.before.lastCommittedRound < o.leader.round ∧
      Flattened node o.before o.leader final o := by
  generalize parts : before ++ o :: after = subDags at execution
  induction execution generalizing after with
  | start => simp at parts
  | receive _ _ _ _ ih =>
      obtain ⟨received, final, earlier, rest⟩ := ih parts
      exact ⟨received, final, earlier.trans (List.prefix_append _ _), rest⟩
  | @commit delivered state subDags leader final subDag execution member above computed ih =>
      rcases List.eq_nil_or_concat after with rfl | ⟨after, last, rfl⟩
      · obtain ⟨rfl, same⟩ := List.append_inj' parts rfl
        cases same
        have flattened := execution.tracks.flattened execution.delivery member computed
        rw [← flattened.before_eq] at execution above
        rw [← flattened.leader_eq] at member above
        refine ⟨delivered, final, List.prefix_rfl, execution, member, above, ?_⟩
        rwa [flattened.before_eq, flattened.leader_eq]
      · rw [List.concat_eq_append, ← List.cons_append, ← List.append_assoc] at parts
        exact ih (List.append_inj' parts rfl).1

omit [Primitives] in
/-- What holds at each position holds wherever the sub-dags are split. -/
theorem forall_splits {holds : List SubDag → SubDag → Prop} {subDags : List SubDag}
    (all : ∀ i < subDags.length, ∀ o ∈ subDags[i]?, holds (subDags.take i) o) :
    ∀ before o after, subDags = before ++ o :: after → holds before o := by
  rintro before o after rfl
  have here := all before.length (by simp) o (by simp)
  rwa [List.take_left] at here

/-! ## Runs are executions -/

theorem runFrom_cons_eq_some {c : Certificate} {certificates : List Certificate} {final : State}
    {subDags : List SubDag} :
    node.runFrom state (c :: certificates) = some (final, subDags) ↔
      ∃ next first more, node.step state c = some (next, first) ∧
        node.runFrom next certificates = some (final, more) ∧ subDags = first ++ more := by
  simp only [runFrom, Option.bind_eq_bind, Option.bind_eq_some_iff, Option.pure_def,
    Option.some.injEq, Prod.exists, Prod.mk.injEq]
  constructor
  · rintro ⟨next, first, stepped, _, more, rest, rfl, rfl⟩
    exact ⟨next, first, more, stepped, rest, rfl⟩
  · rintro ⟨next, first, more, stepped, rest, rfl⟩
    exact ⟨next, first, stepped, _, more, rest, rfl, rfl⟩

theorem runFrom_append_eq_some {certificates more : List Certificate} {final : State}
    {subDags : List SubDag} :
    node.runFrom state (certificates ++ more) = some (final, subDags) ↔
      ∃ next first second, node.runFrom state certificates = some (next, first) ∧
        node.runFrom next more = some (final, second) ∧ subDags = first ++ second := by
  induction certificates generalizing state subDags with
  | nil => simp [runFrom]
  | cons c certificates ih =>
      simp only [List.cons_append, runFrom_cons_eq_some, ih]
      constructor
      · rintro ⟨next, first, _, stepped, ⟨last, second, third, rest, others, rfl⟩, rfl⟩
        exact ⟨last, first ++ second, third, ⟨next, first, second, stepped, rest, rfl⟩, others,
          by simp⟩
      · rintro ⟨last, _, third, ⟨next, first, second, stepped, rest, rfl⟩, others, rfl⟩
        exact ⟨next, first, second ++ third, stepped, ⟨last, second, third, rest, others, rfl⟩,
          by simp⟩

/-- The last certificate of a run is processed in the state the others lead to. -/
theorem run_snoc_eq_some {c : Certificate} {final : State} {subDags : List SubDag} :
    node.run (delivered ++ [c]) = some (final, subDags) ↔
      ∃ state before more, node.run delivered = some (state, before) ∧
        node.step state c = some (final, more) ∧ subDags = before ++ more := by
  have done : ∀ state, node.runFrom state [] = some (state, []) := fun _ => rfl
  simp only [run, runFrom_append_eq_some, runFrom_cons_eq_some, done, Option.some.injEq,
    Prod.mk.injEq]
  constructor
  · rintro ⟨state, before, _, first, ⟨next, more, _, stepped, ⟨rfl, rfl⟩, rfl⟩, rfl⟩
    exact ⟨state, before, more, first, stepped, by simp⟩
  · rintro ⟨state, before, more, first, stepped, rfl⟩
    exact ⟨state, before, more, first, ⟨final, more, [], stepped, ⟨rfl, rfl⟩, by simp⟩, rfl⟩

/-- What processing a certificate does after adding it to the dag: nothing, or try to commit a
leader three rounds below. -/
theorem step_cases (node : Consensus) (state : State) (c : Certificate) :
    node.step state c = some ({ state with dag := state.dag.insert c }, []) ∨
      ∃ w, w % 2 = 0 ∧ 2 ≤ w ∧ c.round = w + 3 ∧ state.lastCommittedRound < w ∧
        node.step state c = if node.committee.size = 0 then none
          else node.commit { state with dag := state.dag.insert c } w := by
  by_cases parity : precedingRound c.round % 2 ≠ 0 ∨ precedingRound c.round < 4
  · exact .inl (if_pos parity)
  by_cases old : precedingRound c.round - 2 ≤ state.lastCommittedRound
  · exact .inl (by rw [step, if_neg parity, if_pos old])
  by_cases selected : ¬ node.directCommitSelected (precedingRound c.round - 2)
  · exact .inl (by rw [step, if_neg parity, if_neg old, if_pos selected])
  refine .inr ⟨precedingRound c.round - 2, ?_, ?_, ?_, ?_, ?_⟩
  · omega
  · omega
  · have positive : c.round ≠ 0 := by
      intro zero
      rw [zero] at parity
      exact parity (.inl (by decide))
    rw [precedingRound, if_neg positive] at parity ⊢
    omega
  · omega
  · rw [step, if_neg parity, if_neg old, if_neg selected]

/-- What committing the leader of a round does: nothing, or flatten the leaders it orders. -/
theorem commit_cases (node : Consensus) (state : State) (w : ℕ) :
    node.commit state w = some (state, []) ∨
      ∃ e, node.leader w state.dag = some e ∧
        (HashMap.get state.dag (w + 1) = none ∧ node.commit state w = none ∨
          ∃ authorities, HashMap.get state.dag (w + 1) = some authorities ∧
            node.committee.validityThreshold ≤ node.support authorities e.1 ∧
            node.commit state w = (node.orderLeaders e.2 state).bind
              fun leaders => node.flattenAll leaders.reverse state) := by
  unfold commit
  cases found : node.leader w state.dag with
  | none => exact .inl rfl
  | some e =>
      cases present : HashMap.get state.dag (w + 1) with
      | none => exact .inr ⟨e, rfl, .inl ⟨rfl, rfl⟩⟩
      | some authorities =>
          by_cases unsupported : node.support authorities e.1 < node.committee.validityThreshold
          · exact .inl (by simp [unsupported])
          · exact .inr ⟨e, rfl, .inr ⟨authorities, rfl, UInt32.not_lt.mp unsupported,
              by simp [unsupported, Option.bind_eq_bind]⟩⟩

/-! ## What the dag holds

This needs no pool: it holds of whatever certificates are received. -/

omit [Primitives] in
theorem State.entry_of_updateAll {gcDepth : ℕ} {xs : List Certificate} {r : ℕ} {n : PublicKey}
    {e : Digest × Certificate}
    (found : (state.updateAll gcDepth xs).dag.entry r n = some e) :
    state.dag.entry r n = some e := by
  cases xs with
  | nil => exact found
  | cons x xs => exact (State.entry_updateAll (by simp) found).1

/-- Committing leaders adds nothing to the dag. -/
theorem entry_of_flattenAll {leaders : List Certificate} {final : State} {more : List SubDag}
    (computed : node.flattenAll leaders state = some (final, more)) {r : ℕ} {n : PublicKey}
    {e : Digest × Certificate} (found : final.dag.entry r n = some e) :
    state.dag.entry r n = some e := by
  induction leaders generalizing state more with
  | nil =>
      cases computed
      exact found
  | cons leader leaders ih =>
      obtain ⟨⟨next, subDag⟩, first, rest⟩ := Option.bind_eq_some_iff.mp computed
      obtain ⟨⟨last, others⟩, remaining, same⟩ := Option.bind_eq_some_iff.mp rest
      cases same
      obtain ⟨ordered, -, same⟩ := Option.bind_eq_some_iff.mp first
      cases same
      have before := ih remaining
      rw [(flattenFrom_eq node ordered state).1] at before
      exact State.entry_of_updateAll before

/-- A step adds nothing to the dag but its certificate. -/
theorem entry_of_step {c : Certificate} {final : State} {more : List SubDag}
    (stepped : node.step state c = some (final, more)) {r : ℕ} {n : PublicKey}
    {e : Digest × Certificate} (found : final.dag.entry r n = some e) :
    (state.dag.insert c).entry r n = some e := by
  rcases step_cases node state c with idle | ⟨w, -, -, -, -, commits⟩
  · rw [stepped] at idle
    cases idle
    exact found
  rw [stepped] at commits
  split_ifs at commits
  rcases commit_cases node { state with dag := state.dag.insert c } w with
    idle | ⟨leader, -, ⟨-, panics⟩ | ⟨authorities, -, -, orders⟩⟩
  · rw [idle] at commits
    cases commits
    exact found
  · rw [panics] at commits
    cases commits
  · rw [orders] at commits
    obtain ⟨leaders, -, flattened⟩ := Option.bind_eq_some_iff.mp commits.symm
    exact entry_of_flattenAll flattened found

/-- **The dag holds what was received and the genesis.** -/
theorem entry_of_run {subDags : List SubDag}
    (computed : node.run delivered = some (state, subDags)) {r : ℕ} {n : PublicKey}
    {e : Digest × Certificate} (found : state.dag.entry r n = some e) :
    e.2 ∈ delivered ∨ e.2 ∈ Certificate.genesis node.committee := by
  induction delivered using List.reverseRecOn generalizing state subDags with
  | nil =>
      cases computed
      exact .inr (entry_new found).2.2.2
  | append_singleton delivered c ih =>
      obtain ⟨before, first, more, run, stepped, -⟩ := run_snoc_eq_some.mp computed
      have inserted := entry_of_step stepped found
      rw [Dag.entry_insert] at inserted
      split_ifs at inserted with here
      · cases inserted
        exact .inl (by simp)
      · exact (ih run inserted).imp_left (List.mem_append_left _)

/-! ## Committing in order -/

/-- Committing leaders in ascending order is an execution. -/
theorem Execution.flattenAll {subDags more : List SubDag} {leaders : List Certificate}
    {final : State} (execution : Execution node pool delivered state subDags)
    (members : ∀ l ∈ leaders, l ∈ delivered ∧ state.lastCommittedRound < l.round)
    (ascending : leaders.Pairwise fun l m => l.round < m.round)
    (computed : node.flattenAll leaders state = some (final, more)) :
    Execution node pool delivered final (subDags ++ more) := by
  induction leaders generalizing state subDags more with
  | nil =>
      cases computed
      simpa using execution
  | cons leader leaders ih =>
      obtain ⟨⟨next, subDag⟩, first, rest⟩ := Option.bind_eq_some_iff.mp computed
      obtain ⟨⟨last, others⟩, remaining, same⟩ := Option.bind_eq_some_iff.mp rest
      cases same
      obtain ⟨member, above⟩ := members leader List.mem_cons_self
      obtain ⟨higher, ascending⟩ := List.pairwise_cons.mp ascending
      have round := (execution.tracks.flattened execution.delivery member first).lastCommittedRound
        execution.tracks execution.delivery member above
      have later := ih (execution.commit member above first)
        (fun l isMember => ⟨(members l (.tail _ isMember)).1, round ▸ higher l isMember⟩)
        ascending remaining
      simpa using later

/-- **Every run is an execution.** -/
theorem Execution.of_run {subDags : List SubDag} (delivery : pool.Delivery delivered)
    (fits : node.NoOverflow delivered) (computed : node.run delivered = some (state, subDags)) :
    Execution node pool delivered state subDags := by
  induction delivered using List.reverseRecOn generalizing state subDags with
  | nil =>
      cases computed
      exact .start
  | append_singleton delivered c ih =>
      obtain ⟨before, first, more, run, stepped, rfl⟩ := run_snoc_eq_some.mp computed
      have earlier := ih delivery.of_prefix fits.of_prefix run
      have execution := earlier.receive run delivery fits
      rcases step_cases node before c with idle | ⟨w, even, high, -, above, commits⟩
      · rw [stepped] at idle
        cases idle
        simpa using execution
      rw [stepped] at commits
      split_ifs at commits
      rcases commit_cases node { before with dag := before.dag.insert c } w with
        idle | ⟨e, found, ⟨-, panics⟩ | ⟨authorities, -, -, orders⟩⟩
      · rw [idle] at commits
        cases commits
        simpa using execution
      · rw [panics] at commits
        cases commits
      · rw [orders] at commits
        obtain ⟨leaders, ordered, flattened⟩ := Option.bind_eq_some_iff.mp commits.symm
        obtain ⟨-, member, round, -⟩ := execution.tracks.leader_spec (by omega) found
        obtain ⟨members, descending⟩ := execution.tracks.mem_orderLeaders member
          (round ▸ above) (by omega) ordered
        exact execution.flattenAll (fun l isMember => members l (List.mem_reverse.mp isMember))
          (List.pairwise_reverse.mpr descending) flattened

/-- After a run the next certificate is received. -/
theorem Execution.of_receive {c : Certificate} {subDags : List SubDag}
    (delivery : pool.Delivery (delivered ++ [c])) (fits : node.NoOverflow (delivered ++ [c]))
    (computed : node.run delivered = some (state, subDags)) :
    Execution node pool (delivered ++ [c]) { state with dag := state.dag.insert c } subDags :=
  (Execution.of_run delivery.of_prefix fits.of_prefix computed).receive computed delivery fits

end Tusk.Consensus
