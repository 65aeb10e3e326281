import Tusk.Consensus.Execution
import Tusk.Consensus.FinitePool

/-!
# The last committed round

The last committed round is recomputed after every certificate of a sub-dag, as the highest round
committed of any author. Between the commits it is nevertheless the round of the last leader:
everything a leader references is of a lower round than the leader, and is committed with it
(`Advances`). So it is even, every commit raises it, and a commit tries the even rounds between the
last leader and the new one, from the top (`lastCommittedRound_of_run`).

Nothing is assumed here of the certificates received but that they are not of round 0 and that their
rounds do not overflow with `gc_depth`. Where they do, a leader can be dropped from its own sub-dag, and
the commit leaves the last committed round as it was (`committed_without_advance`).
-/

set_option autoImplicit false

namespace Tusk.Consensus

open Lib

section Rounds

/-- The round of the last leader, and 0 before the first. -/
def lastLeaderRound (subDags : List SubDag) : ℕ :=
  ((leaders subDags).getLast?.map Certificate.round).getD 0

theorem lastLeaderRound_append_singleton (subDags : List SubDag) (o : SubDag) :
    lastLeaderRound (subDags ++ [o]) = o.leader.round := by
  simp [lastLeaderRound, leaders]

/-- The certificates of the dag are of the round they are filed under, and those of round 0 have no
parents. -/
def Dag.Placed (dag : Dag) : Prop :=
  ∀ r n e, dag.entry r n = some e → e.2.round = r ∧ Rooted e.2

variable {node : Consensus} {state : State}

/-! ## The leaders a commit orders -/

theorem Dag.Placed.leader_round {dag : Dag} (placed : dag.Placed) {r : ℕ}
    {e : Digest × Certificate} (found : node.leader r dag = some e) : e.2.round = r ∧ Rooted e.2 := by
  obtain ⟨name, -, found⟩ := Option.bind_eq_some_iff.mp found
  exact placed r name e found

/-- The rounds tried between two even rounds are the even ones, each once and descending. -/
theorem leaderRounds_even {low high : ℕ} (even : low % 2 = 0) (even' : high % 2 = 0)
    (below : low < high) :
    (∀ r, r ∈ leaderRounds low high ↔ r % 2 = 0 ∧ low < r ∧ r < high) ∧
      (leaderRounds low high).Pairwise fun r q => q < r := by
  refine ⟨fun r => ?_, (leaderRounds_spec low high).2⟩
  obtain ⟨n, rfl⟩ : ∃ n, high = low + 2 * (n + 1) := ⟨(high - low) / 2 - 1, by omega⟩
  rw [leaderRounds_eq, RoundDag.mem_everySecond]
  constructor
  · rintro ⟨i, positive, bound, rfl⟩
    omega
  · rintro ⟨isEven, above, lower⟩
    exact ⟨(r - low) / 2, by omega, by omega, by omega⟩

/-! ## Committing one leader -/

/-- The highest round of some certificates, from a given round on. -/
def raised (round : ℕ) (xs : List Certificate) : ℕ := xs.foldl (fun r x => max r x.round) round

theorem le_raised (round : ℕ) (xs : List Certificate) : round ≤ raised round xs := by
  induction xs generalizing round with
  | nil => exact le_rfl
  | cons x xs ih => exact (le_max_left _ _).trans (ih _)

theorem raised_le {round bound : ℕ} {xs : List Certificate} (low : round ≤ bound)
    (rounds : ∀ x ∈ xs, x.round ≤ bound) : raised round xs ≤ bound := by
  induction xs generalizing round with
  | nil => exact low
  | cons x xs ih =>
      obtain ⟨first, later⟩ := List.forall_mem_cons.mp rounds
      exact ih (max_le low first) later

theorem round_le_raised {round : ℕ} {xs : List Certificate} {x : Certificate} (member : x ∈ xs) :
    x.round ≤ raised round xs := by
  induction xs generalizing round with
  | nil => cases member
  | cons y xs ih =>
      rcases List.mem_cons.mp member with rfl | later
      · exact (le_max_right _ _).trans (le_raised _ _)
      · exact ih later

theorem raised_append (round : ℕ) (xs ys : List Certificate) :
    raised round (xs ++ ys) = raised (raised round xs) ys := List.foldl_append

/-- Updates raise the last committed round to the highest round committed. -/
theorem State.lastCommittedRound_updateAll (consistent : state.Consistent) (gcDepth : ℕ)
    (xs : List Certificate) :
    (state.updateAll gcDepth xs).lastCommittedRound = raised state.lastCommittedRound xs ∧
      (state.updateAll gcDepth xs).Consistent := by
  induction xs generalizing state with
  | nil => exact ⟨rfl, consistent⟩
  | cons x xs ih =>
      have first : (state.update x gcDepth).Consistent := State.consistent_update
      obtain ⟨round, after⟩ := ih first
      rw [State.lastCommittedRound_update consistent] at round
      exact ⟨round, after⟩

/-- What committing a leader does to the last committed round: no certificate of the sub-dag lowers
it, and all of them together raise it to the round of the leader. -/
structure Advances (gcDepth : ℕ) (o : SubDag) : Prop where
  above : o.before.lastCommittedRound < o.leader.round
  update_le : ∀ xs x ys, o.certificates = xs ++ x :: ys →
    (o.before.updateAll gcDepth xs).lastCommittedRound ≤
      (o.before.updateAll gcDepth (xs ++ [x])).lastCommittedRound
  after : (o.before.updateAll gcDepth o.certificates).lastCommittedRound = o.leader.round

/-- The last committed round is the round of the last leader, and every commit raised it. -/
structure RoundsFollow (gcDepth lastCommittedRound : ℕ) (subDags : List SubDag) : Prop where
  last : lastCommittedRound = lastLeaderRound subDags
  even : ∀ o ∈ subDags, o.leader.round % 2 = 0
  advances : ∀ before o after, subDags = before ++ o :: after →
    o.before.lastCommittedRound = lastLeaderRound before ∧ Advances gcDepth o

theorem RoundsFollow.lastCommittedRound_even {gcDepth lastCommittedRound : ℕ}
    {subDags : List SubDag} (follow : RoundsFollow gcDepth lastCommittedRound subDags) :
    lastCommittedRound % 2 = 0 := by
  rw [follow.last]
  rcases List.eq_nil_or_concat subDags with rfl | ⟨front, o, rfl⟩
  · rfl
  · rw [List.concat_eq_append, lastLeaderRound_append_singleton]
    exact follow.even o (by simp)

/-- Later leaders are of higher rounds. -/
theorem lastLeaderRound_le {gcDepth : ℕ} {first second : List SubDag}
    (advances : ∀ before o after, first ++ second = before ++ o :: after →
      o.before.lastCommittedRound = lastLeaderRound before ∧ Advances gcDepth o) :
    lastLeaderRound first ≤ lastLeaderRound (first ++ second) := by
  induction second using List.reverseRecOn with
  | nil => rw [List.append_nil]
  | append_singleton second o ih =>
      have low := ih fun before p after parts =>
        advances before p (after ++ [o]) (by rw [← List.append_assoc, parts]; simp)
      obtain ⟨before, advance⟩ := advances (first ++ second) o [] (by simp)
      have above := advance.above
      rw [← List.append_assoc, lastLeaderRound_append_singleton]
      omega

/-- A commit above the last committed round goes on. -/
theorem RoundsFollow.append_singleton {gcDepth lastCommittedRound : ℕ} {subDags : List SubDag}
    {o : SubDag} (follow : RoundsFollow gcDepth lastCommittedRound subDags)
    (even : o.leader.round % 2 = 0) (before : o.before.lastCommittedRound = lastCommittedRound)
    (advances : Advances gcDepth o) : RoundsFollow gcDepth o.leader.round (subDags ++ [o]) := by
  refine ⟨(lastLeaderRound_append_singleton subDags o).symm, fun p member => ?_, ?_⟩
  · rcases List.mem_append.mp member with old | new
    · exact follow.even p old
    · rwa [List.mem_singleton.mp new]
  · intro front p after parts
    rcases List.eq_nil_or_concat after with rfl | ⟨after, last, rfl⟩
    · obtain ⟨rfl, same⟩ := List.append_inj' parts rfl
      cases same
      exact ⟨before.trans follow.last, advances⟩
    · rw [List.concat_eq_append, ← List.cons_append, ← List.append_assoc] at parts
      exact follow.advances front p after (List.append_inj' parts rfl).1

end Rounds

section Runs

variable [Primitives] {node : Consensus} {state final : State} {leader : Certificate}

/-- Everything reached from a certificate by the search is of a lower round. -/
theorem Dag.Placed.round_of_reach (placed : state.dag.Placed) {x : Certificate} (rooted : Rooted x)
    {e : Digest × Certificate}
    (reach : Worklist.Reach (fun e : Digest × Certificate => state.parentsToOrder e.2)
      (x.digest, x) e) : e.2.round ≤ x.round ∧ Rooted e.2 := by
  induction reach with
  | refl => exact ⟨le_rfl, rooted⟩
  | @tail y z _ step ih =>
      obtain ⟨low, isRooted⟩ := ih
      obtain ⟨n, found⟩ := entry_of_mem_parentsToOrder step
      obtain ⟨round, isRooted'⟩ := placed _ n z found
      refine ⟨?_, isRooted'⟩
      have positive : y.2.round ≠ 0 := by
        -- a certificate of round 0 has no parents to go to
        intro zero
        have isParent : z ∈ state.parentsToOrder y.2 := step
        rw [State.parentsToOrder, isRooted zero] at isParent
        cases isParent
      rw [round, precedingRound, if_neg positive]
      omega

/-- The sub-dag of a leader contains it and nothing of a higher round. -/
theorem Dag.Placed.orderDag_round (placed : state.dag.Placed) (rooted : Rooted leader)
    (above : state.lastCommittedRound < leader.round) (fits : leader.round + node.gcDepth < 2 ^ 64)
    {ordered : List Certificate}
    (computed : node.orderDag leader state = some ordered) :
    leader ∈ ordered ∧ ∀ x ∈ ordered, x.round ≤ leader.round := by
  obtain ⟨out, searched, same⟩ := Option.bind_eq_some_iff.mp computed
  cases same
  have run := Worklist.runs_of_search searched
  simp only [arrange, List.mem_insertionSort, List.mem_filter, List.mem_map, decide_eq_true_eq]
  rw [horizon_eq fits]
  refine ⟨⟨⟨_, run.stack_subset List.mem_cons_self, rfl⟩, by omega⟩, ?_⟩
  rintro x ⟨⟨e, isOut, rfl⟩, -⟩
  obtain ⟨s, onStack, reach⟩ := run.sound e isOut
  rw [List.mem_singleton.mp onStack] at reach
  exact (placed.round_of_reach rooted reach).1

/-- Committing a leader above the last committed round makes its round the last committed one. -/
theorem Dag.Placed.flatten_advances (placed : state.dag.Placed) (consistent : state.Consistent)
    (rooted : Rooted leader) (above : state.lastCommittedRound < leader.round)
    (fits : leader.round + node.gcDepth < 2 ^ 64) {o : SubDag}
    (computed : node.flatten leader state = some (final, o)) :
    o.before = state ∧ o.leader = leader ∧ Advances node.gcDepth o ∧
      final = state.updateAll node.gcDepth o.certificates := by
  obtain ⟨ordered, searched, same⟩ := Option.bind_eq_some_iff.mp computed
  cases same
  obtain ⟨member, low⟩ := placed.orderDag_round rooted above fits searched
  obtain ⟨isFinal, certificates⟩ := flattenFrom_eq node ordered state
  have sequence : SubDag.certificates ⟨state, leader, (node.flattenFrom ordered state).2⟩ = ordered :=
    certificates
  have raise := fun xs => (State.lastCommittedRound_updateAll consistent node.gcDepth xs).1
  refine ⟨rfl, rfl, ⟨above, fun xs x ys _ => ?_, ?_⟩, by rw [sequence, isFinal]⟩
  · rw [raise, raise, raised_append]
    exact le_raised _ _
  · rw [sequence, raise]
    exact le_antisymm (raised_le above.le low) (round_le_raised member)

/-! ## Committing in order -/

variable {delivered : List Certificate} {subDags : List SubDag}

/-- Committing leaders of ascending even rounds. -/
theorem RoundsFollow.flattenAll {leaders : List Certificate} {more : List SubDag}
    (follow : RoundsFollow node.gcDepth state.lastCommittedRound subDags)
    (placed : state.dag.Placed) (consistent : state.Consistent)
    (members : ∀ l ∈ leaders, Rooted l ∧ l.round % 2 = 0 ∧ state.lastCommittedRound < l.round)
    (fits : node.NoOverflow leaders) (ascending : leaders.Pairwise fun l m => l.round < m.round)
    (computed : node.flattenAll leaders state = some (final, more)) :
    final.Consistent ∧ RoundsFollow node.gcDepth final.lastCommittedRound (subDags ++ more) := by
  induction leaders generalizing state subDags more with
  | nil =>
      cases computed
      exact ⟨consistent, by rwa [List.append_nil]⟩
  | cons leader leaders ih =>
      obtain ⟨⟨next, o⟩, first, rest⟩ := Option.bind_eq_some_iff.mp computed
      obtain ⟨⟨last, others⟩, remaining, same⟩ := Option.bind_eq_some_iff.mp rest
      cases same
      obtain ⟨rooted, even, above⟩ := members leader List.mem_cons_self
      obtain ⟨fitsLeader, fits⟩ := List.forall_mem_cons.mp fits
      obtain ⟨higher, ascending⟩ := List.pairwise_cons.mp ascending
      obtain ⟨before, isLeader, advances, isNext⟩ :=
        placed.flatten_advances consistent rooted above fitsLeader first
      have after : next.lastCommittedRound = o.leader.round := by
        rw [isNext, ← before]
        exact advances.after
      have placed' : next.dag.Placed := fun r n e found =>
        placed r n e (State.entry_of_updateAll (isNext ▸ found))
      have consistent' : next.Consistent := by
        rw [isNext]
        exact (State.lastCommittedRound_updateAll consistent _ _).2
      have follow' := follow.append_singleton (isLeader ▸ even) (congrArg _ before) advances
      rw [← after] at follow'
      have result := ih follow' placed' consistent' (fun l member => ?_) fits ascending remaining
      · rwa [List.append_assoc] at result
      · obtain ⟨rooted, even, -⟩ := members l (.tail _ member)
        exact ⟨rooted, even, by rw [after, isLeader]; exact higher l member⟩

omit [Primitives] in
/-- The leaders a commit orders are of even rounds above the last committed one, and descend from the
leader that it started with. -/
theorem Dag.Placed.orderLeaders_rounds (placed : state.dag.Placed)
    (even : state.lastCommittedRound % 2 = 0) (even' : leader.round % 2 = 0)
    (above : state.lastCommittedRound < leader.round) (rooted : Rooted leader)
    {leaders : List Certificate} (computed : node.orderLeaders leader state = some leaders) :
    (∀ l ∈ leaders, (Rooted l ∧ l.round % 2 = 0 ∧ state.lastCommittedRound < l.round) ∧
        l.round ≤ leader.round) ∧
      leaders.Pairwise fun l m => m.round < l.round := by
  obtain ⟨toCommit, past, same⟩ := Option.bind_eq_some_iff.mp computed
  cases same
  obtain ⟨mem_iff, descending⟩ := leaderRounds_even even even' above
  obtain ⟨sublist, areRooted⟩ :=
    orderLeadersFrom_rounds (fun r _ e found => placed.leader_round found) past
  have between : ∀ l ∈ toCommit,
      l.round % 2 = 0 ∧ state.lastCommittedRound < l.round ∧ l.round < leader.round :=
    fun l member => (mem_iff _).mp (sublist.subset (List.mem_map_of_mem member))
  refine ⟨List.forall_mem_cons.mpr ⟨⟨⟨rooted, even', above⟩, le_rfl⟩, fun l member => ?_⟩,
    List.pairwise_cons.mpr ⟨fun l member => (between l member).2.2, ?_⟩⟩
  · obtain ⟨isEven, isAbove, low⟩ := between l member
    exact ⟨⟨areRooted l member, isEven, isAbove⟩, low.le⟩
  · exact List.pairwise_map.mp (descending.sublist sublist)

/-- The last committed round follows the leaders throughout a run. -/
theorem RoundsFollow.of_run (positive : ∀ c ∈ delivered, 1 ≤ c.round)
    (fits : node.NoOverflow delivered) (computed : node.run delivered = some (state, subDags)) :
    state.dag.Placed ∧ state.Consistent ∧
      RoundsFollow node.gcDepth state.lastCommittedRound subDags := by
  induction delivered using List.reverseRecOn generalizing state subDags with
  | nil =>
      cases computed
      refine ⟨fun r n e found => ?_, tracks_new.consistent, rfl, by simp, fun front o back parts => ?_⟩
      · obtain ⟨rfl, -, -, isGenesis⟩ := entry_new found
        obtain ⟨round, noParents⟩ := Certificate.round_of_mem_genesis isGenesis
        exact ⟨round, fun _ => BTreeSet.ext noParents⟩
      · simp at parts
  | append_singleton delivered c ih =>
      obtain ⟨before, first, more, run, stepped, rfl⟩ := run_snoc_eq_some.mp computed
      obtain ⟨placed, consistent, follow⟩ := ih (fun x member => positive x (by simp [member]))
        fits.of_prefix run
      have isPositive := positive c (by simp)
      -- the certificate is filed under its round, which is not 0
      have inserted : (before.dag.insert c).Placed := by
        intro r n e found
        rw [Dag.entry_insert] at found
        split_ifs at found with here
        · cases found
          exact ⟨here.1.symm, fun zero => absurd zero (Nat.ne_of_gt isPositive)⟩
        · exact placed r n e found
      have placed' : state.dag.Placed := fun r n e found =>
        inserted r n e (entry_of_step stepped found)
      refine ⟨placed', ?_⟩
      have unchanged : before.Consistent ∧ RoundsFollow node.gcDepth before.lastCommittedRound
          (first ++ []) := ⟨consistent, by rwa [List.append_nil]⟩
      rcases step_cases node before c with idle | ⟨w, even, high, roundAbove, above, commits⟩
      · rw [stepped] at idle
        cases idle
        exact unchanged
      rw [stepped] at commits
      split_ifs at commits
      rcases commit_cases node { before with dag := before.dag.insert c } w with
        idle | ⟨e, found, ⟨-, panics⟩ | ⟨authorities, -, -, orders⟩⟩
      · rw [idle] at commits
        cases commits
        exact unchanged
      · rw [panics] at commits
        cases commits
      · rw [orders] at commits
        obtain ⟨leaders, ordered, flattened⟩ := Option.bind_eq_some_iff.mp commits.symm
        obtain ⟨round, rooted⟩ := inserted.leader_round found
        let filed : State := { before with dag := before.dag.insert c }
        have placedFiled : filed.dag.Placed := inserted
        have followFiled : RoundsFollow node.gcDepth filed.lastCommittedRound first := follow
        obtain ⟨members, descending⟩ := placedFiled.orderLeaders_rounds
          followFiled.lastCommittedRound_even (round ▸ even) (round ▸ above) rooted ordered
        -- the leaders are below the certificate just received, whose sum does not overflow
        have fitsLeaders : node.NoOverflow leaders.reverse := fun l member => by
          have low := (members l (List.mem_reverse.mp member)).2
          have bound := fits c (by simp)
          omega
        exact followFiled.flattenAll placedFiled consistent
          (fun l member => (members l (List.mem_reverse.mp member)).1) fitsLeaders
          (List.pairwise_reverse.mpr descending) flattened

/-- **The last committed round is the round of the last leader.** It is even, it never decreases,
every commit raises it, and the leader rounds a commit tries are the even ones between the last
leader and the new one, from the top. -/
theorem lastCommittedRound_of_run (positive : ∀ c ∈ delivered, 1 ≤ c.round)
    (fits : node.NoOverflow delivered) (computed : node.run delivered = some (state, subDags)) :
    state.lastCommittedRound = lastLeaderRound subDags ∧ state.lastCommittedRound % 2 = 0 ∧
      (∀ earlier later s os, delivered = earlier ++ later → node.run earlier = some (s, os) →
        s.lastCommittedRound ≤ state.lastCommittedRound) ∧
      (∀ before o after, subDags = before ++ o :: after →
        o.before.lastCommittedRound = lastLeaderRound before ∧ Advances node.gcDepth o) ∧
      ∀ w, w % 2 = 0 → state.lastCommittedRound < w →
        (∀ r, r ∈ leaderRounds state.lastCommittedRound w ↔
          r % 2 = 0 ∧ state.lastCommittedRound < r ∧ r < w) ∧
        (leaderRounds state.lastCommittedRound w).Pairwise fun r q => q < r := by
  obtain ⟨-, -, follow⟩ := RoundsFollow.of_run positive fits computed
  have even := follow.lastCommittedRound_even
  refine ⟨follow.last, even, ?_, follow.advances, fun w isEven above =>
    leaderRounds_even even isEven above⟩
  rintro earlier later s os rfl before
  obtain ⟨-, -, follow'⟩ := RoundsFollow.of_run (fun c member => positive c (by simp [member]))
    fits.of_prefix before
  obtain ⟨next, first, second, computed', -, rfl⟩ := runFrom_append_eq_some.mp computed
  rw [run, computed'] at before
  cases before
  rw [follow'.last, follow.last]
  exact lastLeaderRound_le follow.advances

end Runs

section Spine

local instance roundPrimitives : Primitives := executable fun _ _ => true

theorem lastCommittedRound_of_run_twice :
    (∀ c ∈ strayLate, 1 ≤ c.round) ∧ heavyNode.NoOverflow strayLate ∧ ∃ state subDags,
      heavyNode.run strayLate = some (state, subDags) ∧ leaders subDags = [fork, trunk 2] ∧
      state.lastCommittedRound = lastLeaderRound subDags ∧ state.lastCommittedRound % 2 = 0 := by
  have positive : ∀ c ∈ strayLate, 1 ≤ c.round := by decide +kernel
  have fits : heavyNode.NoOverflow strayLate := by decide +kernel
  have twice : (heavyNode.run strayLate).any (fun r => decide (leaders r.2 = [fork, trunk 2])) =
      true := by decide +kernel
  obtain ⟨⟨state, subDags⟩, computed, twice⟩ := (Option.any_eq_true _ _).mp twice
  obtain ⟨last, even, -⟩ := lastCommittedRound_of_run positive fits computed
  exact ⟨positive, fits, state, subDags, computed, of_decide_eq_true twice, last, even⟩

/-- **With a sum that wraps, a commit need not raise the last committed round.** The leader of round 8
is committed after that of round 4, and `orderDag` drops it. -/
theorem committed_without_advance :
    ∃ (pool : Pool deepNode.committee) (state : State) (subDags : List SubDag),
      pool.Delivery (spineTo 11) ∧ deepNode.run (spineTo 11) = some (state, subDags) ∧
      leaders subDags = [spine 4, spine 8] ∧ state.lastCommittedRound = 4 ∧
      state.lastCommittedRound ≠ lastLeaderRound subDags := by
  have lists : Pool.Lists deepNode.committee (spineTo 11) := by decide +kernel
  have stays : (deepNode.run (spineTo 11)).any (fun r => decide (leaders r.2 = [spine 4, spine 8] ∧
      r.1.lastCommittedRound = 4 ∧ r.1.lastCommittedRound ≠ lastLeaderRound r.2)) = true := by
    decide +kernel
  obtain ⟨⟨state, subDags⟩, computed, stays⟩ := (Option.any_eq_true _ _).mp stays
  exact ⟨_, state, subDags, Pool.delivery_ofList lists (by decide +kernel), computed,
    of_decide_eq_true stays⟩

end Spine

end Tusk.Consensus
