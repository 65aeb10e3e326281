import Tusk.Consensus.CommittedRound
import Tusk.Consensus.FinitePool

/-!
# What is reported as a leader

Each certificate of a sequence is reported with whether it is a leader. The report asks whether the
dag has the certificate as that of the elected author of an even round, and not whether the commit
ordered it as a leader (`leadersToCommit`). The two differ for a leader that was passed over when it was
not linked and is reached later, over a slower branch, as part of the sub-dag of another leader: it is in
the dag still and is reported as a leader. Where no leader that is flattened reaches such a certificate
(`LeaderAlone`), the reports are right (`leaderFlags_of_run`).

The dag shrinks while the sequence is made. A certificate below the last committed round of its
author, which came late, is gone from the dag after the first update, and is reported as a leader
only if it is the first of the sequence.
-/

set_option autoImplicit false

namespace Tusk.Consensus

open Lib

section Updates

variable {state : State} {gcDepth : ℕ}

theorem State.committed_updateAll_le_iff {xs : List Certificate} {n : PublicKey} {bound : ℕ} :
    (state.updateAll gcDepth xs).committed n ≤ bound ↔
      state.committed n ≤ bound ∧ ∀ x ∈ xs, x.origin = n → x.round ≤ bound := by
  induction xs generalizing state with
  | nil => simp [State.updateAll]
  | cons x xs ih =>
      rw [State.updateAll, List.foldl_cons, ← State.updateAll, ih, State.committed_update,
        List.forall_mem_cons]
      split_ifs with own
      · rw [max_le_iff, and_assoc]
        simp [own]
      · simp [Ne.symm own]

/-- A certificate stays in the dag if it is not below the last committed round of its author in the
end, and within the depth. -/
theorem State.entry_updateAll_of_kept (consistent : state.Consistent) {xs : List Certificate} {r : ℕ}
    {n : PublicKey} {e : Digest × Certificate} (found : state.dag.entry r n = some e)
    (low : (state.updateAll gcDepth xs).committed n ≤ r)
    (recent : (state.updateAll gcDepth xs).lastCommittedRound ≤ horizon gcDepth r) :
    (state.updateAll gcDepth xs).dag.entry r n = some e := by
  induction xs generalizing state with
  | nil => exact found
  | cons x xs ih =>
      have first : (state.update x gcDepth).Consistent := State.consistent_update
      have raise := (State.lastCommittedRound_updateAll first gcDepth xs).1
      have rest : state.updateAll gcDepth (x :: xs) = (state.update x gcDepth).updateAll gcDepth xs :=
        rfl
      rw [rest] at low recent ⊢
      refine ih first (State.entry_update.mpr ⟨found, ?_, ?_⟩) low recent
      · exact (State.committed_updateAll_le_iff.mp low).1
      · exact (raise ▸ le_raised _ _).trans recent

end Updates

section Flags

variable [Primitives] {node : Consensus} {state final : State} {leader x : Certificate}

/-- Each certificate is reported with what the dag says before the update with it. -/
theorem flattenFrom_split {xs : List Certificate} {front back : List (Certificate × Bool)}
    {flag : Bool} (parts : (node.flattenFrom xs state).2 = front ++ (x, flag) :: back) :
    xs = front.map Prod.fst ++ x :: back.map Prod.fst ∧
      flag = node.isLeader x (state.updateAll node.gcDepth (front.map Prod.fst)).dag := by
  induction xs generalizing state front with
  | nil => simp [flattenFrom] at parts
  | cons y xs ih =>
      simp only [flattenFrom] at parts
      cases front with
      | nil =>
          obtain ⟨same, rest⟩ := List.cons.inj parts
          cases same
          refine ⟨?_, rfl⟩
          rw [← rest, (flattenFrom_eq node xs _).2]
          rfl
      | cons first front =>
          obtain ⟨same, rest⟩ := List.cons.inj parts
          obtain ⟨isRest, isFlag⟩ := ih rest
          refine ⟨?_, ?_⟩
          · rw [isRest, List.map_cons, ← same]
            rfl
          · rw [isFlag, List.map_cons, ← same]
            rfl

/-- Whether the dag, after some of it was dropped, has a certificate as a leader. -/
theorem Dag.Filed.isLeader_iff {dag dropped : Dag} (filed : dag.Filed)
    (subset : ∀ r n e, dropped.entry r n = some e → dag.entry r n = some e)
    (held : dag.entry x.round x.origin = some (x.digest, x)) :
    node.isLeader x dropped = true ↔
      x.round % 2 = 0 ∧ node.leaderName x.round = some x.origin ∧
        dropped.entry x.round x.origin = some (x.digest, x) := by
  simp only [isLeader, Bool.and_eq_true, decide_eq_true_eq, Consensus.leader]
  refine and_congr_right fun _ => ?_
  constructor
  · intro isLeader
    obtain ⟨e, found, digest⟩ := (Option.any_eq_true _ _).mp isLeader
    obtain ⟨name, elected, found⟩ := Option.bind_eq_some_iff.mp found
    have inDag := subset _ _ _ found
    have same : e.2 = x := filed.distinct inDag held (by simpa using digest)
    have origin : name = x.origin := same ▸ (filed.origin inDag).symm
    rw [filed.eq_mk inDag, same, origin] at found
    exact ⟨origin ▸ elected, found⟩
  · rintro ⟨elected, found⟩
    rw [elected, Option.bind_some, found]
    simp

end Flags

/-! ## The sub-dag of one leader -/

section Flatten

variable [Primitives] {node : Consensus} {pool : Pool node.committee}
  {delivered output : List Certificate} {state final : State} {leader x : Certificate} {o : SubDag}

theorem Tracks.entry_of_visits (tracks : Tracks node delivered state output)
    (member : leader ∈ delivered) (above : state.lastCommittedRound < leader.round)
    (visits : Visits state leader x) : state.dag.entry x.round x.origin = some (x.digest, x) := by
  rcases Relation.ReflTransGen.cases_tail visits with rfl | ⟨y, -, follows⟩
  · exact tracks.kept x member ((tracks.committed_le _).trans above.le) (by omega)
  · exact follows.2.2.1

/-- **What is reported as a leader**: a certificate of an even round by its elected author, unless it
is below the last committed round of its author and not the first of the sequence. -/
theorem Tracks.reported_iff (tracks : Tracks node delivered state output)
    (delivery : pool.Delivery delivered) (member : leader ∈ delivered)
    (above : state.lastCommittedRound < leader.round)
    (computed : node.flatten leader state = some (final, o)) {front back : List (Certificate × Bool)}
    {flag : Bool} (parts : o.sequence = front ++ (x, flag) :: back) :
    flag = true ↔ x.round % 2 = 0 ∧ node.leaderName x.round = some x.origin ∧
      (front = [] ∨ state.committed x.origin ≤ x.round) := by
  have flattened := tracks.flattened delivery member computed
  obtain ⟨ordered, -, same⟩ := Option.bind_eq_some_iff.mp computed
  cases same
  obtain ⟨isOrdered, rfl⟩ := flattenFrom_split parts
  have certificates : SubDag.certificates ⟨state, leader, (node.flattenFrom ordered state).2⟩ =
      ordered := (flattenFrom_eq node ordered state).2
  have isOutput : x ∈ ordered := by rw [isOrdered]; simp
  obtain ⟨visits, recent⟩ := (flattened.mem_iff x).mp (certificates.symm ▸ isOutput)
  have held := tracks.entry_of_visits member above visits
  have sorted := certificates ▸ flattened.sorted
  rw [isOrdered] at sorted
  have before : ∀ y ∈ front.map Prod.fst, y.round ≤ x.round := fun y isBefore =>
    (List.pairwise_append.mp sorted).2.2 y isBefore x List.mem_cons_self
  rw [(tracks.filed pool delivery).isLeader_iff (fun r n e => State.entry_of_updateAll) held]
  refine and_congr_right fun _ => and_congr_right fun _ => ?_
  have low : (state.updateAll node.gcDepth (front.map Prod.fst)).committed x.origin ≤ x.round ↔
      state.committed x.origin ≤ x.round := by
    rw [State.committed_updateAll_le_iff]
    exact and_iff_left fun y isBefore _ => before y isBefore
  constructor
  · intro found
    by_cases first : front = []
    · exact .inl first
    · have nonempty : front.map Prod.fst ≠ [] := by simpa using first
      exact .inr (low.mp (State.entry_updateAll nonempty found).2.1)
  · rintro (rfl | kept)
    · exact held
    · refine State.entry_updateAll_of_kept tracks.consistent held (low.mpr kept) ?_
      have isDelivered := (flattened.mem_delivered tracks delivery member
        (certificates.symm ▸ isOutput)).1
      rw [(State.lastCommittedRound_updateAll tracks.consistent _ _).1,
        horizon_eq (tracks.fits x isDelivered)]
      exact raised_le recent fun y isBefore => (before y isBefore).trans (Nat.le_add_right _ _)

/-- What a leader reaches within the depth. -/
def WithinReach (node : Consensus) (state : State) (leader x : Certificate) : Prop :=
  Visits state leader x ∧ state.lastCommittedRound ≤ x.round + node.gcDepth

/-- What the leader reaches of the elected authors of even rounds, apart from itself, came late: it is
below the last committed round of its author, and not of the lowest round that the leader reaches. -/
def LeaderAlone (node : Consensus) (state : State) (leader : Certificate) : Prop :=
  ∀ x, WithinReach node state leader x → x ≠ leader → x.round % 2 = 0 →
    node.leaderName x.round = some x.origin →
    x.round < state.committed x.origin ∧ ∃ y, WithinReach node state leader y ∧ y.round < x.round

/-- In the sub-dag of an elected leader that is alone the leader is reported as one, and nothing else. -/
theorem Tracks.reported_alone (tracks : Tracks node delivered state output)
    (delivery : pool.Delivery delivered) (member : leader ∈ delivered)
    (above : state.lastCommittedRound < leader.round) (even : leader.round % 2 = 0)
    (elected : node.leaderName leader.round = some leader.origin)
    (computed : node.flatten leader state = some (final, o)) (alone : LeaderAlone node state leader)
    {flag : Bool} (isReported : (x, flag) ∈ o.sequence) : flag = true ↔ x = leader := by
  have flattened := tracks.flattened delivery member computed
  obtain ⟨front, back, parts⟩ := List.append_of_mem isReported
  rw [tracks.reported_iff delivery member above computed parts]
  constructor
  · rintro ⟨isEven, isElected, first | kept⟩
    · -- nothing in the sequence is below its first certificate
      by_contra other
      have isOutput : x ∈ o.certificates := List.mem_map_of_mem isReported
      obtain ⟨-, y, reaches, lower⟩ := alone x ((flattened.mem_iff x).mp isOutput) other isEven isElected
      have isOutput' := (flattened.mem_iff y).mpr reaches
      have sorted := flattened.sorted
      rw [SubDag.certificates, parts, first, List.nil_append, List.map_cons] at sorted isOutput'
      rcases List.mem_cons.mp isOutput' with rfl | later
      · exact absurd lower (lt_irrefl _)
      · exact absurd ((List.pairwise_cons.mp sorted).1 y later) (not_le.mpr lower)
    · by_contra other
      have isOutput : x ∈ o.certificates := List.mem_map_of_mem isReported
      exact absurd kept (not_le.mpr
        (alone x ((flattened.mem_iff x).mp isOutput) other isEven isElected).1)
  · rintro rfl
    exact ⟨even, elected, .inr ((tracks.committed_le _).trans above.le)⟩

end Flatten

/-! ## A commit of several leaders -/

section Commit

variable [Primitives] {node : Consensus} {pool : Pool node.committee}
  {delivered output : List Certificate} {state final : State} {leader x : Certificate} {o : SubDag}

/-- A leader committed before is not in the dag, or `orderDag` skips it. -/
def Passed (state : State) (output : List Certificate) (l : Certificate) : Prop :=
  l ∈ output ∧ (state.dag.entry l.round l.origin = some (l.digest, l) →
    state.committed l.origin = l.round)

/-- After a commit every leader committed so far is passed. -/
theorem Flattened.passed (flattened : Flattened node state leader final o)
    (tracks : Tracks node delivered state output) (delivery : pool.Delivery delivered)
    (member : leader ∈ delivered) (above : state.lastCommittedRound < leader.round)
    {l : Certificate} (isOutput : l ∈ output ∨ l = leader) :
    Passed final (output ++ o.certificates) l := by
  have isOutput' : l ∈ output ++ o.certificates := by
    rcases isOutput with old | rfl
    · exact List.mem_append_left _ old
    · exact List.mem_append_right _ (flattened.leader_mem above)
  have after := flattened.tracks tracks delivery member
  exact ⟨isOutput', fun found =>
    le_antisymm (flattened.entry above found).2.1 (after.output_committed l isOutput')⟩

/-- Among the leaders of one commit, a sub-dag contains its own only. -/
theorem Flattened.eq_leader (flattened : Flattened node state leader final o)
    (tracks : Tracks node delivered state output) (delivery : pool.Delivery delivered)
    (member : leader ∈ delivered) (above : state.lastCommittedRound < leader.round)
    {earlier later : List Certificate} (passed : ∀ l ∈ earlier, Passed state output l)
    (higher : ∀ l ∈ later, leader.round < l.round) (isOutput : x ∈ o.certificates) :
    x ∈ earlier ++ leader :: later ↔ x = leader := by
  obtain ⟨visits, -⟩ := (flattened.mem_iff x).mp isOutput
  have low := (flattened.mem_delivered tracks delivery member isOutput).2.round_le
  rw [List.mem_append, List.mem_cons]
  constructor
  · rintro (before | isLeader | after)
    · obtain ⟨wasOutput, skipped⟩ := passed x before
      rcases Relation.ReflTransGen.cases_tail visits with rfl | ⟨y, -, follows⟩
      · rfl
      · exact absurd (skipped follows.2.2.1) follows.2.2.2
    · exact isLeader
    · exact absurd low (not_le.mpr (higher x after))
  · exact fun isLeader => .inr (.inl isLeader)

/-- The leaders that are flattened one after the other from a state on, each with the state it finds. -/
def flattenings (node : Consensus) : List Certificate → State → List (State × Certificate)
  | [], _ => []
  | leader :: rest, state =>
      (state, leader) :: match node.flatten leader state with
        | none => []
        | some (next, _) => flattenings node rest next

/-- The reports of a commit, leader by leader. -/
theorem Tracks.reported_flattenAll {earlier leaders : List Certificate} {more : List SubDag}
    (tracks : Tracks node delivered state output) (delivery : pool.Delivery delivered)
    (members : ∀ l ∈ leaders, l ∈ delivered ∧ state.lastCommittedRound < l.round ∧
      l.round % 2 = 0 ∧ node.leaderName l.round = some l.origin)
    (ascending : leaders.Pairwise fun l m => l.round < m.round)
    (passed : ∀ l ∈ earlier, Passed state output l)
    (computed : node.flattenAll leaders state = some (final, more))
    (alone : ∀ p ∈ node.flattenings leaders state, LeaderAlone node p.1 p.2) :
    Consensus.leaders more = leaders ∧ ∀ o ∈ more, ∀ x flag, (x, flag) ∈ o.sequence →
      (flag = true ↔ x ∈ earlier ++ leaders) := by
  induction leaders generalizing state output earlier more with
  | nil =>
      cases computed
      exact ⟨rfl, by simp⟩
  | cons leader leaders ih =>
      obtain ⟨⟨next, o⟩, first, rest⟩ := Option.bind_eq_some_iff.mp computed
      obtain ⟨⟨last, others⟩, remaining, same⟩ := Option.bind_eq_some_iff.mp rest
      cases same
      obtain ⟨member, above, even, elected⟩ := members leader List.mem_cons_self
      obtain ⟨higher, ascending⟩ := List.pairwise_cons.mp ascending
      rw [flattenings, first] at alone
      obtain ⟨aloneLeader, alone⟩ := List.forall_mem_cons.mp alone
      have flattened := tracks.flattened delivery member first
      have round := flattened.lastCommittedRound tracks delivery member above
      have passed' : ∀ l ∈ earlier ++ [leader], Passed next (output ++ o.certificates) l := by
        intro l isEarlier
        refine flattened.passed tracks delivery member above ?_
        rcases List.mem_append.mp isEarlier with old | new
        · exact .inl (passed l old).1
        · exact .inr (List.mem_singleton.mp new)
      obtain ⟨areLeaders, reports⟩ := ih (flattened.tracks tracks delivery member)
        (fun l isMember => by
          obtain ⟨isDelivered, -, rest⟩ := members l (.tail _ isMember)
          exact ⟨isDelivered, round ▸ higher l isMember, rest⟩) ascending passed' remaining alone
      rw [List.append_assoc, List.singleton_append] at reports
      refine ⟨?_, List.forall_mem_cons.mpr ⟨fun x flag isReported => ?_, reports⟩⟩
      · rw [Consensus.leaders, List.map_cons, flattened.leader_eq]
        exact congrArg _ areLeaders
      · rw [tracks.reported_alone delivery member above even elected first aloneLeader isReported,
          flattened.eq_leader tracks delivery member above passed higher
            (List.mem_map_of_mem isReported)]

/-- The leaders a commit orders are delivered certificates of the elected authors of even rounds. -/
theorem Tracks.orderLeaders_elected (tracks : Tracks node delivered state output)
    (evenBefore : state.lastCommittedRound % 2 = 0) (member : leader ∈ delivered)
    (above : state.lastCommittedRound < leader.round) (even : leader.round % 2 = 0)
    (elected : node.leaderName leader.round = some leader.origin) {leaders : List Certificate}
    (computed : node.orderLeaders leader state = some leaders) :
    (∀ l ∈ leaders, l ∈ delivered ∧ state.lastCommittedRound < l.round ∧ l.round % 2 = 0 ∧
        node.leaderName l.round = some l.origin) ∧
      leaders.Pairwise fun l m => m.round < l.round := by
  obtain ⟨toCommit, past, same⟩ := Option.bind_eq_some_iff.mp computed
  cases same
  obtain ⟨mem_iff, descending⟩ := leaderRounds_even evenBefore even above
  have found : (toCommit.map Certificate.round).Sublist
        (leaderRounds state.lastCommittedRound leader.round) ∧
      ∀ l ∈ toCommit, l ∈ delivered ∧ node.leaderName l.round = some l.origin := by
    refine orderLeadersFrom_rounds (fun r isRound e isFound => ?_) past
    have between := (mem_iff r).mp isRound
    obtain ⟨-, isDelivered, rfl, isElected⟩ := tracks.leader_spec (by omega) isFound
    exact ⟨rfl, isDelivered, isElected⟩
  obtain ⟨sublist, areFound⟩ := found
  have between : ∀ l ∈ toCommit,
      l.round % 2 = 0 ∧ state.lastCommittedRound < l.round ∧ l.round < leader.round :=
    fun l isPast => (mem_iff _).mp (sublist.subset (List.mem_map_of_mem isPast))
  refine ⟨List.forall_mem_cons.mpr ⟨⟨member, above, even, elected⟩, fun l isPast => ?_⟩,
    List.pairwise_cons.mpr ⟨fun l isPast => (between l isPast).2.2,
      List.pairwise_map.mp (descending.sublist sublist)⟩⟩
  obtain ⟨isEven, isAbove, -⟩ := between l isPast
  exact ⟨(areFound l isPast).1, isAbove, isEven, (areFound l isPast).2⟩

/-- The leaders that a certificate makes the node commit, the oldest first. -/
def leadersToCommit (node : Consensus) (state : State) (certificate : Certificate) :
    List Certificate :=
  let state := { state with dag := state.dag.insert certificate }
  let r := precedingRound certificate.round
  if r % 2 ≠ 0 ∨ r < 4 ∨ r - 2 ≤ state.lastCommittedRound ∨ ¬ node.directCommitSelected (r - 2) then
    []
  else
    match node.leader (r - 2) state.dag, HashMap.get state.dag (r - 2 + 1) with
    | some (leaderDigest, leader), some authorities =>
        if node.support authorities leaderDigest < node.committee.validityThreshold then []
        else ((node.orderLeaders leader state).getD []).reverse
    | _, _ => []

/-- A step flattens the leaders that the certificate makes the node commit. -/
theorem flattenAll_of_step {c : Certificate} {more : List SubDag}
    (stepped : node.step state c = some (final, more)) :
    node.flattenAll (node.leadersToCommit state c) { state with dag := state.dag.insert c } =
      some (final, more) := by
  unfold step at stepped
  unfold leadersToCommit
  by_cases parity : precedingRound c.round % 2 ≠ 0 ∨ precedingRound c.round < 4
  · rw [if_pos (parity.imp_right .inl)]
    rwa [if_pos parity] at stepped
  by_cases old : precedingRound c.round - 2 ≤ state.lastCommittedRound
  · rw [if_pos (.inr (.inr (.inl old)))]
    rwa [if_neg parity, if_pos old] at stepped
  by_cases selected : ¬ node.directCommitSelected (precedingRound c.round - 2)
  · rw [if_pos (.inr (.inr (.inr selected)))]
    rwa [if_neg parity, if_neg old, if_pos selected] at stepped
  rw [if_neg parity, if_neg old, if_neg selected] at stepped
  rw [if_neg (by tauto)]
  split_ifs at stepped
  unfold commit at stepped
  cases found : node.leader (precedingRound c.round - 2) (state.dag.insert c) with
  | none =>
      simp only [found] at stepped ⊢
      exact stepped
  | some e =>
      simp only [found, Option.bind_eq_bind] at stepped ⊢
      obtain ⟨authorities, present, stepped⟩ := Option.bind_eq_some_iff.mp stepped
      simp only [present]
      split_ifs at stepped ⊢ with unsupported
      · exact stepped
      · obtain ⟨ordered, isOrdered, flattened⟩ := Option.bind_eq_some_iff.mp stepped
        rwa [isOrdered, Option.getD_some]

/-- What a certificate makes the node commit: nothing, or what it orders of a leader of an even round above
the last committed one. -/
theorem leadersToCommit_cases (node : Consensus) (state : State) (c : Certificate) :
    node.leadersToCommit state c = [] ∨ ∃ w e ordered, w % 2 = 0 ∧ 2 ≤ w ∧
      state.lastCommittedRound < w ∧ node.leader w (state.dag.insert c) = some e ∧
      node.orderLeaders e.2 { state with dag := state.dag.insert c } = some ordered ∧
      node.leadersToCommit state c = ordered.reverse := by
  unfold leadersToCommit
  dsimp only
  by_cases idle : precedingRound c.round % 2 ≠ 0 ∨ precedingRound c.round < 4 ∨
      precedingRound c.round - 2 ≤ state.lastCommittedRound ∨
      ¬ node.directCommitSelected (precedingRound c.round - 2)
  · exact .inl (if_pos idle)
  rw [if_neg idle]
  simp only [not_or, not_not, not_lt, not_le] at idle
  obtain ⟨even, high, above, -⟩ := idle
  split
  · rename_i digest leader authorities found present
    split_ifs
    · exact .inl rfl
    · cases isOrdered : node.orderLeaders leader { state with dag := state.dag.insert c } with
      | none => exact .inl rfl
      | some ordered =>
          exact .inr ⟨_, (digest, leader), ordered, by omega, by omega, above, found, isOrdered, rfl⟩
  · exact .inl rfl

/-- **A step reports the leaders that it commits, and nothing else**, when each is alone in the state it
finds. -/
theorem leaderFlags_step {c : Certificate} {subDags more : List SubDag}
    (delivery : pool.Delivery (delivered ++ [c])) (fits : node.NoOverflow (delivered ++ [c]))
    (computed : node.run delivered = some (state, subDags))
    (stepped : node.step state c = some (final, more))
    (alone : ∀ p ∈ node.flattenings (node.leadersToCommit state c)
      { state with dag := state.dag.insert c }, LeaderAlone node p.1 p.2) :
    leaders more = node.leadersToCommit state c ∧ ∀ o ∈ more, ∀ x flag, (x, flag) ∈ o.sequence →
      (flag = true ↔ x ∈ node.leadersToCommit state c) := by
  have positive : ∀ x ∈ delivered, 1 ≤ x.round := fun x member =>
    pool.round_pos x (delivery.of_prefix.mem x member)
  have evenBefore := (RoundsFollow.of_run positive fits.of_prefix computed).2.2.lastCommittedRound_even
  have tracks := (Execution.of_receive delivery fits computed).tracks
  have flattened := flattenAll_of_step stepped
  rcases leadersToCommit_cases node state c with
    none | ⟨w, e, ordered, even, high, above, found, isOrdered, commits⟩
  · rw [none] at flattened ⊢
    cases flattened
    exact ⟨rfl, by simp⟩
  rw [commits] at alone flattened ⊢
  obtain ⟨-, member, round, elected⟩ := tracks.leader_spec (by omega) found
  obtain ⟨members, descending⟩ := tracks.orderLeaders_elected evenBefore member
    (round.symm ▸ above) (round.symm ▸ even) (round.symm ▸ elected) isOrdered
  exact tracks.reported_flattenAll delivery
    (fun l isMember => members l (List.mem_reverse.mp isMember))
    (List.pairwise_reverse.mpr descending)
    (fun l (none : l ∈ []) => absurd none List.not_mem_nil) flattened alone

/-- **The reports of a run are right** when every leader is alone in the state in which it is flattened:
a certificate of a sequence is reported as a leader if and only if the step committed it as one. -/
theorem leaderFlags_of_run (delivery : pool.Delivery delivered) (fits : node.NoOverflow delivered)
    (alone : ∀ front c back, delivered = front ++ c :: back → ∀ state subDags,
      node.run front = some (state, subDags) → ∀ p ∈ node.flattenings (node.leadersToCommit state c)
        { state with dag := state.dag.insert c }, LeaderAlone node p.1 p.2) :
    ∀ front c back, delivered = front ++ c :: back → ∀ state subDags next more,
      node.run front = some (state, subDags) → node.step state c = some (next, more) →
        leaders more = node.leadersToCommit state c ∧ ∀ o ∈ more, ∀ x flag, (x, flag) ∈ o.sequence →
          (flag = true ↔ x ∈ node.leadersToCommit state c) := by
  rintro front c back rfl state subDags next more computed stepped
  rw [List.append_cons] at delivery
  rw [List.append_cons] at fits
  exact leaderFlags_step delivery.of_prefix fits.of_prefix computed stepped
    (alone front c back rfl state subDags computed)

end Commit

/-! ## Checking a run -/

section Check

variable [Primitives] {node : Consensus} {pool : Pool node.committee}
  {delivered output : List Certificate} {state : State} {leader : Certificate}

/-- Whether a leader is alone can be read from what `orderDag` returns. -/
def checkAlone (node : Consensus) (state : State) (leader : Certificate) : Bool :=
  (node.orderDag leader state).any fun ordered => ordered.all fun x =>
    decide (x ≠ leader → x.round % 2 = 0 → node.leaderName x.round = some x.origin →
      x.round < state.committed x.origin ∧ ∃ y ∈ ordered, y.round < x.round)

/-- The check for all leaders that certificates make the node commit, after it received others. -/
def checkFrom (node : Consensus) (received : List Certificate) : State → List Certificate → Bool
  | _, [] => true
  | state, c :: rest =>
      decide (∀ l ∈ node.leadersToCommit state c, l ∈ received ++ [c]) &&
      (node.flattenings (node.leadersToCommit state c)
        { state with dag := state.dag.insert c }).all (fun p => node.checkAlone p.1 p.2) &&
      (node.step state c).all fun r => checkFrom node (received ++ [c]) r.1 rest

theorem Tracks.leaderAlone (tracks : Tracks node delivered state output)
    (delivery : pool.Delivery delivered) (member : leader ∈ delivered)
    (check : node.checkAlone state leader = true) : LeaderAlone node state leader := by
  obtain ⟨ordered, computed, mem_iff, -⟩ := tracks.orderDag_spec pool delivery member
  rw [checkAlone, computed, Option.any_some, List.all_eq_true] at check
  intro x reached other even elected
  obtain ⟨late, y, isOrdered, lower⟩ :=
    of_decide_eq_true (check x ((mem_iff x).mpr reached)) other even elected
  exact ⟨late, y, (mem_iff y).mp isOrdered, lower⟩

theorem Tracks.of_flattenings {toCommit : List Certificate}
    (tracks : Tracks node delivered state output) (delivery : pool.Delivery delivered)
    (members : ∀ l ∈ toCommit, l ∈ delivered) {p : State × Certificate}
    (inside : p ∈ node.flattenings toCommit state) :
    p.2 ∈ delivered ∧ ∃ output, Tracks node delivered p.1 output := by
  induction toCommit generalizing state output with
  | nil => cases inside
  | cons l rest ih =>
      obtain ⟨member, members⟩ := List.forall_mem_cons.mp members
      obtain ⟨next, o, computed, flattened⟩ := tracks.flatten_spec delivery member
      rw [flattenings, computed] at inside
      rcases List.mem_cons.mp inside with rfl | later
      · exact ⟨member, output, tracks⟩
      · exact ih (flattened.tracks tracks delivery member) members later

theorem checkFrom_split {received front back : List Certificate} {c : Certificate}
    (check : node.checkFrom received state (front ++ c :: back) = true) {next : State}
    {subDags : List SubDag} (computed : node.runFrom state front = some (next, subDags)) :
    (∀ l ∈ node.leadersToCommit next c, l ∈ received ++ (front ++ [c])) ∧
      ∀ p ∈ node.flattenings (node.leadersToCommit next c) { next with dag := next.dag.insert c },
        node.checkAlone p.1 p.2 = true := by
  induction front generalizing state received subDags with
  | nil =>
      cases computed
      simp only [List.nil_append, checkFrom, Bool.and_eq_true, decide_eq_true_eq,
        List.all_eq_true] at check
      exact check.1
  | cons x front ih =>
      obtain ⟨first, before, more, stepped, rest, -⟩ := runFrom_cons_eq_some.mp computed
      simp only [List.cons_append, checkFrom, Bool.and_eq_true, stepped, Option.all_some] at check
      simpa using ih check.2 rest

/-- In a run that passes the check every leader is alone. -/
theorem alone_of_check {front back : List Certificate} {c : Certificate}
    (delivery : pool.Delivery (front ++ c :: back)) (fits : node.NoOverflow (front ++ c :: back))
    (check : node.checkFrom [] (.new (Certificate.genesis node.committee)) (front ++ c :: back) = true)
    {subDags : List SubDag} (computed : node.run front = some (state, subDags)) :
    ∀ p ∈ node.flattenings (node.leadersToCommit state c) { state with dag := state.dag.insert c },
      LeaderAlone node p.1 p.2 := by
  obtain ⟨members, checks⟩ := checkFrom_split check computed
  rw [List.append_cons] at delivery fits
  have tracks := (Execution.of_receive delivery.of_prefix fits.of_prefix computed).tracks
  intro p inside
  obtain ⟨member, _, tracks'⟩ := tracks.of_flattenings delivery.of_prefix members inside
  exact tracks'.leaderAlone delivery.of_prefix member (checks p inside)

end Check

/-! ## A leader that was passed over -/

section PassedOver

local instance flagPrimitives : Primitives := executable fun _ _ => true

/-- The certificate of the third authority at round 6, where it is elected. -/
def passedOver : Certificate := .sample 2 6 [spine 5]

/-- A branch of the fourth authority. -/
def branch : ℕ → Certificate
  | 0 => .sample 3 7 [spine 6, passedOver]
  | n + 1 => .sample 3 (n + 8) [spine (n + 7), branch n]

/-- The first authority after it has the branch as a parent at round 9. -/
def rejoined : ℕ → Certificate
  | 0 => .sample 0 9 [spine 8, branch 1]
  | n + 1 => .sample 0 (n + 10) [rejoined n]

/-- The leader of round 8 is committed without the one of round 6, and the leader of round 12
reaches it over the branch. -/
def passedOverList : List Certificate :=
  [spine 1, spine 2, spine 3, spine 4, spine 5, passedOver, spine 6, branch 0, spine 7, branch 1,
    spine 8, rejoined 0, rejoined 1, rejoined 2, rejoined 3, rejoined 4, rejoined 5]

/-- **A leader that was passed over is reported as a leader.** -/
theorem passedOver_reported :
    ∃ (pool : Pool heavyNode.committee) (delivered : List Certificate) (c : Certificate)
      (state final : State) (subDags more : List SubDag), pool.Delivery (delivered ++ [c]) ∧
      heavyNode.run delivered = some (state, subDags) ∧
      heavyNode.step state c = some (final, more) ∧
      ¬ ∀ o ∈ more, ∀ x flag, (x, flag) ∈ o.sequence →
        (flag = true ↔ x ∈ heavyNode.leadersToCommit state c) := by
  have lists : Pool.Lists heavyNode.committee (passedOverList ++ [rejoined 6]) := by decide +kernel
  have reported : (heavyNode.run passedOverList).any (fun r =>
      (heavyNode.step r.1 (rejoined 6)).any fun s =>
        s.2.any fun o => o.sequence.any fun e =>
          e.2 && decide (e.1 ∉ heavyNode.leadersToCommit r.1 (rejoined 6))) = true := by decide +kernel
  obtain ⟨⟨state, subDags⟩, computed, reported⟩ := (Option.any_eq_true _ _).mp reported
  obtain ⟨⟨final, more⟩, stepped, reported⟩ := (Option.any_eq_true _ _).mp reported
  refine ⟨_, passedOverList, rejoined 6, state, final, subDags, more,
    Pool.delivery_ofList lists (by decide +kernel), computed, stepped, fun right => ?_⟩
  simp only [List.any_eq_true, Bool.and_eq_true, decide_eq_true_eq] at reported
  obtain ⟨o, isOutput, ⟨x, flag⟩, isReported, isTrue, notLeader⟩ := reported
  exact notLeader ((right o isOutput x flag isReported).mp isTrue)

end PassedOver

/-! ## An elected certificate that came late -/

section LateLeader

local instance latePrimitives : Primitives := executable fun _ _ => true

/-- The certificate of the third authority at round 2, where it is elected. -/
def lateElected : Certificate := .sample 2 2 [spine 1, .sample 3 1 [.genesisOf ⟨0⟩]]

/-- The leader of round 4, which has the next certificate of the third authority as a parent. -/
def overtaking : Certificate := .sample 0 4 [spine 3, .sample 2 3 [spine 2]]

/-- The first authority up to round 7. -/
def overtakingFrom : ℕ → Certificate
  | 0 => .sample 0 5 [overtaking]
  | n + 1 => .sample 0 (n + 6) [overtakingFrom n]

/-- A branch of the fourth authority above the late certificate. -/
def lateBranch : ℕ → Certificate
  | 0 => .sample 3 3 [spine 2, lateElected]
  | 1 => .sample 3 4 [spine 3, lateBranch 0]
  | 2 => .sample 3 5 [overtaking, lateBranch 1]
  | n + 3 => .sample 3 (n + 6) [overtakingFrom n, lateBranch (n + 2)]

/-- The first authority from round 8 on, where it has the branch as a parent. -/
def lateJoined : ℕ → Certificate
  | 0 => .sample 0 8 [overtakingFrom 2, lateBranch 4]
  | n + 1 => .sample 0 (n + 9) [lateJoined n]

/-- The elected certificate of round 2 comes after the commit of round 4, and is output with the leader of
round 8. -/
def lateList : List Certificate :=
  [spine 1, spine 2, .sample 2 3 [spine 2], spine 3, overtaking, overtakingFrom 0, overtakingFrom 1,
    overtakingFrom 2, .sample 3 1 [.genesisOf ⟨0⟩], lateElected, lateBranch 0, lateBranch 1, lateBranch 2,
    lateBranch 3, lateBranch 4, lateJoined 0, lateJoined 1, lateJoined 2]

/-- The certificate that came late is output, and is not reported as a leader. -/
theorem leaderFlags_of_run_late :
    ∃ state subDags final more, heavyNode.run lateList = some (state, subDags) ∧
      heavyNode.step state (lateJoined 3) = some (final, more) ∧
      lateElected ∈ outputs more ∧ heavyNode.leaderName lateElected.round = some lateElected.origin ∧
      leaders more = heavyNode.leadersToCommit state (lateJoined 3) ∧
      ∀ o ∈ more, ∀ x flag, (x, flag) ∈ o.sequence →
        (flag = true ↔ x ∈ heavyNode.leadersToCommit state (lateJoined 3)) := by
  have lists : Pool.Lists heavyNode.committee (lateList ++ [lateJoined 3]) := by decide +kernel
  have delivery := Pool.delivery_ofList lists
    (show Pool.Arrive _ _ [] (lateList ++ [lateJoined 3]) by decide +kernel)
  generalize Pool.ofList (lateList ++ [lateJoined 3]) lists = pool at delivery
  have fits : heavyNode.NoOverflow (lateList ++ [lateJoined 3]) := by decide +kernel
  have check : heavyNode.checkFrom [] (.new (Certificate.genesis heavyNode.committee))
      (lateList ++ [lateJoined 3]) = true := by decide +kernel
  have output : (heavyNode.run lateList).any (fun r => (heavyNode.step r.1 (lateJoined 3)).any
      fun s => decide (lateElected ∈ outputs s.2)) = true := by decide +kernel
  obtain ⟨⟨state, subDags⟩, computed, output⟩ := (Option.any_eq_true _ _).mp output
  obtain ⟨⟨final, more⟩, stepped, output⟩ := (Option.any_eq_true _ _).mp output
  refine ⟨state, subDags, final, more, computed, stepped, of_decide_eq_true output,
    by decide +kernel, ?_⟩
  refine leaderFlags_of_run delivery fits (fun front c back parts s os run => ?_) lateList
    (lateJoined 3) [] rfl state subDags final more computed stepped
  rw [parts] at delivery fits check
  exact alone_of_check delivery fits check run

end LateLeader

end Tusk.Consensus
