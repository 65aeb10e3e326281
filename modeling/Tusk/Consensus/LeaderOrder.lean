import Tusk.Consensus.SubDags

/-!
# The leaders that a commit orders

A commit walks from a leader down to the last committed round and keeps the leaders it is linked
to. On the dag of the node, which lacks what was not delivered or was cleaned up, this finds the
chain that the whole pool has: above the last committed round everything delivered is in the dag,
and a leader that was not delivered is linked from no delivered one (`orderLeaders_eq`).
-/

set_option autoImplicit false

namespace Tusk.Consensus

open Lib

/-! ## The rounds -/

theorem stepByTwo_sublist {α : Type*} (items : List α) : (stepByTwo items).Sublist items := by
  fun_induction stepByTwo items with
  | case1 => exact .slnil
  | case2 a => exact .refl _
  | case3 a b items ih => exact (ih.cons b).cons_cons a

/-- The rounds of the past leaders lie strictly between the bounds and descend. -/
theorem leaderRounds_spec (low high : ℕ) :
    (∀ r ∈ leaderRounds low high, low < r ∧ r + 2 ≤ high ∨ high < 2 ∧ low < r) ∧
      (leaderRounds low high).Pairwise fun r q => q < r := by
  constructor
  · intro r member
    have inRange := (stepByTwo_sublist _).subset member
    rw [List.mem_reverse, List.mem_range'_1] at inRange
    omega
  · exact (List.pairwise_reverse.mpr (List.pairwise_lt_range' _ (by decide))).sublist (stepByTwo_sublist _)

/-- Between even rounds they are every second round. -/
theorem leaderRounds_eq (low n : ℕ) :
    leaderRounds low (low + 2 * (n + 1)) = RoundDag.everySecond low n := by
  cases n with
  | zero =>
      have empty : low + 2 * (0 + 1) - 2 + 1 - (low + 2) = 0 := by omega
      rw [leaderRounds, empty]
      rfl
  | succ n =>
      have count : low + 2 * (n + 1 + 1) - 2 + 1 - (low + 2) = 2 * n + 1 := by omega
      rw [leaderRounds, count]
      induction n with
      | zero => simp [stepByTwo, RoundDag.everySecond]
      | succ n ih =>
          have last : List.range' (low + 2) (2 * (n + 1) + 1) =
              List.range' (low + 2) (2 * n + 1) ++ [low + 2 + (2 * n + 1), low + 2 + (2 * n + 2)] := by
            rw [show 2 * (n + 1) + 1 = 2 * n + 1 + 1 + 1 by ring, List.range'_1_concat,
              List.range'_1_concat, List.append_assoc]
            rfl
          rw [last, List.reverse_append, RoundDag.everySecond, ← ih (by omega)]
          simp only [List.reverse_cons, List.reverse_nil, List.nil_append, List.cons_append,
            stepByTwo]
          congr 1
          omega

/-! ## Leaders in the dag and in the pool -/

variable [Primitives]

section Anchor

variable (node : Consensus) (pool : Pool node.committee)

open Classical in
/-- The certificate of the leader of a round in the pool. -/
noncomputable def anchor (r : ℕ) : Option Certificate :=
  if present : ∃ c ∈ pool.certificates, c.round = r ∧ node.leaderName r = some c.origin then
    some present.choose
  else none

variable {node pool}

theorem anchor_eq_some_iff {r : ℕ} {c : Certificate} :
    node.anchor pool r = some c ↔
      c ∈ pool.certificates ∧ c.round = r ∧ node.leaderName r = some c.origin := by
  unfold anchor
  split_ifs with present
  · obtain ⟨member, round, name⟩ := present.choose_spec
    constructor
    · intro same
      cases same
      exact ⟨member, round, name⟩
    · rintro ⟨member', round', name'⟩
      rw [name] at name'
      exact congrArg some (pool.unique _ member c member' (Option.some.inj name')
        (round.trans round'.symm))
  · constructor
    · intro same
      cases same
    · intro found
      exact absurd ⟨c, found⟩ present

end Anchor

variable {node : Consensus} {pool : Pool node.committee} {delivered output : List Certificate}
  {state : State}

/-- The leader found in the dag was delivered. -/
theorem Tracks.leader_spec (tracks : Tracks node delivered state output) {r : ℕ} (positive : 1 ≤ r)
    {e : Digest × Certificate} (found : node.leader r state.dag = some e) :
    e = (e.2.digest, e.2) ∧ e.2 ∈ delivered ∧ e.2.round = r ∧
      node.leaderName r = some e.2.origin := by
  obtain ⟨name, isLeader, found⟩ := Option.bind_eq_some_iff.mp found
  obtain ⟨known, digest, origin, round⟩ := tracks.entry _ _ _ found
  refine ⟨Prod.ext digest rfl, known.resolve_right fun isGenesis => ?_, round, origin ▸ isLeader⟩
  have zero := (Certificate.round_of_mem_genesis isGenesis).1
  omega

/-- A delivered leader above the last committed round is found in the dag. -/
theorem Tracks.leader_eq (tracks : Tracks node delivered state output) {c : Certificate}
    (member : c ∈ delivered) (above : state.lastCommittedRound ≤ c.round)
    (isLeader : node.leaderName c.round = some c.origin) :
    node.leader c.round state.dag = some (c.digest, c) := by
  rw [leader, isLeader, Option.bind_some]
  exact tracks.kept c member ((tracks.committed_le _).trans above) (by omega)

/-! ## What a commit orders, as far as the dag of the node goes -/

omit [Primitives] in
/-- The leaders ordered are of some of the rounds tried, in their order, and have what every leader
found in the dag has. -/
theorem orderLeadersFrom_rounds {dag : Dag} {holds : Certificate → Prop} {rounds : List ℕ}
    (isFound : ∀ r ∈ rounds, ∀ e, node.leader r dag = some e → e.2.round = r ∧ holds e.2)
    {leader : Certificate} {toCommit : List Certificate}
    (computed : node.orderLeadersFrom dag rounds leader = some toCommit) :
    (toCommit.map Certificate.round).Sublist rounds ∧ ∀ l ∈ toCommit, holds l := by
  induction rounds generalizing leader toCommit with
  | nil =>
      cases computed
      exact ⟨.slnil, by simp⟩
  | cons r rounds ih =>
      have later := fun q member => isFound q (.tail _ member)
      rw [orderLeadersFrom] at computed
      split at computed
      · obtain ⟨sublist, members⟩ := ih later computed
        exact ⟨sublist.cons r, members⟩
      · rename_i digest prevLeader found
        obtain ⟨round, here⟩ := isFound r List.mem_cons_self _ found
        obtain ⟨isLinked, -, computed⟩ := Option.bind_eq_some_iff.mp computed
        split_ifs at computed
        · obtain ⟨rest, others, same⟩ := Option.bind_eq_some_iff.mp computed
          cases same
          obtain ⟨sublist, members⟩ := ih later others
          refine ⟨?_, List.forall_mem_cons.mpr ⟨here, members⟩⟩
          rw [List.map_cons, show prevLeader.round = r from round]
          exact sublist.cons_cons _
        · obtain ⟨sublist, members⟩ := ih later computed
          exact ⟨sublist.cons r, members⟩

/-- The leaders a commit orders were delivered, are above the last committed round, and descend. -/
theorem Tracks.mem_orderLeaders (tracks : Tracks node delivered state output) {leader : Certificate}
    (member : leader ∈ delivered) (above : state.lastCommittedRound < leader.round)
    (high : 2 ≤ leader.round) {leaders : List Certificate}
    (computed : node.orderLeaders leader state = some leaders) :
    (∀ l ∈ leaders, l ∈ delivered ∧ state.lastCommittedRound < l.round) ∧
      leaders.Pairwise fun l m => m.round < l.round := by
  obtain ⟨toCommit, past, same⟩ := Option.bind_eq_some_iff.mp computed
  cases same
  obtain ⟨bounds, descending⟩ := leaderRounds_spec state.lastCommittedRound leader.round
  have between : ∀ r ∈ leaderRounds state.lastCommittedRound leader.round,
      state.lastCommittedRound < r ∧ r + 2 ≤ leader.round := fun r isRound => by
    rcases bounds r isRound with both | ⟨low, -⟩
    · exact both
    · omega
  obtain ⟨sublist, members⟩ := orderLeadersFrom_rounds (fun r isRound e found => by
    have positive : 1 ≤ r := by have := between r isRound; omega
    obtain ⟨-, isDelivered, round, -⟩ := tracks.leader_spec positive found
    exact ⟨round, isDelivered⟩) past
  have inRounds : ∀ l ∈ toCommit, l.round ∈ leaderRounds state.lastCommittedRound leader.round :=
    fun l isMember => sublist.subset (List.mem_map_of_mem isMember)
  refine ⟨fun l isMember => ?_, List.pairwise_cons.mpr ⟨fun l isMember => ?_, ?_⟩⟩
  · rcases List.mem_cons.mp isMember with rfl | later
    · exact ⟨member, above⟩
    · exact ⟨members l later, (between _ (inRounds l later)).1⟩
  · have := between _ (inRounds l isMember)
    omega
  · exact List.pairwise_map.mp (descending.sublist sublist)

/-! ## What a commit orders in the pool -/

section Linked

variable (tracks : Tracks node delivered state output) (delivery : pool.Delivery delivered)

include tracks in
/-- Above the last committed round, the dag holds at a round what was delivered. -/
theorem Tracks.holds_iff {r : ℕ} (above : state.lastCommittedRound < r) {c : Certificate} :
    state.dag.Holds r c ↔ c ∈ delivered ∧ c.round = r := by
  constructor
  · rintro ⟨n, found⟩
    obtain ⟨known, -, -, round⟩ := tracks.entry r n _ found
    refine ⟨known.resolve_right fun isGenesis => ?_, round⟩
    have zero := (Certificate.round_of_mem_genesis isGenesis).1
    have round : c.round = r := round
    omega
  · rintro ⟨member, rfl⟩
    exact ⟨c.origin, tracks.kept c member ((tracks.committed_le _).trans above.le) (by omega)⟩

/-- The certificates of a round that a leader reaches. -/
def Level (pool : Pool node.committee) (delivered : List Certificate) (leader : Certificate)
    (r : ℕ) (parents : List Certificate) : Prop :=
  ∀ c, c ∈ parents ↔ c ∈ delivered ∧ c.round = r ∧ pool.dag.Reaches leader c

include tracks delivery in
/-- From one level `parentsAt` computes the next, and there is something in it. -/
theorem Tracks.parentsAt_level {leader x : Certificate} {r : ℕ} {parents : List Certificate}
    (member : leader ∈ delivered) (level : Level pool delivered leader (r + 1) parents) (nonempty : x ∈ parents)
    (above : state.lastCommittedRound < r) :
    ∃ next y, parentsAt state.dag parents r = some next ∧ y ∈ next ∧
      Level pool delivered leader r next := by
  obtain ⟨xDelivered, xRound, xReached⟩ := (level x).mp nonempty
  have high : 1 < pool.dag.round x := by
    show 1 < x.round
    omega
  obtain ⟨p, parent⟩ := pool.dag_grounded x (delivery.mem x xDelivered) high
  have pDelivered := delivery.mem_of_reaches xDelivered (.single parent)
  have pRound : p.round = r := by
    have below : p.round + 1 = x.round := parent.round
    omega
  have present : HashMap.get state.dag r ≠ none := by
    obtain ⟨n, found⟩ := (tracks.holds_iff above).mpr ⟨pDelivered, pRound⟩
    obtain ⟨authorities, atRound, -⟩ := Option.bind_eq_some_iff.mp found
    rw [atRound]
    exact Option.some_ne_none _
  obtain ⟨next, computed, mem_next⟩ :=
    (tracks.filed pool delivery).parentsAt_spec present parents
  have isLevel : Level pool delivered leader r next := by
    intro c
    rw [mem_next, tracks.holds_iff above]
    constructor
    · rintro ⟨⟨cDelivered, round⟩, y, isParent, inParents⟩
      obtain ⟨yDelivered, -, reached⟩ := (level y).mp isParent
      exact ⟨cDelivered, round, reached.tail
        ⟨delivery.mem y yDelivered, delivery.mem _ cDelivered, inParents⟩⟩
    · rintro ⟨cDelivered, round, reached⟩
      rcases Relation.ReflTransGen.cases_tail reached with rfl | ⟨y, reachedY, parentY⟩
      · -- the leader itself is not below its own level
        have := xReached.round_le
        have : x.round ≤ c.round := this
        omega
      · have yRound : c.round + 1 = y.round := parentY.round
        refine ⟨⟨cDelivered, round⟩, y, ?_, parentY.2.2⟩
        exact (level y).mpr ⟨delivery.mem_of_reaches member reachedY, by omega, reachedY⟩
  exact ⟨next, p, computed, (isLevel p).mpr ⟨pDelivered, pRound, xReached.tail parent⟩, isLevel⟩

include tracks delivery in
/-- From the level of the leader `parentsAt` gets down to any level above the last committed
round. -/
theorem Tracks.foldlM_level {leader x : Certificate} {r n : ℕ} {parents : List Certificate}
    (member : leader ∈ delivered) (level : Level pool delivered leader (r + n) parents)
    (nonempty : x ∈ parents) (above : state.lastCommittedRound < r) :
    ∃ last, (List.range' r n).reverse.foldlM (parentsAt state.dag) parents = some last ∧
      Level pool delivered leader r last := by
  induction n generalizing parents x with
  | zero => exact ⟨parents, rfl, level⟩
  | succ n ih =>
      have level : Level pool delivered leader (r + n + 1) parents := level
      obtain ⟨next, y, computed, nonempty', level'⟩ :=
        tracks.parentsAt_level delivery member level nonempty (by omega)
      obtain ⟨last, rest, isLast⟩ := ih level' nonempty'
      refine ⟨last, ?_, isLast⟩
      rw [List.range'_1_concat, List.reverse_append, List.reverse_singleton,
        List.singleton_append, List.foldlM_cons, computed]
      exact rest

include tracks delivery in
/-- **`linked` decides whether there is a path in the pool.** -/
theorem Tracks.linked_spec {leader prevLeader : Certificate} (member : leader ∈ delivered)
    (member' : prevLeader ∈ delivered) (above : state.lastCommittedRound < prevLeader.round)
    (below : prevLeader.round ≤ leader.round) :
    ∃ isLinked, linked leader prevLeader state.dag = some isLinked ∧
      (isLinked = true ↔ pool.dag.Reaches leader prevLeader) := by
  have start : Level pool delivered leader
      (prevLeader.round + (leader.round - prevLeader.round)) [leader] := by
    intro c
    rw [List.mem_singleton, Nat.add_sub_of_le below]
    constructor
    · rintro rfl
      exact ⟨member, rfl, .refl⟩
    · rintro ⟨-, round, reaches⟩
      exact (RoundDag.Reaches.eq_of_round_le reaches round.ge).symm
  obtain ⟨last, computed, level⟩ :=
    tracks.foldlM_level delivery member start List.mem_cons_self above
  refine ⟨last.any fun x => x.partialEq prevLeader, ?_, ?_⟩
  · rw [linked, computed]
    rfl
  · rw [List.any_eq_true]
    constructor
    · rintro ⟨c, isLast, same⟩
      obtain ⟨cDelivered, -, reaches⟩ := (level c).mp isLast
      obtain ⟨-, round, origin⟩ := Certificate.partialEq_iff.mp same
      rwa [← pool.unique c (delivery.mem c cDelivered) prevLeader (delivery.mem _ member') origin
        round]
    · intro reaches
      exact ⟨prevLeader, (level prevLeader).mpr ⟨member', rfl, reaches⟩,
        Certificate.partialEq_iff.mpr ⟨rfl, rfl, rfl⟩⟩

include tracks delivery in
theorem Tracks.orderLeadersFrom_eq {rounds : List ℕ} {leader : Certificate}
    (member : leader ∈ delivered)
    (between : ∀ r ∈ rounds, state.lastCommittedRound < r ∧ r < leader.round)
    (descending : rounds.Pairwise fun r q => q < r) :
    node.orderLeadersFrom state.dag rounds leader =
      some (pool.dag.chain (node.anchor pool) rounds leader) := by
  induction rounds generalizing leader with
  | nil => rfl
  | cons r rounds ih =>
      obtain ⟨above, below⟩ := between r List.mem_cons_self
      obtain ⟨lower, descending⟩ := List.pairwise_cons.mp descending
      have skip := ih member (fun r isRound => between r (.tail _ isRound)) descending
      rw [orderLeadersFrom, RoundDag.chain]
      cases inDag : node.leader r state.dag with
      | none =>
          dsimp only
          rw [skip]
          cases inPool : node.anchor pool r with
          | none => rfl
          | some a =>
              -- a leader that is not in the dag was not delivered
              obtain ⟨-, rfl, isLeader⟩ := anchor_eq_some_iff.mp inPool
              have unlinked : ¬ pool.dag.Reaches leader a := by
                intro reaches
                have found := tracks.leader_eq (delivery.mem_of_reaches member reaches) above.le
                  isLeader
                rw [inDag] at found
                cases found
              dsimp only
              rw [if_neg unlinked]
      | some e =>
          obtain ⟨isEntry, member', round, isLeader⟩ := tracks.leader_spec (by omega) inDag
          have inPool : node.anchor pool r = some e.2 :=
            anchor_eq_some_iff.mpr ⟨delivery.mem _ member', round, isLeader⟩
          obtain ⟨isLinked, computed, linked_iff⟩ :=
            tracks.linked_spec delivery member member' (by omega) (by omega)
          rw [inPool]
          simp only [computed, Option.bind_eq_bind, Option.bind_some]
          by_cases reaches : pool.dag.Reaches leader e.2
          · have rest := ih member' (fun q isRound =>
              ⟨(between q (.tail _ isRound)).1, round ▸ lower q isRound⟩) descending
            rw [if_pos (linked_iff.mpr reaches), if_pos reaches, rest]
            rfl
          · rw [if_neg fun isTrue => reaches (linked_iff.mp isTrue), if_neg reaches]
            exact skip

include tracks delivery in
/-- **A commit orders the chain of its leader** down to the last committed round. -/
theorem Tracks.orderLeaders_eq {leader : Certificate} (member : leader ∈ delivered)
    (high : 2 ≤ leader.round) :
    node.orderLeaders leader state = some (leader :: pool.dag.chain (node.anchor pool)
      (leaderRounds state.lastCommittedRound leader.round) leader) := by
  obtain ⟨bounds, descending⟩ := leaderRounds_spec state.lastCommittedRound leader.round
  have computed := tracks.orderLeadersFrom_eq delivery member (fun r isRound => by
    have := bounds r isRound
    omega) descending
  rw [orderLeaders, computed]
  rfl

end Linked

end Tusk.Consensus
