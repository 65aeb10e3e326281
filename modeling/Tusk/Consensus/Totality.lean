import Tusk.Consensus.Execution
import Tusk.Consensus.FinitePool

/-!
# The consensus has the history it asks for

Three operations of the consensus are partial: it reads the round above a leader, and every round
between two leaders, with an `expect`, and it counts rounds down from two below a leader. What the
cleanup drops is not above the last committed round, and a certificate is received after its
ancestors, so all that is read is there (`Tracks.get_below`, `Tracks.linked_spec`). A step then
commits nothing, or the chain of one leader (`Execution.step_total`), and no run fails
(`run_snoc_total`, `whole_history`). No bound on the total stake is needed: a threshold is positive
also when it wraps, so a certificate has a parent.
-/

set_option autoImplicit false

namespace Tusk.Consensus

open Lib

section Totality

variable [Primitives] {node : Consensus} {pool : Pool node.committee}
  {delivered output : List Certificate} {state : State}

/-- Where there is a certificate there is an authority. -/
theorem size_ne_zero {c : Certificate} (member : c ∈ pool.certificates) :
    node.committee.size ≠ 0 := by
  obtain ⟨authors, heavy, -⟩ := pool.quorum c member
  have positive := node.committee.quorumThreshold_pos
  obtain ⟨a, -, voting⟩ := node.committee.weights.exists_weight_pos (s := authors) (by omega)
  have isKey := node.committee.mem_keys_of_stake_pos (UInt32.lt_iff_toNat_lt.mpr voting)
  intro empty
  rw [BTreeMap.keys, List.length_eq_zero_iff.mp empty] at isKey
  cases isKey

/-- Two rounds below a delivered certificate, and above the last committed round, the dag has
certificates. -/
theorem Tracks.get_below (tracks : Tracks node delivered state output)
    (delivery : pool.Delivery delivered) {c : Certificate} {r : ℕ} (member : c ∈ delivered)
    (round : c.round = r + 2) (above : state.lastCommittedRound < r) :
    HashMap.get state.dag r ≠ none := by
  have high : 1 < pool.dag.round c := by
    show 1 < c.round
    omega
  obtain ⟨p, parent⟩ := pool.dag_grounded c (delivery.mem c member) high
  have pRound : p.round + 1 = c.round := parent.round
  have high' : 1 < pool.dag.round p := by
    show 1 < p.round
    omega
  obtain ⟨q, parent'⟩ := pool.dag_grounded p parent.2.1 high'
  have qRound : q.round + 1 = p.round := parent'.round
  have reaches : pool.dag.Reaches c q := .tail (.single parent) parent'
  have kept := tracks.kept q (delivery.mem_of_reaches member reaches)
    ((tracks.committed_le _).trans (by omega)) (by omega)
  obtain ⟨authorities, found, -⟩ := Option.bind_eq_some_iff.mp kept
  rw [show r = q.round by omega, found]
  exact Option.some_ne_none _

/-! ## Committing several leaders -/

/-- Committing ascending leaders above the last committed round succeeds. -/
theorem Execution.flattenAll_total {subDags : List SubDag} {ls : List Certificate}
    (execution : Execution node pool delivered state subDags)
    (members : ∀ l ∈ ls, l ∈ delivered ∧ state.lastCommittedRound < l.round)
    (ascending : ls.Pairwise fun l m => l.round < m.round) :
    ∃ final more, node.flattenAll ls state = some (final, more) ∧ leaders more = ls ∧
      ∀ last, ls.getLast? = some last → final.lastCommittedRound = last.round := by
  induction ls generalizing state subDags with
  | nil => exact ⟨state, [], rfl, rfl, by simp⟩
  | cons leader rest ih =>
      obtain ⟨member, above⟩ := members leader List.mem_cons_self
      obtain ⟨higher, ascending⟩ := List.pairwise_cons.mp ascending
      obtain ⟨next, subDag, first, flattened⟩ :=
        execution.tracks.flatten_spec execution.delivery member
      have round := flattened.lastCommittedRound execution.tracks execution.delivery member above
      obtain ⟨final, more, remaining, same, lastRound⟩ := ih (execution.commit member above first)
        (fun l isMember => ⟨(members l (.tail _ isMember)).1, round ▸ higher l isMember⟩) ascending
      refine ⟨final, subDag :: more, ?_, ?_, fun last isLast => ?_⟩
      · rw [Consensus.flattenAll, first]
        simp [remaining]
      · rw [leaders, List.map_cons, flattened.leader_eq]
        exact congrArg _ same
      · cases rest with
        | nil =>
            cases remaining
            cases isLast
            exact round
        | cons l rest => exact lastRound last (by simpa using isLast)

/-- What a step does that commits a leader: from a state with the new certificate it commits the
leaders that the leader is linked to, and the leader last. -/
structure Commits (pool : Pool node.committee) (delivered : List Certificate) (state : State)
    (leader : Certificate) (final : State) (more : List SubDag) : Prop where
  member : leader ∈ delivered
  isLeader : node.leaderName leader.round = some leader.origin
  even : leader.round % 2 = 0
  above : state.lastCommittedRound < leader.round
  support : ∃ authorities, HashMap.get state.dag (leader.round + 1) = some authorities ∧
    node.committee.validityThreshold ≤ node.support authorities leader.digest
  ordered : leaders more = (leader :: pool.dag.chain (node.anchor pool)
    (leaderRounds state.lastCommittedRound leader.round) leader).reverse
  lastRound : final.lastCommittedRound = leader.round

/-- **A step succeeds**: it commits nothing, or the chain of one leader. -/
theorem Execution.step_total {c : Certificate} {subDags : List SubDag}
    (execution : Execution node pool (delivered ++ [c])
      { state with dag := state.dag.insert c } subDags) :
    ∃ final more, node.step state c = some (final, more) ∧
      ((final = { state with dag := state.dag.insert c } ∧ more = []) ∨
        ∃ leader, Commits pool (delivered ++ [c]) { state with dag := state.dag.insert c } leader
          final more) := by
  have delivery := execution.delivery
  rcases step_cases node state c with idle | ⟨w, even, high, round, above, commits⟩
  · exact ⟨_, _, idle, .inl ⟨rfl, rfl⟩⟩
  rw [if_neg (size_ne_zero (delivery.mem c (by simp)))] at commits
  rcases commit_cases node { state with dag := state.dag.insert c } w with
    idle | ⟨e, found, ⟨absent, -⟩ | ⟨authorities, present, enough, orders⟩⟩
  · exact ⟨_, _, commits.trans idle, .inl ⟨rfl, rfl⟩⟩
  · exact absurd absent (execution.tracks.get_below delivery (by simp) round
      (Nat.lt_succ_of_lt above))
  · -- the trigger commits the leader and the chain of leaders below it
    obtain ⟨isEntry, member, leaderRound, isLeader⟩ :=
      execution.tracks.leader_spec (by omega) found
    have digest : e.1 = e.2.digest := congrArg Prod.fst isEntry
    rw [digest] at enough
    rw [← leaderRound] at present above even high isLeader
    have ordered := execution.tracks.orderLeaders_eq delivery member high
    obtain ⟨members, descending⟩ := execution.tracks.mem_orderLeaders member above high ordered
    obtain ⟨final, more, flattened, same, lastRound⟩ := execution.flattenAll_total
      (fun l isMember => members l (List.mem_reverse.mp isMember))
      (List.pairwise_reverse.mpr descending)
    have stepped : node.step state c = some (final, more) := by
      rw [commits, orders, ordered]
      exact flattened
    exact ⟨final, more, stepped, .inr ⟨e.2, member, isLeader, even, above,
      ⟨authorities, present, enough⟩, same, lastRound e.2 (by simp)⟩⟩

/-- **A run goes on** with the next certificate. -/
theorem run_snoc_total {c : Certificate} {subDags : List SubDag}
    (delivery : pool.Delivery (delivered ++ [c])) (fits : node.NoOverflow (delivered ++ [c]))
    (computed : node.run delivered = some (state, subDags)) :
    ∃ final more, ((final = { state with dag := state.dag.insert c } ∧ more = []) ∨
        ∃ leader, Commits pool (delivered ++ [c]) { state with dag := state.dag.insert c } leader
          final more) ∧
      node.run (delivered ++ [c]) = some (final, subDags ++ more) := by
  obtain ⟨final, more, stepped, outcome⟩ := (Execution.of_receive delivery fits computed).step_total
  exact ⟨final, more, outcome, run_snoc_eq_some.mpr ⟨state, subDags, more, computed, stepped, rfl⟩⟩

/-! ## No hole in the dag -/

/-- The guards under which a certificate makes the consensus look for the leader of round `w`. -/
def Elects (state : State) (c : Certificate) (w : ℕ) : Prop :=
  c.round = w + 3 ∧ w % 2 = 0 ∧ 2 ≤ w ∧ state.lastCommittedRound < w

variable (node) in
/-- The pairs of leaders that `orderLeadersFrom` tries to link. -/
def linksTried (dag : Dag) : List ℕ → Certificate → List (Certificate × Certificate)
  | [], _ => []
  | r :: rounds, leader =>
      match node.leader r dag with
      | none => linksTried dag rounds leader
      | some (_, prevLeader) => (leader, prevLeader) ::
          linksTried dag rounds (if linked leader prevLeader dag = some true then prevLeader
            else leader)

theorem Tracks.linked_of_tried (tracks : Tracks node delivered state output)
    (delivery : pool.Delivery delivered) {rounds : List ℕ} {leader : Certificate}
    (member : leader ∈ delivered)
    (between : ∀ r ∈ rounds, state.lastCommittedRound < r ∧ r < leader.round)
    (descending : rounds.Pairwise fun r q => q < r) {l prev : Certificate}
    (tried : (l, prev) ∈ node.linksTried state.dag rounds leader) :
    linked l prev state.dag ≠ none := by
  induction rounds generalizing leader with
  | nil => cases tried
  | cons r rounds ih =>
      obtain ⟨above, below⟩ := between r List.mem_cons_self
      obtain ⟨lower, descending⟩ := List.pairwise_cons.mp descending
      have skip := ih member (fun r isRound => between r (.tail _ isRound)) descending
      rw [linksTried] at tried
      split at tried
      · exact skip tried
      · rename_i digest prevLeader found
        obtain ⟨-, member', round, -⟩ := tracks.leader_spec (by omega) found
        have round : prevLeader.round = r := round
        rcases List.mem_cons.mp tried with same | later
        · cases same
          obtain ⟨isLinked, computed, -⟩ :=
            tracks.linked_spec delivery member member' (by omega) (by omega)
          rw [computed]
          exact Option.some_ne_none _
        · split_ifs at later
          · exact ih member' (fun q isRound =>
              ⟨(between q (.tail _ isRound)).1, round ▸ lower q isRound⟩) descending later
          · exact skip later

theorem run_total (delivery : pool.Delivery delivered) (fits : node.NoOverflow delivered) :
    ∃ state subDags, node.run delivered = some (state, subDags) := by
  induction delivered using List.reverseRecOn with
  | nil => exact ⟨_, _, rfl⟩
  | append_singleton delivered c ih =>
      obtain ⟨state, subDags, computed⟩ := ih delivery.of_prefix fits.of_prefix
      obtain ⟨final, more, -, run⟩ := run_snoc_total delivery fits computed
      exact ⟨final, _, run⟩

/-- **The consensus never hits a hole in its dag.** However the certificates of a pool are
received, each first after its parents and again at any later point, no run fails when no sum of a
round and `gc_depth` overflows; and where a certificate makes it look for a leader, the round above the
leader is in the dag, every pair of leaders it tries to link is linked or not, and the rounds between
them are well formed. -/
theorem whole_history (delivery : pool.Delivery delivered) (fits : node.NoOverflow delivered) :
    node.run delivered ≠ none ∧ ∀ received c, received ++ [c] <+: delivered →
      ∃ state subDags, node.run received = some (state, subDags) ∧
        ∀ w, Elects state c w → ∀ next : State, next = { state with dag := state.dag.insert c } →
          HashMap.get next.dag (w + 1) ≠ none ∧
          ∀ digest leader, node.leader w next.dag = some (digest, leader) →
            (2 ≤ leader.round ∧ next.lastCommittedRound + 2 < c.round) ∧
            (∀ pair ∈ node.linksTried next.dag
                (leaderRounds next.lastCommittedRound leader.round) leader,
              linked pair.1 pair.2 next.dag ≠ none) ∧
            node.orderLeaders leader next ≠ none := by
  constructor
  · obtain ⟨state, subDags, computed⟩ : ∃ state subDags, node.run delivered =
        some (state, subDags) := run_total delivery fits
    rw [computed]
    exact Option.some_ne_none _
  rintro received c ⟨rest, rfl⟩
  have delivery := delivery.of_prefix
  have fits := fits.of_prefix
  obtain ⟨state, subDags, computed⟩ : ∃ state subDags, node.run received =
      some (state, subDags) := run_total delivery.of_prefix fits.of_prefix
  have execution := Execution.of_receive delivery fits computed
  refine ⟨state, subDags, computed, fun w elects next isNext => ?_⟩
  subst isNext
  obtain ⟨round, even, high, above⟩ := elects
  refine ⟨execution.tracks.get_below delivery (c := c) (by simp) round (Nat.lt_succ_of_lt above),
    fun digest leader found => ?_⟩
  obtain ⟨-, member, leaderRound, -⟩ := execution.tracks.leader_spec (by omega) found
  have leaderRound : leader.round = w := leaderRound
  obtain ⟨bounds, descending⟩ := leaderRounds_spec state.lastCommittedRound leader.round
  refine ⟨⟨by omega, by show state.lastCommittedRound + 2 < c.round; omega⟩, ?_, ?_⟩
  · rintro ⟨l, prev⟩ tried
    exact execution.tracks.linked_of_tried delivery member (fun r isRound => by
      show state.lastCommittedRound < r ∧ r < leader.round
      have := bounds r isRound
      omega) descending tried
  · rw [execution.tracks.orderLeaders_eq delivery member (by omega)]
    exact Option.some_ne_none _

end Totality

section Spine

local instance totalityPrimitives : Primitives := executable fun _ _ => true

/-- The first certificates of a heavy authority, the second received again at the end. -/
theorem whole_history_spine :
    heavyNode.run (spineList ++ [spine 2]) ≠ none ∧
      ∀ received c, received ++ [c] <+: spineList ++ [spine 2] →
      ∃ state subDags, heavyNode.run received = some (state, subDags) ∧
        ∀ w, Elects state c w → ∀ next : State, next = { state with dag := state.dag.insert c } →
          HashMap.get next.dag (w + 1) ≠ none ∧
          ∀ digest leader, heavyNode.leader w next.dag = some (digest, leader) →
            (2 ≤ leader.round ∧ next.lastCommittedRound + 2 < c.round) ∧
            (∀ pair ∈ heavyNode.linksTried next.dag
                (leaderRounds next.lastCommittedRound leader.round) leader,
              linked pair.1 pair.2 next.dag ≠ none) ∧
            heavyNode.orderLeaders leader next ≠ none := by
  have lists : Pool.Lists heavyNode.committee spineList := by decide +kernel
  exact whole_history (Pool.delivery_ofList lists (by decide +kernel)) (by decide +kernel)

end Spine

end Tusk.Consensus
