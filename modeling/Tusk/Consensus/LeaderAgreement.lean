import Tusk.Consensus.Totality

/-!
# Agreement on the leaders

The leader that a certificate commits directly has the support of the round above it, and so
every certificate two rounds above it, or higher, reaches it. Whatever a node received, the
leaders it has committed are the history of the last leader it committed directly, in the pool
(`LeadersCommitted`). The histories of two supported leaders are prefixes of one another, and so
are the leader sequences of two nodes (`leaders_prefix`). When a round overflows with `gc_depth`, a
leader can be dropped from its own sub-dag. It is then committed again, as often as certificates come
that make the node commit it (`leaders_disagree`).
-/

set_option autoImplicit false

namespace Tusk.Consensus

open Lib

section Agreement

variable [Primitives] {node : Consensus} {pool : Pool node.committee}
  {delivered output : List Certificate} {state : State}

/-! ## Support -/

/-- The authors of the certificates the dag holds at a round are distinct. -/
theorem Tracks.origins_nodup (tracks : Tracks node delivered state output) {r : ℕ}
    {authorities : HashMap PublicKey (Digest × Certificate)}
    (found : HashMap.get state.dag r = some authorities) :
    ((HashMap.values authorities).map fun e => e.2.origin).Nodup := by
  have keys : (HashMap.values authorities).map (fun e => e.2.origin) =
      (HashMap.items authorities).map Prod.fst := by
    rw [HashMap.values, List.map_map]
    refine List.map_congr_left fun item member => ?_
    have atName : HashMap.get authorities item.1 = some item.2 := HashMap.mem_items.mp member
    exact (tracks.entry r item.1 item.2
      (Option.bind_eq_some_iff.mpr ⟨authorities, found, atName⟩)).2.2.1
  rw [keys]
  exact HashMap.items_keys_nodup authorities

/-- A leader with enough support on the dag of a node is supported in the pool. -/
theorem Tracks.supported (tracks : Tracks node delivered state output)
    (delivery : pool.Delivery delivered) (noWrap : node.committee.NoWrap) {leader : Certificate}
    (above : state.lastCommittedRound < leader.round)
    {authorities : HashMap PublicKey (Digest × Certificate)}
    (found : HashMap.get state.dag (leader.round + 1) = some authorities)
    (enough : node.committee.validityThreshold ≤ node.support authorities leader.digest) :
    pool.dag.Supported node.committee.weights leader := by
  let supporters := (HashMap.values authorities).filter fun x =>
    decide (leader.digest ∈ x.2.header.parents)
  have distinct : (supporters.map fun e => e.2.origin).Nodup :=
    (tracks.origins_nodup found).sublist (List.filter_sublist.map _)
  refine ⟨(supporters.map fun e => e.2.origin).toFinset, ?_, fun a isAuthor => ?_⟩
  · rw [← node.committee.validityThreshold_toNat noWrap, ← Weights.sum_map_eq_of _ distinct,
      List.map_map]
    calc node.committee.validityThreshold.toNat
        ≤ (node.support authorities leader.digest).toNat := UInt32.le_iff_toNat_le.mp enough
      _ ≤ ((supporters.map fun x => node.committee.stake x.2.origin).map UInt32.toNat).sum :=
          toNat_sum_stakes_le _
      _ = (supporters.map (node.committee.weights.weight ∘ fun e => e.2.origin)).sum := by
          rw [List.map_map]
          rfl
  · obtain ⟨e, isSupporter, rfl⟩ := List.mem_map.mp (List.mem_toFinset.mp isAuthor)
    obtain ⟨isValue, isParent⟩ := List.mem_filter.mp isSupporter
    obtain ⟨c, rfl, held⟩ := ((tracks.filed pool delivery).mem_values_iff found).mp isValue
    obtain ⟨member, round⟩ := (tracks.holds_iff (by omega)).mp held
    have inParents : leader.digest ∈ c.header.parents := by simpa using isParent
    exact ⟨c, delivery.mem _ member, rfl, round, inParents⟩

/-! ## The leaders of a run -/

/-- The leaders committed so far are the history of a supported leader, and its round is the last
committed round; or there is none. -/
def LeadersCommitted (pool : Pool node.committee) (state : State) (committed : List Certificate) :
    Prop :=
  (state.lastCommittedRound = 0 ∧ committed = []) ∨
    ∃ n w, state.lastCommittedRound = 2 * (n + 1) ∧
      node.anchor pool (2 * (n + 1)) = some w ∧
      pool.dag.Supported node.committee.weights w ∧
      committed = pool.dag.history (node.anchor pool) n w

theorem anchored (r : ℕ) (a : Certificate) (found : node.anchor pool r = some a) :
    a ∈ pool.dag.nodes ∧ pool.dag.round a = r := by
  obtain ⟨member, round, -⟩ := anchor_eq_some_iff.mp found
  exact ⟨member, round⟩

/-- A directly committed leader extends the leaders by those between the last committed round and
its own. -/
theorem LeadersCommitted.extend {committed : List Certificate} {final : State}
    {leader : Certificate} {k : ℕ} (noWrap : node.committee.NoWrap)
    (before : LeadersCommitted pool state committed)
    (isAnchor : node.anchor pool leader.round = some leader)
    (supported : pool.dag.Supported node.committee.weights leader)
    (round : leader.round = state.lastCommittedRound + 2 * (k + 1))
    (after : final.lastCommittedRound = leader.round) :
    LeadersCommitted pool final (committed ++ (leader :: pool.dag.chain (node.anchor pool)
      (RoundDag.everySecond state.lastCommittedRound k) leader).reverse) := by
  rcases before with ⟨zero, rfl⟩ | ⟨n, w, last, wAnchor, wSupported, rfl⟩
  · rw [zero] at round ⊢
    refine .inr ⟨k, leader, by omega, ?_, supported, by simp [RoundDag.history]⟩
    rwa [show 2 * (k + 1) = leader.round by omega]
  · rw [last] at round ⊢
    refine .inr ⟨n + 1 + k, leader, by omega, ?_, supported, ?_⟩
    · rwa [show 2 * (n + 1 + k + 1) = leader.round by omega]
    · refine (RoundDag.history_eq_append (Pool.dag_quorate noWrap) anchored wAnchor wSupported
        (anchored _ _ isAnchor).1 ?_).symm
      show leader.round = _
      omega

/-- **Every run succeeds, and its leaders are the history of a supported leader.** -/
theorem run_leaders (noWrap : node.committee.NoWrap) (delivery : pool.Delivery delivered)
    (fits : node.NoOverflow delivered) :
    ∃ state subDags, node.run delivered = some (state, subDags) ∧
      LeadersCommitted pool state (leaders subDags) := by
  induction delivered using List.reverseRecOn with
  | nil => exact ⟨_, [], rfl, .inl ⟨rfl, rfl⟩⟩
  | append_singleton delivered c ih =>
      obtain ⟨state, subDags, computed, committed⟩ := ih delivery.of_prefix fits.of_prefix
      have received : LeadersCommitted pool { state with dag := state.dag.insert c }
          (leaders subDags) := committed
      obtain ⟨final, more, stepped, run⟩ := run_snoc_total delivery fits computed
      refine ⟨final, subDags ++ more, run, ?_⟩
      rw [show leaders (subDags ++ more) = leaders subDags ++ leaders more from List.map_append]
      rcases stepped with ⟨rfl, rfl⟩ | ⟨leader, commits⟩
      · simpa [leaders] using received
      · have execution := Execution.of_receive delivery fits computed
        have isAnchor : node.anchor pool leader.round = some leader :=
          anchor_eq_some_iff.mpr ⟨delivery.mem _ commits.member, rfl, commits.isLeader⟩
        obtain ⟨authorities, present, enough⟩ := commits.support
        have supported := execution.tracks.supported delivery noWrap commits.above present enough
        obtain ⟨k, apart⟩ : ∃ k, leader.round = state.lastCommittedRound + 2 * (k + 1) := by
          have parity : state.lastCommittedRound % 2 = 0 := by
            rcases committed with ⟨zero, -⟩ | ⟨n, w, last, -⟩ <;> omega
          have above : state.lastCommittedRound < leader.round := commits.above
          have even := commits.even
          exact ⟨(leader.round - state.lastCommittedRound) / 2 - 1, by omega⟩
        have ordered : leaders more = (leader :: pool.dag.chain (node.anchor pool)
            (RoundDag.everySecond state.lastCommittedRound k) leader).reverse := by
          rw [commits.ordered, ← leaderRounds_eq, ← apart]
        exact ordered ▸ received.extend noWrap isAnchor supported apart commits.lastRound

theorem LeadersCommitted.prefix {state' : State} {committed committed' : List Certificate}
    (noWrap : node.committee.NoWrap) (first : LeadersCommitted pool state committed)
    (second : LeadersCommitted pool state' committed') :
    committed <+: committed' ∨ committed' <+: committed := by
  have quorate := pool.dag_quorate noWrap
  rcases first with ⟨-, none⟩ | ⟨n, w, -, isAnchor, supported, history⟩
  · exact .inl (none ▸ List.nil_prefix)
  rcases second with ⟨-, none⟩ | ⟨n', w', -, isAnchor', supported', history'⟩
  · exact .inr (none ▸ List.nil_prefix)
  rw [history, history']
  rcases le_total n n' with le | ge
  · exact .inl (RoundDag.history_prefix quorate anchored isAnchor isAnchor' supported le)
  · exact .inr (RoundDag.history_prefix quorate anchored isAnchor' isAnchor supported' ge)

/-- **The leaders that two nodes commit are prefixes of one another**, whatever they received of
the pool and in whatever order, when no sum of a round and `gc_depth` overflows. -/
theorem leaders_prefix (noWrap : node.committee.NoWrap) {delivered' : List Certificate}
    (delivery : pool.Delivery delivered) (delivery' : pool.Delivery delivered')
    (fits : node.NoOverflow delivered) (fits' : node.NoOverflow delivered') :
    ∃ state subDags state' subDags',
      node.run delivered = some (state, subDags) ∧ node.run delivered' = some (state', subDags') ∧
      (leaders subDags <+: leaders subDags' ∨ leaders subDags' <+: leaders subDags) := by
  obtain ⟨state, subDags, computed, committed⟩ := run_leaders noWrap delivery fits
  obtain ⟨state', subDags', computed', committed'⟩ := run_leaders noWrap delivery' fits'
  exact ⟨state, subDags, state', subDags', computed, computed', committed.prefix noWrap committed'⟩

end Agreement

section Spine

local instance spinePrimitives : Primitives := executable fun _ _ => true

/-- The stray certificate comes before both commits at one node and between them at the other one. -/
theorem leaders_prefix_stray :
    ∃ state subDags state' subDags',
      heavyNode.run strayEarly = some (state, subDags) ∧
      heavyNode.run strayLate = some (state', subDags') ∧
      (leaders subDags <+: leaders subDags' ∨ leaders subDags' <+: leaders subDags) := by
  have lists : Pool.Lists heavyNode.committee strayEarly := by decide +kernel
  exact leaders_prefix (by decide +kernel) (Pool.delivery_ofList lists (by decide +kernel))
    (Pool.delivery_ofList lists (by decide +kernel)) (by decide +kernel) (by decide +kernel)

/-- A second certificate of round 11. -/
def eleventh : Certificate := .sample 1 11 [spine 10]

/-- **With a sum that wraps, two nodes can disagree on the leaders.** Both commit the leader of round 8
again and again, and the one that receives more certificates of round 11 does so more often. -/
theorem leaders_disagree :
    ∃ (pool : Pool deepNode.committee) (delivered delivered' : List Certificate)
      (state state' : State) (subDags subDags' : List SubDag), deepNode.committee.NoWrap ∧
      pool.Delivery delivered ∧ pool.Delivery delivered' ∧ delivered.Nodup ∧ delivered'.Nodup ∧
      deepNode.run delivered = some (state, subDags) ∧
      deepNode.run delivered' = some (state', subDags') ∧
      ¬ (leaders subDags <+: leaders subDags' ∨ leaders subDags' <+: leaders subDags) := by
  have lists : Pool.Lists deepNode.committee (spineTo 11 ++ eleventh :: (spineTo 15).drop 11) := by
    decide +kernel
  have different : (deepNode.run (spineTo 15)).any (fun r =>
      (deepNode.run (spineTo 11 ++ eleventh :: (spineTo 15).drop 11)).any fun r' =>
        decide (¬ (leaders r.2 <+: leaders r'.2 ∨ leaders r'.2 <+: leaders r.2))) = true := by
    decide +kernel
  obtain ⟨⟨state, subDags⟩, computed, different⟩ := (Option.any_eq_true _ _).mp different
  obtain ⟨⟨state', subDags'⟩, computed', different⟩ := (Option.any_eq_true _ _).mp different
  exact ⟨.ofList _ lists, spineTo 15, _, state, state', subDags, subDags', by decide +kernel,
    Pool.delivery_ofList lists (by decide +kernel), Pool.delivery_ofList lists (by decide +kernel),
    by decide +kernel, by decide +kernel, computed, computed', of_decide_eq_true different⟩

end Spine

end Tusk.Consensus
