import Tusk.Consensus.Filing
import Tusk.Consensus.Tracking

/-!
# The sub-dag of a leader

`orderDag` follows the parents that are still in the dag and are not the last committed
certificate of their author (`Follows`). It always finishes, and its result consists of the
certificates reached in this way that are within the depth of the garbage collection, each once
and in the order of their rounds (`orderDag_spec`).
-/

set_option autoImplicit false

namespace Tusk.Consensus

open Lib

variable [Primitives]

/-- `orderDag` goes from one certificate to another. -/
def Follows (state : State) (x y : Certificate) : Prop :=
  y.digest ∈ x.header.parents ∧ y.round + 1 = x.round ∧
    state.dag.entry y.round y.origin = some (y.digest, y) ∧ state.committed y.origin ≠ y.round

/-- `orderDag` gets from one certificate to another, in any number of steps. -/
def Visits (state : State) : Certificate → Certificate → Prop :=
  Relation.ReflTransGen (Follows state)

variable {node : Consensus} {pool : Pool node.committee} {delivered output : List Certificate}
  {state : State}

/-! ## The steps of the search -/

variable (pool)

theorem Tracks.known (tracks : Tracks node delivered state output)
    (delivery : pool.Delivery delivered) {r : ℕ} {n : PublicKey} {e : Digest × Certificate}
    (found : state.dag.entry r n = some e) : pool.Known e.2 :=
  (tracks.entry r n e found).1.imp_left (delivery.mem _)

/-- A step of `orderDag` goes to a delivered parent. -/
theorem Tracks.parent_of_follows (tracks : Tracks node delivered state output)
    (delivery : pool.Delivery delivered) {x y : Certificate} (member : x ∈ delivered)
    (follows : Follows state x y) : y ∈ delivered ∧ pool.dag.Parent x y := by
  obtain ⟨isParent, below, found, notCommitted⟩ := follows
  have isDelivered : y ∈ delivered := by
    refine (tracks.entry _ _ _ found).1.resolve_right fun isGenesis => notCommitted ?_
    have zero := (Certificate.round_of_mem_genesis isGenesis).1
    rw [zero] at found ⊢
    rw [State.committed, tracks.genesis _ _ found, Option.getD_some]
  exact ⟨isDelivered, delivery.mem x member, delivery.mem y isDelivered, isParent⟩

/-- The dag is filed. -/
theorem Tracks.filed (tracks : Tracks node delivered state output)
    (delivery : pool.Delivery delivered) : state.dag.Filed where
  digest found := (tracks.entry _ _ _ found).2.1
  round found := (tracks.entry _ _ _ found).2.2.2
  origin found := (tracks.entry _ _ _ found).2.2.1
  distinct found found' same := by
    have digest := (tracks.entry _ _ _ found).2.1
    have digest' := (tracks.entry _ _ _ found').2.1
    exact (tracks.known pool delivery found).eq_of_digest (tracks.known pool delivery found')
      (digest.symm.trans (same.trans digest'))
  rooted found zero := by
    rcases tracks.known pool delivery found with member | isGenesis
    · have positive := pool.round_pos _ member
      omega
    · exact BTreeSet.ext (Certificate.round_of_mem_genesis isGenesis).2

theorem rooted_of_mem {x : Certificate} (member : x ∈ pool.certificates) : Rooted x := by
  intro zero
  have positive := pool.round_pos x member
  omega

/-- In the dag of a node the last committed round of an author is also the one it starts with. -/
theorem Tracks.stepsTo_iff (tracks : Tracks node delivered state output)
    (delivery : pool.Delivery delivered) {x y : Certificate} (member : x ∈ delivered) :
    StepsTo state x y ↔ Follows state x y := by
  have positive := pool.round_pos x (delivery.mem x member)
  have filed := tracks.filed pool delivery
  have last : ∀ {r}, state.dag.entry r y.origin = some (y.digest, y) →
      (HashMap.get state.lastCommitted y.origin = some y.round ↔
        state.committed y.origin = y.round) := by
    intro r found
    unfold State.committed
    cases stored : HashMap.get state.lastCommitted y.origin with
    | some last => simp
    | none =>
        -- at round 0 the entry is a genesis certificate
        have nonzero : y.round ≠ 0 := by
          intro zero
          rw [← filed.round found] at found
          rw [zero] at found
          rw [tracks.genesis _ _ found] at stored
          cases stored
        simp [nonzero.symm]
  constructor
  · rintro ⟨isParent, ⟨n, found⟩, notLast⟩
    have round := filed.round found
    obtain rfl := filed.origin found
    dsimp only at round
    exact ⟨isParent, by omega, round ▸ found, fun committed => notLast ((last found).mpr committed)⟩
  · rintro ⟨isParent, below, found, notCommitted⟩
    refine ⟨isParent, ⟨y.origin, ?_⟩, fun isLast => notCommitted ((last found).mp isLast)⟩
    rw [← below, Nat.add_sub_cancel]
    exact found

/-- From a delivered certificate the search finds what `Follows` allows. -/
theorem Tracks.parentToOrder_eq_some_iff (tracks : Tracks node delivered state output)
    (delivery : pool.Delivery delivered) {x : Certificate} (member : x ∈ delivered)
    {parent : Digest} (isParent : parent ∈ x.header.parents) {e : Digest × Certificate} :
    state.parentToOrder x parent = some e ↔
      ∃ y, e = (y.digest, y) ∧ y.digest = parent ∧ Follows state x y := by
  have positive := pool.round_pos x (delivery.mem x member)
  rw [(tracks.filed pool delivery).parentToOrder_eq_some_iff (by omega) isParent]
  simp only [tracks.stepsTo_iff pool delivery member]

theorem Tracks.mem_parentsToOrder_iff (tracks : Tracks node delivered state output)
    (delivery : pool.Delivery delivered) {x : Certificate} (member : x ∈ delivered)
    {e : Digest × Certificate} :
    e ∈ state.parentsToOrder x ↔ ∃ y, e = (y.digest, y) ∧ Follows state x y := by
  rw [(tracks.filed pool delivery).mem_parentsToOrder_iff (rooted_of_mem pool (delivery.mem x member))]
  simp only [tracks.stepsTo_iff pool delivery member]

/-! ## The whole search -/

theorem Tracks.visits_spec (tracks : Tracks node delivered state output)
    (delivery : pool.Delivery delivered) {x y : Certificate} (member : x ∈ delivered)
    (visits : Visits state x y) : y ∈ delivered ∧ pool.dag.Reaches x y := by
  induction visits with
  | refl => exact ⟨member, .refl⟩
  | tail _ follows ih =>
      obtain ⟨isDelivered, parent⟩ := tracks.parent_of_follows pool delivery ih.1 follows
      exact ⟨isDelivered, ih.2.tail parent⟩

theorem Tracks.stepsDown_iff (tracks : Tracks node delivered state output)
    (delivery : pool.Delivery delivered) {x y : Certificate} (member : x ∈ delivered) :
    StepsDown state x y ↔ Visits state x y := by
  constructor
  · intro down
    induction down with
    | refl => exact .refl
    | tail _ steps ih =>
        have isDelivered := (tracks.visits_spec pool delivery member ih).1
        exact ih.tail ((tracks.stepsTo_iff pool delivery isDelivered).mp steps)
  · intro visits
    induction visits with
    | refl => exact .refl
    | tail before follows ih =>
        have isDelivered := (tracks.visits_spec pool delivery member before).1
        exact ih.tail ((tracks.stepsTo_iff pool delivery isDelivered).mpr follows)

theorem Tracks.reach_iff (tracks : Tracks node delivered state output)
    (delivery : pool.Delivery delivered) {x : Certificate} (member : x ∈ delivered)
    {e : Digest × Certificate} :
    Worklist.Reach (fun e : Digest × Certificate => state.parentsToOrder e.2) (x.digest, x) e ↔
      ∃ y, e = (y.digest, y) ∧ Visits state x y := by
  rw [(tracks.filed pool delivery).reach_iff (rooted_of_mem pool (delivery.mem x member))]
  simp only [tracks.stepsDown_iff pool delivery member]

/-- The keys of the search determine its nodes. -/
theorem Tracks.determined (tracks : Tracks node delivered state output)
    (delivery : pool.Delivery delivered) (x y a b : Digest × Certificate)
    (ha : a ∈ state.parentsToOrder x.2) (hb : b ∈ state.parentsToOrder y.2) (same : a.1 = b.1) :
    a = b :=
  (tracks.filed pool delivery).determined x y a b ha hb same

/-- **What `orderDag` returns.** -/
theorem Tracks.orderDag_spec (tracks : Tracks node delivered state output)
    (delivery : pool.Delivery delivered) {leader : Certificate} (member : leader ∈ delivered) :
    ∃ ordered, node.orderDag leader state = some ordered ∧
      (∀ x, x ∈ ordered ↔
        Visits state leader x ∧ state.lastCommittedRound ≤ x.round + node.gcDepth) ∧
      ordered.Nodup ∧ ordered.Pairwise fun x y => x.round ≤ y.round := by
  have isKnown := delivery.mem leader member
  have own : ∀ r p, state.dag.Holds r p → p.digest = leader.digest → p = leader := by
    rintro r p ⟨n, found⟩ same
    exact (tracks.known pool delivery found).eq_of_digest (.inl isKnown) same
  have recent : ∀ x, Visits state leader x → (state.lastCommittedRound ≤ horizon node.gcDepth x.round ↔
      state.lastCommittedRound ≤ x.round + node.gcDepth) := fun x visits => by
    rw [horizon_eq (tracks.fits x (tracks.visits_spec pool delivery member visits).1)]
  obtain ⟨ordered, computed, mem_iff, rest⟩ :=
    (tracks.filed pool delivery).orderDag_spec node (rooted_of_mem pool isKnown) own
  refine ⟨ordered, computed, fun x => ?_, rest⟩
  rw [mem_iff, tracks.stepsDown_iff pool delivery member]
  exact and_congr_right (recent x)

end Tusk.Consensus
