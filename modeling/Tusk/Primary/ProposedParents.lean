import Tusk.Primary.CoreMoves

/-!
# The parents the Proposer is sent

A `CertificatesAggregator` collects certificates of one round and of different authorities, and
what it returns has the stake of a quorum (`Collecting.append`). The Core keeps one for each round
and passes on what they return. So in every run the `Proposer` is sent digests of certificates that
were handed to the consensus, of one round and of different authorities, with the stake of a quorum
(`Proposable.proposed`), and the parents of the header it makes of them are in the store
(`Proposable.current`). This needs nothing of the hash.
-/

set_option autoImplicit false

namespace Tusk

open Lib

/-! ## Collecting certificates -/

/-- The stake of the authors of some certificates, in `u32`. -/
def Committee.stakeOf (committee : Committee) (certificates : List Certificate) : Stake :=
  (certificates.map fun c => committee.stake c.origin).sum

theorem Committee.stakeOf_append (committee : Committee) (certificates : List Certificate)
    (c : Certificate) :
    committee.stakeOf (certificates ++ [c]) =
      committee.stakeOf certificates + committee.stake c.origin := by
  simp [stakeOf]

/-- The stake in `u32` is at most the sum of the stakes. -/
theorem Committee.toNat_stakeOf_le (committee : Committee) (certificates : List Certificate) :
    (committee.stakeOf certificates).toNat ≤
      (certificates.map fun c => (committee.stake c.origin).toNat).sum := by
  refine (toNat_sum_stakes_le _).trans ?_
  rw [List.map_map]
  rfl

section Collecting

variable [Primitives]

/-- The digests are those of certificates of one round and of different authorities that were
sent. -/
structure Collected (sent : List Certificate) (round : ℕ) (digests : List Digest)
    (certificates : List Certificate) : Prop where
  digests : digests = certificates.map Certificate.digest
  sent : certificates ⊆ sent
  round : ∀ c ∈ certificates, c.round = round
  origins : (certificates.map Certificate.origin).Nodup

/-- The digests of certificates that are enough to be parents. -/
def Gathered (committee : Committee) (sent : List Certificate) (digests : List Digest)
    (round : ℕ) : Prop :=
  ∃ certificates, Collected sent round digests certificates ∧
    committee.quorumThreshold ≤ committee.stakeOf certificates

/-- The aggregator of a round counts certificates that were sent. -/
structure Collecting (committee : Committee) (sent : List Certificate) (round : ℕ)
    (aggregator : CertificatesAggregator) (certificates : List Certificate) : Prop where
  collected : Collected sent round aggregator.certificates certificates
  weight : aggregator.weight = committee.stakeOf certificates
  used : ∀ c ∈ certificates, c.origin ∈ aggregator.used

variable {committee : Committee} {sent sent' : List Certificate} {round : ℕ}

theorem Collected.mono {digests : List Digest} {certificates : List Certificate}
    (collected : Collected sent round digests certificates) (more : sent ⊆ sent') :
    Collected sent' round digests certificates where
  digests := collected.digests
  sent := fun _ member => more (collected.sent member)
  round := collected.round
  origins := collected.origins

theorem Gathered.mono {digests : List Digest} (gathered : Gathered committee sent digests round)
    (more : sent ⊆ sent') : Gathered committee sent' digests round := by
  obtain ⟨certificates, collected, quorum⟩ := gathered
  exact ⟨certificates, collected.mono more, quorum⟩

/-- A quorum is not empty. -/
theorem Gathered.exists_mem {digests : List Digest}
    (gathered : Gathered committee sent digests round) : ∃ digest, digest ∈ digests := by
  obtain ⟨certificates, collected, quorum⟩ := gathered
  have positive := committee.quorumThreshold_pos
  have stake := UInt32.le_iff_toNat_le.mp quorum
  cases certificates with
  | nil =>
      have zero : (committee.stakeOf []).toNat = 0 := rfl
      omega
  | cons c certificates =>
      exact ⟨c.digest, collected.digests ▸ List.mem_cons_self ..⟩

theorem Collecting.mono {aggregator : CertificatesAggregator} {certificates : List Certificate}
    (collecting : Collecting committee sent round aggregator certificates) (more : sent ⊆ sent') :
    Collecting committee sent' round aggregator certificates where
  collected := collecting.collected.mono more
  weight := collecting.weight
  used := collecting.used

/-- A collection is empty at the start and after the quorum was reached. -/
theorem collecting_nil (used : Finset PublicKey) :
    Collecting committee sent round ⟨0, [], used⟩ [] where
  collected := ⟨rfl, List.nil_subset _, fun _ member => absurd member List.not_mem_nil, .nil⟩
  weight := rfl
  used _ member := absurd member List.not_mem_nil

/-- A certificate of a new author joins the collection. -/
theorem Collected.append {digests : List Digest} {certificates : List Certificate}
    {c : Certificate} (collected : Collected sent c.round digests certificates)
    (fresh : ∀ c' ∈ certificates, c'.origin ≠ c.origin) :
    Collected (sent ++ [c]) c.round (digests ++ [c.digest]) (certificates ++ [c]) where
  digests := by rw [collected.digests, List.map_append, List.map_singleton]
  sent := List.append_subset.mpr
    ⟨fun _ member => List.mem_append_left _ (collected.sent member), List.subset_append_right ..⟩
  round := by
    intro c' member
    rcases List.mem_append.mp member with old | new
    · exact collected.round c' old
    · rw [List.mem_singleton.mp new]
  origins := by
    rw [List.map_append, List.map_singleton]
    refine List.nodup_append.mpr ⟨collected.origins, List.nodup_singleton _, ?_⟩
    intro name old name' new
    obtain ⟨c', member, rfl⟩ := List.mem_map.mp old
    rw [List.mem_singleton.mp new]
    exact fresh c' member

/-- **Counting a certificate** keeps the collection, and what is returned is gathered. -/
theorem Collecting.append {aggregator : CertificatesAggregator} {certificates : List Certificate}
    {c : Certificate} (collecting : Collecting committee sent c.round aggregator certificates) :
    (∃ certificates', Collecting committee (sent ++ [c]) c.round
        (aggregator.append c committee).1 certificates') ∧
      ∀ digests, (aggregator.append c committee).2 = some digests →
        Gathered committee (sent ++ [c]) digests c.round := by
  have more : sent ⊆ sent ++ [c] := List.subset_append_left ..
  unfold CertificatesAggregator.append
  dsimp only
  split_ifs with reused reached
  · exact ⟨⟨certificates, collecting.mono more⟩, fun _ impossible => nomatch impossible⟩
  · have fresh : ∀ c' ∈ certificates, c'.origin ≠ c.origin := fun c' member same =>
      reused (same ▸ collecting.used c' member)
    refine ⟨⟨[], collecting_nil _⟩, fun digests returned => ?_⟩
    cases returned
    refine ⟨certificates ++ [c], collecting.collected.append fresh, ?_⟩
    rw [committee.stakeOf_append, ← collecting.weight]
    exact reached
  · have fresh : ∀ c' ∈ certificates, c'.origin ≠ c.origin := fun c' member same =>
      reused (same ▸ collecting.used c' member)
    refine ⟨⟨certificates ++ [c], collecting.collected.append fresh, ?_, fun c' member => ?_⟩,
      fun _ impossible => nomatch impossible⟩
    · rw [committee.stakeOf_append, ← collecting.weight]
    · rcases List.mem_append.mp member with old | new
      · exact Finset.mem_insert_of_mem (collecting.used c' old)
      · rw [List.mem_singleton.mp new]
        exact Finset.mem_insert_self _ _

end Collecting

/-! ## The parents of a run -/

theorem Store.isSome_write {store : Store} {key key' : List UInt8} {value : StoreValue}
    (present : (store.read key).isSome = true) :
    ((store.write key' value).read key).isSome = true := by
  rw [Store.read_write]
  split
  · rfl
  · exact present

namespace Core

variable [Primitives] {node : Core} {s s' : State}

theorem HasParent.write {store : Store} {digest : Digest} (present : node.HasParent store digest)
    (key : List UInt8) (value : StoreValue) : node.HasParent (store.write key value) digest :=
  present.imp_right Store.isSome_write

/-- What is in the store stays there. -/
theorem Moves.hasParent {handled : Header → Prop} {carried : Certificate → Prop}
    (moves : node.Moves handled carried s s') {digest : Digest}
    (present : node.HasParent s.store digest) : node.HasParent s'.store digest := by
  cases moves with
  | check _ checks => cases checks <;> exact present
  | store => exact present.write _ _
  | deliver => exact present.write _ _
  | _ => exact present

variable (node) in
/-- The certificates that may become parents of a header of this primary. -/
structure Proposable (s : State) : Prop where
  stored : ∀ c ∈ s.txConsensus, (s.store.read c.digest.asRef).isSome = true
  aggregated : ∀ round aggregator, HashMap.get s.certificatesAggregators round = some aggregator →
    ∃ certificates, Collecting node.committee s.txConsensus round aggregator certificates
  proposed : ∀ proposal ∈ s.txProposer,
    Gathered node.committee s.txConsensus proposal.1 proposal.2
  current : ∀ digest ∈ s.currentHeader.parents, node.HasParent s.store digest

/-- Handing over a certificate. -/
theorem Proposable.deliver {c : Certificate} (proposable : node.Proposable s) :
    node.Proposable (s.deliver node.committee c) := by
  have more : s.txConsensus ⊆ s.txConsensus ++ [c] := List.subset_append_left ..
  have counted : ∃ certificates, Collecting node.committee s.txConsensus c.round
      ((HashMap.get s.certificatesAggregators c.round).getD .new) certificates := by
    cases found : HashMap.get s.certificatesAggregators c.round with
    | none => exact ⟨[], collecting_nil ∅⟩
    | some aggregator => exact proposable.aggregated _ _ found
  obtain ⟨certificates, collecting⟩ := counted
  obtain ⟨kept, returned⟩ := collecting.append
  refine ⟨fun c' member => ?_, fun round aggregator found => ?_, fun proposal member => ?_,
    fun digest member => (proposable.current digest member).write _ _⟩
  · show ((s.store.write c.digest.asRef (.certificate c)).read c'.digest.asRef).isSome = true
    rcases List.mem_append.mp member with old | new
    · exact Store.isSome_write (proposable.stored c' old)
    · rw [List.mem_singleton.mp new, Store.read_write, if_pos rfl]
      rfl
  · have found' : HashMap.get (HashMap.insert s.certificatesAggregators c.round
        (((HashMap.get s.certificatesAggregators c.round).getD .new).append c
          node.committee).1) round = some aggregator := found
    rw [HashMap.get_insert] at found'
    split at found'
    · next here =>
        cases found'
        exact here ▸ kept
    · obtain ⟨certificates', collecting'⟩ := proposable.aggregated round aggregator found'
      exact ⟨certificates', collecting'.mono more⟩
  · rcases List.mem_append.mp member with old | new
    · exact (proposable.proposed proposal old).mono more
    · obtain ⟨digests, inside, rfl⟩ := List.mem_map.mp new
      exact returned digests (Option.mem_toList.mp inside)

theorem Proposable.moves {handled : Header → Prop} {carried : Certificate → Prop}
    (moves : node.Moves handled carried s s') (proposable : node.Proposable s) :
    node.Proposable s' := by
  have kept : ∀ digest ∈ s.currentHeader.parents, node.HasParent s'.store digest :=
    fun digest member => moves.hasParent (proposable.current digest member)
  obtain ⟨stored, aggregated, proposed, current⟩ := proposable
  cases moves with
  | check _ checks => cases checks <;> exact ⟨stored, aggregated, proposed, current⟩
  | store =>
      exact ⟨fun c member => Store.isSome_write (stored c member), aggregated, proposed,
        kept⟩
  | deliver => exact Proposable.deliver ⟨stored, aggregated, proposed, current⟩
  | _ => exact ⟨stored, aggregated, proposed, current⟩

/-- The parents of a header of the `Proposer` are in the store. -/
theorem Proposable.hasParent_of_proposes (proposable : node.Proposable s) {h : Header}
    (proposes : node.Proposes s h) : ∀ digest ∈ h.parents, node.HasParent s.store digest := by
  intro digest member
  obtain ⟨proposal, source, parents, -⟩ := proposes.parents
  rw [parents, BTreeSet.mem_ofList] at member
  rcases List.mem_cons.mp source with rfl | earlier
  · exact .inl member
  · obtain ⟨certificates, collected, -⟩ := proposable.proposed proposal earlier
    rw [collected.digests] at member
    obtain ⟨c, inside, rfl⟩ := List.mem_map.mp member
    exact .inr (proposable.stored c (collected.sent inside))

theorem Proposable.opened {input : Input} (proposable : node.Proposable s)
    (admissible : node.Admissible s (.core input)) : node.Proposable (s.opened input) := by
  cases input with
  | proposer h =>
      exact ⟨proposable.stored, proposable.aggregated, proposable.proposed,
        proposable.hasParent_of_proposes admissible⟩
  | _ => exact proposable

/-- **An event keeps what may become a parent.** -/
theorem Proposable.advance {event : Event} (proposable : node.Proposable s)
    (admissible : node.Admissible s event) : node.Proposable (node.advance s event) := by
  cases event with
  | batch =>
      exact ⟨fun c member => Store.isSome_write (proposable.stored c member),
        proposable.aggregated, proposable.proposed,
        fun digest member => (proposable.current digest member).write _ _⟩
  | consensus =>
      exact ⟨proposable.stored, proposable.aggregated, proposable.proposed, proposable.current⟩
  | core input =>
      refine advance_core proposable fun _ => ?_
      apply step_invariant_settles (proposable.opened admissible) fun _ _ => Proposable.moves
      rintro t t' settles ⟨stored, aggregated, proposed, current⟩
      cases settles with
      | settle _ _ _ _ _ kept =>
          exact ⟨stored, fun round aggregator found => aggregated round aggregator (kept _ _ found),
            proposed, current⟩

theorem proposable_start : node.Proposable {} where
  stored _ member := absurd member List.not_mem_nil
  aggregated round _ found := nomatch (HashMap.get_empty round).symm.trans found
  proposed _ member := absurd member List.not_mem_nil
  current _ member := absurd member List.not_mem_nil

/-- **In every run the Proposer is sent certificates that are enough to be parents.** -/
theorem proposable_of_run {events : List Event}
    (admissible : Throughout node.advance node.Admissible {} events) :
    node.Proposable (node.run events) :=
  admissible.invariant node.Proposable proposable_start
    fun _ _ proposable allowed => proposable.advance allowed

end Core

end Tusk
