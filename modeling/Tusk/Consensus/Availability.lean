import Tusk.Consensus.Deployment
import Tusk.Consensus.Feedback
import Tusk.Primary.CertifiedBatches

/-!
# Who holds the batches of a committed certificate

The consensus orders certificates, and clients need the batches in them. The author of a header has made it
of batches that its own workers have sealed, and everybody else votes for it only after its own workers have
reported these batches. The voters are a quorum, so even without the byzantine ones they weigh as much as a
valid set: enough for one of them to answer (`holders_of_valid`).

A vote is a signature on the digest of the header's id, and the author signs the id. Neither signature can be
taken for the other: the two are digests of different byte strings.
-/

set_option autoImplicit false

namespace Tusk

open Lib CorrectPrimary

/-- When the bytes of a header are those of a certificate, the rounds agree. -/
theorem round_eq_of_bytes {c : Certificate} {h : Header} (same : c.hashInput = h.hashInput) :
    c.round = h.round := by
  simp only [Certificate.hashInput, certifiedBytes, Header.hashInput, List.append_assoc] at same
  have rest := (List.append_inj same (by simp)).2
  exact littleEndian_inj (by simpa using c.round_lt) (by simpa using h.round_lt)
    (List.append_inj rest (by simp)).1

/-- What is committed was received, when that was a delivery without votes and signatures. -/
theorem Consensus.received_of_output [Primitives] {consensus : Consensus}
    {pool : Pool consensus.committee} {received : List Certificate} {state : State}
    {subDags : List SubDag} (delivery : pool.Delivery (received.map Certificate.content))
    (fits : consensus.NoOverflow received) (computed : consensus.run received = some (state, subDags))
    {c : Certificate} (committed : c ∈ outputs subDags) : c ∈ received := by
  rcases (returned_run computed).1 c committed with inside | genesis
  · exact inside
  · have contents : consensus.run (received.map Certificate.content) =
        some (state.content, subDags.map SubDag.content) := by
      rw [run_content, computed]
      rfl
    have output : c.content ∈ outputs (subDags.map SubDag.content) := by
      rw [outputs_content]
      exact List.mem_map_of_mem committed
    have inside := (Execution.of_run delivery fits.content contents).tracks.output_delivered _ output
    have positive : 1 ≤ c.content.round := pool.round_pos _ (delivery.mem _ inside)
    rw [Certificate.content_round, (Certificate.round_of_mem_genesis genesis).1] at positive
    exact absurd positive (by decide)

namespace Deployment

variable [Primitives] {committee : Committee} {byzantine : Finset PublicKey}
  {primaries : Set (CorrectPrimary committee)} {primary : CorrectPrimary committee}

/-- A primary had the batches of a header at its own workers: they reported them, or it has proposed
them. -/
def Holds (primary : CorrectPrimary committee) (h : Header) : Prop :=
  ∀ entry ∈ h.payload.entries, .batch entry.1 entry.2 ∈ primary.events ∨
    ∃ own, .core (.proposer own) ∈ primary.events ∧ entry ∈ own.payload.entries

variable (deployed : Deployment committee byzantine primaries)
include deployed

/-- **A correct author has proposed the header of a valid certificate.** -/
theorem proposed_of_author (member : primary ∈ primaries) {c : Certificate} (valid : Valid primaries c)
    (author : primary.node.name = c.origin) :
    ∃ own, .core (.proposer own) ∈ primary.events ∧ own.SameContent c.header := by
  have sound := Valid.sound deployed valid
  have verified := Signature.verify_ok_iff.mp sound.signature
  rw [← author] at verified
  rcases deployed.authentic primary member _ _ verified with ⟨a, cast, same⟩ | ⟨own, proposed, same⟩
  · -- the digest of a vote is not the id of a header above the genesis
    have ballot := primary.ballot (hears member) cast
    have clash : (Certificate.mk a.1 []).digest = c.header.id := by
      rw [← same, ballot.cast]
      rfl
    obtain ⟨g, genesis, digest⟩ := isGenesisDigest_of_clash deployed.collisionFree deployed.avoids
      valid.vetted ballot.vetted clash
    have bytes : g.hashInput = c.header.hashInput :=
      deployed.collisionFree ⟨g.header, .inr (.inr ⟨g, genesis, rfl⟩), .inr rfl⟩
        ⟨c.header, .inr valid.heard, .inl rfl⟩ (digest.trans (clash.trans sound.id))
    have round : g.round = c.round := round_eq_of_bytes bytes
    rw [(Certificate.round_of_mem_genesis genesis).1] at round
    exact absurd round.symm (Nat.one_le_iff_ne_zero.mp valid.positive)
  · have heard : own ∈ known primaries := hears member _ proposed own rfl
    exact ⟨own, proposed, deployed.sameContent_of_id heard valid.heard
      (primary.proposed_identified proposed).1 sound.id same⟩

/-- **Every correct voter of a valid certificate had its batches.** -/
theorem holds_of_voter (member : primary ∈ primaries) {c : Certificate} (valid : Valid primaries c)
    (voter : primary.node.name ∈ c.voters) : Holds primary c.header := by
  by_cases author : primary.node.name = c.origin
  · obtain ⟨own, proposed, -, -, payload, -⟩ := deployed.proposed_of_author member valid author
    exact fun entry inside => .inr ⟨own, proposed, payload ▸ inside⟩
  · obtain ⟨a, cast, -, content, -⟩ := deployed.voted_of_voter member valid voter
    obtain ⟨origin, -, payload, -, -⟩ := Certificate.content_eq_iff.mp content
    have voted := Core.voted_run primary.admissible a cast
    have different : a.1.author ≠ primary.node.name := fun own => author (own.symm.trans origin)
    have same : a.1.payload = c.header.payload := payload
    exact fun entry inside => .inl ((voted.2 different).2 entry (same ▸ inside))

/-- **Correct primaries that weigh as much as a valid set had the batches of a valid certificate.** -/
theorem holders_of_valid {c : Certificate} (valid : Valid primaries c) :
    committee.validityThreshold.toNat ≤ committee.weights.of (c.voters \ byzantine) ∧
      ∀ name ∈ c.voters \ byzantine, ∃ primary ∈ primaries, primary.node.name = name ∧
        Holds primary c.header := by
  have sound := Valid.sound deployed valid
  have light := deployed.light
  rw [committee.validityThreshold_toNat deployed.noWrap] at light ⊢
  refine ⟨committee.weights.validity_le_outside (sound.quorum_le_of_voters deployed.noWrap) light,
    fun name inside => ?_⟩
  obtain ⟨voter, correct⟩ := Finset.mem_sdiff.mp inside
  obtain ⟨vote, among, rfl⟩ := List.mem_map.mp (List.mem_toFinset.mp voter)
  obtain ⟨primary, member, same⟩ := deployed.covers vote.1
    (committee.mem_keys_of_stake_pos (sound.stakes vote among)) correct
  exact ⟨primary, member, same, deployed.holds_of_voter member valid (same ▸ voter)⟩

/-- **What the consensus of a correct primary commits is valid.** -/
theorem valid_of_committed {consensus : Consensus} (ours : consensus.committee = committee)
    (member : primary ∈ primaries) {received : List Certificate}
    (order : received <+: primary.state.txConsensus) (fits : consensus.NoOverflow received)
    {state : Consensus.State} {subDags : List Consensus.SubDag}
    (computed : consensus.run received = some (state, subDags)) {c : Certificate}
    (committed : c ∈ Consensus.outputs subDags) : Valid primaries c := by
  have delivery := deployed.delivery member order
  generalize deployed.pool = pool at delivery
  subst ours
  exact deployed.valid_of_handed member
    (order.subset (Consensus.received_of_output delivery fits computed committed))

end Deployment

end Tusk
