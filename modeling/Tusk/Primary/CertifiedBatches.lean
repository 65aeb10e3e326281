import Tusk.Primary.CausalHandover
import Tusk.Primary.CertificateUniqueness
import Tusk.Primary.HeaderEncoding
import Tusk.Primary.JustifiedVotes
import Tusk.Worker.Cluster

/-!
# The batches of a certificate are stored

A primary votes for a header of another author only when its own workers have reported the batches of the
header. They have stored a batch before they report it. So whoever sees a certificate knows that its
batches are stored by the workers of every correct authority that has voted for it, and can fetch them
there (`certified_batches_stored`).

A voter signs the id of the header, and the id does not determine where the payload ends and the parents
begin. The result is about certificates whose header is not a resplit of a header that was voted for.
-/

set_option autoImplicit false

namespace Tusk

open Lib

/-! ## What a primary has voted for -/

namespace Core

section Votes

variable [Primitives] (node : Core)

/-- What is known of the votes of a primary, given the reports of its workers. -/
def Voted (reports : Set (Digest × WorkerId)) (s : State) : Prop :=
  ∀ a ∈ s.votesCreated, a.2 = node.voteFor a.1 ∧ (a.1.author ≠ node.name →
    node.MayVoteFor a.1 ∧ ∀ entry ∈ a.1.payload.entries, entry ∈ reports)

variable {node} {s t t' : State} {input : Input} {reports : Set (Digest × WorkerId)}

/-- **A move votes for headers only whose batches were reported.** -/
theorem Voted.moves (cleared : node.Cleared s) (admissible : node.Admissible s (.core input))
    (moves : node.Moves (node.Handled s input) (node.Carried s input) t t')
    (reported : Reported reports t) (voted : node.Voted reports t) : node.Voted reports t' := by
  cases moves with
  | check _ checks => cases checks <;> exact voted
  | @vote u h subject accepts =>
      intro a member
      rcases List.mem_append.mp member with old | new
      · exact voted a old
      · rw [List.mem_singleton.mp new]
        refine ⟨rfl, fun other => ⟨cleared.handled admissible subject, fun entry inside => ?_⟩⟩
        -- the store has just got the header, which is no report
        refine reported entry ?_
        show ((u.store.write h.id.asRef (.header h)).read _).isSome = true
        rw [Store.read_write, if_neg (Store.payloadKey_ne_asRef _ _ _)]
        exact (accepts.payload.resolve_left other) entry inside
  | _ => exact voted

/-- What is known during a step. -/
structure Casting (node : Core) (reports : Set (Digest × WorkerId)) (t : State) : Prop where
  reported : Reported reports t
  voted : node.Voted reports t

/-- **An event keeps the votes for headers whose batches were reported.** -/
theorem Voted.advance {event : Event} (voted : node.Voted reports s) (reported : Reported reports s)
    (cleared : node.Cleared s) (admissible : node.Admissible s event) :
    node.Voted reports (node.advance s event) := by
  cases event with
  | batch => exact voted
  | consensus => exact voted
  | core input =>
      refine advance_core voted fun _ => ?_
      have start : Casting node reports (s.opened input) := by
        cases input <;> exact ⟨reported, voted⟩
      apply step_invariant_settles start
      · exact fun t t' moves both =>
          ⟨Reported.moves moves both.1, Voted.moves cleared admissible moves both.1 both.2⟩
      · rintro t t' settles ⟨-, voted⟩
        cases settles
        exact voted

/-- The batches of every header of another author that was voted for had been reported. -/
theorem voted_run {events : List Event} (admissible : Throughout node.advance node.Admissible {} events) :
    node.Voted (reportsOf events) (node.run events) := by
  have among : ∀ event ∈ events, ∀ digest workerId, event = .batch digest workerId →
      (digest, workerId) ∈ reportsOf events := by
    rintro _ happened digest workerId rfl
    exact happened
  have kept := (admissible.and (.of_forall among _)).invariant
    (fun s => node.Cleared s ∧ Reported (reportsOf events) s ∧ node.Voted (reportsOf events) s)
    ⟨cleared_start, fun _ found => absurd found (by simp), fun _ member =>
      absurd member List.not_mem_nil⟩
    fun s event ⟨cleared, reported, voted⟩ both =>
      ⟨cleared.advance both.1, reported.advance both.2, voted.advance reported cleared both.1⟩
  exact kept.2.2

end Votes

end Core

/-! ## What a certificate stands for -/

namespace CorrectPrimary

section Stored

variable [Primitives] {committee : Committee}

/-- The headers that some correct primaries have voted for. -/
def votedFor (primaries : Set (CorrectPrimary committee)) : Set Header :=
  {h | ∃ primary ∈ primaries, ∃ vote, (h, vote) ∈ primary.state.votesCreated}

variable {primaries : Set (CorrectPrimary committee)} {primary : CorrectPrimary committee}
  {certificate : Certificate}

/-- **The header of a certificate is the one that was voted for**, and its batches had been reported to
the voter. -/
theorem reported_of_voted
    (collisionFree : CollisionFree (hashedFor (insert certificate.header (votedFor primaries))))
    (unambiguous : ∀ h ∈ votedFor primaries,
      ¬ h.Resplit certificate.header ∧ ¬ certificate.header.Resplit h)
    (verified : certificate.header.verify committee = .ok ()) (positive : 1 ≤ certificate.round)
    (member : primary ∈ primaries) {a : Header × Vote} (voted : a ∈ primary.state.votesCreated)
    (same : a.2.digest = certificate.digest) (other : primary.node.name ≠ certificate.origin) :
    ∀ entry ∈ certificate.header.payload.entries, .batch entry.1 entry.2 ∈ primary.events := by
  have known : a.1 ∈ votedFor primaries := ⟨primary, member, a.2, voted⟩
  have hashed : ∀ h ∈ insert certificate.header (votedFor primaries),
      h.hashInput ∈ hashedFor (insert certificate.header (votedFor primaries)) ∧
        certifiedBytes h.id h.round h.author ∈
          hashedFor (insert certificate.header (votedFor primaries)) := fun h known =>
    ⟨⟨h, .inr known, .inl rfl⟩, ⟨h, .inr known, .inr rfl⟩⟩
  have facts := Core.voted_run primary.admissible a voted
  obtain ⟨cast, others⟩ := facts
  have digests : Primitives.sha512 (certifiedBytes a.1.id a.1.round a.1.author) =
      Primitives.sha512 certificate.hashInput := by
    rw [cast] at same
    exact same
  obtain ⟨id, round, author⟩ := certifiedBytes_inj a.1.round_lt certificate.round_lt
    (collisionFree (hashed a.1 (.inr known)).2 (hashed certificate.header (.inl rfl)).2 digests)
  have different : a.1.author ≠ primary.node.name := fun own => other (own.symm.trans author)
  obtain ⟨mayVote, reported⟩ := others different
  have checked := mayVote different (round ▸ positive)
  -- both ids are digests
  have inputs : a.1.hashInput = certificate.header.hashInput := by
    refine collisionFree (hashed a.1 (.inr known)).1 (hashed certificate.header (.inl rfl)).1 ?_
    show a.1.digest = certificate.header.digest
    rw [(Header.verify_ok_iff.mp checked).1, (Header.verify_ok_iff.mp verified).1, id]
  have payload : a.1.payload = certificate.header.payload := by
    rcases Header.hashInput_eq_iff.mp inputs with content | resplit | resplit
    · exact content.2.2.1
    · exact absurd resplit (unambiguous a.1 known).1
    · exact absurd resplit (unambiguous a.1 known).2
  exact fun entry inside => reported entry (payload ▸ inside)

/-- **The batches of a certificate are stored.** Take any runs of the correct primaries of a committee and
of their workers, in which a primary is told of a batch only when its own worker has reported the batch.
The voters of a certificate that is accepted hold a quorum, and each of them that is correct and not the
author of the header has a worker that has stored every batch of the header. -/
theorem certified_batches_stored [Bincode WorkerMessage] {signed : PublicKey → Digest → Prop}
    (noWrap : committee.NoWrap) (unforgeable : Unforgeable signed) (batchSound : BatchSound)
    (accepted : certificate.verify committee = .ok ()) (positive : 1 ≤ certificate.round)
    (collisionFree : CollisionFree (hashedFor (insert certificate.header (votedFor primaries))))
    (unambiguous : ∀ h ∈ votedFor primaries,
      ¬ h.Resplit certificate.header ∧ ¬ certificate.header.Resplit h)
    (votes : ∀ primary ∈ primaries, signed primary.node.name certificate.digest →
      ∃ a ∈ primary.state.votesCreated, a.2.digest = certificate.digest)
    {workers : WorkerId → Cluster} {runs : WorkerId → List Cluster.Event}
    (allowed : ∀ id, ∀ event ∈ runs id, (workers id).Allowed event)
    (reports : ∀ primary ∈ primaries, ∀ digest id, .batch digest id ∈ primary.events →
      .othersBatch digest id ∈ ((workers id).run (runs id) primary.node.name).txPrimary) :
    committee.weights.quorum ≤ committee.weights.of certificate.voters ∧
      ∀ primary ∈ primaries, primary.node.name ∈ certificate.voters →
        primary.node.name ≠ certificate.origin → ∀ entry ∈ certificate.header.payload.entries,
          ((workers entry.2).run (runs entry.2) primary.node.name).Stores entry.1 := by
  have sound := Certificate.sound_of_round_pos batchSound accepted positive
  refine ⟨sound.quorum_le_of_voters noWrap, fun primary member voter other entry inside => ?_⟩
  obtain ⟨a, voted, same⟩ := votes primary member (sound.signed_of_mem_voters unforgeable voter)
  have verified : certificate.header.verify committee = .ok () := by
    rcases Certificate.verify_ok_iff.mp accepted with claims | certified
    · exact absurd claims.2.1 (Nat.one_le_iff_ne_zero.mp positive)
    · exact certified.header
  have reported := reported_of_voted collisionFree unambiguous verified positive member voted same
    other entry inside
  exact ((Cluster.sound_run (allowed entry.2)).keeps primary.node.name).reported_stored
    (reports primary member entry.1 entry.2 reported) |>.2

end Stored

/-! ## A batch of the first authority -/

section FourAuthorities

local instance storedSign : Primitives := executable fun _ _ => true

local instance storedBincode : Bincode WorkerMessage := Worker.executableBincode

/-- The committee of the four workers. -/
def fourPrimaries : Committee := Dissemination.firstWorker.committee

/-- The second primary. -/
def secondNode : Core where
  name := ⟨2⟩
  committee := fourPrimaries
  gcDepth := 50
  requestSignature := nameSignature ⟨2⟩

/-- The digest of the batch that the first worker has sealed. -/
def sealedDigest : Digest := digitHash (Worker.messageBytes (.batch [[7]]))

theorem sorted_sealed : [(sealedDigest, (0 : WorkerId))].Pairwise (·.1 < ·.1) :=
  List.pairwise_singleton _ _

/-- A header of the first authority with this batch. -/
def sealedHeader : Header :=
  .new ⟨1⟩ 1 ⟨[(sealedDigest, 0)], sorted_sealed⟩ (.ofList (secondNode.genesis.map Prod.fst))
    (nameSignature ⟨1⟩) Header.round_one_lt

/-- Its certificate. -/
def sealedCertificate : Certificate where
  header := sealedHeader
  votes := [⟨1⟩, ⟨2⟩, ⟨3⟩].map fun voter =>
    (voter, (Vote.new sealedHeader voter (nameSignature voter)).signature)

/-- The second primary is told of the batch and votes for the header. -/
def secondPrimary : CorrectPrimary fourPrimaries where
  node := secondNode
  events := [.batch sealedDigest 0, .core (.primaries (.header sealedHeader))]
  ofCommittee := rfl
  member := by decide
  admissible := by decide +kernel

theorem votedFor_secondPrimary : ∀ h ∈ votedFor {secondPrimary}, h = sealedHeader := by
  rintro h ⟨primary, rfl, vote, voted⟩
  have all : ∀ a ∈ secondPrimary.state.votesCreated, a.1 = sealedHeader := by decide +kernel
  exact all (h, vote) voted

theorem certified_batches_stored_sealed :
    fourPrimaries.weights.quorum ≤ fourPrimaries.weights.of sealedCertificate.voters ∧
      ∀ primary ∈ ({secondPrimary} : Set (CorrectPrimary fourPrimaries)),
        primary.node.name ∈ sealedCertificate.voters →
        primary.node.name ≠ sealedCertificate.origin →
        ∀ entry ∈ sealedCertificate.header.payload.entries,
          (Cluster.fourWorkers.run Cluster.reportedOnce primary.node.name).Stores entry.1 := by
  have listed : ∀ h ∈ insert sealedCertificate.header (votedFor {secondPrimary}),
      h ∈ [sealedHeader] := by
    rintro h (rfl | voted)
    · exact List.mem_singleton_self _
    · exact List.mem_singleton.mpr (votedFor_secondPrimary h voted)
  have whole : ¬ sealedHeader.Resplit sealedHeader := by
    intro resplit
    obtain ⟨t, positive, count, -⟩ := resplit.counts
    omega
  have collisionFree : CollisionFree
      (hashedFor (insert sealedCertificate.header (votedFor {secondPrimary}))) :=
    collisionFree_of_list _ (fun _ => mem_inputsOf listed) (by decide +kernel)
  refine @certified_batches_stored _ fourPrimaries {secondPrimary} sealedCertificate _
    (fun _ _ => True) (by decide +kernel) (fun _ _ _ _ => trivial) (executable_batchSound _)
    (by decide +kernel) (by decide) collisionFree (fun h voted => ?_) ?_ (fun _ => Cluster.fourWorkers)
    (fun _ => Cluster.reportedOnce) (fun _ => Cluster.reportedOnce_allowed) ?_
  · rw [votedFor_secondPrimary h voted]
    exact ⟨whole, whole⟩
  · rintro primary rfl -
    decide +kernel
  · rintro primary rfl digest id told
    have only : digest = sealedDigest ∧ id = 0 := by simpa [secondPrimary] using told
    obtain ⟨rfl, rfl⟩ := only
    have reports : (Cluster.fourWorkers.run Cluster.reportedOnce ⟨2⟩).txPrimary =
        [.othersBatch sealedDigest 0] := by
      decide +kernel
    exact reports ▸ List.mem_singleton_self _

end FourAuthorities

end CorrectPrimary

end Tusk
