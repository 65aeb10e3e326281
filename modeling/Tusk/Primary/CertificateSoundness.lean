import Tusk.Primary.HeaderEncoding

/-!
# What an accepted certificate is

Apart from the genesis certificates, `Certificate.verify` is meant to accept a certificate only
when a quorum of the committee signed its digest and the digest commits to its content. The
checks after the genesis shortcut establish the first part (`Certified.sound`).

The shortcut compares certificates by id, round and origin, and none of these is checked against
the content at that point. A certificate of round 0 with the default id and the author's name is
accepted whatever its payload, parents and votes (`Forged`). The second part fails in one more
way, through headers that resplit. `sound_iff` says that there is no third way.
-/

set_option autoImplicit false

namespace Tusk

open Lib

namespace Certificate

/-- What `verify` promises about a certificate that is not a genesis certificate. -/
structure Sound [Primitives] (certificate : Certificate) (committee : Committee) : Prop where
  id : certificate.header.id = certificate.header.digest
  author : 0 < committee.stake certificate.origin
  workers : ∀ workerId ∈ certificate.header.payload.values,
    ∃ addresses, committee.worker certificate.origin workerId = .ok addresses
  signature : certificate.header.signature.verify certificate.header.id certificate.origin = .ok ()
  voters : (certificate.votes.map Prod.fst).Nodup
  stakes : ∀ vote ∈ certificate.votes, 0 < committee.stake vote.1
  quorum : committee.quorumThreshold.toNat ≤
    (certificate.votes.map fun vote => (committee.stake vote.1).toNat).sum
  signatures : ∀ vote ∈ certificate.votes, vote.2.verify certificate.digest vote.1 = .ok ()

/-- A certificate that passes for a genesis certificate and is none. -/
def Forged (certificate : Certificate) (committee : Committee) : Prop :=
  certificate.claimsGenesis committee ∧ certificate ∉ genesis committee

theorem mem_genesis_content {certificate : Certificate} {committee : Committee}
    (member : certificate ∈ genesis committee) :
    certificate = genesisOf certificate.origin ∧ certificate.header.payload = ∅ ∧
      certificate.header.parents = ∅ := by
  obtain ⟨name, -, rfl⟩ := List.mem_map.mp member
  exact ⟨rfl, rfl, rfl⟩

section Verification

variable [Primitives] {certificate other : Certificate} {committee : Committee}

/-- The checks after the shortcut establish what is promised. The sum of the stakes is taken
without wrapping here, and it is at least the sum the code computes. -/
theorem Certified.sound (batchSound : BatchSound) (certified : certificate.Certified committee) :
    certificate.Sound committee := by
  obtain ⟨id, author, workers, signature⟩ := Header.verify_ok_iff.mp certified.header
  refine
    { id := id.symm
      author := author
      workers := workers
      signature := Signature.verify_ok_iff.mpr signature
      voters := certified.voters
      stakes := certified.stakes
      quorum := ?_
      signatures := fun vote member =>
        Signature.verify_ok_iff.mpr (batchSound _ _ certified.signatures vote member) }
  calc committee.quorumThreshold.toNat
      ≤ (certificate.votes.map fun vote => committee.stake vote.1).sum.toNat :=
        UInt32.le_iff_toNat_le.mp certified.quorum
    _ ≤ ((certificate.votes.map fun vote => committee.stake vote.1).map UInt32.toNat).sum :=
        toNat_sum_stakes_le _
    _ = (certificate.votes.map fun vote => (committee.stake vote.1).toNat).sum := by
        rw [List.map_map]
        rfl

/-- The byte strings hashed when two certificates are verified. -/
def verifiedInputs (certificate other : Certificate) : Set (List UInt8) :=
  {certificate.header.hashInput, other.header.hashInput, certificate.hashInput, other.hashInput}

/-- An accepted certificate keeps the promise unless it is forged. -/
theorem mem_genesis_or_sound (batchSound : BatchSound)
    (accepted : certificate.verify committee = .ok ()) (genuine : ¬ certificate.Forged committee) :
    certificate ∈ genesis committee ∨ certificate.Sound committee := by
  rcases verify_ok_iff.mp accepted with claims | certified
  · by_contra neither
    exact genuine ⟨claims, fun member => neither (.inl member)⟩
  · exact .inr (certified.sound batchSound)

/-- A certificate that passes for a genesis certificate does not have the digest of its header
as id. -/
theorem not_sound_of_claimsGenesis {fixed : Set (List UInt8)}
    (avoids : Primitives.Avoids fixed {default}) (mem : certificate.header.hashInput ∈ fixed)
    (claims : certificate.claimsGenesis committee) : ¬ certificate.Sound committee := fun sound =>
  avoids _ mem (sound.id.symm.trans claims.1)

/-- Accepted certificates that are not forged and whose headers do not resplit have one content
when they have one digest. -/
theorem same_content (batchSound : BatchSound)
    (collisionFree : CollisionFree (verifiedInputs certificate other))
    (accepted : certificate.verify committee = .ok ())
    (accepted' : other.verify committee = .ok ())
    (genuine : ¬ certificate.Forged committee) (genuine' : ¬ other.Forged committee)
    (forward : ¬ certificate.header.Resplit other.header)
    (backward : ¬ other.header.Resplit certificate.header)
    (same : certificate.digest = other.digest) :
    certificate.header.payload = other.header.payload ∧
      certificate.header.parents = other.header.parents := by
  have bytes := collisionFree (by simp [verifiedInputs]) (by simp [verifiedInputs]) same
  obtain ⟨id, round, origin⟩ := hashInput_inj bytes
  have claims_iff : certificate.claimsGenesis committee ↔ other.claimsGenesis committee := by
    simp only [claimsGenesis, id, round, origin]
  by_cases claims : certificate.claimsGenesis committee
  · -- both are the genesis certificate of their common author
    have member : certificate ∈ genesis committee := by
      by_contra outside
      exact genuine ⟨claims, outside⟩
    have member' : other ∈ genesis committee := by
      by_contra outside
      exact genuine' ⟨claims_iff.mp claims, outside⟩
    obtain ⟨-, payload, parents⟩ := mem_genesis_content member
    obtain ⟨-, payload', parents'⟩ := mem_genesis_content member'
    exact ⟨payload.trans payload'.symm, parents.trans parents'.symm⟩
  · -- neither is, so the ids are digests of the headers
    have sound := ((verify_ok_iff.mp accepted).resolve_left claims).sound batchSound
    have sound' := ((verify_ok_iff.mp accepted').resolve_left
      fun claims' => claims (claims_iff.mpr claims')).sound batchSound
    have inputs : certificate.header.hashInput = other.header.hashInput :=
      collisionFree (by simp [verifiedInputs]) (by simp [verifiedInputs])
        (sound.id.symm.trans (id.trans sound'.id))
    rcases Header.hashInput_eq_iff.mp inputs with content | resplit | resplit
    · exact content.2.2
    · exact absurd resplit forward
    · exact absurd resplit backward

/-- Headers that resplit belong to sound certificates of one digest and different payloads. -/
theorem digest_eq_of_resplit (resplit : certificate.header.Resplit other.header)
    (kept : certificate ∈ genesis committee ∨ certificate.Sound committee)
    (kept' : other ∈ genesis committee ∨ other.Sound committee) :
    certificate.digest = other.digest := by
  obtain ⟨author, round, extra, more, nonempty, payload, parents, bytes⟩ := resplit
  have moreNonempty : more ≠ [] := by
    rintro rfl
    have empty : extra = [] := flatMap_injective_of_width Header.payloadBytes_injective
      Header.payloadBytes_length (by decide) (by simpa using bytes)
    exact nonempty empty
  have sound : certificate.Sound committee := kept.resolve_left fun member => by
    have empty := congrArg BTreeMap.entries (mem_genesis_content member).2.1
    rw [payload] at empty
    exact nonempty (List.append_eq_nil_iff.mp empty).2
  have sound' : other.Sound committee := kept'.resolve_left fun member => by
    have empty := congrArg BTreeSet.toList (mem_genesis_content member).2.2
    rw [parents] at empty
    exact moreNonempty (List.append_eq_nil_iff.mp empty).1
  have inputs : certificate.header.hashInput = other.header.hashInput :=
    Header.hashInput_eq_iff.mpr
      (.inr (.inl ⟨author, round, extra, more, nonempty, payload, parents, bytes⟩))
  have id : certificate.header.id = other.header.id := by
    rw [sound.id, sound'.id, Header.digest, Header.digest, inputs]
  unfold digest hashInput
  rw [id, show certificate.round = other.round from round,
    show certificate.origin = other.origin from author]

/-- **Two accepted certificates keep the promise of `verify`, and commit to one content when they
have one digest, exactly when neither is forged and their headers do not resplit.** -/
theorem sound_iff (batchSound : BatchSound)
    (collisionFree : CollisionFree (verifiedInputs certificate other))
    (avoids : Primitives.Avoids (verifiedInputs certificate other) {default})
    (accepted : certificate.verify committee = .ok ())
    (accepted' : other.verify committee = .ok ()) :
    ((certificate ∈ genesis committee ∨ certificate.Sound committee) ∧
        (other ∈ genesis committee ∨ other.Sound committee) ∧
        (certificate.digest = other.digest →
          certificate.header.payload = other.header.payload ∧
            certificate.header.parents = other.header.parents)) ↔
      ¬ certificate.Forged committee ∧ ¬ other.Forged committee ∧
        ¬ certificate.header.Resplit other.header ∧
        ¬ other.header.Resplit certificate.header := by
  constructor
  · rintro ⟨kept, kept', content⟩
    refine ⟨fun forged => ?_, fun forged => ?_, fun resplit => ?_, fun resplit => ?_⟩
    · exact not_sound_of_claimsGenesis avoids (by simp [verifiedInputs]) forged.1
        (kept.resolve_left forged.2)
    · exact not_sound_of_claimsGenesis avoids (by simp [verifiedInputs]) forged.1
        (kept'.resolve_left forged.2)
    · have same := content (digest_eq_of_resplit resplit kept kept')
      exact resplit.2.2.ne (congrArg BTreeMap.entries same.1)
    · have same := content (digest_eq_of_resplit resplit kept' kept).symm
      exact resplit.2.2.ne (congrArg BTreeMap.entries same.1.symm)
  · rintro ⟨genuine, genuine', forward, backward⟩
    exact ⟨mem_genesis_or_sound batchSound accepted genuine,
      mem_genesis_or_sound batchSound accepted' genuine',
      same_content batchSound collisionFree accepted accepted' genuine genuine' forward backward⟩

end Verification

/-! ## Four authorities -/

/-- Four authorities of stake one. -/
def fourAuthorities : Committee where
  authorities := ⟨[1, 2, 3, 4].map fun key => (⟨key⟩, .ofStake 1), by decide⟩

section FourAuthorities

local instance allSign : Primitives := executable fun _ _ => true

/-- A header of round 1 with one batch, signed by its author. -/
def signedHeader (author : PublicKey) : Header :=
  let unsigned : Header :=
    { author := author
      round := 1
      payload := ⟨[(⟨7⟩, 0)], by decide⟩
      parents := ∅
      id := default
      signature := default }
  { unsigned with
    id := unsigned.digest
    signature := nameSignature author unsigned.digest }

/-- A certificate of `signedHeader` with the votes of the given voters. -/
def certifiedBy (voters : List PublicKey) (author : PublicKey) : Certificate :=
  let unsigned : Certificate :=
    { header := signedHeader author
      votes := [] }
  { unsigned with
    votes := voters.map fun voter => (voter, nameSignature voter unsigned.digest) }

/-- A certificate of `signedHeader` with the votes of the first three authorities. -/
def certifiedHeader (author : PublicKey) : Certificate := certifiedBy [⟨1⟩, ⟨2⟩, ⟨3⟩] author

/-- The byte strings hashed when the certificates of the first two authorities are verified. -/
def certifiedInputs : List (List UInt8) :=
  let first := certifiedHeader ⟨1⟩
  let second := certifiedHeader ⟨2⟩
  [first.header.hashInput, second.header.hashInput, first.hashInput, second.hashInput]

theorem sound_certifiedHeader :
    ((certifiedHeader ⟨1⟩).verify fourAuthorities = .ok () ∧
        (certifiedHeader ⟨2⟩).verify fourAuthorities = .ok ()) ∧
      (((certifiedHeader ⟨1⟩ ∈ genesis fourAuthorities ∨
            (certifiedHeader ⟨1⟩).Sound fourAuthorities) ∧
          (certifiedHeader ⟨2⟩ ∈ genesis fourAuthorities ∨
            (certifiedHeader ⟨2⟩).Sound fourAuthorities) ∧
          ((certifiedHeader ⟨1⟩).digest = (certifiedHeader ⟨2⟩).digest →
            (certifiedHeader ⟨1⟩).header.payload = (certifiedHeader ⟨2⟩).header.payload ∧
              (certifiedHeader ⟨1⟩).header.parents = (certifiedHeader ⟨2⟩).header.parents)) ↔
        ¬ (certifiedHeader ⟨1⟩).Forged fourAuthorities ∧
          ¬ (certifiedHeader ⟨2⟩).Forged fourAuthorities ∧
          ¬ (certifiedHeader ⟨1⟩).header.Resplit (certifiedHeader ⟨2⟩).header ∧
          ¬ (certifiedHeader ⟨2⟩).header.Resplit (certifiedHeader ⟨1⟩).header) := by
  have first : (certifiedHeader ⟨1⟩).verify fourAuthorities = .ok () := by decide +kernel
  have second : (certifiedHeader ⟨2⟩).verify fourAuthorities = .ok () := by decide +kernel
  have inputs : ∀ bytes ∈ verifiedInputs (certifiedHeader ⟨1⟩) (certifiedHeader ⟨2⟩),
      bytes ∈ certifiedInputs := by
    simp [verifiedInputs, certifiedInputs]
  refine ⟨⟨first, second⟩, sound_iff (executable_batchSound _) ?_ ?_ first second⟩
  · exact collisionFree_of_list certifiedInputs inputs (by decide +kernel)
  · have nonzero : ∀ bytes ∈ certifiedInputs, digitHash bytes ≠ default := by decide +kernel
    exact fun bytes member => nonzero bytes (inputs bytes member)

/-- A certificate without a voter, whose header has a batch and passes for a genesis header. -/
def forgedGenesis : Certificate where
  header :=
    { (default : Header) with
      author := ⟨1⟩
      payload := ⟨[(⟨7⟩, 9)], by decide⟩ }
  votes := []

/-- **An accepted certificate need not keep the promise of `verify`.** -/
theorem forgedGenesis_accepted :
    forgedGenesis.verify fourAuthorities = .ok () ∧
      ¬ (forgedGenesis ∈ genesis fourAuthorities ∨ forgedGenesis.Sound fourAuthorities) := by
  refine ⟨by decide +kernel, ?_⟩
  rintro (member | sound)
  · exact absurd (mem_genesis_content member).2.1 (by decide)
  · exact absurd sound.id (by decide +kernel)

end FourAuthorities

end Certificate

end Tusk
