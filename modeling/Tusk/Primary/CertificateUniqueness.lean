import Tusk.Primary.CertificateSoundness

/-!
# At most one certified header per author and round

The votes of an accepted certificate come from distinct authorities that together hold a quorum
of the stake (`Sound.quorum_le_of_voters`), and each of them signed the digest of its vote for
the header (`Sound.signed_of_mem_voters`). Two certificates of one author and round share a voter
outside every set of authorities too light to be valid. When such a voter signs one vote for each
author and round, both certificates carry votes for one header.
-/

set_option autoImplicit false

namespace Tusk

open Lib

/-- The digest of a certificate is the digest of the votes for its header. -/
theorem Vote.digest_new [Primitives] (certificate : Certificate) (author : PublicKey)
    (requestSignature : Digest → Signature) :
    (Vote.new certificate.header author requestSignature).digest = certificate.digest := rfl

/-- The key holder signed at most one vote digest for each author and round of a header. -/
def VotesOnce [Primitives] (signed : PublicKey → Digest → Prop) (name : PublicKey) : Prop :=
  ∀ vote other : Vote, vote.origin = other.origin → vote.round = other.round →
    signed name vote.digest → signed name other.digest → vote.digest = other.digest

/-- Only what the key holder signed verifies. -/
def Unforgeable [Primitives] (signed : PublicKey → Digest → Prop) : Prop :=
  ∀ name digest signature, Primitives.verifyStrict name digest signature = true →
    signed name digest

namespace Certificate

/-- The authorities whose votes the certificate carries. -/
def voters (certificate : Certificate) : Finset PublicKey :=
  (certificate.votes.map Prod.fst).toFinset

section Voters

variable [Primitives] {certificate other : Certificate} {committee : Committee}

/-- The voters of a sound certificate hold a quorum. -/
theorem Sound.quorum_le_of_voters (noWrap : committee.NoWrap)
    (sound : certificate.Sound committee) :
    committee.weights.quorum ≤ committee.weights.of certificate.voters := by
  rw [← committee.quorumThreshold_toNat noWrap, Certificate.voters,
    ← committee.weights.sum_map_eq_of sound.voters, List.map_map]
  exact sound.quorum

/-- The voters of a sound certificate signed its digest. -/
theorem Sound.signed_of_mem_voters {signed : PublicKey → Digest → Prop}
    (unforgeable : Unforgeable signed) (sound : certificate.Sound committee) {name : PublicKey}
    (member : name ∈ certificate.voters) : signed name certificate.digest := by
  obtain ⟨vote, mem, rfl⟩ := List.mem_map.mp (List.mem_toFinset.mp member)
  exact unforgeable _ _ _ (Signature.verify_ok_iff.mp (sound.signatures vote mem))

/-- Two sound certificates have a common voter outside every set too light to be valid. -/
theorem Sound.exists_common_voter {light : Finset PublicKey} (noWrap : committee.NoWrap)
    (small : committee.weights.of light < committee.validityThreshold.toNat)
    (sound : certificate.Sound committee) (sound' : other.Sound committee) :
    ∃ name ∈ committee.authorities.keys, name ∉ light ∧ name ∈ certificate.voters ∧
      name ∈ other.voters := by
  rw [committee.validityThreshold_toNat noWrap] at small
  obtain ⟨name, member, member', outside, positive⟩ :=
    committee.weights.quorums_meet_outside (sound.quorum_le_of_voters noWrap)
      (sound'.quorum_le_of_voters noWrap) small
  exact ⟨name, committee.mem_keys_of_stake_pos (UInt32.lt_iff_toNat_lt.mpr positive), outside,
    member, member'⟩

/-- A certificate accepted at a positive round is sound. -/
theorem sound_of_round_pos (batchSound : BatchSound)
    (accepted : certificate.verify committee = .ok ()) (positive : 1 ≤ certificate.round) :
    certificate.Sound committee := by
  rcases verify_ok_iff.mp accepted with claims | certified
  · exact absurd claims.2.1 (Nat.one_le_iff_ne_zero.mp positive)
  · exact certified.sound batchSound

/-- **Accepted certificates of one author and one positive round certify one header**, when the
authorities outside a set too light to be valid vote once for each author and round. -/
theorem header_id_unique {byzantine : Finset PublicKey} {signed : PublicKey → Digest → Prop}
    (noWrap : committee.NoWrap)
    (byzantineLight : committee.weights.of byzantine < committee.validityThreshold.toNat)
    (unforgeable : Unforgeable signed) (batchSound : BatchSound)
    (votesOnce : ∀ name ∈ committee.authorities.keys, name ∉ byzantine → VotesOnce signed name)
    (collisionFree : CollisionFree {certificate.hashInput, other.hashInput})
    (accepted : certificate.verify committee = .ok ())
    (accepted' : other.verify committee = .ok ())
    (sameOrigin : certificate.origin = other.origin) (sameRound : certificate.round = other.round)
    (positive : 1 ≤ certificate.round) :
    certificate.header.id = other.header.id := by
  have sound := sound_of_round_pos batchSound accepted positive
  have sound' := sound_of_round_pos batchSound accepted' (sameRound ▸ positive)
  obtain ⟨name, authority, correct, member, member'⟩ :=
    sound.exists_common_voter noWrap byzantineLight sound'
  -- the common voter's two votes, with any signature, have the digests of the certificates
  have digests : certificate.digest = other.digest := by
    have votes := votesOnce name authority correct (.new certificate.header name default)
      (.new other.header name default) sameOrigin sameRound
      (sound.signed_of_mem_voters unforgeable member)
      (sound'.signed_of_mem_voters unforgeable member')
    rw [Vote.digest_new, Vote.digest_new] at votes
    exact votes
  exact (hashInput_inj (collisionFree (by simp) (by simp) digests)).1

end Voters

/-! ## Two certificates of one header -/

section FourAuthorities

/-- The first authority signs anything, the others only one digest. -/
def mayVote (name : PublicKey) (digest : Digest) : Bool :=
  decide (name = ⟨1⟩) || decide (digest = digitHash (certifiedHeader ⟨1⟩).hashInput)

local instance oneVote : Primitives := executable mayVote

theorem header_id_certifiedBy :
    (certifiedBy [⟨1⟩, ⟨2⟩, ⟨3⟩] ⟨1⟩).header.id = (certifiedBy [⟨2⟩, ⟨3⟩, ⟨4⟩] ⟨1⟩).header.id := by
  have unforgeable : Unforgeable fun name digest => mayVote name digest = true := by
    intro name digest signature verified
    exact (Bool.and_eq_true_iff.mp verified).2
  have light : fourAuthorities.weights.of {⟨1⟩} < fourAuthorities.validityThreshold.toNat := by
    decide +kernel
  refine header_id_unique (by decide +kernel) light unforgeable (executable_batchSound _) ?_ ?_
    (by decide +kernel) (by decide +kernel) rfl rfl (by decide)
  · intro name _ correct vote other _ _ signed signed'
    have other_ne : name ≠ ⟨1⟩ := by simpa using correct
    simp only [mayVote, other_ne, decide_false, Bool.false_or, decide_eq_true_eq] at signed signed'
    exact signed.trans signed'.symm
  · have same : (certifiedBy [⟨1⟩, ⟨2⟩, ⟨3⟩] ⟨1⟩).hashInput =
        (certifiedBy [⟨2⟩, ⟨3⟩, ⟨4⟩] ⟨1⟩).hashInput := rfl
    rw [same, Set.pair_eq_singleton]
    exact Set.injOn_singleton _ _

end FourAuthorities

end Certificate

end Tusk
