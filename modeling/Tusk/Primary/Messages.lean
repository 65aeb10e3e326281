import Tusk.Config
import Tusk.Lib.Results

/-!
# Headers, votes and certificates

The messages primaries exchange, the bytes their digests are computed from, and their
verification. Every check of `Header.verify` and `Certificate.verify` is made in the order of
the source, and the result lists what an accepted message satisfies
(`Header.verify_ok_iff`, `Certificate.verify_ok_iff`).

Certificates are compared by header id, round and origin only (`Certificate.partialEq`), and it
is with this comparison that `verify` recognises the genesis certificates.
-/

set_option autoImplicit false

namespace Tusk
open Lib


/-- What the primary reports when it refuses a message. -/
inductive DagError where
  | invalidSignature (error : CryptoError)
  | storeError
  | serializationError
  | invalidHeaderId
  | malformedHeader (id : Digest)
  | unknownAuthority (name : PublicKey)
  | authorityReuse (name : PublicKey)
  | unexpectedVote (id : Digest)
  | certificateRequiresQuorum
  | headerRequiresQuorum (id : Digest)
  | tooOld (id : Digest) (round : ℕ)
deriving DecidableEq

/-- Go on when the condition holds, and fail with the error otherwise. -/
def ensure (condition : Prop) [Decidable condition] (error : DagError) : Except DagError Unit :=
  if condition then .ok () else .error error

@[simp] theorem ensure_eq_ok_iff {condition : Prop} [Decidable condition] {error : DagError}
    {u : Unit} : ensure condition error = .ok u ↔ condition := by
  unfold ensure
  split_ifs with holds <;> simp [holds]

/-! ## Headers -/

/-- A header. The round is a `u64`. -/
structure Header where
  author : PublicKey
  round : ℕ
  payload : BTreeMap Digest WorkerId
  parents : BTreeSet Digest
  id : Digest
  signature : Signature
  round_lt : round < 2 ^ 64 := by decide
deriving DecidableEq

namespace Header

theorem round_one_lt : 1 < 2 ^ 64 := by decide

theorem round_two_lt : 2 < 2 ^ 64 := by decide

theorem round_three_lt : 3 < 2 ^ 64 := by decide

theorem round_last_lt : 2 ^ 64 - 1 < 2 ^ 64 := by decide

/-- `Header::default()`. -/
instance : Inhabited Header where
  default :=
    { author := default
      round := 0
      payload := ∅
      parents := ∅
      id := default
      signature := default }

/-- The bytes of one payload entry: the batch digest and the worker id. -/
def payloadBytes (entry : Digest × WorkerId) : List UInt8 :=
  entry.1.asRef ++ littleEndian 4 entry.2.toNat

/-- The bytes the digest of a header is computed from. -/
def hashInput (header : Header) : List UInt8 :=
  header.author.asRef ++ littleEndian 8 header.round ++
    header.payload.entries.flatMap payloadBytes ++ header.parents.toList.flatMap Digest.asRef

variable [Primitives]

/-- The digest of a header. -/
def digest (header : Header) : Digest := Primitives.sha512 header.hashInput

/-- `Header::new`, with the signature service as the function that signs a digest. -/
def new (author : PublicKey) (round : ℕ) (payload : BTreeMap Digest WorkerId)
    (parents : BTreeSet Digest) (requestSignature : Digest → Signature)
    (round_lt : round < 2 ^ 64 := by decide) : Header :=
  let header : Header :=
    { author := author
      round := round
      payload := payload
      parents := parents
      id := default
      signature := default
      round_lt := round_lt }
  { header with
    id := header.digest
    signature := requestSignature header.digest }

/-- `Header::verify`. -/
def verify (header : Header) (committee : Committee) : Except DagError Unit := do
  -- Ensure the header id is well formed.
  ensure (header.digest = header.id) .invalidHeaderId
  -- Ensure the authority has voting rights.
  ensure (0 < committee.stake header.author) (.unknownAuthority header.author)
  -- Ensure all worker ids are correct.
  header.payload.values.forM fun workerId => do
    let _ ← (committee.worker header.author workerId).mapError fun _ =>
      DagError.malformedHeader header.id
  -- Check the signature.
  (header.signature.verify header.id header.author).mapError .invalidSignature

/-- **What an accepted header satisfies.** -/
theorem verify_ok_iff {header : Header} {committee : Committee} :
    header.verify committee = .ok () ↔
      header.digest = header.id ∧ 0 < committee.stake header.author ∧
        (∀ workerId ∈ header.payload.values,
          ∃ addresses, committee.worker header.author workerId = .ok addresses) ∧
        Primitives.verifyStrict header.author header.id header.signature = true := by
  simp only [verify, bind_eq_ok_iff, ensure_eq_ok_iff, forM_eq_ok_iff,
    mapError_eq_ok_iff, Signature.verify_ok_iff, exists_and_left, exists_const, pure,
    Except.pure, and_true]

end Header

/-! ## Votes -/

/-- The bytes that identify a header to its voters: its id, round and author. -/
def certifiedBytes (id : Digest) (round : ℕ) (origin : PublicKey) : List UInt8 :=
  id.asRef ++ littleEndian 8 round ++ origin.asRef

/-- Below the range of `u64` rounds the bytes determine the three values. -/
theorem certifiedBytes_inj {id id' : Digest} {round round' : ℕ} {origin origin' : PublicKey}
    (bound : round < 2 ^ 64) (bound' : round' < 2 ^ 64)
    (same : certifiedBytes id round origin = certifiedBytes id' round' origin') :
    id = id' ∧ round = round' ∧ origin = origin' := by
  unfold certifiedBytes at same
  obtain ⟨front, back⟩ := List.append_inj same (by simp)
  obtain ⟨ids, rounds⟩ := List.append_inj front (by simp)
  exact ⟨Digest.asRef_injective ids,
    littleEndian_inj (by simpa using bound) (by simpa using bound') rounds,
    PublicKey.asRef_injective back⟩

/-- A vote for a header. The round is a `u64`. -/
structure Vote where
  id : Digest
  round : ℕ
  origin : PublicKey
  author : PublicKey
  signature : Signature
  round_lt : round < 2 ^ 64 := by decide
deriving DecidableEq

namespace Vote

/-- The bytes the digest of a vote is computed from. -/
def hashInput (vote : Vote) : List UInt8 := certifiedBytes vote.id vote.round vote.origin

variable [Primitives]

/-- The digest of a vote. -/
def digest (vote : Vote) : Digest := Primitives.sha512 vote.hashInput

/-- `Vote::new`, with the signature service as the function that signs a digest. -/
def new (header : Header) (author : PublicKey) (requestSignature : Digest → Signature) : Vote :=
  let vote : Vote :=
    { id := header.id
      round := header.round
      origin := header.author
      author := author
      signature := default
      round_lt := header.round_lt }
  { vote with signature := requestSignature vote.digest }

/-- `Vote::verify`. -/
def verify (vote : Vote) (committee : Committee) : Except DagError Unit := do
  -- Ensure the authority has voting rights.
  ensure (0 < committee.stake vote.author) (.unknownAuthority vote.author)
  -- Check the signature.
  (vote.signature.verify vote.digest vote.author).mapError .invalidSignature

end Vote

/-! ## Certificates -/

/-- A header with the votes that certify it. -/
structure Certificate where
  header : Header
  votes : List (PublicKey × Signature)
deriving DecidableEq

namespace Certificate

/-- `Certificate::default()`. -/
instance : Inhabited Certificate where
  default :=
    { header := default
      votes := [] }

def round (certificate : Certificate) : ℕ := certificate.header.round

def origin (certificate : Certificate) : PublicKey := certificate.header.author

theorem round_lt (certificate : Certificate) : certificate.round < 2 ^ 64 :=
  certificate.header.round_lt

/-- The genesis certificate of an authority. -/
def genesisOf (name : PublicKey) : Certificate :=
  { (default : Certificate) with header := { (default : Header) with author := name } }

/-- `Certificate::genesis`, one certificate an authority. -/
def genesis (committee : Committee) : List Certificate :=
  committee.authorities.keys.map genesisOf

/-- Equality of certificates as the source defines it: id, round and origin. -/
def partialEq (certificate other : Certificate) : Bool :=
  decide (certificate.header.id = other.header.id) && decide (certificate.round = other.round) &&
    decide (certificate.origin = other.origin)

theorem partialEq_iff {certificate other : Certificate} :
    certificate.partialEq other = true ↔
      certificate.header.id = other.header.id ∧ certificate.round = other.round ∧
        certificate.origin = other.origin := by
  simp [partialEq, and_assoc]

/-- The bytes the digest of a certificate is computed from. -/
def hashInput (certificate : Certificate) : List UInt8 :=
  certifiedBytes certificate.header.id certificate.round certificate.origin

theorem hashInput_inj {certificate other : Certificate}
    (same : certificate.hashInput = other.hashInput) :
    certificate.header.id = other.header.id ∧ certificate.round = other.round ∧
      certificate.origin = other.origin :=
  certifiedBytes_inj certificate.round_lt other.round_lt same

/-- Add up the stake of the voters, refusing a repeated voter and one without stake. -/
def countVotes (committee : Committee) :
    List (PublicKey × Signature) → List PublicKey → Stake → Except DagError Stake
  | [], _, weight => .ok weight
  | (name, _) :: votes, used, weight => do
      ensure (name ∉ used) (.authorityReuse name)
      ensure (0 < committee.stake name) (.unknownAuthority name)
      countVotes committee votes (name :: used) (weight + committee.stake name)

variable [Primitives]

/-- The digest of a certificate. -/
def digest (certificate : Certificate) : Digest := Primitives.sha512 certificate.hashInput

/-- `Certificate::verify`. -/
def verify (certificate : Certificate) (committee : Committee) : Except DagError Unit :=
  -- Genesis certificates are always valid.
  if (genesis committee).any certificate.partialEq then
    .ok ()
  else do
    -- Check the embedded header.
    certificate.header.verify committee
    -- Ensure the certificate has a quorum.
    let weight ← countVotes committee certificate.votes [] 0
    ensure (committee.quorumThreshold ≤ weight) .certificateRequiresQuorum
    -- Check the signatures.
    (Signature.verifyBatch certificate.digest certificate.votes).mapError .invalidSignature

omit [Primitives] in
theorem countVotes_ok_iff {committee : Committee} {votes : List (PublicKey × Signature)}
    {used : List PublicKey} {weight total : Stake} :
    countVotes committee votes used weight = .ok total ↔
      (votes.map Prod.fst).Nodup ∧ (∀ vote ∈ votes, vote.1 ∉ used) ∧
        (∀ vote ∈ votes, 0 < committee.stake vote.1) ∧
        weight + (votes.map fun vote => committee.stake vote.1).sum = total := by
  induction votes generalizing used weight with
  | nil => simp [countVotes]
  | cons vote votes ih =>
      simp only [countVotes, bind_eq_ok_iff, ensure_eq_ok_iff, exists_const, ih,
        List.map_cons, List.nodup_cons, List.mem_cons, forall_eq_or_imp, not_or, List.sum_cons,
        add_assoc, List.mem_map, not_exists, not_and]
      constructor
      · rintro ⟨new, positive, nodup, others, stakes, sum⟩
        exact ⟨⟨fun other member same => (others other member).1 same, nodup⟩,
          ⟨new, fun other member => (others other member).2⟩, ⟨positive, stakes⟩, sum⟩
      · rintro ⟨⟨different, nodup⟩, ⟨new, unused⟩, ⟨positive, stakes⟩, sum⟩
        exact ⟨new, positive, nodup,
          fun other member => ⟨different other member, unused other member⟩, stakes, sum⟩

/-- Whether the certificate equals a genesis certificate in the sense of the source. -/
def claimsGenesis (certificate : Certificate) (committee : Committee) : Prop :=
  certificate.header.id = default ∧ certificate.round = 0 ∧
    certificate.origin ∈ committee.authorities.keys

omit [Primitives] in
theorem any_genesis_iff {certificate : Certificate} {committee : Committee} :
    (genesis committee).any certificate.partialEq = true ↔ certificate.claimsGenesis committee := by
  simp only [List.any_eq_true, genesis, List.mem_map, partialEq_iff, claimsGenesis]
  constructor
  · rintro ⟨_, ⟨name, member, rfl⟩, id, round, origin⟩
    exact ⟨id, round, origin ▸ member⟩
  · rintro ⟨id, round, member⟩
    exact ⟨_, ⟨_, member, rfl⟩, id, round, rfl⟩

/-- What the checks after the genesis shortcut establish. -/
structure Certified (certificate : Certificate) (committee : Committee) : Prop where
  header : certificate.header.verify committee = .ok ()
  voters : (certificate.votes.map Prod.fst).Nodup
  stakes : ∀ vote ∈ certificate.votes, 0 < committee.stake vote.1
  quorum : committee.quorumThreshold ≤
    (certificate.votes.map fun vote => committee.stake vote.1).sum
  signatures : Primitives.verifyBatch certificate.digest certificate.votes = true

/-- **What an accepted certificate satisfies.** -/
theorem verify_ok_iff {certificate : Certificate} {committee : Committee} :
    certificate.verify committee = .ok () ↔
      certificate.claimsGenesis committee ∨ certificate.Certified committee := by
  unfold verify
  split_ifs with shortcut
  · simp [any_genesis_iff.mp shortcut]
  · have notGenesis := fun claims => shortcut (any_genesis_iff.mpr claims)
    simp only [bind_eq_ok_iff, ensure_eq_ok_iff, countVotes_ok_iff, exists_const,
      mapError_eq_ok_iff, Signature.verifyBatch_ok_iff, zero_add]
    constructor
    · rintro ⟨⟨⟩, header, _, ⟨voters, -, stakes, rfl⟩, quorum, signatures⟩
      exact .inr ⟨header, voters, stakes, quorum, signatures⟩
    · rintro (claims | certified)
      · exact absurd claims notGenesis
      · exact ⟨(), certified.header, _, ⟨certified.voters, by simp, certified.stakes, rfl⟩,
          certified.quorum, certified.signatures⟩

end Certificate

end Tusk
