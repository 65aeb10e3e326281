import Tusk.Consensus.Contents
import Tusk.Consensus.LeaderAgreement
import Tusk.Primary.Ballots
import Tusk.Primary.CausalHandover
import Tusk.Primary.CertificateUniqueness
import Tusk.Primary.HeaderEncoding
import Tusk.Primary.OwnCertificates

/-!
# A committee of primaries and their consensus

The results on the consensus are about the certificates of a pool, and those on the Core about one primary.
Here they come together. The correct primaries of a committee run, the others do what they like, and nobody
forges the signature of a correct primary (`Deployment`). Then the certificates that the correct primaries
hand to their consensus, without their votes and signatures, form a pool (`Deployment.pool`), and each
primary hands them over as a delivery from it (`Deployment.delivery`):

* they verify, since each primary has checked what it did not make itself;
* two of one author and round have a common correct voter, who votes for one header only;
* each has a correct voter, who has handed over a quorum of its parents;
* a primary hands over the parents of a certificate before the certificate.

So the leaders that the correct primaries commit agree (`Deployment.leaders_alike`).
-/

set_option autoImplicit false

namespace Tusk

open Lib

theorem Consensus.NoOverflow.content {consensus : Consensus} {received : List Certificate}
    (fits : consensus.NoOverflow received) :
    consensus.NoOverflow (received.map Certificate.content) :=
  List.forall_mem_map.mpr fits

namespace CorrectPrimary

variable [Primitives] {committee : Committee}

/-- What the primary has had signed: its votes and the ids of its own headers. -/
def HasSigned (primary : CorrectPrimary committee) (digest : Digest) : Prop :=
  (∃ a ∈ primary.state.votesCreated, a.2.digest = digest) ∨
    ∃ h, .core (.proposer h) ∈ primary.events ∧ h.id = digest

/-- The headers that the primaries heard of, and those of the genesis. -/
def known (primaries : Set (CorrectPrimary committee)) : Set Header :=
  heard primaries ∪ Core.genesisHeaders committee

/-- The `Proposer` makes headers with their digest as id. -/
theorem proposed_identified (primary : CorrectPrimary committee) {h : Header}
    (proposed : .core (.proposer h) ∈ primary.events) :
    h.id = h.digest ∧ h.author = primary.node.name := by
  obtain ⟨before, after, split⟩ := List.append_of_mem proposed
  have admissible := primary.admissible
  rw [split] at admissible
  have proposes : primary.node.Proposes (before.foldl primary.node.advance {}) h :=
    (Throughout.append_iff.mp admissible).2.1
  exact ⟨proposes.id, proposes.author⟩

/-- **What the primary hands over verifies**, has a positive round and a vetted header. -/
theorem handed_vetted {headers : Set Header} (primary : CorrectPrimary committee)
    (collisionFree : CollisionFree (hashedFor headers))
    (avoids : Primitives.Avoids (hashedFor headers) committee.fixedDigests)
    (genesisKnown : Core.genesisHeaders committee ⊆ headers) (agrees : BatchAgrees)
    (noWrap : committee.NoWrap) (stake : 0 < committee.stake primary.node.name)
    (ownRounds : Throughout primary.node.advance primary.node.OwnRounds {} primary.events)
    (fromRoundOne : Throughout primary.node.advance primary.node.FromRoundOne {} primary.events)
    (certifies : ∀ event ∈ primary.events, primary.node.Certifies event)
    (hears : ∀ event ∈ primary.events, ∀ h, event.header = some h → h ∈ headers) :
    ∀ c ∈ primary.state.txConsensus,
      c.verify committee = .ok () ∧ 1 ≤ c.round ∧ c.header.Vetted committee headers := by
  obtain ⟨node, events, rfl, _, admissible⟩ := primary
  obtain ⟨upright, balloting, genuine⟩ := Core.upright_run collisionFree avoids genesisKnown agrees
    noWrap stake admissible ownRounds (fromRoundOne.mono fun _ _ => Core.FromRoundOne.assembles)
    certifies hears
  have positive := Core.positive_run admissible fromRoundOne
  exact fun c handed =>
    ⟨genuine.verified balloting c handed, positive.consensus c handed, upright.handed c handed⟩

/-- What is known of a vote of the primary: its header is vetted, and the parents were handed over before or
are of the genesis, are of the round before, and are a quorum. -/
structure Ballot (headers : Set Header) (primary : CorrectPrimary committee) (a : Header × Vote) :
    Prop where
  cast : a.2 = primary.node.voteFor a.1
  vetted : a.1.Vetted committee headers
  founded : ∃ parents : List Certificate, parents.map Certificate.digest = a.1.parents.toList ∧
    (∀ p ∈ parents, p ∈ primary.state.txConsensus ∨ p ∈ Certificate.genesis committee) ∧
    (∀ p ∈ parents, (p.round + 1) % 2 ^ 64 = a.1.round) ∧
    committee.quorumThreshold ≤ committee.stakeOf parents

theorem ballot {headers : Set Header} (primary : CorrectPrimary committee)
    (hears : ∀ event ∈ primary.events, ∀ h, event.header = some h → h ∈ headers) {a : Header × Vote}
    (voted : a ∈ primary.state.votesCreated) : Ballot headers primary a := by
  obtain ⟨node, events, rfl, member, admissible⟩ := primary
  obtain ⟨cast, vetted, parents, digests, sent, checked⟩ :=
    (Core.ballots_run member admissible hears).votes a voted
  obtain ⟨rounds, quorum⟩ := Core.checkParents_eq_ok_iff.mp checked
  exact ⟨cast, vetted, parents, digests, sent, rounds, quorum⟩

/-- The votes of the primary are consistent. -/
theorem consistent (primary : CorrectPrimary committee)
    (noConflict : Throughout primary.node.advance primary.node.NoConflict {} primary.events) :
    Core.Consistent primary.state.votesCreated := by
  have start : primary.node.Recorded {} :=
    ⟨fun _ member => absurd member List.not_mem_nil, fun _ member => absurd member List.not_mem_nil,
      Nat.zero_le _⟩
  have kept := (primary.admissible.and noConflict).invariant primary.node.Recorded start
    fun s event recorded allowed => recorded.advance allowed.1 allowed.2
  exact kept.consistent

end CorrectPrimary

open CorrectPrimary

/-- The correct primaries of a committee. The byzantine authorities are too light to be valid, every other
one runs a primary, signatures of these primaries are not forged, and the runs stay within what is known to be
needed: no vote conflicts after its round was dropped, no certificate of round 0 is taken, and the own
headers have increasing rounds and workers of the committee. -/
structure Deployment [Primitives] (committee : Committee) (byzantine : Finset PublicKey)
    (primaries : Set (CorrectPrimary committee)) : Prop where
  noWrap : committee.NoWrap
  light : committee.weights.of byzantine < committee.validityThreshold.toNat
  covers : ∀ name ∈ committee.authorities.keys, name ∉ byzantine →
    ∃ primary ∈ primaries, primary.node.name = name
  stake : ∀ primary ∈ primaries, 0 < committee.stake primary.node.name
  agrees : BatchAgrees
  authentic : ∀ primary ∈ primaries, ∀ digest signature,
    Primitives.verifyStrict primary.node.name digest signature = true → primary.HasSigned digest
  collisionFree : CollisionFree (hashedFor (known primaries))
  avoids : Primitives.Avoids (hashedFor (known primaries)) committee.fixedDigests
  unambiguous : ∀ h ∈ known primaries, ∀ h' ∈ known primaries, ¬ h.Resplit h'
  noConflict : ∀ primary ∈ primaries,
    Throughout primary.node.advance primary.node.NoConflict {} primary.events
  fromRoundOne : ∀ primary ∈ primaries,
    Throughout primary.node.advance primary.node.FromRoundOne {} primary.events
  ownRounds : ∀ primary ∈ primaries,
    Throughout primary.node.advance primary.node.OwnRounds {} primary.events
  certifies : ∀ primary ∈ primaries, ∀ event ∈ primary.events, primary.node.Certifies event

namespace Deployment

section Committee

variable [Primitives] {committee : Committee} {byzantine : Finset PublicKey}
  {primaries : Set (CorrectPrimary committee)} {primary : CorrectPrimary committee}

/-- A certificate of a header that was heard of, above the genesis, that verifies. -/
structure Valid (primaries : Set (CorrectPrimary committee)) (c : Certificate) : Prop where
  verified : c.verify committee = .ok ()
  positive : 1 ≤ c.round
  heard : c.header ∈ known primaries

theorem hears (member : primary ∈ primaries) :
    ∀ event ∈ primary.events, ∀ h, event.header = some h → h ∈ known primaries :=
  fun event happened _ brings => .inl ⟨primary, member, event, happened, brings⟩

/-- A vetted header above the genesis was heard of, and its id is its digest. -/
theorem identified_of_vetted {h : Header} (vetted : h.Vetted committee (known primaries))
    (positive : 1 ≤ h.round) : h ∈ known primaries ∧ h.id = h.digest := by
  cases vetted with
  | identified heard id => exact ⟨heard, id⟩
  | genesis _ round => exact absurd round (Nat.one_le_iff_ne_zero.mp positive)
  | initial same => exact absurd (congrArg Header.round same) (Nat.one_le_iff_ne_zero.mp positive)

variable (deployed : Deployment committee byzantine primaries)
include deployed

/-! ## What is handed over -/

/-- **What a correct primary hands over is valid.** -/
theorem valid_of_handed (member : primary ∈ primaries) {c : Certificate}
    (handed : c ∈ primary.state.txConsensus) : Valid primaries c := by
  obtain ⟨verified, positive, vetted⟩ := primary.handed_vetted deployed.collisionFree deployed.avoids
    Set.subset_union_right deployed.agrees deployed.noWrap (deployed.stake primary member)
    (deployed.ownRounds primary member) (deployed.fromRoundOne primary member)
    (deployed.certifies primary member) (hears member) c handed
  exact ⟨verified, positive, (identified_of_vetted vetted positive).1⟩

theorem batchSound : BatchSound := fun digest votes => (deployed.agrees digest votes).mp

omit deployed in
theorem Valid.vetted {c : Certificate} (valid : Valid primaries c) :
    c.header.Vetted committee (known primaries) :=
  vetted_of_certificate_verify valid.heard valid.verified

theorem Valid.sound {c : Certificate} (valid : Valid primaries c) : c.Sound committee :=
  Certificate.sound_of_round_pos deployed.batchSound valid.verified valid.positive

/-- The digest of a valid certificate is not one of the genesis. -/
theorem Valid.not_genesis {c : Certificate} (valid : Valid primaries c) :
    ¬ committee.IsGenesisDigest c.digest := by
  rintro ⟨g, genesis, same⟩
  have inputs := Core.collisionFree_vetted deployed.collisionFree Set.subset_union_right
    ⟨g, Core.vetted_genesis genesis, rfl⟩ ⟨c, valid.vetted, rfl⟩ same
  have round := (Certificate.hashInput_inj inputs).2.1
  rw [(Certificate.round_of_mem_genesis genesis).1] at round
  exact absurd round.symm (Nat.one_le_iff_ne_zero.mp valid.positive)

/-- **Headers with one id have one content**, when their ids are their digests. -/
theorem sameContent_of_id {h h' : Header} (heard : h ∈ known primaries) (heard' : h' ∈ known primaries)
    (id : h.id = h.digest) (id' : h'.id = h'.digest) (same : h.id = h'.id) : h.SameContent h' := by
  have inputs : h.hashInput = h'.hashInput :=
    deployed.collisionFree ⟨_, .inr heard, .inl rfl⟩ ⟨_, .inr heard', .inl rfl⟩
      (id.symm.trans (same.trans id'))
  rcases Header.hashInput_eq_iff.mp inputs with content | resplit | resplit
  · exact content
  · exact absurd resplit (deployed.unambiguous _ heard _ heard')
  · exact absurd resplit (deployed.unambiguous _ heard' _ heard)

/-- Certificates of vetted headers above the genesis with one id have one content. -/
theorem content_eq_of_id {c c' : Certificate} (vetted : c.header.Vetted committee (known primaries))
    (vetted' : c'.header.Vetted committee (known primaries)) (positive : 1 ≤ c.round)
    (positive' : 1 ≤ c'.round) (same : c.header.id = c'.header.id) : c.content = c'.content := by
  obtain ⟨heard, id⟩ := identified_of_vetted vetted positive
  obtain ⟨heard', id'⟩ := identified_of_vetted vetted' positive'
  obtain ⟨author, round, payload, parents⟩ := deployed.sameContent_of_id heard heard' id id' same
  exact Certificate.content_eq_iff.mpr ⟨author, round, payload, parents, same⟩

/-- Certificates of vetted headers with one digest have one content. -/
theorem content_eq_of_digest {c c' : Certificate}
    (vetted : c.header.Vetted committee (known primaries))
    (vetted' : c'.header.Vetted committee (known primaries)) (positive : 1 ≤ c.round)
    (same : c.digest = c'.digest) : c.content = c'.content := by
  obtain ⟨id, round, -⟩ := Certificate.hashInput_inj (Core.collisionFree_vetted deployed.collisionFree
    Set.subset_union_right ⟨c, vetted, rfl⟩ ⟨c', vetted', rfl⟩ same)
  exact deployed.content_eq_of_id vetted vetted' positive (round ▸ positive) id

/-! ## The votes of correct primaries -/

/-- **A correct voter of a valid certificate has voted for its header.** -/
theorem voted_of_voter (member : primary ∈ primaries) {c : Certificate} (valid : Valid primaries c)
    (voter : primary.node.name ∈ c.voters) :
    ∃ a ∈ primary.state.votesCreated, a.2.digest = c.digest ∧
      (Certificate.mk a.1 []).content = c.content ∧ Ballot (known primaries) primary a := by
  obtain ⟨vote, inside, name⟩ := List.mem_map.mp (List.mem_toFinset.mp voter)
  have verified := Signature.verify_ok_iff.mp ((Valid.sound deployed valid).signatures vote inside)
  rw [name] at verified
  rcases deployed.authentic primary member _ _ verified with ⟨a, cast, same⟩ | ⟨h, proposed, same⟩
  · have ballot := primary.ballot (hears member) cast
    have digest : (Certificate.mk a.1 []).digest = c.digest := by
      rw [← same, ballot.cast]
      rfl
    have content := deployed.content_eq_of_digest valid.vetted ballot.vetted valid.positive digest.symm
    exact ⟨a, cast, same, content.symm, ballot⟩
  · -- the id of an own header is not the digest of a certificate above the genesis
    obtain ⟨id, author⟩ := primary.proposed_identified proposed
    have heard : h ∈ known primaries := hears member _ proposed h rfl
    have vetted : h.Vetted committee (known primaries) := .identified heard id (author ▸ primary.member)
    exact absurd (isGenesisDigest_of_clash deployed.collisionFree deployed.avoids vetted valid.vetted
      same.symm) (Valid.not_genesis deployed valid)

/-- Two valid certificates have a common voter that is correct. -/
theorem exists_common_primary {c c' : Certificate} (valid : Valid primaries c)
    (valid' : Valid primaries c') :
    ∃ primary ∈ primaries, primary.node.name ∈ c.voters ∧ primary.node.name ∈ c'.voters := by
  obtain ⟨name, authority, correct, voter, voter'⟩ := (Valid.sound deployed valid).exists_common_voter
    deployed.noWrap deployed.light (Valid.sound deployed valid')
  obtain ⟨primary, member, rfl⟩ := deployed.covers name authority correct
  exact ⟨primary, member, voter, voter'⟩

/-- **Valid certificates of one author and round have one content.** -/
theorem content_unique {c c' : Certificate} (valid : Valid primaries c) (valid' : Valid primaries c')
    (sameOrigin : c.origin = c'.origin) (sameRound : c.round = c'.round) : c.content = c'.content := by
  obtain ⟨primary, member, voter, voter'⟩ := deployed.exists_common_primary valid valid'
  obtain ⟨a, cast, -, content, ballot⟩ := deployed.voted_of_voter member valid voter
  obtain ⟨a', cast', -, content', ballot'⟩ := deployed.voted_of_voter member valid' voter'
  obtain ⟨origin, round, -, -, id⟩ := Certificate.content_eq_iff.mp content
  obtain ⟨origin', round', -, -, id'⟩ := Certificate.content_eq_iff.mp content'
  have agree := primary.consistent (deployed.noConflict primary member) a cast a' cast'
  rw [ballot.cast, ballot'.cast] at agree
  have ids : a.1.id = a'.1.id :=
    agree (origin.trans (sameOrigin.trans origin'.symm)) (round.trans (sameRound.trans round'.symm))
  exact deployed.content_eq_of_id valid.vetted valid'.vetted valid.positive valid'.positive
    (id.symm.trans (ids.trans id'))

/-! ## The pool -/

omit deployed in
/-- The certificates that the correct primaries hand over. -/
def handed (primaries : Set (CorrectPrimary committee)) : Set Certificate :=
  {c | ∃ primary ∈ primaries, c ∈ primary.state.txConsensus}

/-- **The parents of a valid certificate were handed over** by some correct primary, and they are a quorum of
the round before. -/
theorem Valid.parents {c : Certificate} (valid : Valid primaries c) :
    ∃ parents : List Certificate, parents.map Certificate.digest = c.header.parents.toList ∧
      (∀ p ∈ parents, p ∈ handed primaries ∨ p ∈ Certificate.genesis committee) ∧
      (∀ p ∈ parents, p.round + 1 = c.round) ∧
      committee.quorumThreshold ≤ committee.stakeOf parents := by
  obtain ⟨primary, member, voter, -⟩ := deployed.exists_common_primary valid valid
  obtain ⟨a, -, -, content, ballot⟩ := deployed.voted_of_voter member valid voter
  obtain ⟨-, round, -, same, -⟩ := Certificate.content_eq_iff.mp content
  obtain ⟨parents, digests, sent, rounds, quorum⟩ := ballot.founded
  have round : a.1.round = c.round := round
  have same : a.1.parents = c.header.parents := same
  refine ⟨parents, same ▸ digests, fun p inside => ?_, fun p inside => ?_, quorum⟩
  · exact (sent p inside).imp_left fun handed => ⟨primary, member, handed⟩
  · have next := rounds p inside
    have positive := valid.positive
    have bound := p.round_lt
    omega

/-- Certificates of one author and round that are handed over or of the genesis have one digest. -/
theorem digest_unique {p p' : Certificate}
    (known : p ∈ handed primaries ∨ p ∈ Certificate.genesis committee)
    (known' : p' ∈ handed primaries ∨ p' ∈ Certificate.genesis committee)
    (sameOrigin : p.origin = p'.origin) (sameRound : p.round = p'.round) : p.digest = p'.digest := by
  have positive : ∀ q ∈ handed primaries, q.round ≠ 0 := fun q ⟨primary, member, inside⟩ =>
    Nat.one_le_iff_ne_zero.mp (deployed.valid_of_handed member inside).positive
  rcases known with ⟨primary, member, inside⟩ | genesis
  · rcases known' with ⟨primary', member', inside'⟩ | genesis'
    · have content := deployed.content_unique (deployed.valid_of_handed member inside)
        (deployed.valid_of_handed member' inside') sameOrigin sameRound
      rw [← Certificate.content_digest, content, Certificate.content_digest]
    · exact absurd (sameRound.trans (Certificate.round_of_mem_genesis genesis').1)
        (positive p ⟨primary, member, inside⟩)
  · rcases known' with ⟨primary', member', inside'⟩ | genesis'
    · exact absurd (sameRound.symm.trans (Certificate.round_of_mem_genesis genesis).1)
        (positive p' ⟨primary', member', inside'⟩)
    · rw [Certificate.eq_of_mem_genesis genesis genesis' sameOrigin]

/-- **The certificates that the correct primaries hand over**, without votes and signatures, form a pool. -/
def pool : Pool committee where
  certificates := Certificate.content '' handed primaries
  round_pos := by
    rintro _ ⟨c, ⟨primary, member, inside⟩, rfl⟩
    exact (deployed.valid_of_handed member inside).positive
  unique := by
    rintro _ ⟨c, ⟨primary, member, inside⟩, rfl⟩ _ ⟨c', ⟨primary', member', inside'⟩, rfl⟩ origin round
    exact deployed.content_unique (deployed.valid_of_handed member inside)
      (deployed.valid_of_handed member' inside') origin round
  collisionFree := by
    refine (Core.collisionFree_vetted deployed.collisionFree Set.subset_union_right).mono ?_
    rintro _ ⟨c, ⟨d, ⟨primary, member, inside⟩, rfl⟩ | genesis, rfl⟩
    · exact ⟨d, (deployed.valid_of_handed member inside).vetted, rfl⟩
    · exact ⟨c, Core.vetted_genesis genesis, rfl⟩
  parents := by
    rintro _ ⟨c, ⟨primary, member, inside⟩, rfl⟩ digest isParent
    obtain ⟨parents, digests, sent, rounds, -⟩ :=
      Valid.parents deployed (deployed.valid_of_handed member inside)
    have listed : digest ∈ parents.map Certificate.digest := digests ▸ isParent
    obtain ⟨p, among, rfl⟩ := List.mem_map.mp listed
    rcases sent p among with handed | genesis
    · exact ⟨p.content, .inl ⟨p, handed, rfl⟩, rfl, rounds p among⟩
    · exact ⟨p, .inr genesis, rfl, rounds p among⟩
  quorum := by
    rintro _ ⟨c, ⟨primary, member, inside⟩, rfl⟩
    obtain ⟨parents, digests, sent, rounds, quorum⟩ :=
      Valid.parents deployed (deployed.valid_of_handed member inside)
    -- parents with different digests are of different authors
    have different : (parents.map Certificate.digest).Nodup := digests ▸ c.header.parents.nodup
    have distinct : (parents.map Certificate.origin).Nodup := by
      rw [List.Nodup, List.pairwise_map] at different ⊢
      refine different.imp_of_mem fun {p p'} among among' apart same => apart ?_
      refine deployed.digest_unique (sent p among) (sent p' among') same ?_
      have round := rounds p among
      have round' := rounds p' among'
      omega
    refine ⟨(parents.map Certificate.origin).toFinset, ?_, fun name isAuthor => ?_⟩
    · rw [← committee.weights.sum_map_eq_of distinct, List.map_map]
      exact (UInt32.le_iff_toNat_le.mp quorum).trans (committee.toNat_stakeOf_le parents)
    · obtain ⟨p, among, rfl⟩ := List.mem_map.mp (List.mem_toFinset.mp isAuthor)
      have isParent : p.digest ∈ c.header.parents.toList := digests ▸ List.mem_map_of_mem among
      rcases sent p among with handed | genesis
      · exact ⟨p.content, .inl ⟨p, handed, rfl⟩, rfl, isParent⟩
      · exact ⟨p, .inr genesis, rfl, isParent⟩

/-! ## The deliveries -/

/-- A certificate that a correct primary accepts from another one has a header some correct primary voted
for. -/
theorem vouched (member : primary ∈ primaries) :
    ∀ event ∈ primary.events, Core.Vouched committee (known primaries) event := by
  intro event happened
  unfold Core.Vouched
  split
  · next c =>
      intro accepted positive
      have valid : Valid primaries c := ⟨accepted, positive, hears member _ happened c.header rfl⟩
      obtain ⟨voter, among, voted, -⟩ := deployed.exists_common_primary valid valid
      obtain ⟨a, cast, -, content, -⟩ := deployed.voted_of_voter among valid voted
      have same : a.1.parents = c.header.parents := (Certificate.content_eq_iff.mp content).2.2.2.1
      exact same ▸ voter.attested_of_voted (hears among) cast
  · trivial

omit deployed in
/-- The order in which a primary hands certificates over. -/
theorem causal_of_vouched {headers : Set Header} (primary : CorrectPrimary committee)
    (collisionFree : CollisionFree (hashedFor headers))
    (avoids : Primitives.Avoids (hashedFor headers) committee.fixedDigests)
    (hears : ∀ event ∈ primary.events, ∀ h, event.header = some h → h ∈ headers)
    (vouched : ∀ event ∈ primary.events, Core.Vouched committee headers event) :
    Core.Causal committee primary.state.txConsensus := by
  obtain ⟨node, events, rfl, name, admissible⟩ := primary
  have allowed := (admissible.and (.of_forall hears _)).and (.of_forall vouched _)
  have kept := allowed.invariant
    (fun s => Core.Filed node.committee headers s ∧ Core.HandsOver node.committee headers s)
    ⟨Core.filed_start _, Core.handsOver_start _⟩ fun s event both allowed =>
      ⟨both.1.advance name allowed.1.1 allowed.1.2,
        both.2.advance collisionFree avoids both.1 name allowed.1.1 allowed.1.2 allowed.2⟩
  exact kept.2.causal

/-- **Each correct primary hands over a delivery from the pool.** -/
theorem delivery (member : primary ∈ primaries) {received : List Certificate}
    (sent : received <+: primary.state.txConsensus) :
    deployed.pool.Delivery (received.map Certificate.content) := by
  have causal := causal_of_vouched primary deployed.collisionFree deployed.avoids (hears member)
    (deployed.vouched member)
  obtain ⟨later, order⟩ := sent
  have among : ∀ c ∈ received, c ∈ handed primaries := fun c inside =>
    ⟨primary, member, order ▸ List.mem_append_left _ inside⟩
  constructor
  · intro c image
    obtain ⟨d, inside, rfl⟩ := List.mem_map.mp image
    exact ⟨d, among d inside, rfl⟩
  · intro before c after split p parent
    obtain ⟨front, rest, rfl, rfl, images⟩ := List.map_eq_append_iff.mp split
    obtain ⟨d, back, rfl, rfl, -⟩ := List.map_eq_cons_iff.mp images
    obtain ⟨-, ⟨q, ⟨other, otherMember, handed⟩, rfl⟩, isParent⟩ := parent
    have valid := deployed.valid_of_handed otherMember handed
    have positive := (deployed.valid_of_handed member
      (order ▸ List.mem_append_left later (List.mem_append_right front List.mem_cons_self))).positive
    rw [List.append_assoc, List.cons_append] at order
    rcases causal front d (back ++ later) order.symm positive q.digest isParent with
      genesis | ⟨q', earlier, same⟩
    · exact absurd genesis (Valid.not_genesis deployed valid)
    · have valid' := deployed.valid_of_handed member (order ▸ List.mem_append_left _ earlier)
      have content := deployed.content_eq_of_digest valid'.vetted valid.vetted valid'.positive same
      exact content ▸ List.mem_map_of_mem earlier

/-! ## Agreement -/

/-- **The leaders that correct primaries commit agree.** In every run of a committee, with any behaviour of
the byzantine authorities and whatever part of its certificates each consensus has received, when no round
overflows with `gc_depth`, the consensus of any two correct primaries does not fail, and the leaders that one
has committed are the first ones of the other, up to the votes that certify them. -/
theorem leaders_alike {consensus : Consensus} (ours : consensus.committee = committee)
    {other : CorrectPrimary committee} (member : primary ∈ primaries) (member' : other ∈ primaries)
    {received received' : List Certificate} (order : received <+: primary.state.txConsensus)
    (order' : received' <+: other.state.txConsensus) (fits : consensus.NoOverflow received)
    (fits' : consensus.NoOverflow received') :
    ∃ state subDags state' subDags', consensus.run received = some (state, subDags) ∧
      consensus.run received' = some (state', subDags') ∧
      ((Consensus.leaders subDags).map Certificate.content <+:
          (Consensus.leaders subDags').map Certificate.content ∨
        (Consensus.leaders subDags').map Certificate.content <+:
          (Consensus.leaders subDags).map Certificate.content) := by
  have noWrap := deployed.noWrap
  have delivery := deployed.delivery member order
  have delivery' := deployed.delivery member' order'
  generalize deployed.pool = pool at delivery delivery'
  subst ours
  obtain ⟨state, subDags, computed, committed⟩ := Consensus.run_leaders noWrap delivery fits.content
  obtain ⟨state', subDags', computed', committed'⟩ := Consensus.run_leaders noWrap delivery' fits'.content
  rw [Consensus.run_content] at computed computed'
  obtain ⟨⟨final, output⟩, run, same⟩ := Option.map_eq_some_iff.mp computed
  obtain ⟨⟨final', output'⟩, run', same'⟩ := Option.map_eq_some_iff.mp computed'
  obtain ⟨rfl, rfl⟩ := Prod.mk.inj same
  obtain ⟨rfl, rfl⟩ := Prod.mk.inj same'
  refine ⟨final, output, final', output', run, run', ?_⟩
  have agree := committed.prefix noWrap committed'
  rwa [Consensus.leaders_content, Consensus.leaders_content] at agree

end Committee

end Deployment

end Tusk
