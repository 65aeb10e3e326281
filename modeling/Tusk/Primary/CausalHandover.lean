import Tusk.Primary.StoreContents

/-!
# Certificates are handed to the consensus after their parents

The Core sends a certificate to the consensus when every parent is a genesis certificate or its
digest is a key of the store. What is under the key may be a header, and the header of the
certificate may not have been checked by this primary at all. It was checked by a correct primary
that voted for it, and there the parents were certificates. So a header in the place of a parent
would share its digest with a certificate, which happens at the genesis only
(`isGenesisDigest_of_clash`).

A certificate that the primary makes itself is not verified. Its header has parents that the
`Proposer` was sent, and these had been handed to the consensus before.
-/

set_option autoImplicit false

namespace Tusk

open Lib

namespace Core

variable [Primitives]

/-! ## Parents that were sent -/

/-- The digest of a genesis certificate or of one that was sent. -/
def Sent (committee : Committee) (sent : List Certificate) (digest : Digest) : Prop :=
  committee.IsGenesisDigest digest ∨ ∃ p ∈ sent, p.digest = digest

/-- The certificates of positive rounds are sent after their parents. -/
def Causal (committee : Committee) (sent : List Certificate) : Prop :=
  ∀ before c after, sent = before ++ c :: after → 1 ≤ c.round →
    ∀ digest ∈ c.header.parents, Sent committee before digest

/-- The parents were checked by a primary that voted for the header, or they were sent. -/
def Trusted (committee : Committee) (known : Set Header) (sent : List Certificate)
    (c : Certificate) : Prop :=
  1 ≤ c.round → (∀ digest ∈ c.header.parents, Attested committee known digest) ∨
    ∀ digest ∈ c.header.parents, Sent committee sent digest

section Sending

variable {committee : Committee} {known : Set Header} {sent sent' : List Certificate}

theorem Sent.mono {digest : Digest} (parent : Sent committee sent digest) (more : sent ⊆ sent') :
    Sent committee sent' digest := by
  rcases parent with genesis | ⟨p, member, same⟩
  · exact .inl genesis
  · exact .inr ⟨p, more member, same⟩

theorem Trusted.mono {c : Certificate} (trusted : Trusted committee known sent c)
    (more : sent ⊆ sent') : Trusted committee known sent' c := by
  intro positive
  rcases trusted positive with attested | parents
  · exact .inl attested
  · exact .inr fun digest member => (parents digest member).mono more

theorem Causal.append {c : Certificate} (causal : Causal committee sent)
    (parents : 1 ≤ c.round → ∀ digest ∈ c.header.parents, Sent committee sent digest) :
    Causal committee (sent ++ [c]) := by
  intro before c' after split positive
  rcases List.eq_nil_or_concat after with rfl | ⟨front, last, rfl⟩
  · obtain ⟨rfl, same⟩ := List.append_inj' split rfl
    cases same
    exact parents positive
  · rw [List.concat_eq_append, ← List.cons_append, ← List.append_assoc] at split
    exact causal before c' front (List.append_inj' split rfl).1 positive

/-- **A parent with a key in the store was sent.** -/
theorem sent_of_hasParent {node : Core} {s : State}
    (collisionFree : CollisionFree (hashedFor known))
    (avoids : Primitives.Avoids (hashedFor known) node.committee.fixedDigests)
    (filed : Filed node.committee known s) {digest : Digest}
    (attested : Attested node.committee known digest)
    (present : node.HasParent s.store digest) :
    Sent node.committee s.txConsensus digest := by
  rcases present with genesis | stored
  · exact .inl (isGenesisDigest_of_isGenesis genesis)
  · obtain ⟨value, found⟩ := Option.isSome_iff_exists.mp stored
    cases filed.store _ _ found with
    | certificate key _ delivered => exact .inr ⟨_, delivered, (Digest.asRef_injective key).symm⟩
    | empty longer => exact absurd rfl (longer digest)
    | header key vetted =>
        rcases attested with genesis | ⟨p, vetted', rfl⟩
        · exact .inl genesis
        · exact .inl (isGenesisDigest_of_clash collisionFree avoids vetted vetted'
            (Digest.asRef_injective key))

end Sending

/-! ## The invariant -/

/-- What is known of the certificates on their way to the consensus. -/
structure HandsOver (committee : Committee) (known : Set Header) (s : State) : Prop where
  causal : Causal committee s.txConsensus
  waiting : ∀ c ∈ s.txCertificateWaiter, Trusted committee known s.txConsensus c
  current : ∀ digest ∈ s.currentHeader.parents, Sent committee s.txConsensus digest
  aggregated : ∀ round aggregator, HashMap.get s.certificatesAggregators round = some aggregator →
    ∀ digest ∈ aggregator.certificates, ∃ p ∈ s.txConsensus, p.digest = digest
  proposed : ∀ proposal ∈ s.txProposer, ∀ digest ∈ proposal.1,
    ∃ p ∈ s.txConsensus, p.digest = digest

variable {node : Core} {known : Set Header}

/-- The digests that an aggregator keeps or returns belong to certificates that were sent. -/
theorem HandsOver.aggregated_append {s : State} {c : Certificate}
    (handsOver : HandsOver node.committee known s) {digest : Digest}
    (member : digest ∈ (((HashMap.get s.certificatesAggregators c.round).getD .new).append c
        node.committee).1.certificates ∨
      ∃ parents, (((HashMap.get s.certificatesAggregators c.round).getD .new).append c
        node.committee).2 = some parents ∧ digest ∈ parents) :
    ∃ p ∈ s.txConsensus ++ [c], p.digest = digest := by
  rcases CertificatesAggregator.mem_of_mem_append member with old | rfl
  · cases found : HashMap.get s.certificatesAggregators c.round with
    | none =>
        rw [found] at old
        exact absurd old List.not_mem_nil
    | some aggregator =>
        rw [found] at old
        obtain ⟨p, earlier, same⟩ := handsOver.aggregated _ _ found digest old
        exact ⟨p, List.mem_append_left _ earlier, same⟩
  · exact ⟨c, List.mem_append_right _ (List.mem_singleton_self c), rfl⟩

/-- Handing over a certificate whose parents were sent. -/
theorem HandsOver.deliver {s : State} {c : Certificate}
    (handsOver : HandsOver node.committee known s)
    (parents : 1 ≤ c.round → ∀ digest ∈ c.header.parents,
      Sent node.committee s.txConsensus digest) :
    HandsOver node.committee known (s.deliver node.committee c) where
  causal := handsOver.causal.append parents
  waiting c' member := (handsOver.waiting c' member).mono (List.subset_append_left ..)
  current digest member := (handsOver.current digest member).mono (List.subset_append_left ..)
  aggregated := by
    intro round aggregator found digest member
    have found' : HashMap.get (HashMap.insert s.certificatesAggregators c.round
        (((HashMap.get s.certificatesAggregators c.round).getD .new).append c
          node.committee).1) round = some aggregator := found
    rw [HashMap.get_insert] at found'
    split at found'
    · cases found'
      exact handsOver.aggregated_append (.inl member)
    · obtain ⟨p, earlier, same⟩ := handsOver.aggregated round aggregator found' digest member
      exact ⟨p, List.mem_append_left _ earlier, same⟩
  proposed := by
    intro proposal member digest inside
    rcases List.mem_append.mp member with old | new
    · obtain ⟨p, earlier, same⟩ := handsOver.proposed proposal old digest inside
      exact ⟨p, List.mem_append_left _ earlier, same⟩
    · obtain ⟨parents, returned, rfl⟩ := List.mem_map.mp new
      exact handsOver.aggregated_append (.inr ⟨parents, Option.mem_toList.mp returned, inside⟩)

theorem Moves.txConsensus_subset {handled : Header → Prop} {carried : Certificate → Prop}
    {s s' : State} (moves : node.Moves handled carried s s') :
    s.txConsensus ⊆ s'.txConsensus := by
  cases moves with
  | check _ checks => cases checks <;> exact fun _ => id
  | deliver => exact List.subset_append_left ..
  | _ => exact fun _ => id

/-- **A move hands certificates over after their parents** when the certificates at hand are
trusted. -/
theorem HandsOver.moves {handled : Header → Prop} {carried : Certificate → Prop} {s s' : State}
    (collisionFree : CollisionFree (hashedFor known))
    (avoids : Primitives.Avoids (hashedFor known) node.committee.fixedDigests)
    (filed : Filed node.committee known s)
    (trusted : ∀ c, carried c → Trusted node.committee known s.txConsensus c)
    (moves : node.Moves handled carried s s') (handsOver : HandsOver node.committee known s) :
    HandsOver node.committee known s' := by
  obtain ⟨causal, waiting, current, aggregated, proposed⟩ := handsOver
  cases moves with
  | check _ checks => cases checks <;> exact ⟨causal, waiting, current, aggregated, proposed⟩
  | @suspend _ c subject =>
      refine ⟨causal, fun c' member => ?_, current, aggregated, proposed⟩
      rcases List.mem_append.mp member with old | new
      · exact waiting c' old
      · obtain rfl := List.mem_singleton.mp new
        exact trusted _ subject
  | @deliver _ c subject parents =>
      apply HandsOver.deliver ⟨causal, waiting, current, aggregated, proposed⟩
      intro positive
      rcases trusted c subject positive with attested | sent
      · intro digest member
        exact sent_of_hasParent collisionFree avoids filed (attested digest member)
          (parents digest member)
      · exact sent
  | _ => exact ⟨causal, waiting, current, aggregated, proposed⟩

/-- The certificates of positive rounds that come from other primaries have parents that were
checked. -/
def Vouched (committee : Committee) (known : Set Header) : Event → Prop
  | .core (.primaries (.certificate c)) => c.verify committee = .ok () → 1 ≤ c.round →
      ∀ digest ∈ c.header.parents, Attested committee known digest
  | _ => True

/-- The `Proposer` takes its parents from the genesis or from what it was sent. -/
theorem HandsOver.opened {s : State} {input : Input}
    (handsOver : HandsOver node.committee known s) (admissible : node.Admissible s (.core input)) :
    HandsOver node.committee known (s.opened input) := by
  cases input with
  | proposer h =>
      obtain ⟨causal, waiting, current, aggregated, proposed⟩ := handsOver
      refine ⟨causal, waiting, fun digest member => ?_, aggregated, proposed⟩
      have proposes : node.Proposes s h := admissible
      obtain ⟨proposal, source, parents, -⟩ := proposes.parents
      have inside : digest ∈ proposal.1 := by
        have member' : digest ∈ h.parents := member
        rw [parents] at member'
        exact BTreeSet.mem_ofList.mp member'
      rcases List.mem_cons.mp source with rfl | earlier
      · exact .inl (isGenesisDigest_of_isGenesis inside)
      · exact .inr (proposed proposal earlier digest inside)
  | _ => exact handsOver

/-- The certificates processed at a message are trusted. -/
theorem HandsOver.trusted {s : State} {input : Input} {c : Certificate}
    (handsOver : HandsOver node.committee known s) (admissible : node.Admissible s (.core input))
    (vouched : Vouched node.committee known (.core input)) (subject : node.Carried s input c) :
    Trusted node.committee known (s.opened input).txConsensus c := by
  rcases subject with carries | ⟨-, header⟩
  · cases carries with
    | primaries sane =>
        obtain ⟨_, -, accepted⟩ := bind_eq_ok_iff.mp sane
        exact fun positive => .inl (vouched accepted positive)
    | certificateWaiter => exact handsOver.waiting c admissible.1
  · intro _
    rw [header]
    exact .inr (handsOver.opened admissible).current

/-- What is known during the step that processes a message received at `s`. -/
structure Handing (node : Core) (known : Set Header) (s : State) (input : Input) (t : State) :
    Prop where
  filed : Filed node.committee known t
  handsOver : HandsOver node.committee known t
  trusted : ∀ c, node.Carried s input c → Trusted node.committee known t.txConsensus c

/-- **An event keeps the order of the hand-over.** -/
theorem HandsOver.advance {s : State} {event : Event}
    (collisionFree : CollisionFree (hashedFor known))
    (avoids : Primitives.Avoids (hashedFor known) node.committee.fixedDigests)
    (handsOver : HandsOver node.committee known s) (filed : Filed node.committee known s)
    (member : node.name ∈ node.committee.authorities.keys) (admissible : node.Admissible s event)
    (heard : ∀ h, event.header = some h → h ∈ known)
    (vouched : Vouched node.committee known event) :
    HandsOver node.committee known (node.advance s event) := by
  obtain ⟨causal, waiting, current, aggregated, proposed⟩ := handsOver
  cases event with
  | batch => exact ⟨causal, waiting, current, aggregated, proposed⟩
  | consensus => exact ⟨causal, waiting, current, aggregated, proposed⟩
  | core input =>
      have handsOver : HandsOver node.committee known s :=
        ⟨causal, waiting, current, aggregated, proposed⟩
      refine advance_core handsOver fun _ => ?_
      have start : Handing node known s input (s.opened input) :=
        ⟨filed.opened member admissible heard, handsOver.opened admissible,
          fun _ => handsOver.trusted admissible vouched⟩
      apply step_invariant_settles start
      · intro t t' moves handing
        exact ⟨filed.moves_of_step member admissible heard moves handing.filed,
          handing.handsOver.moves collisionFree avoids handing.filed handing.trusted moves,
          fun c subject => (handing.trusted c subject).mono moves.txConsensus_subset⟩
      · intro t t' settles handing
        obtain ⟨causal, waiting, current, aggregated, proposed⟩ := handing.handsOver
        cases settles with
        | settle _ _ _ _ _ kept =>
            exact ⟨causal, waiting, current,
              fun round aggregator found => aggregated round aggregator (kept _ _ found), proposed⟩

theorem handsOver_start (committee : Committee) : HandsOver committee known {} where
  causal before c after split := absurd split (by simp)
  waiting _ member := absurd member List.not_mem_nil
  current _ member := absurd member List.not_mem_nil
  aggregated round _ found := nomatch (HashMap.get_empty round).symm.trans found
  proposed _ member := absurd member List.not_mem_nil

end Core

/-! ## Correct primaries -/

/-- A correct primary of a committee and what happened at it. -/
structure CorrectPrimary [Primitives] (committee : Committee) where
  node : Core
  events : List Core.Event
  ofCommittee : node.committee = committee
  member : node.name ∈ committee.authorities.keys
  admissible : Throughout node.advance node.Admissible {} events

namespace CorrectPrimary

variable [Primitives] {committee : Committee}

/-- The state of the primary at the end. -/
def state (primary : CorrectPrimary committee) : Core.State := primary.node.run primary.events

/-- The headers that some correct primaries heard of. -/
def heard (primaries : Set (CorrectPrimary committee)) : Set Header :=
  {h | ∃ primary ∈ primaries, ∃ event ∈ primary.events, event.header = some h}

/-- Everything a correct primary stores is filed. -/
theorem filed {known : Set Header} (primary : CorrectPrimary committee)
    (hears : ∀ event ∈ primary.events, ∀ h, event.header = some h → h ∈ known) :
    Core.Filed committee known primary.state := by
  obtain ⟨node, events, rfl, member, admissible⟩ := primary
  have allowed := admissible.and (.of_forall hears _)
  exact allowed.invariant (Core.Filed node.committee known) (Core.filed_start _)
    fun s event filed both => filed.advance member both.1 both.2

/-- A header that a correct primary voted for has certificates as parents. -/
theorem attested_of_voted {known : Set Header} (primary : CorrectPrimary committee)
    (hears : ∀ event ∈ primary.events, ∀ h, event.header = some h → h ∈ known) {h : Header}
    {vote : Vote} (voted : (h, vote) ∈ primary.state.votesCreated) :
    ∀ digest ∈ h.parents, Attested committee known digest :=
  (primary.filed hears).votes _ voted

/-- **A correct primary hands certificates to the consensus after their parents**, when each
certificate that another primary sends has a header that some correct primary voted for. -/
theorem causal_handover {primaries : Set (CorrectPrimary committee)}
    (collisionFree : CollisionFree (hashedFor (heard primaries)))
    (avoids : Primitives.Avoids (hashedFor (heard primaries)) committee.fixedDigests)
    (vouched : ∀ primary ∈ primaries, ∀ c,
      .core (.primaries (.certificate c)) ∈ primary.events → c.verify committee = .ok () →
        1 ≤ c.round → ∃ voter ∈ primaries, ∃ vote, (c.header, vote) ∈ voter.state.votesCreated)
    {primary : CorrectPrimary committee} (member : primary ∈ primaries) :
    Core.Causal committee primary.state.txConsensus := by
  have hears : ∀ primary ∈ primaries, ∀ event ∈ primary.events, ∀ h, event.header = some h →
      h ∈ heard primaries := fun primary member event happened h brings =>
    ⟨primary, member, event, happened, brings⟩
  have checked : ∀ event ∈ primary.events,
      Core.Vouched committee (heard primaries) event := by
    intro event happened
    unfold Core.Vouched
    split
    · next c =>
        intro accepted positive
        obtain ⟨voter, voterMember, vote, voted⟩ := vouched primary member c happened accepted
          positive
        exact voter.attested_of_voted (hears voter voterMember) voted
    · trivial
  have hears' := hears primary member
  clear hears vouched member
  obtain ⟨node, events, rfl, name, admissible⟩ := primary
  have allowed := (admissible.and (.of_forall hears' _)).and
    (.of_forall checked _)
  have kept := allowed.invariant (fun s => Core.Filed node.committee (heard primaries) s ∧
      Core.HandsOver node.committee (heard primaries) s)
    ⟨Core.filed_start _, Core.handsOver_start _⟩ fun s event both allowed =>
      ⟨both.1.advance name allowed.1.1 allowed.1.2,
        both.2.advance collisionFree avoids both.1 name allowed.1.1 allowed.1.2 allowed.2⟩
  exact kept.2.causal

end CorrectPrimary

/-! ## A certificate that arrives before its parent -/

namespace CorrectPrimary

/-- Two authorities, of which the first alone is a quorum. -/
def twoAuthorities : Committee where
  authorities := ⟨[(⟨1⟩, .ofStake 3), (⟨2⟩, .ofStake 1)], by decide⟩

/-- A primary of that committee. -/
def primaryOf (name : PublicKey) : Core where
  name := name
  committee := twoAuthorities
  gcDepth := 50
  requestSignature := nameSignature name

section TwoAuthorities

local instance allSign : Primitives := executable fun _ _ => true

/-- The headers of the first authority, with the certificates it makes of them. -/
def leading : ℕ → Header × Certificate
  | 0 => (default, .genesisOf ⟨1⟩)
  | r + 1 =>
      let parents := if r = 0 then (primaryOf ⟨1⟩).genesis.map Prod.fst else [(leading r).2.digest]
      let header := Header.new ⟨1⟩ ((r + 1) % 2 ^ 64) ∅ (.ofList parents) (nameSignature ⟨1⟩)
        (Nat.mod_lt _ (by decide))
      let vote := Vote.new header ⟨1⟩ (nameSignature ⟨1⟩)
      (header, { header := header, votes := [(⟨1⟩, vote.signature)] })

/-- The first authority proposes two headers. -/
def leader : CorrectPrimary twoAuthorities where
  node := primaryOf ⟨1⟩
  events := [.core (.proposer (leading 1).1), .core (.proposer (leading 2).1)]
  ofCommittee := rfl
  member := by decide
  admissible := by decide +kernel

/-- The second authority receives the certificates in the wrong order. -/
def follower : CorrectPrimary twoAuthorities where
  node := primaryOf ⟨2⟩
  events := [.core (.primaries (.certificate (leading 2).2)),
    .core (.primaries (.certificate (leading 1).2)), .core (.certificateWaiter (leading 2).2)]
  ofCommittee := rfl
  member := by decide
  admissible := by decide +kernel

/-- The byte strings hashed for the headers of both. -/
def leadingInputs : List (List UInt8) :=
  [default, (leading 1).1, (leading 2).1].flatMap fun h =>
    [h.hashInput, certifiedBytes h.id h.round h.author]

theorem mem_leadingInputs {bytes : List UInt8}
    (hashed : bytes ∈ hashedFor (heard {leader, follower})) : bytes ∈ leadingInputs := by
  have brought : ∀ event ∈ leader.events ++ follower.events,
      event.header ∈ [some (leading 1).1, some (leading 2).1] := by decide +kernel
  obtain ⟨h, known, input⟩ := hashed
  apply List.mem_flatMap.mpr
  refine ⟨h, ?_, by simpa using input⟩
  rcases known with rfl | ⟨primary, member, event, happened, brings⟩
  · exact List.mem_cons_self ..
  · have inside : event ∈ leader.events ++ follower.events := by
      rcases member with rfl | rfl
      · exact List.mem_append_left _ happened
      · exact List.mem_append_right _ happened
    have found := brought event inside
    rw [brings] at found
    exact List.mem_cons_of_mem _ (by simpa using found)

theorem causal_handover_follower : Core.Causal twoAuthorities follower.state.txConsensus := by
  have member : follower ∈ ({leader, follower} : Set (CorrectPrimary twoAuthorities)) := .inr rfl
  refine causal_handover ?_ ?_ ?_ member
  · exact collisionFree_of_list leadingInputs (fun _ => mem_leadingInputs) (by decide +kernel)
  · have outside : ∀ bytes ∈ leadingInputs, digitHash bytes ≠ default ∧
        ∀ name ∈ twoAuthorities.authorities.keys, (digitHash bytes).word ≠ name.word := by
      decide +kernel
    intro bytes hashed reached
    obtain ⟨nonzero, others⟩ := outside bytes (mem_leadingInputs hashed)
    rcases reached with zero | ⟨name, authority, same⟩
    · exact nonzero zero
    · exact others name authority same
  · have voted : ∀ h ∈ [(leading 1).1, (leading 2).1],
        (h, (primaryOf ⟨1⟩).voteFor h) ∈ leader.state.votesCreated := by decide +kernel
    intro primary isMember c happened accepted positive
    refine ⟨leader, .inl rfl, (primaryOf ⟨1⟩).voteFor c.header, voted c.header ?_⟩
    rcases isMember with rfl | rfl
    · simp [leader] at happened
    · simp only [follower, List.mem_cons, Core.Event.core.injEq, Core.Input.primaries.injEq,
        PrimaryMessage.certificate.injEq, List.not_mem_nil, or_false, reduceCtorEq] at happened
      rcases happened with rfl | rfl
      · exact .tail _ (.head _)
      · exact .head _

end TwoAuthorities

end CorrectPrimary

end Tusk
