import Tusk.Primary.AssembledCertificates
import Tusk.Primary.PositiveRounds

/-!
# The certificates that a primary hands over

A certificate comes to the consensus from another primary, from the waiter, or from the votes for the
current header of this primary. A certificate of the first kind was verified when it arrived, and so was one
that waits. The primary does not verify what it makes itself. It counts the votes one by one, its own vote
without any check, and hands the certificate over when they are enough.

From its first own header on, the votes that a primary has counted are valid votes for its current header
(`Balloting`). So a certificate it makes is one that every primary would accept, and all certificates that
are handed to the consensus verify (`hands_over_verified`).
-/

set_option autoImplicit false

namespace Tusk.Core

open Lib

section Runs

variable [Primitives] (node : Core)

/-- A header whose workers are in the committee and whose signatures by this primary verify. -/
structure Certifiable (h : Header) : Prop where
  workers : ∀ workerId ∈ h.payload.values,
    ∃ addresses, node.committee.worker node.name workerId = .ok addresses
  header : Primitives.verifyStrict node.name h.id (node.requestSignature h.id) = true
  vote : Primitives.verifyStrict node.name (node.voteFor h).digest (node.voteFor h).signature = true

/-- The `Proposer` makes headers that can be certified. -/
def Certifies : Event → Prop
  | .core (.proposer h) => node.Certifiable h
  | _ => True

/-- The votes that are counted are valid votes for the current header, unless it is the header a primary
starts with, and the certificates that were made of them verify. -/
structure Balloting (s : State) : Prop where
  counts : s.currentHeader = default ∨ ∃ voters, node.name ∈ voters ∧
    s.currentHeader.verify node.committee = .ok () ∧ node.Tallying s.currentHeader voters s
  verified : ∀ c, (node.others, .certificate c) ∈ s.network → c.verify node.committee = .ok ()

/-- A certificate that verifies or was made by this primary. -/
def Genuine (s : State) (c : Certificate) : Prop :=
  c.verify node.committee = .ok () ∨ (node.others, .certificate c) ∈ s.network

/-- The certificates that were handed over and those that wait are genuine. -/
structure HandsGenuine (s : State) : Prop where
  consensus : ∀ c ∈ s.txConsensus, node.Genuine s c
  waiting : ∀ c ∈ s.txCertificateWaiter, node.Genuine s c

variable {node} {s t t' : State} {input : Input} {event : Event} {known : Set Header}

theorem Genuine.mono {c : Certificate} (genuine : node.Genuine s c) (more : s.network ⊆ t.network) :
    node.Genuine t c :=
  genuine.imp_right fun made => more made

/-! ## What is handed over -/

/-- What is known during the step that processes a message received at `s`. -/
structure Handling (node : Core) (s t : State) : Prop where
  genuine : node.HandsGenuine t
  more : s.network ⊆ t.network

/-- **An act hands over genuine certificates.** -/
theorem Handling.acts (before : node.HandsGenuine s) (admissible : node.Admissible s (.core input))
    (acts : node.Acts s input t t') (handling : node.Handling s t) : node.Handling s t' := by
  obtain ⟨⟨consensus, waiting⟩, more⟩ := handling
  have later := acts.network_subset
  have atHand : ∀ c, node.CertificateAtHand s input t c → node.Genuine t c := by
    rintro c (carries | ⟨-, -, made⟩)
    · cases carries with
      | primaries sane =>
          obtain ⟨_, -, accepted⟩ := bind_eq_ok_iff.mp sane
          exact .inl accepted
      | certificateWaiter => exact (before.waiting c admissible.1).mono more
    · exact .inr made
  refine ⟨⟨fun c inside => ?_, fun c inside => ?_⟩, fun _ sent => later (more sent)⟩
  · rcases acts.delivered inside with old | ⟨subject, -⟩
    · exact (consensus c old).mono later
    · exact (atHand c subject).mono later
  · rcases acts.waiting inside with old | ⟨subject, -⟩
    · exact (waiting c old).mono later
    · exact (atHand c subject).mono later

/-- **An event hands over genuine certificates.** -/
theorem HandsGenuine.advance (genuine : node.HandsGenuine s) (admissible : node.Admissible s event) :
    node.HandsGenuine (node.advance s event) := by
  cases event with
  | batch => exact ⟨genuine.consensus, genuine.waiting⟩
  | consensus => exact ⟨genuine.consensus, genuine.waiting⟩
  | core input =>
      refine advance_core genuine fun _ => ?_
      have start : node.Handling s (s.opened input) := by
        cases input <;> exact ⟨⟨genuine.consensus, genuine.waiting⟩, fun _ sent => sent⟩
      refine step_acts_settles start (fun t t' => Handling.acts genuine admissible) ?_
      rintro t t' settles ⟨⟨consensus, waiting⟩, -⟩
      cases settles
      exact ⟨consensus, waiting⟩

/-! ## What is made -/

/-- What a step does to the current header and to the certificates that were made. -/
structure Making (node : Core) (s : State) (input : Input) (t : State) : Prop where
  current : t.currentHeader = (s.opened input).currentHeader
  made : ∀ c, (node.others, .certificate c) ∈ t.network →
    (node.others, .certificate c) ∈ s.network ∨ c.header = (s.opened input).currentHeader

/-- **A step makes certificates of the current header only.** -/
theorem making_step (s : State) (input : Input) : node.Making s input (node.step s input) := by
  have start : node.Making s input (s.opened input) := by
    cases input <;> exact ⟨rfl, fun _ sent => .inl sent⟩
  apply step_acts_settles start
  · rintro t t' acts ⟨current, made⟩
    refine ⟨acts.currentHeader.trans current, fun c sent => ?_⟩
    rcases acts.broadcast sent with old | ⟨v, aggregator, -, appended⟩
    · exact made c old
    · exact .inr (((VotesAggregator.append_ok appended).2 c rfl).trans current)
  · rintro t t' settles ⟨current, made⟩
    cases settles
    exact ⟨current, made⟩

/-- What is known of a primary at the messages it takes. -/
structure Upright (node : Core) (known : Set Header) (s : State) : Prop where
  filed : Filed node.committee known s
  handed : Handed node.committee known s
  proposable : node.Proposable s
  behind : node.Behind s
  made : node.MadePositive s

/-- **An event keeps what is known of the primary.** -/
theorem Upright.advance (upright : node.Upright known s)
    (member : node.name ∈ node.committee.authorities.keys) (admissible : node.Admissible s event)
    (ownRounds : node.OwnRounds s event) (assembles : node.AssemblesFromRoundOne s event)
    (heard : ∀ h, event.header = some h → h ∈ known) : node.Upright known (node.advance s event) where
  filed := upright.filed.advance member admissible heard
  handed := upright.handed.advance upright.filed member admissible heard
  proposable := upright.proposable.advance admissible
  behind := upright.behind.advance admissible ownRounds
  made := upright.made.advance assembles

section Counting

variable (collisionFree : CollisionFree (hashedFor known))
  (avoids : Primitives.Avoids (hashedFor known) node.committee.fixedDigests)
  (genesisKnown : genesisHeaders node.committee ⊆ known) (agrees : BatchAgrees)
  (noWrap : node.committee.NoWrap) (stake : 0 < node.committee.stake node.name)

include collisionFree avoids genesisKnown agrees noWrap stake

/-- **At a header of the `Proposer` the count starts** with the own vote. -/
theorem Upright.proposed {h : Header} (upright : node.Upright known s) (proposes : node.Proposes s h)
    (next : s.currentHeader.round < h.round) (certifiable : node.Certifiable h) :
    h.verify node.committee = .ok () ∧ node.Tallying h {node.name} (node.step s (.proposer h)) := by
  obtain ⟨passes, nonempty⟩ := passes_of_proposes upright.filed upright.handed upright.proposable
    collisionFree avoids genesisKnown (quorumThreshold_le_totalVotes noWrap stake) proposes
  have accepted : h.verify node.committee = .ok () := by
    refine Header.verify_ok_iff.mpr ⟨proposes.id.symm, proposes.author ▸ stake,
      proposes.author ▸ certifiable.workers, ?_⟩
    rw [proposes.author, proposes.signature]
    exact certifiable.header
  exact ⟨accepted, tallying_of_proposal noWrap agrees accepted upright.behind proposes.author next
    passes nonempty ⟨stake, certifiable.vote⟩⟩

/-- The count goes on at a message. -/
theorem Balloting.counts_step (balloting : node.Balloting s) (upright : node.Upright known s)
    (running : s.halted = none) (admissible : node.Admissible s (.core input))
    (ownRounds : node.OwnRounds s (.core input)) (certifies : node.Certifies (.core input)) :
    (node.step s input).currentHeader = default ∨ ∃ voters, node.name ∈ voters ∧
      (node.step s input).currentHeader.verify node.committee = .ok () ∧
        node.Tallying (node.step s input).currentHeader voters (node.step s input) := by
  have current := (node.making_step s input).current
  by_cases proposal : ∃ h, input = .proposer h
  · obtain ⟨h, rfl⟩ := proposal
    obtain ⟨accepted, tallying⟩ := upright.proposed collisionFree avoids genesisKnown agrees noWrap
      stake admissible ownRounds certifies
    have same : (node.step s (.proposer h)).currentHeader = h := current
    rw [same]
    exact .inr ⟨_, Finset.mem_singleton_self _, accepted, tallying⟩
  · have same : s.opened input = s := by
      cases input with
      | proposer h => exact absurd ⟨h, rfl⟩ proposal
      | _ => rfl
    rw [same] at current
    rw [current]
    rcases balloting.counts with initial | ⟨voters, own, accepted, tallying⟩
    · exact .inl initial
    · rcases tallying.step noWrap agrees accepted own running ownRounds with next | ⟨closed, -⟩
      · exact .inr ⟨_, Finset.mem_union_left _ own, accepted, next⟩
      · exact absurd current closed.other

/-- **An event keeps the count of valid votes**, and the certificates that it makes verify. -/
theorem Balloting.advance (balloting : node.Balloting s) (upright : node.Upright known s)
    (positive : node.MadePositive (node.advance s event)) (admissible : node.Admissible s event)
    (ownRounds : node.OwnRounds s event) (certifies : node.Certifies event) :
    node.Balloting (node.advance s event) := by
  obtain ⟨counts, verified⟩ := balloting
  have kept : ∀ t : State, t.currentHeader = s.currentHeader → t.network = s.network →
      t.votesAggregator = s.votesAggregator → node.Balloting t := by
    intro t current network aggregator
    refine ⟨?_, network ▸ verified⟩
    rw [current]
    refine counts.imp_right fun ⟨voters, own, accepted, tallying⟩ => ⟨voters, own, accepted, current, ?_, ?_⟩
    · rw [aggregator, assembledFor, network]
      exact tallying.tally
    · rw [aggregator]
      exact tallying.used
  cases event with
  | batch => exact kept _ rfl rfl rfl
  | consensus => exact kept _ rfl rfl rfl
  | core input =>
      by_cases running : s.halted = none
      · have same : node.advance s (.core input) = node.step s input := by
          simp [Core.advance, running]
        rw [same] at positive ⊢
        have next := Balloting.counts_step collisionFree avoids genesisKnown agrees noWrap stake
          ⟨counts, verified⟩ upright running admissible ownRounds certifies
        have making := node.making_step s input
        refine ⟨next, fun c sent => ?_⟩
        rcases making.made c sent with old | header
        · exact verified c old
        · rw [← making.current] at header
          rcases next with initial | ⟨voters, -, -, tallying⟩
          · -- the header a primary starts with has round zero
            have round : 1 ≤ c.round := positive c sent
            rw [Certificate.round, header, initial] at round
            exact absurd round (by decide)
          · exact tallying.tally.tallied.verified c
              (List.mem_filterMap.mpr ⟨_, sent, if_pos header⟩)
      · have same : node.advance s (.core input) = s := by
          unfold Core.advance
          dsimp only
          rw [if_pos (Option.isSome_iff_ne_none.mpr running)]
        rw [same]
        exact ⟨counts, verified⟩

/-- What is known of a primary after a run. -/
theorem upright_run {events : List Event}
    (admissible : Throughout node.advance node.Admissible {} events)
    (ownRounds : Throughout node.advance node.OwnRounds {} events)
    (assembles : Throughout node.advance node.AssemblesFromRoundOne {} events)
    (certifies : ∀ event ∈ events, node.Certifies event)
    (heard : ∀ event ∈ events, ∀ h, event.header = some h → h ∈ known) :
    node.Upright known (node.run events) ∧ node.Balloting (node.run events) ∧
      node.HandsGenuine (node.run events) := by
  have member := node.committee.mem_keys_of_stake_pos stake
  have upright : node.Upright known {} :=
    ⟨filed_start _, fun _ inside => absurd inside List.not_mem_nil, proposable_start, behind_start,
      fun _ inside => absurd inside List.not_mem_nil⟩
  have allowed := ((admissible.and ownRounds).and assembles).and
    ((Throughout.of_forall certifies _).and (.of_forall heard _))
  refine allowed.invariant
    (fun s => node.Upright known s ∧ node.Balloting s ∧ node.HandsGenuine s)
    ⟨upright, ⟨.inl rfl, fun _ inside => absurd inside List.not_mem_nil⟩,
      fun _ inside => absurd inside List.not_mem_nil, fun _ inside => absurd inside List.not_mem_nil⟩
    ?_
  rintro s event ⟨upright, balloting, genuine⟩ ⟨⟨⟨admissible, ownRounds⟩, assembles⟩, certifies, heard⟩
  have next := upright.advance member admissible ownRounds assembles heard
  exact ⟨next, balloting.advance collisionFree avoids genesisKnown agrees noWrap stake upright
    next.made admissible ownRounds certifies, genuine.advance admissible⟩

omit collisionFree avoids genesisKnown agrees noWrap stake in
/-- What is genuine verifies when the certificates that this primary made do. -/
theorem HandsGenuine.verified (genuine : node.HandsGenuine s) (balloting : node.Balloting s) :
    ∀ c ∈ s.txConsensus, c.verify node.committee = .ok () := by
  intro c inside
  rcases genuine.consensus c inside with verified | made
  · exact verified
  · exact balloting.verified c made

/-- **Every certificate that a primary hands to the consensus or sends to the others verifies.** In every
run, with any messages from the other primaries and as long as nobody certifies the header that it starts
with, what it hands over and what it makes itself is accepted by every primary of the committee. -/
theorem hands_over_verified {events : List Event}
    (admissible : Throughout node.advance node.Admissible {} events)
    (ownRounds : Throughout node.advance node.OwnRounds {} events)
    (assembles : Throughout node.advance node.AssemblesFromRoundOne {} events)
    (certifies : ∀ event ∈ events, node.Certifies event)
    (heard : ∀ event ∈ events, ∀ h, event.header = some h → h ∈ known) :
    (∀ c ∈ (node.run events).txConsensus, c.verify node.committee = .ok ()) ∧
      ∀ c, (node.others, .certificate c) ∈ (node.run events).network →
        c.verify node.committee = .ok () := by
  obtain ⟨-, balloting, genuine⟩ := upright_run collisionFree avoids genesisKnown agrees noWrap stake
    admissible ownRounds assembles certifies heard
  exact ⟨genuine.verified balloting, balloting.verified⟩

end Counting

end Runs

/-! ## The run with repeated and late votes -/

section FiveAuthorities

local instance handedSign : Primitives := executable fun _ _ => true

/-- Three certificates of round 1, a header of this primary and the votes for it. -/
def secondRun : List Event := opening ++ .core (.proposer ownSecond) :: secondVotes

/-- What is handed over and sent there: four certificates and one. -/
theorem hands_over_verified_second :
    (∀ c ∈ (thirdAuthority.run secondRun).txConsensus, c.verify fiveAuthorities = .ok ()) ∧
      ∀ c, (thirdAuthority.others, .certificate c) ∈ (thirdAuthority.run secondRun).network →
        c.verify fiveAuthorities = .ok () := by
  obtain ⟨collisionFree, avoids⟩ : CollisionFree (hashedFor (headersOf secondRun ∪
        genesisHeaders fiveAuthorities)) ∧
      Primitives.Avoids (hashedFor (headersOf secondRun ∪ genesisHeaders fiveAuthorities))
        fiveAuthorities.fixedDigests := by
    refine hashed_of_headers (secondRun.filterMap Event.header ++
      (Certificate.genesis fiveAuthorities).map Certificate.header) ?_ (by decide +kernel)
      (by decide +kernel)
    rw [headersOf_eq]
    rintro h (brought | ⟨c, genesis, rfl⟩)
    · exact List.mem_append_left _ brought
    · exact List.mem_append_right _ (List.mem_map_of_mem genesis)
  have proposed : ∀ event ∈ secondRun, ∀ h, event = .core (.proposer h) → h = ownSecond := by
    rintro event happened h rfl
    rcases List.mem_append.mp happened with early | late
    · simp [opening] at early
    · rcases List.mem_cons.mp late with same | vote
      · cases same
        rfl
      · simp [secondVotes] at vote
  have certifies : ∀ event ∈ secondRun, thirdAuthority.Certifies event := by
    intro event happened
    unfold Certifies
    split
    · next h =>
        obtain rfl := proposed _ happened h rfl
        exact ⟨fun _ member => absurd member List.not_mem_nil, by decide +kernel, by decide +kernel⟩
    · trivial
  exact @hands_over_verified _ thirdAuthority _ collisionFree avoids Set.subset_union_right
    (executable_batchAgrees _) (by decide +kernel) (by decide +kernel) secondRun (by decide +kernel)
    (by decide +kernel) (by decide +kernel) certifies
    fun event happened h brings => .inl ⟨event, happened, brings⟩

end FiveAuthorities

end Tusk.Core
