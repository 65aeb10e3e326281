import Tusk.Primary.OwnHeaders
import Tusk.Primary.OwnRounds
import Tusk.Primary.VoteTally

/-!
# The certificate of an own header

The primary starts to count votes when it proposes a header, with its own vote first, and stops when
it proposes the next one. In between it counts each authority once whose vote passes the checks,
whatever else happens. So it assembles one certificate of the header when the authorities it has
counted are a quorum, and none before, and that certificate is accepted by every primary
(`assembled_once`).
-/

set_option autoImplicit false

namespace Tusk.Core

open Lib

section Runs

variable [Primitives] (node : Core) (h : Header)

/-! ## What is counted -/

omit [Primitives] in
/-- The certificate of the header that a message has. -/
def certificateFor : PrimaryMessage → Option Certificate
  | .certificate c => if c.header = h then some c else none
  | _ => none

omit [Primitives] in
/-- The certificates of the header that this primary has assembled: those it has broadcast. -/
def assembledFor (s : State) : List Certificate :=
  s.network.filterMap fun sent => certificateFor h sent.2

/-- The authority whose vote for the header is accepted at an event. -/
def acceptedVoter (s : State) : Event → Finset PublicKey
  | .core (.primaries (.vote v)) =>
      if s.halted = none ∧ s.currentHeader = h ∧ node.sanitizeVote s v = .ok () then {v.author}
      else ∅
  | _ => ∅

/-- The authorities whose votes for the header are accepted during a run. -/
def votersFor : State → List Event → Finset PublicKey
  | _, [] => ∅
  | s, event :: events => node.acceptedVoter h s event ∪ votersFor (node.advance s event) events

/-- The votes for the header are being counted, and these voters have been. -/
structure Tallying (voters : Finset PublicKey) (s : State) : Prop where
  current : s.currentHeader = h
  tally : Tally node.committee h s.votesAggregator (assembledFor h s)
  used : s.votesAggregator.used = voters

/-- The votes for the header are no longer counted. -/
structure Closed (certificates : List Certificate) (s : State) : Prop where
  other : s.currentHeader ≠ h
  later : h.round ≤ s.currentHeader.round
  assembled : assembledFor h s = certificates

variable {node h} {s t t' u : State} {input : Input}

omit [Primitives] in
@[simp] theorem assembledFor_send (addresses : List SocketAddr) (message : PrimaryMessage) :
    assembledFor h (s.send addresses message) =
      assembledFor h s ++ (certificateFor h message).toList := by
  simp only [assembledFor, State.send, List.filterMap_append, List.filterMap_cons,
    List.filterMap_nil]
  cases certificateFor h message <;> rfl

/-- **An act counts no vote and assembles no certificate, or it counts a vote at hand.** -/
theorem Acts.counts (acts : node.Acts s input t t') :
    (t'.votesAggregator = t.votesAggregator ∧ assembledFor h t' = assembledFor h t) ∨
      ∃ v made, node.VoteAtHand s input t v ∧
        t.votesAggregator.append v node.committee t.currentHeader = .ok (t'.votesAggregator, made) ∧
        assembledFor h t' =
          assembledFor h t ++ made.toList.filter fun c => decide (c.header = h) := by
  cases acts with
  | inspect _ inspects => cases inspects <;> exact .inl ⟨rfl, rfl⟩
  | sendVote _ _ addresses =>
      exact .inl ⟨rfl, (assembledFor_send addresses _).trans (List.append_nil _)⟩
  | announce => exact .inl ⟨rfl, (assembledFor_send node.others _).trans (List.append_nil _)⟩
  | @count _ v aggregator subject appended =>
      exact .inr ⟨v, none, subject, appended, (List.append_nil _).symm⟩
  | @assemble _ v aggregator c subject appended =>
      refine .inr ⟨v, some c, subject, appended, (assembledFor_send node.others _).trans ?_⟩
      have found : (certificateFor h (.certificate c)).toList =
          (some c).toList.filter fun c => decide (c.header = h) := by
        unfold certificateFor
        by_cases same : c.header = h <;> simp [same]
      exact congrArg (assembledFor h t ++ ·) found
  | store => exact .inl ⟨rfl, rfl⟩
  | vote => exact .inl ⟨rfl, rfl⟩
  | suspend => exact .inl ⟨rfl, rfl⟩
  | deliver => exact .inl ⟨rfl, rfl⟩

/-- When all votes that come up are of authorities that were counted, nothing more is counted. -/
theorem Tallying.steps {voters : Finset PublicKey} (tallying : node.Tallying h voters t)
    (counted : ∀ v u, node.VoteAtHand s input u v → v.author ∈ voters)
    (steps : Relation.ReflTransGen (node.Acts s input) t t') : node.Tallying h voters t' := by
  refine Command.kept_of_steps (fun t t' acts tallying => ?_) steps tallying
  obtain ⟨current, tally, used⟩ := tallying
  have same := acts.currentHeader.trans current
  rcases acts.counts (h := h) with ⟨aggregator, assembled⟩ | ⟨v, made, subject, appended, -⟩
  · exact ⟨same, aggregator ▸ assembled ▸ tally, aggregator ▸ used⟩
  · rw [VotesAggregator.append_of_used (used ▸ counted v t subject)] at appended
    cases appended

/-- While another header is the current one, no certificate of the header is assembled. -/
theorem Closed.steps {certificates : List Certificate} (closed : Closed h certificates t)
    (steps : Relation.ReflTransGen (node.Acts s input) t t') : Closed h certificates t' := by
  refine Command.kept_of_steps (fun t t' acts closed => ?_) steps closed
  obtain ⟨other, later, assembled⟩ := closed
  have same := acts.currentHeader
  refine ⟨same ▸ other, same ▸ later, ?_⟩
  rcases acts.counts (h := h) with ⟨-, unchanged⟩ | ⟨v, made, -, appended, more⟩
  · exact unchanged.trans assembled
  · have none : made.toList.filter (fun c => decide (c.header = h)) = [] := by
      refine List.filter_eq_nil_iff.mpr fun c member => ?_
      rw [(VotesAggregator.append_ok appended).2 c (Option.mem_toList.mp member)]
      simpa using other
    rw [more, none, List.append_nil, assembled]

/-! ## Counting a vote -/

variable (node h) in
/-- A vote that may go into a certificate of the header. -/
structure Countable (v : Vote) : Prop where
  stake : 0 < node.committee.stake v.author
  signature : Primitives.verifyStrict v.author (Certificate.mk h []).digest v.signature = true

/-- A vote that passes the checks is for the current header. -/
theorem countable_of_sane {v : Vote} (sane : node.sanitizeVote s v = .ok ()) :
    node.Countable s.currentHeader v := by
  simp only [sanitizeVote, bind_eq_ok_iff, ensure_eq_ok_iff, exists_const, Vote.verify,
    mapError_eq_ok_iff, Signature.verify_ok_iff] at sane
  obtain ⟨-, ⟨id, origin, round⟩, stake, signature⟩ := sane
  have digest : v.digest = (Certificate.mk s.currentHeader []).digest := by
    rw [Vote.digest, Vote.hashInput, id, origin, round]
    rfl
  exact ⟨stake, digest ▸ signature⟩

/-- The own vote may go into a certificate. -/
theorem countable_own (stake : 0 < node.committee.stake node.name)
    (signs : ∀ digest,
      Primitives.verifyStrict node.name digest (node.requestSignature digest) = true) :
    node.Countable h (node.voteFor h) :=
  ⟨stake, signs _⟩

/-- What a message leaves survives the cleanup and the stop of the node. -/
theorem Tallying.after {voters : Finset PublicKey}
    (left : node.Tallying h voters ((node.receive input).outcome s).2) :
    node.Tallying h voters (node.step s input) := by
  refine after_step_settles left fun t t' settles tallying => ?_
  cases settles
  exact ⟨tallying.current, tallying.tally, tallying.used⟩

theorem Closed.after {certificates : List Certificate}
    (left : Closed h certificates ((node.receive input).outcome s).2) :
    Closed h certificates (node.step s input) := by
  refine after_step_settles left fun t t' settles closed => ?_
  cases settles
  exact ⟨closed.other, closed.later, closed.assembled⟩

section Counting

variable (noWrap : node.committee.NoWrap) (agrees : BatchAgrees)
  (accepted : h.verify node.committee = .ok ())

include noWrap agrees accepted

/-- **Processing a vote counts its author**, and no one else when all further votes are of
authorities that were counted. -/
theorem Tallying.processVote {voters : Finset PublicKey} {v : Vote}
    (tallying : node.Tallying h voters t) (same : Current s input t)
    (atHand : node.VoteAtHand s input t v) (countable : node.Countable h v)
    (later : ∀ v' u, node.VoteAtHand s input u v' → v'.author ∈ insert v.author voters) :
    node.Tallying h (insert v.author voters) ((node.processVote v).outcome t).2 := by
  obtain ⟨current, tally, used⟩ := tallying
  rw [processVote_outcome]
  cases appended : t.votesAggregator.append v node.committee t.currentHeader with
  | error e =>
      have again : v.author ∈ voters := used ▸ VotesAggregator.used_of_append appended
      exact ⟨current, tally, used.trans (Finset.insert_eq_of_mem again).symm⟩
  | ok counted =>
      obtain ⟨aggregator, made⟩ := counted
      have next := tally.append noWrap agrees accepted countable.stake countable.signature
        (current ▸ appended)
      cases made with
      | none =>
          obtain ⟨-, -, rfl⟩ := VotesAggregator.append_none appended
          refine ⟨current, ?_, congrArg (insert v.author) used⟩
          rw [Option.toList_none, List.append_nil] at next
          exact next
      | some c =>
          have header := (VotesAggregator.append_ok appended).2 c rfl
          let u : State := State.send { t with votesAggregator := aggregator } node.others
            (.certificate c)
          have announced : assembledFor h u = assembledFor h t ++ [c] := by
            have isFor : certificateFor h (.certificate c) = some c := if_pos (header.trans current)
            exact (assembledFor_send node.others _).trans (by rw [isFor]; rfl)
          have tallying' : node.Tallying h (insert v.author voters) u := by
            refine ⟨current, announced ▸ next, ?_⟩
            obtain ⟨-, -, rfl, -⟩ := VotesAggregator.append_some appended
            exact congrArg (insert v.author) used
          have atHand' : node.CertificateAtHand s input u c :=
            .inr ⟨atHand.completes, header.trans same,
              List.mem_append_right _ (List.mem_singleton_self _)⟩
          dsimp only
          rw [Command.outcome_interruptWith]
          exact tallying'.steps later
            (processCertificate_acts c u ⟨same, atHand', .inl atHand.completes⟩).1

/-! ## Runs -/

omit noWrap agrees accepted

/-- A vote at hand is the one the message brings or one of this primary. -/
theorem VoteAtHand.brought_or_own {v : Vote} (atHand : node.VoteAtHand s input t v) :
    input = .primaries (.vote v) ∨ v.author = node.name := by
  cases atHand with
  | received brings => exact .inl brings
  | own => exact .inr rfl

theorem acceptedVoter_of_halted {event : Event} (stopped : s.halted.isSome = true) :
    node.acceptedVoter h s event = ∅ := by
  unfold acceptedVoter
  split
  · refine if_neg fun both => ?_
    rw [both.1] at stopped
    cases stopped
  · rfl

theorem acceptedVoter_of_no_vote (noVote : ∀ v, input ≠ .primaries (.vote v)) :
    node.acceptedVoter h s (.core input) = ∅ := by
  unfold acceptedVoter
  split
  · next v same => exact absurd (Event.core.inj same) (noVote v)
  · rfl

/-- A message without a vote counts nothing more, once the own vote has been counted. -/
theorem Tallying.step_of_no_vote {voters : Finset PublicKey} (tallying : node.Tallying h voters s)
    (own : node.name ∈ voters) (noVote : ∀ v, input ≠ .primaries (.vote v))
    (same : s.opened input = s) : node.Tallying h voters (node.step s input) := by
  have counted : ∀ v u, node.VoteAtHand s input u v → v.author ∈ voters := by
    intro v u subject
    rw [subject.brought_or_own.resolve_left (noVote v)]
    exact own
  have steps : Relation.ReflTransGen (node.Acts s input) (s.opened input)
      ((node.receive input).outcome s).2 := receive_acts s input
  rw [same] at steps
  exact Tallying.after (tallying.steps counted steps)

/-- A vote that passes the checks is processed. -/
theorem receive_vote {v : Vote} (sane : node.sanitizeVote s v = .ok ()) :
    (node.receive (.primaries (.vote v))).outcome s = (node.processVote v).outcome s :=
  outcome_of_sane sane

/-- A vote that fails them is dropped. -/
theorem receive_vote_refused {v : Vote} (refused : node.sanitizeVote s v ≠ .ok ()) :
    ((node.receive (.primaries (.vote v))).outcome s).2 = s := by
  cases found : node.sanitizeVote s v with
  | error e => exact congrArg Prod.snd (outcome_of_refused found)
  | ok u => exact absurd found refused

/-- **A header of the `Proposer` ends the counting.** -/
theorem closed_of_proposer {h' : Header} {certificates : List Certificate}
    (next : h.round < h'.round) (assembled : assembledFor h s = certificates) :
    Closed h certificates (node.step s (.proposer h')) := by
  have start : Closed h certificates (s.propose h') :=
    ⟨fun same => absurd next (same ▸ lt_irrefl _), le_of_lt next, assembled⟩
  exact Closed.after (start.steps (receive_acts s (.proposer h')))

include noWrap agrees accepted

/-- **A message counts the vote that is accepted**, or it makes another header the current one. -/
theorem Tallying.step {voters : Finset PublicKey} (tallying : node.Tallying h voters s)
    (own : node.name ∈ voters) (running : s.halted = none)
    (ownRounds : node.OwnRounds s (.core input)) :
    node.Tallying h (voters ∪ node.acceptedVoter h s (.core input)) (node.step s input) ∨
      (Closed h (assembledFor h s) (node.step s input) ∧
        node.acceptedVoter h s (.core input) = ∅) := by
  have quiet : (∀ v, input ≠ .primaries (.vote v)) → s.opened input = s →
      node.Tallying h (voters ∪ node.acceptedVoter h s (.core input)) (node.step s input) := by
    intro noVote same
    rw [acceptedVoter_of_no_vote noVote, Finset.union_empty]
    exact tallying.step_of_no_vote own noVote same
  cases input with
  | proposer h' =>
      have next : h.round < h'.round := tallying.current ▸ ownRounds
      exact .inr ⟨closed_of_proposer next rfl, rfl⟩
  | primaries message =>
      cases message with
      | vote v =>
          left
          by_cases sane : node.sanitizeVote s v = .ok ()
          · have voter : node.acceptedVoter h s (.core (.primaries (.vote v))) = {v.author} :=
              if_pos ⟨running, tallying.current, sane⟩
            have later : ∀ v' u, node.VoteAtHand s (.primaries (.vote v)) u v' →
                v'.author ∈ insert v.author voters := by
              intro v' u subject
              rcases subject.brought_or_own with same | name
              · cases same
                exact Finset.mem_insert_self _ _
              · exact Finset.mem_insert_of_mem (name ▸ own)
            have processed := tallying.processVote noWrap agrees accepted rfl (.received rfl sane)
              (tallying.current ▸ countable_of_sane sane) later
            rw [← receive_vote sane] at processed
            rw [voter, Finset.union_comm, ← Finset.insert_eq]
            exact Tallying.after processed
          · have voter : node.acceptedVoter h s (.core (.primaries (.vote v))) = ∅ :=
              if_neg fun both => sane both.2.2
            rw [voter, Finset.union_empty]
            exact Tallying.after ((receive_vote_refused sane).symm ▸ tallying)
      | header => exact .inl (quiet nofun rfl)
      | certificate => exact .inl (quiet nofun rfl)
      | certificatesRequest => exact .inl (quiet nofun rfl)
  | headerWaiter => exact .inl (quiet nofun rfl)
  | certificateWaiter => exact .inl (quiet nofun rfl)

/-- An event counts the vote that is accepted, or another header becomes the current one. -/
theorem Tallying.advance {voters : Finset PublicKey} {event : Event}
    (tallying : node.Tallying h voters s) (own : node.name ∈ voters)
    (ownRounds : node.OwnRounds s event) :
    node.Tallying h (voters ∪ node.acceptedVoter h s event) (node.advance s event) ∨
      (Closed h (assembledFor h s) (node.advance s event) ∧ node.acceptedVoter h s event = ∅) := by
  cases event with
  | batch =>
      exact .inl ⟨tallying.current, tallying.tally, tallying.used.trans (Finset.union_empty _).symm⟩
  | consensus =>
      exact .inl ⟨tallying.current, tallying.tally, tallying.used.trans (Finset.union_empty _).symm⟩
  | core input =>
      unfold Core.advance
      dsimp only
      split
      · next stopped =>
          left
          rw [acceptedVoter_of_halted stopped, Finset.union_empty]
          exact tallying
      · next running =>
          exact tallying.step noWrap agrees accepted own (by simpa using running) ownRounds

omit noWrap agrees accepted in
/-- After the counting nothing changes. -/
theorem Closed.advance {certificates : List Certificate} {event : Event}
    (closed : Closed h certificates s) (ownRounds : node.OwnRounds s event) :
    Closed h certificates (node.advance s event) ∧ node.acceptedVoter h s event = ∅ := by
  have unheard : node.acceptedVoter h s event = ∅ := by
    unfold acceptedVoter
    split
    · exact if_neg fun both => closed.other both.2.1
    · rfl
  refine ⟨?_, unheard⟩
  cases event with
  | batch => exact ⟨closed.other, closed.later, closed.assembled⟩
  | consensus => exact ⟨closed.other, closed.later, closed.assembled⟩
  | core input =>
      refine advance_core closed fun _ => ?_
      have steps : Relation.ReflTransGen (node.Acts s input) (s.opened input)
          ((node.receive input).outcome s).2 := receive_acts s input
      cases input with
      | proposer h' =>
          exact closed_of_proposer (lt_of_le_of_lt closed.later ownRounds) closed.assembled
      | _ => exact Closed.after (closed.steps steps)

omit noWrap agrees accepted in
theorem Closed.run {certificates : List Certificate} {events : List Event}
    (closed : Closed h certificates s)
    (ownRounds : Throughout node.advance node.OwnRounds s events) :
    assembledFor h (events.foldl node.advance s) = certificates ∧
      node.votersFor h s events = ∅ := by
  induction events generalizing s with
  | nil => exact ⟨closed.assembled, rfl⟩
  | cons event events ih =>
      obtain ⟨first, rest⟩ := ownRounds
      obtain ⟨next, unheard⟩ := closed.advance first
      obtain ⟨assembled, voters⟩ := ih next rest
      refine ⟨assembled, ?_⟩
      rw [votersFor, unheard, voters, Finset.union_empty]

/-- **While the votes are counted**, one certificate is assembled as soon as the voters are a
quorum. -/
theorem Tallying.run {voters : Finset PublicKey} {events : List Event}
    (tallying : node.Tallying h voters s) (own : node.name ∈ voters)
    (ownRounds : Throughout node.advance node.OwnRounds s events) :
    (assembledFor h (events.foldl node.advance s)).length =
        (if node.committee.quorumThreshold.toNat ≤
            node.committee.weights.of (voters ∪ node.votersFor h s events) then 1 else 0) ∧
      ∀ c ∈ assembledFor h (events.foldl node.advance s), c.verify node.committee = .ok () := by
  induction events generalizing s voters with
  | nil =>
      have tallied := tallying.tally.tallied
      refine ⟨?_, tallied.verified⟩
      rw [votersFor, Finset.union_empty, ← tallying.used]
      exact tallied.length
  | cons event events ih =>
      obtain ⟨first, rest⟩ := ownRounds
      rw [votersFor, ← Finset.union_assoc, List.foldl_cons]
      rcases tallying.advance noWrap agrees accepted own first with next | ⟨closed, unheard⟩
      · exact ih next (Finset.mem_union_left _ own) rest
      · obtain ⟨assembled, none⟩ := closed.run rest
        have tallied := tallying.tally.tallied
        rw [assembled, none, unheard, Finset.union_empty, Finset.union_empty, ← tallying.used]
        exact ⟨tallied.length, tallied.verified⟩

omit noWrap agrees accepted [Primitives] in
/-- At its proposal no certificate of the header has been assembled, and this primary has not voted
for it. -/
theorem Behind.unheard (behind : node.Behind s) (next : s.currentHeader.round < h.round)
    (ours : h.author = node.name) :
    assembledFor h s = [] ∧ h.author ∉ HashMap.bucket s.lastVoted h.round := by
  constructor
  · refine List.filterMap_eq_nil_iff.mpr ?_
    rintro ⟨addresses, message⟩ sent
    cases message with
    | certificate c =>
        refine if_neg fun same => ?_
        have round := behind.broadcast addresses c sent
        rw [same] at round
        omega
    | _ => rfl
  · intro voted
    have round := behind.voted h.round (ours ▸ voted)
    omega

/-- **At the proposal the own vote is counted.** -/
theorem tallying_of_proposal (behind : node.Behind s) (ours : h.author = node.name)
    (next : s.currentHeader.round < h.round) (passes : node.Passes s.store h)
    (nonempty : h.parents.toList ≠ []) (countable : node.Countable h (node.voteFor h)) :
    node.Tallying h {node.name} (node.step s (.proposer h)) := by
  obtain ⟨none, first⟩ := behind.unheard next ours
  let u : State := (node.entered s h).createVote h (node.voteFor h)
  have outcome : ((node.receive (.proposer h)).outcome s).2 =
      ((node.processVote (node.voteFor h)).outcome u).2 := by
    have first' : h.author ∉ HashMap.bucket (node.entered s h).lastVoted h.round := first
    rw [receive_proposer ours passes nonempty, castVote_of_first ours first',
      Command.outcome_interruptWith]
  have start : node.Tallying h ∅ u := by
    have empty : assembledFor h u = [] := by
      have sent : assembledFor h u = assembledFor h s :=
        (assembledFor_send node.others _).trans (List.append_nil _)
      exact sent.trans none
    exact ⟨rfl, empty ▸ tally_new, rfl⟩
  have atHand : node.VoteAtHand s (.proposer h) u (node.voteFor h) :=
    .own (.inl (.proposer h)) ours ⟨s, accepts_of_passes ours passes nonempty⟩
  have processed := start.processVote noWrap agrees accepted rfl atHand countable
    fun v' u' subject => by
      rw [subject.brought_or_own.resolve_left nofun]
      exact Finset.mem_insert_self _ _
  rw [← outcome] at processed
  exact Tallying.after processed

end Counting

omit [Primitives] in
/-- The genesis is a quorum of a committee that has stake and does not wrap. -/
theorem quorumThreshold_le_totalVotes {committee : Committee} {name : PublicKey}
    (noWrap : committee.NoWrap) (stake : 0 < committee.stake name) :
    committee.quorumThreshold ≤ committee.totalVotes := by
  have single : committee.weights.of {name} = (committee.stake name).toNat :=
    Finset.sum_singleton _ _
  have bound := committee.weights.of_le_total {name}
  have positive : 0 < (committee.stake name).toNat := UInt32.lt_iff_toNat_lt.mp stake
  have fits := noWrap
  unfold Committee.NoWrap at fits
  rw [UInt32.le_iff_toNat_le, committee.quorumThreshold_toNat noWrap,
    committee.totalVotes_toNat (by omega), Weights.quorum]
  omega

/-- **One certificate of an own header is assembled when the accepted voters are a quorum.** Before
that there is none, there is never a second one, and every primary of the committee accepts it. -/
theorem assembled_once {before after : List Event}
    (collisionFree : CollisionFree (hashedFor (headersOf before ∪ genesisHeaders node.committee)))
    (avoids : Primitives.Avoids (hashedFor (headersOf before ∪ genesisHeaders node.committee))
      node.committee.fixedDigests)
    (agrees : BatchAgrees)
    (signs : ∀ digest,
      Primitives.verifyStrict node.name digest (node.requestSignature digest) = true)
    (noWrap : node.committee.NoWrap) (stake : 0 < node.committee.stake node.name)
    (workers : ∀ workerId ∈ h.payload.values,
      ∃ addresses, node.committee.worker node.name workerId = .ok addresses)
    (admissible : Throughout node.advance node.Admissible {}
      (before ++ .core (.proposer h) :: after))
    (ownRounds : Throughout node.advance node.OwnRounds {} (before ++ .core (.proposer h) :: after))
    (running : (node.run before).halted = none) :
    (assembledFor h (node.run (before ++ .core (.proposer h) :: after))).length =
        (if node.committee.quorumThreshold.toNat ≤ node.committee.weights.of
            (insert node.name
              (node.votersFor h (node.run (before ++ [.core (.proposer h)])) after))
          then 1 else 0) ∧
      ∀ c ∈ assembledFor h (node.run (before ++ .core (.proposer h) :: after)),
        c.verify node.committee = .ok () := by
  have member := node.committee.mem_keys_of_stake_pos stake
  obtain ⟨admissibleBefore, proposes, -⟩ := Throughout.append_iff.mp admissible
  obtain ⟨ownRoundsBefore, next, ownRoundsAfter⟩ := Throughout.append_iff.mp ownRounds
  have heard : ∀ event ∈ before, ∀ h, event.header = some h →
      h ∈ headersOf before ∪ genesisHeaders node.committee :=
    fun event happened h brings => .inl ⟨event, happened, brings⟩
  -- what is known when the header is proposed
  have filed : Filed node.committee _ (node.run before) ∧ Handed node.committee _ (node.run before) :=
    (admissibleBefore.and (.of_forall heard _)).invariant
      (fun s => Filed node.committee _ s ∧ Handed node.committee _ s)
      ⟨filed_start _, fun _ inside => absurd inside List.not_mem_nil⟩
      fun _ _ both allowed => ⟨both.1.advance member allowed.1 allowed.2,
        both.2.advance both.1 member allowed.1 allowed.2⟩
  have behind : node.Behind (node.run before) :=
    (admissibleBefore.and ownRoundsBefore).invariant node.Behind behind_start
      fun _ _ behind allowed => behind.advance allowed.1 allowed.2
  have proposes : node.Proposes (node.run before) h := proposes
  obtain ⟨passes, nonempty⟩ := passes_of_proposes filed.1 filed.2
    (proposable_of_run admissibleBefore) collisionFree avoids Set.subset_union_right
    (quorumThreshold_le_totalVotes noWrap stake) proposes
  have accepted : h.verify node.committee = .ok () := by
    refine Header.verify_ok_iff.mpr ⟨proposes.id.symm, proposes.author ▸ stake,
      proposes.author ▸ workers, ?_⟩
    rw [proposes.author, proposes.signature]
    exact signs h.id
  have tallying : node.Tallying h {node.name}
      (node.advance (node.run before) (.core (.proposer h))) := by
    unfold Core.advance
    dsimp only
    rw [running]
    exact tallying_of_proposal noWrap agrees accepted behind proposes.author next passes nonempty
      (countable_own stake signs)
  have counted := tallying.run noWrap agrees accepted (Finset.mem_singleton_self _) ownRoundsAfter
  rw [node.run_snoc, Finset.insert_eq, run, List.foldl_append]
  exact counted

end Runs

/-! ## A run with repeated and late votes -/

section FiveAuthorities

local instance assembledSign : Primitives := executable fun _ _ => true

/-- The header of the third authority at round 2. -/
def ownSecond : Header :=
  .new ⟨3⟩ 2 ∅ (.ofList ([⟨1⟩, ⟨2⟩, ⟨4⟩].map fun name => (firstRound name).digest))
    (nameSignature ⟨3⟩) Header.round_two_lt

/-- Votes for it: of the first authority twice, of the second, and of the fourth after the quorum. -/
def secondVotes : List Event :=
  [⟨1⟩, ⟨1⟩, ⟨2⟩, ⟨4⟩].map fun voter =>
    .core (.primaries (.vote (Vote.new ownSecond voter (nameSignature voter))))

/-- **One certificate**, made at the vote of the second authority. -/
theorem assembled_once_second :
    (assembledFor ownSecond
        (thirdAuthority.run (opening ++ .core (.proposer ownSecond) :: secondVotes))).length = 1 ∧
      ∀ c ∈ assembledFor ownSecond
          (thirdAuthority.run (opening ++ .core (.proposer ownSecond) :: secondVotes)),
        c.verify fiveAuthorities = .ok () := by
  obtain ⟨collisionFree, avoids⟩ : CollisionFree (hashedFor (headersOf opening ∪
        genesisHeaders fiveAuthorities)) ∧
      Primitives.Avoids (hashedFor (headersOf opening ∪ genesisHeaders fiveAuthorities))
        fiveAuthorities.fixedDigests := by
    refine hashed_of_headers (opening.filterMap Event.header ++
      (Certificate.genesis fiveAuthorities).map Certificate.header) ?_ (by decide +kernel)
      (by decide +kernel)
    rw [headersOf_eq]
    rintro h (brought | ⟨c, genesis, rfl⟩)
    · exact List.mem_append_left _ brought
    · exact List.mem_append_right _ (List.mem_map_of_mem genesis)
  have agrees : BatchAgrees := executable_batchAgrees _
  have signs : ∀ digest, Primitives.verifyStrict thirdAuthority.name digest
      (thirdAuthority.requestSignature digest) = true := fun digest => by
    simp [thirdAuthority, Primitives.verifyStrict]
  have quorum : fiveAuthorities.quorumThreshold.toNat ≤ fiveAuthorities.weights.of
      (insert thirdAuthority.name (thirdAuthority.votersFor ownSecond
        (thirdAuthority.run (opening ++ [.core (.proposer ownSecond)])) secondVotes)) := by
    decide +kernel
  have workers : ∀ workerId ∈ ownSecond.payload.values, ∃ addresses,
      thirdAuthority.committee.worker thirdAuthority.name workerId = .ok addresses :=
    fun _ member => absurd member List.not_mem_nil
  have admissible : Throughout thirdAuthority.advance thirdAuthority.Admissible {}
      (opening ++ .core (.proposer ownSecond) :: secondVotes) := by decide +kernel
  obtain ⟨length, accepted⟩ := @assembled_once _ thirdAuthority ownSecond opening secondVotes
    collisionFree avoids agrees signs (by decide +kernel) (by decide +kernel) workers admissible
    (by decide +kernel) (by decide +kernel)
  exact ⟨length.trans (if_pos quorum), accepted⟩

end FiveAuthorities

end Tusk.Core
