import Tusk.Primary.HeaderEncoding
import Tusk.Primary.ParentChecks
import Tusk.Primary.VoteConsistency

/-!
# What a vote stands for

A primary votes for a header of another author when it comes fresh from the network, out of the
`HeaderWaiter`, or inside a certificate that is fresh or comes out of the `CertificateWaiter`. On
each of these ways the header has been verified, unless it is one of round zero, which passes in a
certificate that claims to be of the genesis (`Cleared`). When the vote is created its parents are in
the store and pass the checks, its batches have been reported, and it has been stored
(`votes_justified`).

The round of a parent is compared after it has been incremented in `u64`. So a header of round zero
may have parents, of the last round there is, and then it is voted for without being verified
(`unverified_vote`).
-/

set_option autoImplicit false

namespace Tusk.Core

open Lib

section Votes

variable [Primitives] (node : Core)

/-! ## Headers that have been verified -/

/-- A header of another author and of a positive round is verified. -/
def MayVoteFor (h : Header) : Prop :=
  h.author ≠ node.name → 1 ≤ h.round → h.verify node.committee = .ok ()

/-- What waits has been verified, and the current header is one of this primary. -/
structure Cleared (s : State) : Prop where
  headerWaiter : ∀ message ∈ s.txHeaderWaiter, node.MayVoteFor message.deliver
  certificateWaiter : ∀ c ∈ s.txCertificateWaiter, node.MayVoteFor c.header
  current : s.currentHeader.author = node.name ∨ s.currentHeader = default

variable {node} {s t t' : State} {input : Input}

theorem mayVoteFor_of_current {h : Header} (current : h.author = node.name ∨ h = default) :
    node.MayVoteFor h := by
  rcases current with own | rfl
  · exact fun other => absurd own other
  · exact fun _ impossible => absurd impossible (by decide)

theorem Cleared.carries {c : Certificate} (cleared : node.Cleared s)
    (admissible : node.Admissible s (.core input)) (carries : node.Carries s input c) :
    node.MayVoteFor c.header := by
  cases carries with
  | primaries sane =>
      obtain ⟨_, -, accepted⟩ := bind_eq_ok_iff.mp sane
      rcases Certificate.verify_ok_iff.mp accepted with claims | certified
      · intro _ positive
        have zero : c.header.round = 0 := claims.2.1
        omega
      · exact fun _ _ => certified.header
  | certificateWaiter => exact cleared.certificateWaiter c admissible.1

theorem Cleared.hands {h : Header} (cleared : node.Cleared s)
    (admissible : node.Admissible s (.core input)) (hands : node.Hands s input h) :
    node.MayVoteFor h := by
  cases hands with
  | primaries sane =>
      obtain ⟨_, -, accepted⟩ := bind_eq_ok_iff.mp sane
      exact fun _ _ => accepted
  | headerWaiter =>
      obtain ⟨message, sent, rfl, -⟩ := admissible
      exact cleared.headerWaiter message sent
  | proposer =>
      have proposes : node.Proposes s h := admissible
      exact fun other => absurd proposes.author other
  | embedded carries => exact cleared.carries admissible carries

theorem Cleared.opened (cleared : node.Cleared s) (admissible : node.Admissible s (.core input)) :
    node.Cleared (s.opened input) := by
  cases input with
  | proposer h =>
      have proposes : node.Proposes s h := admissible
      exact ⟨cleared.headerWaiter, cleared.certificateWaiter, .inl proposes.author⟩
  | _ => exact cleared

theorem Cleared.handled {h : Header} (cleared : node.Cleared s)
    (admissible : node.Admissible s (.core input)) (subject : node.Handled s input h) :
    node.MayVoteFor h := by
  rcases subject with hands | ⟨-, rfl⟩
  · exact cleared.hands admissible hands
  · exact mayVoteFor_of_current (cleared.opened admissible).current

/-- **A move keeps what waits verified.** -/
theorem Cleared.moves (cleared : node.Cleared s) (admissible : node.Admissible s (.core input))
    (moves : node.Moves (node.Handled s input) (node.Carried s input) t t')
    (cleared' : node.Cleared t) : node.Cleared t' := by
  obtain ⟨headerWaiter, certificateWaiter, current⟩ := cleared'
  cases moves with
  | check subject checks =>
      cases checks with
      | start => exact ⟨headerWaiter, certificateWaiter, current⟩
      | suspend message ours =>
          refine ⟨fun m member => ?_, certificateWaiter, current⟩
          rcases List.mem_append.mp member with old | new
          · exact headerWaiter m old
          · obtain rfl := List.mem_singleton.mp new
            exact ours ▸ cleared.handled admissible subject
  | @suspend _ c subject =>
      refine ⟨headerWaiter, fun c' member => ?_, current⟩
      rcases List.mem_append.mp member with old | new
      · exact certificateWaiter c' old
      · obtain rfl := List.mem_singleton.mp new
        exact cleared.handled admissible (handled_of_carried subject)
  | _ => exact ⟨headerWaiter, certificateWaiter, current⟩

/-- **An event keeps what waits verified.** -/
theorem Cleared.advance {event : Event} (cleared : node.Cleared s)
    (admissible : node.Admissible s event) : node.Cleared (node.advance s event) := by
  cases event with
  | batch => exact ⟨cleared.headerWaiter, cleared.certificateWaiter, cleared.current⟩
  | consensus => exact ⟨cleared.headerWaiter, cleared.certificateWaiter, cleared.current⟩
  | core input =>
      refine advance_core cleared fun _ => ?_
      apply step_invariant_settles (cleared.opened admissible) fun _ _ => cleared.moves admissible
      rintro t t' settles ⟨headerWaiter, certificateWaiter, current⟩
      cases settles
      exact ⟨headerWaiter, certificateWaiter, current⟩

theorem cleared_start : node.Cleared {} where
  headerWaiter _ member := absurd member List.not_mem_nil
  certificateWaiter _ member := absurd member List.not_mem_nil
  current := .inr rfl

/-! ## Batches that have been reported -/

/-- The batches of other authorities that some events report, with the worker that reports them. -/
def reportsOf (events : List Event) : Set (Digest × WorkerId) :=
  {entry | .batch entry.1 entry.2 ∈ events}

/-- The store has keys of reported batches only. -/
def Reported (reports : Set (Digest × WorkerId)) (s : State) : Prop :=
  ∀ entry : Digest × WorkerId, (s.store.read (Store.payloadKey entry.1 entry.2)).isSome = true →
    entry ∈ reports

variable {reports : Set (Digest × WorkerId)}

omit [Primitives] in
/-- What is written under a digest is no report. -/
theorem Reported.write (reported : Reported reports t) {digest : Digest} {value : StoreValue}
    (same : t'.store = t.store.write digest.asRef value) : Reported reports t' := by
  intro entry found
  rw [same, Store.read_write, if_neg (Store.payloadKey_ne_asRef _ _ _)] at found
  exact reported entry found

theorem Reported.moves {handled : Header → Prop} {carried : Certificate → Prop}
    (moves : node.Moves handled carried t t') (reported : Reported reports t) :
    Reported reports t' := by
  cases moves with
  | check _ checks => cases checks <;> exact reported
  | store => exact reported.write rfl
  | deliver => exact reported.write rfl
  | _ => exact reported

theorem Reported.advance {event : Event} (reported : Reported reports s)
    (among : ∀ digest workerId, event = .batch digest workerId → (digest, workerId) ∈ reports) :
    Reported reports (node.advance s event) := by
  cases event with
  | batch digest workerId =>
      intro entry found
      have found' : ((s.store.write (Store.payloadKey digest workerId) .empty).read
          (Store.payloadKey entry.1 entry.2)).isSome = true := found
      rw [Store.read_write] at found'
      split at found'
      · next same =>
          rw [Header.payloadBytes_injective (show Header.payloadBytes entry =
            Header.payloadBytes (digest, workerId) from same)]
          exact among digest workerId rfl
      · exact reported entry found'
  | consensus => exact reported
  | core input =>
      refine advance_core reported fun _ => ?_
      have start : Reported reports (s.opened input) := by cases input <;> exact reported
      apply step_invariant_settles start fun _ _ => Reported.moves
      intro t t' settles reported
      cases settles
      exact reported

/-- **The store has keys of reported batches only**, in every run. -/
theorem reported_run (node : Core) (events : List Event) :
    Reported (reportsOf events) (node.run events) := by
  have reports : ∀ event ∈ events, ∀ digest workerId, event = .batch digest workerId →
      (digest, workerId) ∈ reportsOf events := by
    rintro _ happened digest workerId rfl
    exact happened
  exact Throughout.invariant (.of_forall reports _) (Reported (reportsOf events))
    (fun _ found => absurd found (by simp)) fun _ _ reported among => reported.advance among

/-! ## Votes -/

/-- **What a vote for a header stands for**, given what the workers have reported and what is in the
store. -/
structure Justified (node : Core) (reports : Set (Digest × WorkerId)) (store : Store)
    (h : Header) : Prop where
  verified : h.verify node.committee = .ok ()
  nonempty : h.parents.toList ≠ []
  found : ∀ digest ∈ h.parents, node.IsGenesis digest ∨
    ∃ c, store.read digest.asRef = some (.certificate c)
  quorum : ∃ parents, node.readParents store h.parents.toList = .ok (parents, []) ∧
    (∀ p ∈ parents, p.round + 1 = h.round) ∧ node.committee.quorumThreshold.toNat ≤
      (parents.map fun p => (node.committee.stake p.origin).toNat).sum
  payload : ∀ entry ∈ h.payload.entries, entry ∈ reports

/-- No header of round zero that a message brings has a parent of the last round. -/
def NoOverflow (node : Core) (s : State) : Event → Prop
  | .core input => ∀ h ∈ Event.header (.core input), h.round = 0 → ∀ digest ∈ h.parents.toList,
      ((node.parentValue s.store digest).bind StoreValue.stamp).map Prod.fst ≠ some (2 ^ 64 - 1)
  | .batch _ _ => True
  | .consensus _ => True

instance (s : State) : ∀ event, Decidable (node.NoOverflow s event)
  | .core _ => inferInstanceAs (Decidable (∀ h ∈ _, _ → ∀ digest ∈ _, _ ≠ _))
  | .batch _ _ => inferInstanceAs (Decidable True)
  | .consensus _ => inferInstanceAs (Decidable True)

/-- The header that is handed over is the one the message brings. -/
theorem header_of_hands {h : Header} (hands : node.Hands s input h) :
    Event.header (.core input) = some h := by
  cases hands with
  | embedded carries => cases carries <;> rfl
  | _ => rfl

/-- A message that may complete a certificate hands over no header of another author. -/
theorem own_of_completes {h : Header} (hands : node.Hands s input h)
    (completes : node.Completes input) : h.author = node.name := by
  cases hands with
  | embedded carries => cases carries <;> exact completes
  | _ => exact completes

/-- **The parents of an accepted header** are of the round before, unless that round overflows. -/
theorem Accepts.parents_of_round {h : Header} (accepts : node.Accepts s h)
    (brings : Event.header (.core input) = some h) (noOverflow : node.NoOverflow s (.core input)) :
    1 ≤ h.round ∧ ∃ parents, node.readParents s.store h.parents.toList = .ok (parents, []) ∧
      parents ≠ [] ∧ (∀ p ∈ parents, p.round + 1 = h.round) ∧
      node.committee.quorumThreshold ≤ node.committee.stakeOf parents := by
  obtain ⟨parents, read, nonempty, checked⟩ := accepts.parents
  obtain ⟨rounds, quorum⟩ := checkParents_eq_ok_iff.mp checked
  have positive : 1 ≤ h.round := by
    by_contra low
    have zero : h.round = 0 := by omega
    obtain ⟨p, member⟩ := List.exists_mem_of_ne_nil _ nonempty
    obtain ⟨digest, inside, found⟩ :=
      exists_of_forall₂ (readParents_eq_ok_iff.mp read).flip member
    have last : p.round = 2 ^ 64 - 1 := by
      have round := rounds p member
      have bound := p.round_lt
      omega
    apply noOverflow h brings zero digest inside
    simp only [found, StoreValue.stamp, Option.bind_some, Option.map_some, last]
  refine ⟨positive, parents, read, nonempty, fun p member => ?_, quorum⟩
  have round := rounds p member
  have bound := p.round_lt
  omega

theorem Accepts.of_store {h : Header} (accepts : node.Accepts t h) (same : t.store = s.store) :
    node.Accepts s h where
  parents := same ▸ accepts.parents
  payload := same ▸ accepts.payload

/-- A header that was handed over, that was accepted with the store as it was at the message, and
that is stored. -/
structure VotedFor (node : Core) (s : State) (input : Input) (t : State) (h : Header) : Prop where
  hands : node.Hands s input h
  accepts : node.Accepts s h
  stored : t.store.read h.id.asRef = some (.header h)

/-- What is known of the votes created since the message was received at `s`. -/
def Voting (node : Core) (s : State) (input : Input) (t : State) : Prop :=
  ∃ new, t.votesCreated = s.votesCreated ++ new ∧
    ∀ a ∈ new, a.1.author ≠ node.name → node.VotedFor s input t a.1

/-- There is one header at hand when it is of another author. -/
theorem VotedFor.header_eq {h h' : Header} (voted : node.VotedFor s input t h)
    (other : h.author ≠ node.name) (subject : node.HeaderAtHand s input t' h') : h' = h := by
  rcases subject with hands | ⟨completes, -⟩
  · exact Option.some.inj ((header_of_hands hands).symm.trans (header_of_hands voted.hands))
  · exact absurd (own_of_completes voted.hands completes) other

/-- The votes stay as they are when the header stays stored. -/
theorem Voting.of_same (voting : node.Voting s input t) (votes : t'.votesCreated = t.votesCreated)
    (stored : ∀ h, h.author ≠ node.name → node.VotedFor s input t h →
      t'.store.read h.id.asRef = some (.header h)) : node.Voting s input t' := by
  obtain ⟨new, same, voted⟩ := voting
  refine ⟨new, votes.trans same, fun a member other => ?_⟩
  have before := voted a member other
  exact ⟨before.hands, before.accepts, stored a.1 other before⟩

/-- A header of another author that was voted for is verified. -/
theorem VotedFor.verified {h : Header} (voted : node.VotedFor s input t h)
    (other : h.author ≠ node.name) (cleared : node.Cleared s)
    (admissible : node.Admissible s (.core input)) (noOverflow : node.NoOverflow s (.core input)) :
    h.verify node.committee = .ok () :=
  cleared.hands admissible voted.hands other
    (voted.accepts.parents_of_round (header_of_hands voted.hands) noOverflow).1

section Step

variable {known : Set Header} (collisionFree : CollisionFree (hashedFor known))
  (avoids : Primitives.Avoids (hashedFor known) node.committee.fixedDigests)

include collisionFree avoids

/-- A certificate of a verified header does not have the id of the header as its digest. -/
theorem digest_ne_id {c : Certificate} (heard : c.header ∈ known)
    (verified : c.header.verify node.committee = .ok ()) : c.digest ≠ c.header.id := by
  intro same
  obtain ⟨id, stake, -⟩ := Header.verify_ok_iff.mp verified
  have hashed : c.header.hashInput ∈ hashedFor known := ⟨c.header, .inr heard, .inl rfl⟩
  have bytes : c.hashInput = c.header.hashInput :=
    collisionFree ⟨c.header, .inr heard, .inr rfl⟩ hashed (same.trans id.symm)
  have front : c.header.id.asRef = c.header.author.asRef := by
    simp only [Certificate.hashInput, certifiedBytes, Header.hashInput, List.append_assoc] at bytes
    exact (List.append_inj bytes (by simp)).1
  refine avoids _ hashed (.inr ⟨c.header.author, node.committee.mem_keys_of_stake_pos stake, ?_⟩)
  calc (Primitives.sha512 c.header.hashInput).word = c.header.id.word := congrArg Digest.word id
    _ = c.header.author.word := wordBytes_injective front

variable (cleared : node.Cleared s) (admissible : node.Admissible s (.core input))
  (heard : ∀ h, Event.header (.core input) = some h → h ∈ known)
  (noOverflow : node.NoOverflow s (.core input))

include cleared admissible heard noOverflow

/-- **An act creates a vote for an accepted header only.** -/
theorem Voting.acts (acts : node.Acts s input t t') (voting : node.Voting s input t) :
    node.Voting s input t' := by
  cases acts with
  | inspect _ inspects =>
      cases inspects <;> exact voting.of_same rfl fun h _ voted => voted.stored
  | @store _ h subject accepts =>
      refine voting.of_same rfl fun h' other voted => ?_
      obtain rfl := voted.header_eq other subject
      show (t.store.write h.id.asRef (.header h)).read h.id.asRef = _
      rw [Store.read_write, if_pos rfl]
  | @vote u h subject accepts first fresh =>
      obtain ⟨new, same, voted⟩ := voting
      refine ⟨new ++ [(h, node.voteFor h)], ?_, fun a member other => ?_⟩
      · show (u.storeHeader h).votesCreated ++ [(h, node.voteFor h)] = _
        rw [same, List.append_assoc]
      rcases List.mem_append.mp member with old | here
      · have before := voted a old other
        exact ⟨before.hands, before.accepts, before.stored⟩
      · obtain rfl := List.mem_singleton.mp here
        have hands : node.Hands s input h := by
          refine subject.resolve_right ?_
          rintro ⟨-, same, -⟩
          rcases (cleared.opened admissible).current with own | initial
          · exact other ((congrArg Header.author same).trans own)
          · obtain ⟨parents, read, nonempty, -⟩ := accepts.parents
            rw [same, initial] at read
            cases read
            exact nonempty rfl
        have untouched : u.store = s.store := by
          refine fresh.resolve_left fun completes => other ?_
          exact own_of_completes hands completes
        refine ⟨hands, accepts.of_store untouched, ?_⟩
        show (u.store.write h.id.asRef (.header h)).read h.id.asRef = _
        rw [Store.read_write, if_pos rfl]
  | @deliver _ c subject parents =>
      refine voting.of_same rfl fun h other voted => ?_
      obtain rfl := voted.header_eq other subject.header
      have different := digest_ne_id collisionFree avoids
        (heard _ (header_of_hands voted.hands))
        (voted.verified other cleared admissible noOverflow)
      show (t.store.write c.digest.asRef (.certificate c)).read c.header.id.asRef = _
      rw [Store.read_write, if_neg fun same => different (Digest.asRef_injective same.symm)]
      exact voted.stored
  | _ => exact voting.of_same rfl fun h _ voted => voted.stored

/-- **A step creates votes for accepted headers only.** -/
theorem voting_of_step : node.Voting s input (node.step s input) := by
  have start : node.Voting s input (s.opened input) := by
    refine ⟨[], ?_, fun _ member => absurd member List.not_mem_nil⟩
    cases input <;> exact (List.append_nil _).symm
  apply step_acts_settles start
  · exact fun t t' acts =>
      Voting.acts collisionFree avoids cleared admissible heard noOverflow acts
  · intro t t' settles voting
    cases settles
    exact voting.of_same rfl fun h _ voted => voted.stored

end Step

/-! ## Runs -/

/-- A header that was voted for was justified when the message was received. -/
theorem VotedFor.justified {h : Header} (voted : node.VotedFor s input t h)
    (other : h.author ≠ node.name) (cleared : node.Cleared s)
    (admissible : node.Admissible s (.core input)) (noOverflow : node.NoOverflow s (.core input))
    (reported : Reported reports s) : node.Justified reports s.store h := by
  obtain ⟨-, parents, read, nonempty, rounds, quorum⟩ :=
    voted.accepts.parents_of_round (header_of_hands voted.hands) noOverflow
  refine
    { verified := voted.verified other cleared admissible noOverflow
      nonempty := fun none => ?_
      found := fun digest inside => ?_
      quorum := ⟨parents, read, rounds, (UInt32.le_iff_toNat_le.mp quorum).trans
        (node.committee.toNat_stakeOf_le parents)⟩
      payload := fun entry inside => ?_ }
  · rw [none] at read
    cases read
    exact nonempty rfl
  · rcases parent_of_readParents read inside with genesis | stored | absent
    · exact .inl genesis
    · exact .inr stored
    · exact absurd absent List.not_mem_nil
  · exact reported entry ((voted.accepts.payload.resolve_left other) entry inside)

/-- What a vote stands for stays so. -/
theorem Justified.mono {store store' : Store} {h : Header}
    (justified : node.Justified reports store h) (grows : node.Grows store store') :
    node.Justified reports store' h := by
  obtain ⟨parents, read, rounds, quorum⟩ := justified.quorum
  obtain ⟨parents', read', same⟩ := grows.readParents read
  refine
    { verified := justified.verified
      nonempty := justified.nonempty
      found := fun digest inside => ?_
      quorum := ⟨parents', read', fun p' member => ?_, ?_⟩
      payload := justified.payload }
  · rcases parent_of_readParents read' inside with genesis | stored | absent
    · exact .inl genesis
    · exact .inr stored
    · exact absurd absent List.not_mem_nil
  · obtain ⟨p, inside, stamp⟩ := List.mem_map.mp (same ▸ List.mem_map_of_mem member)
    obtain ⟨round, -⟩ := Prod.mk.inj stamp
    rw [← round]
    exact rounds p inside
  · have origins : (parents'.map fun p => (node.committee.stake p.origin).toNat) =
        parents.map fun p => (node.committee.stake p.origin).toNat := by
      have mapped := congrArg (List.map fun stamp => (node.committee.stake stamp.2).toNat) same
      rw [List.map_map, List.map_map] at mapped
      exact mapped
    rw [origins]
    exact quorum

/-- **Every vote for a header of another author is justified** when no header of round zero has a
parent of the last round. What the vote stands for holds of the store before the event in which it
is created and of the store after it, and after it the header is stored. -/
theorem votes_justified {before : List Event} {event : Event}
    (collisionFree : CollisionFree (hashedFor (headersOf (before ++ [event]))))
    (avoids : Primitives.Avoids (hashedFor (headersOf (before ++ [event])))
      node.committee.fixedDigests)
    (member : node.name ∈ node.committee.authorities.keys)
    (admissible : Throughout node.advance node.Admissible {} (before ++ [event]))
    (noOverflow : Throughout node.advance node.NoOverflow {} (before ++ [event]))
    {a : Header × Vote}
    (created : a ∈ (node.run (before ++ [event])).votesCreated.drop
      (node.run before).votesCreated.length)
    (other : a.1.author ≠ node.name) :
    node.Justified (reportsOf before) (node.run before).store a.1 ∧
      node.Justified (reportsOf before) (node.run (before ++ [event])).store a.1 ∧
      (node.run (before ++ [event])).store.read a.1.id.asRef = some (.header a.1) := by
  have heard : ∀ event' ∈ before ++ [event], ∀ h, event'.header = some h →
      h ∈ headersOf (before ++ [event]) := fun event' happened h brings =>
    ⟨event', happened, brings⟩
  obtain ⟨admissible, allowed, -⟩ := Throughout.append_iff.mp admissible
  obtain ⟨-, noOverflow, -⟩ := Throughout.append_iff.mp noOverflow
  have heardBefore := fun event' happened => heard event' (List.mem_append_left _ happened)
  have filed : Filed node.committee _ (node.run before) :=
    (admissible.and (.of_forall heardBefore _)).invariant (Filed node.committee _) (filed_start _)
      fun _ _ filed both => filed.advance member both.1 both.2
  have cleared : node.Cleared (node.run before) :=
    admissible.invariant node.Cleared cleared_start fun _ _ cleared allowed =>
      cleared.advance allowed
  have reported := reported_run node before
  rw [node.run_snoc] at created ⊢
  have grows := filed.grows_advance collisionFree avoids member allowed
    (heard event (List.mem_append_right _ (List.mem_singleton_self event)))
  have voting : ∃ input, event = .core input ∧
      node.Voting (node.run before) input (node.advance (node.run before) event) := by
    cases event with
    | batch => exact absurd created (by simp [advance])
    | consensus => exact absurd created (by simp [advance])
    | core input =>
        have none : node.Voting (node.run before) input (node.run before) :=
          ⟨[], (List.append_nil _).symm, fun _ inside => absurd inside List.not_mem_nil⟩
        refine ⟨input, rfl, advance_core none fun _ => ?_⟩
        exact voting_of_step collisionFree avoids cleared allowed
          (heard _ (List.mem_append_right _ (List.mem_singleton_self _))) noOverflow
  obtain ⟨input, rfl, new, same, voted⟩ := voting
  rw [same, List.drop_left] at created
  have now := voted a created other
  have justified := now.justified other cleared allowed noOverflow reported
  exact ⟨justified, justified.mono grows, now.stored⟩

end Votes

/-! ## A header that was not verified -/

section FiveAuthorities

local instance justifiedSign : Primitives := executable fun _ _ => true

theorem sorted_batch : [((⟨7⟩ : Digest), (0 : WorkerId))].Pairwise (·.1 < ·.1) := by decide

/-- A header of the fourth authority with one batch. -/
def batchHeader : Header :=
  .new ⟨4⟩ 1 ⟨[(⟨7⟩, 0)], sorted_batch⟩ (.ofList (thirdAuthority.genesis.map Prod.fst))
    (nameSignature ⟨4⟩) Header.round_one_lt

theorem votes_justified_batchHeader :
    thirdAuthority.Justified (reportsOf [.batch ⟨7⟩ 0])
        (thirdAuthority.run [.batch ⟨7⟩ 0]).store batchHeader ∧
      thirdAuthority.Justified (reportsOf [.batch ⟨7⟩ 0])
        (thirdAuthority.run ([.batch ⟨7⟩ 0] ++ [.core (.primaries (.header batchHeader))])).store
        batchHeader ∧
      (thirdAuthority.run ([.batch ⟨7⟩ 0] ++ [.core (.primaries (.header batchHeader))])).store.read
        batchHeader.id.asRef = some (.header batchHeader) := by
  obtain ⟨collisionFree, avoids⟩ : CollisionFree (hashedFor (headersOf
        ([.batch ⟨7⟩ 0] ++ [.core (.primaries (.header batchHeader))]))) ∧
      Primitives.Avoids (hashedFor (headersOf
        ([.batch ⟨7⟩ 0] ++ [.core (.primaries (.header batchHeader))])))
        fiveAuthorities.fixedDigests := by
    rw [headersOf_eq]
    exact hashed_of_headers _ (fun _ brought => brought) (by decide +kernel) (by decide +kernel)
  have created : (batchHeader, thirdAuthority.voteFor batchHeader) ∈
      (thirdAuthority.run ([.batch ⟨7⟩ 0] ++
        [.core (.primaries (.header batchHeader))])).votesCreated.drop
        (thirdAuthority.run [.batch ⟨7⟩ 0]).votesCreated.length := by
    decide +kernel
  exact votes_justified collisionFree avoids (by decide) (by decide +kernel) (by decide +kernel)
    created (by decide)

/-- The certificate of an authority at the last round, without parents. -/
def lastRound (name : PublicKey) : Certificate :=
  certified (.new name (2 ^ 64 - 1) ∅ ∅ (nameSignature name)) ⟨4⟩

/-- A certificate that passes for one of the genesis and has parents of the last round. -/
def overflowing : Certificate where
  header := { (default : Header) with
    author := ⟨1⟩
    parents := .ofList ([⟨1⟩, ⟨2⟩, ⟨4⟩].map fun name => (lastRound name).digest) }
  votes := []

/-- **A primary may vote for a header that was not verified.** -/
theorem unverified_vote : ¬ ∀ (node : Core) (before : List Event) (event : Event)
    (a : Header × Vote), node.name ∈ node.committee.authorities.keys →
      Throughout node.advance node.Admissible {} (before ++ [event]) →
      a ∈ (node.run (before ++ [event])).votesCreated.drop
        (node.run before).votesCreated.length →
      a.1.author ≠ node.name → a.1.verify node.committee = .ok () := by
  intro verified
  have accepted := verified thirdAuthority
    ([⟨1⟩, ⟨2⟩, ⟨4⟩].map fun name => .core (.primaries (.certificate (lastRound name))))
    (.core (.primaries (.certificate overflowing)))
    (overflowing.header, thirdAuthority.voteFor overflowing.header) (by decide) (by decide +kernel)
    (by decide +kernel) (by decide)
  exact absurd accepted (by decide +kernel)

end FiveAuthorities

end Tusk.Core
