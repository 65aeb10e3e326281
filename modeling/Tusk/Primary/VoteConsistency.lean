import Tusk.Primary.CoreMoves

/-!
# One vote for each author and round

A primary that has voted for a header of an author at a round does not vote for another header of
that author and round. The Core keeps the authors it has voted for in `last_voted`, by round, and
drops the rounds below the garbage collected one at the end of each pass of its loop. A header from
another primary is refused when its round is dropped. A header that comes back from a waiter, or
inside a certificate that does, is not tested again, and neither are the headers of the primary
itself (`unchecked`).

So the votes are consistent as long as no such header is below the garbage collected round and
conflicts with an earlier vote (`votes_consistent`). A certificate that waits for a parent while
its round is dropped gets a second vote (`voted_twice`).
-/

set_option autoImplicit false

namespace Tusk.Core

open Lib

/-- Votes for headers of one author and round are for one header id. -/
def Consistent (votes : List (Header × Vote)) : Prop :=
  ∀ a ∈ votes, ∀ b ∈ votes, a.2.origin = b.2.origin → a.2.round = b.2.round → a.2.id = b.2.id

instance (votes : List (Header × Vote)) : Decidable (Consistent votes) :=
  inferInstanceAs (Decidable (∀ a ∈ votes, ∀ b ∈ votes, _ → _ → _))

/-- The header is below the garbage collected round, and there is a vote for another header of its
author and round. -/
def Conflicts (s : State) (h : Header) : Prop :=
  h.round < s.gcRound ∧
    ∃ a ∈ s.votesCreated, a.2.origin = h.author ∧ a.2.round = h.round ∧ a.2.id ≠ h.id

instance (s : State) (h : Header) : Decidable (Conflicts s h) :=
  inferInstanceAs (Decidable (_ ∧ _))

/-- A vote that agrees with consistent votes may be added. -/
theorem Consistent.append {votes : List (Header × Vote)} {new : Header × Vote}
    (consistent : Consistent votes)
    (agrees : ∀ a ∈ votes, a.2.origin = new.2.origin → a.2.round = new.2.round →
      a.2.id = new.2.id) : Consistent (votes ++ [new]) := by
  intro a memberA b memberB origin round
  rcases List.mem_append.mp memberA with oldA | newA
  · rcases List.mem_append.mp memberB with oldB | newB
    · exact consistent a oldA b oldB origin round
    · obtain rfl := List.mem_singleton.mp newB
      exact agrees a oldA origin round
  · obtain rfl := List.mem_singleton.mp newA
    rcases List.mem_append.mp memberB with oldB | newB
    · exact (agrees b oldB origin.symm round.symm).symm
    · obtain rfl := List.mem_singleton.mp newB
      rfl

section Runs

variable [Primitives] (node : Core)

/-- The headers that a message may have processed without a test of their round. -/
def unchecked (s : State) (input : Input) : List Header :=
  (match input with
    | .primaries _ => []
    | .headerWaiter h => [h]
    | .certificateWaiter c => [c.header]
    | .proposer h => [h]) ++
  if node.Completes input then [(s.opened input).currentHeader] else []

/-- No header that is not tested conflicts with an earlier vote. -/
def NoConflict (s : State) : Event → Prop
  | .core input => ∀ h ∈ node.unchecked s input, ¬ Conflicts s h
  | .batch _ _ => True
  | .consensus _ => True

instance (s : State) : ∀ event, Decidable (node.NoConflict s event)
  | .core _ => inferInstanceAs (Decidable (∀ h ∈ _, ¬ Conflicts _ h))
  | .batch _ _ => inferInstanceAs (Decidable True)
  | .consensus _ => inferInstanceAs (Decidable True)

variable {node}

/-- A header that is processed has been tested or is one of those that are not. -/
theorem le_round_or_mem_unchecked {s : State} {input : Input} {h : Header}
    (subject : node.Handled s input h) : s.gcRound ≤ h.round ∨ h ∈ node.unchecked s input := by
  rcases subject with hands | ⟨completes, rfl⟩
  · cases hands with
    | primaries sane =>
        obtain ⟨_, recent, _⟩ := bind_eq_ok_iff.mp sane
        exact .inl (ensure_eq_ok_iff.mp recent)
    | headerWaiter => exact .inr (by simp [unchecked])
    | proposer => exact .inr (by simp [unchecked])
    | embedded carries =>
        cases carries with
        | primaries sane =>
            obtain ⟨_, recent, _⟩ := bind_eq_ok_iff.mp sane
            exact .inl (ensure_eq_ok_iff.mp recent)
        | certificateWaiter => exact .inr (by simp [unchecked])
  · exact .inr (by simp [unchecked, completes])

/-- What is known of the votes between two steps. -/
structure Recorded (node : Core) (s : State) : Prop where
  consistent : Consistent s.votesCreated
  recorded : ∀ a ∈ s.votesCreated, s.gcRound ≤ a.2.round →
    a.2.origin ∈ HashMap.bucket s.lastVoted a.2.round
  gcRound_le : s.gcRound ≤ s.consensusRound - node.gcDepth

/-- What is known of the votes during a step that started at `s`. -/
structure Recording (node : Core) (s t : State) : Prop where
  recorded : node.Recorded t
  gcRound : t.gcRound = s.gcRound
  fresh : ∀ a ∈ t.votesCreated,
    a ∈ s.votesCreated ∨ a.2.origin ∈ HashMap.bucket t.lastVoted a.2.round

/-- The vote for a header agrees with the earlier votes. -/
theorem Recording.agrees {s t : State} {input : Input} {h : Header}
    (recording : node.Recording s t) (noConflict : node.NoConflict s (.core input))
    (subject : node.Handled s input h) (first : h.author ∉ HashMap.bucket t.lastVoted h.round)
    {a : Header × Vote} (member : a ∈ t.votesCreated) (origin : a.2.origin = h.author)
    (round : a.2.round = h.round) : a.2.id = h.id := by
  have unrecorded : a.2.origin ∉ HashMap.bucket t.lastVoted a.2.round := by
    rw [origin, round]
    exact first
  have old := (recording.fresh a member).resolve_right unrecorded
  rcases le_round_or_mem_unchecked subject with recent | untested
  · -- a vote of a round that was not dropped is recorded
    have live : t.gcRound ≤ a.2.round := by
      rw [recording.gcRound, round]
      exact recent
    exact absurd (recording.recorded.recorded a member live) unrecorded
  · by_contra different
    by_cases stale : h.round < s.gcRound
    · exact noConflict h untested ⟨stale, a, old, origin, round, different⟩
    · have live : t.gcRound ≤ a.2.round := by
        rw [recording.gcRound, round]
        exact not_lt.mp stale
      exact absurd (recording.recorded.recorded a member live) unrecorded

/-- The new vote is recorded, and the recorded votes stay recorded. -/
theorem mem_bucket_createVote {t : State} {h : Header} {a : Header × Vote}
    (member : a ∈ t.votesCreated ++ [(h, node.voteFor h)])
    (recorded : a ∈ t.votesCreated → a.2.origin ∈ HashMap.bucket t.lastVoted a.2.round) :
    a.2.origin ∈ HashMap.bucket (HashMap.adjoin t.lastVoted h.round h.author) a.2.round := by
  apply HashMap.mem_bucket_adjoin.mpr
  rcases List.mem_append.mp member with old | new
  · exact .inr (recorded old)
  · obtain rfl := List.mem_singleton.mp new
    exact .inl ⟨rfl, rfl⟩

/-- **A move keeps the record.** -/
theorem Recording.moves {s t t' : State} {input : Input}
    (noConflict : node.NoConflict s (.core input))
    (moves : node.Moves (node.Handled s input) (node.Carried s input) t t')
    (recording : node.Recording s t) : node.Recording s t' := by
  obtain ⟨⟨consistent, recorded, bound⟩, gcRound, fresh⟩ := recording
  cases moves with
  | check _ checks => cases checks <;> exact ⟨⟨consistent, recorded, bound⟩, gcRound, fresh⟩
  | @vote t h subject accepts first =>
      have agrees : ∀ a ∈ t.votesCreated, a.2.origin = h.author → a.2.round = h.round →
          a.2.id = h.id := by
        intro a member
        exact Recording.agrees ⟨⟨consistent, recorded, bound⟩, gcRound, fresh⟩ noConflict subject
          first member
      refine ⟨⟨consistent.append agrees, fun a member live => ?_, bound⟩, gcRound,
        fun a member => ?_⟩
      · exact mem_bucket_createVote member fun old => recorded a old live
      · by_cases before : a ∈ s.votesCreated
        · exact .inl before
        · exact .inr (mem_bucket_createVote member fun old => (fresh a old).resolve_left before)
  | _ => exact ⟨⟨consistent, recorded, bound⟩, gcRound, fresh⟩

omit [Primitives] in
/-- The cleanup drops no vote of a round that is not below the new garbage collected round. -/
theorem Recorded.cleanup {s : State} (recorded : node.Recorded s) :
    node.Recorded (s.cleanup node.gcDepth) := by
  unfold State.cleanup
  dsimp only
  split
  · refine ⟨recorded.consistent, fun a member live => ?_, le_rfl⟩
    have kept : s.consensusRound - node.gcDepth ≤ a.2.round := live
    have present := recorded.recorded a member (recorded.gcRound_le.trans kept)
    dsimp only
    rw [HashMap.bucket_retainKeys, if_pos kept]
    exact present
  · exact recorded

/-- **An event keeps the record.** -/
theorem Recorded.advance {s : State} {event : Event} (recorded : node.Recorded s)
    (admissible : node.Admissible s event) (noConflict : node.NoConflict s event) :
    node.Recorded (node.advance s event) := by
  cases event with
  | batch => exact ⟨recorded.consistent, recorded.recorded, recorded.gcRound_le⟩
  | consensus round =>
      have later : s.consensusRound ≤ round := admissible
      exact ⟨recorded.consistent, recorded.recorded,
        recorded.gcRound_le.trans (Nat.sub_le_sub_right later _)⟩
  | core input =>
      refine advance_core recorded fun _ => ?_
      have start : node.Recording s (s.opened input) := by
        cases input <;> exact
          ⟨⟨recorded.consistent, recorded.recorded, recorded.gcRound_le⟩, rfl, fun _ => .inl⟩
      apply step_invariant start (fun t t' moves => Recording.moves noConflict moves)
      · exact fun t recording => recording.recorded.cleanup
      · intro t p recording
        obtain ⟨consistent, recorded, bound⟩ := recording.recorded
        exact ⟨consistent, recorded, bound⟩

/-- **The votes of a run are consistent** when no header that is processed without a test of its
round conflicts with an earlier vote. -/
theorem votes_consistent {events : List Event}
    (admissible : Throughout node.advance node.Admissible {} events)
    (noConflict : Throughout node.advance node.NoConflict {} events) :
    Consistent (node.run events).votesCreated := by
  have start : node.Recorded {} :=
    ⟨fun _ member => absurd member List.not_mem_nil, fun _ member => absurd member List.not_mem_nil,
      Nat.zero_le _⟩
  have kept := (admissible.and noConflict).invariant node.Recorded start
    fun s event recorded allowed => recorded.advance allowed.1 allowed.2
  exact kept.consistent

end Runs

/-! ## A certificate that waits too long -/

/-- Five authorities, of which the first two with any other one are a quorum. -/
def fiveAuthorities : Committee where
  authorities := ⟨[(⟨1⟩, .ofStake 3), (⟨2⟩, .ofStake 3), (⟨3⟩, .ofStake 1), (⟨4⟩, .ofStake 1),
    (⟨5⟩, .ofStake 1)], by decide⟩

/-- The third authority. -/
def thirdAuthority : Core where
  name := ⟨3⟩
  committee := fiveAuthorities
  gcDepth := 50
  requestSignature := nameSignature ⟨3⟩

section FiveAuthorities

local instance allSign : Primitives := executable fun _ _ => true

/-- A header without batches, with the votes of the first two authorities and a third one. -/
def certified (header : Header) (third : PublicKey) : Certificate where
  header := header
  votes := [⟨1⟩, ⟨2⟩, third].map fun voter =>
    (voter, (Vote.new header voter (nameSignature voter)).signature)

/-- The certificate of an authority at round 1. -/
def firstRound (name : PublicKey) : Certificate :=
  certified (.new name 1 ∅ (.ofList (thirdAuthority.genesis.map Prod.fst)) (nameSignature name)
    Header.round_one_lt) ⟨4⟩

/-- A header of the fourth authority at round 2, with a choice of the third parent. -/
def twoFaced (third : PublicKey) : Header :=
  .new ⟨4⟩ 2 ∅ (.ofList ([⟨1⟩, ⟨2⟩, third].map fun name => (firstRound name).digest))
    (nameSignature ⟨4⟩) Header.round_two_lt

/-- The first three certificates of round 1 arrive. -/
def opening : List Event :=
  [⟨1⟩, ⟨2⟩, ⟨4⟩].map fun name => .core (.primaries (.certificate (firstRound name)))

/-- The certificate of the second header waits for its third parent until round 2 is dropped. -/
def waiting : List Event :=
  let c := certified (twoFaced ⟨5⟩) ⟨5⟩
  [.core (.primaries (.certificate c)), .consensus 60,
    .core (.primaries (.certificate (firstRound ⟨5⟩))), .core (.certificateWaiter c)]

theorem votes_consistent_waiting :
    Consistent (thirdAuthority.run (opening ++ waiting)).votesCreated :=
  votes_consistent (by decide +kernel) (by decide +kernel)

/-- **A primary may vote for two headers of one author and round.** -/
theorem voted_twice : ¬ ∀ (node : Core) (events : List Event),
    Throughout node.advance node.Admissible {} events →
      Consistent (node.run events).votesCreated := by
  intro consistent
  have votes := consistent thirdAuthority
    (opening ++ .core (.primaries (.header (twoFaced ⟨4⟩))) :: waiting) (by decide +kernel)
  exact absurd votes (by decide +kernel)

end FiveAuthorities

end Tusk.Core
