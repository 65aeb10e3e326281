import Tusk.Primary.CoreActs

/-!
# The vote that is counted first

A message may have several votes counted: the vote it brings, and votes of this primary for headers
of its own. A certificate of the current header is assembled by the vote that is counted first, or
after a certificate of it has been broadcast (`Counting.assembles`). So whether a message completes
a certificate can be read off the state it is received in (`MayAssemble`).
-/

set_option autoImplicit false

namespace Tusk.Core

open Lib

variable [Primitives] (node : Core)

/-- A vote of the authority makes the quorum full. -/
def QuorumBy (s : State) (author : PublicKey) : Prop :=
  author ∉ s.votesAggregator.used ∧
    node.committee.quorumThreshold ≤ s.votesAggregator.weight + node.committee.stake author

omit [Primitives] in
/-- The authority whose vote is counted first at a message that may complete a certificate. -/
def voter : Input → PublicKey
  | .primaries (.vote v) => v.author
  | _ => node.name

/-- A message that may complete a certificate of the current header does so when the vote that is
counted first makes the quorum full. -/
def MayAssemble (s : State) (input : Input) : Prop :=
  node.Sane s input ∧ node.Completes input ∧ node.QuorumBy (s.opened input) (node.voter input)

instance (s : State) (author : PublicKey) : Decidable (node.QuorumBy s author) :=
  inferInstanceAs (Decidable (_ ∧ _))

instance (s : State) (input : Input) : Decidable (node.MayAssemble s input) :=
  inferInstanceAs (Decidable (_ ∧ _ ∧ _))

/-- A certificate of the current header has been broadcast. -/
def Announced (s : State) (input : Input) (t : State) : Prop :=
  ∃ c : Certificate, c.header = (s.opened input).currentHeader ∧
    (node.others, .certificate c) ∈ t.network

/-- What is known of the votes counted since the message was received at `s`. -/
structure Counting (node : Core) (s : State) (input : Input) (t : State) : Prop where
  current : Current s input t
  first : t.votesAggregator = (s.opened input).votesAggregator ∨
    node.voter input ∈ t.votesAggregator.used ∨ node.Announced s input t

variable {node} {s t t' : State} {input : Input}

omit [Primitives] in
theorem Announced.mono (announced : node.Announced s input t) (more : t.network ⊆ t'.network) :
    node.Announced s input t' := by
  obtain ⟨c, header, broadcast⟩ := announced
  exact ⟨c, header, more broadcast⟩

/-- A message that hands over a header passed the checks. -/
theorem sane_of_hands {h : Header} (hands : node.Hands s input h) :
    node.Sane s input ∧ node.voter input = node.name := by
  cases hands with
  | primaries sane => exact ⟨sane, rfl⟩
  | headerWaiter => exact ⟨trivial, rfl⟩
  | proposer => exact ⟨trivial, rfl⟩
  | embedded carries =>
      cases carries with
      | primaries sane => exact ⟨sane, rfl⟩
      | certificateWaiter => exact ⟨trivial, rfl⟩

/-- Before a certificate has been broadcast, all votes that come up are of one authority. -/
theorem VoteAtHand.author_eq {v : Vote} (atHand : node.VoteAtHand s input t v) :
    (node.Sane s input ∧ v.author = node.voter input) ∨ node.Announced s input t := by
  cases atHand with
  | received brings sane =>
      subst brings
      exact .inl ⟨sane, rfl⟩
  | own subject =>
      rcases subject with hands | ⟨-, same, c, header, broadcast⟩
      · obtain ⟨sane, name⟩ := sane_of_hands hands
        exact .inl ⟨sane, name.symm⟩
      · exact .inr ⟨c, header.trans same, broadcast⟩

/-- **A certificate is assembled by the vote counted first**, or after another one. -/
theorem Counting.assembles {v : Vote} {aggregator : VotesAggregator} {c : Certificate}
    (counting : node.Counting s input t) (subject : node.VoteAtHand s input t v)
    (appended : t.votesAggregator.append v node.committee t.currentHeader =
      .ok (aggregator, some c)) :
    node.MayAssemble s input ∨ node.Announced s input t := by
  rcases subject.author_eq with ⟨sane, author⟩ | announced
  · obtain ⟨fresh, reached, -⟩ := VotesAggregator.append_some appended
    rcases counting.first with unchanged | used | announced
    · rw [unchanged, author] at fresh reached
      exact .inl ⟨sane, subject.completes, fresh, reached⟩
    · exact absurd (author ▸ used) fresh
    · exact .inr announced
  · exact .inr announced

/-- An act keeps what is known of the votes. -/
theorem Counting.acts (acts : node.Acts s input t t') (counting : node.Counting s input t) :
    node.Counting s input t' := by
  have current : Current s input t' := acts.currentHeader.trans counting.current
  have announced : node.Announced s input t → node.Announced s input t' := fun announced =>
    announced.mono acts.network_subset
  have first : t.votesAggregator = (s.opened input).votesAggregator ∨
      node.voter input ∈ t.votesAggregator.used ∨ node.Announced s input t' :=
    counting.first.imp_right fun first => first.imp_right announced
  cases acts with
  | inspect _ inspects => cases inspects <;> exact ⟨current, first⟩
  | count subject appended =>
      rcases subject.author_eq with ⟨-, author⟩ | before
      · obtain ⟨-, -, rfl⟩ := VotesAggregator.append_none appended
        exact ⟨current, .inr (.inl (author ▸ Finset.mem_insert_self _ _))⟩
      · exact ⟨current, .inr (.inr (announced before))⟩
  | @assemble _ v aggregator c subject appended =>
      obtain ⟨-, -, -, rfl⟩ := VotesAggregator.append_some appended
      exact ⟨current, .inr (.inr ⟨_, counting.current,
        List.mem_append_right _ (List.mem_singleton_self _)⟩)⟩
  | _ => exact ⟨current, first⟩

omit [Primitives] in
theorem counting_start : node.Counting s input (s.opened input) := ⟨rfl, .inl rfl⟩

end Tusk.Core
