import Tusk.Consensus.Execution
import Tusk.Primary.Assembly
import Tusk.Primary.VoteConsistency

/-!
# The rounds of the certificates that reach the consensus

The consensus subtracts one from the round of a certificate, and relies on the Core for that the
round is not zero. The Core does not look at the round. A certificate of round zero passes the
checks as a genesis certificate, its header has no parents to wait for, and it is handed over
(`genesis_handed_over`). The other certificate of round zero is the one that votes make of the
header a primary starts with. Where neither occurs, all rounds are positive and the subtractions
are well formed (`consensus_rounds_positive`).
-/

set_option autoImplicit false

namespace Tusk.Core

open Lib

section Runs

variable [Primitives] (node : Core)

omit [Primitives] in
/-- The certificate that another primary sends. -/
def brings : Input → Option Certificate
  | .primaries (.certificate c) => some c
  | _ => none

/-- No certificate of round zero is accepted from another primary, and none is assembled. -/
def FromRoundOne (s : State) : Event → Prop
  | .core input => (∀ c ∈ brings input, node.Sane s input → 1 ≤ c.round) ∧
      (node.MayAssemble s input → 1 ≤ (s.opened input).currentHeader.round)
  | .batch _ _ => True
  | .consensus _ => True

instance (s : State) : ∀ event, Decidable (node.FromRoundOne s event)
  | .core _ => inferInstanceAs (Decidable (_ ∧ _))
  | .batch _ _ => inferInstanceAs (Decidable True)
  | .consensus _ => inferInstanceAs (Decidable True)

/-- No certificate is assembled of the header that a primary starts with, which is of round zero. -/
def AssemblesFromRoundOne (s : State) : Event → Prop
  | .core input => node.MayAssemble s input → 1 ≤ (s.opened input).currentHeader.round
  | .batch _ _ => True
  | .consensus _ => True

instance (s : State) : ∀ event, Decidable (node.AssemblesFromRoundOne s event)
  | .core _ => inferInstanceAs (Decidable (_ → _))
  | .batch _ _ => inferInstanceAs (Decidable True)
  | .consensus _ => inferInstanceAs (Decidable True)

/-- The certificates that this primary has made have positive rounds. -/
def MadePositive (s : State) : Prop := ∀ c, (node.others, .certificate c) ∈ s.network → 1 ≤ c.round

/-- The certificates that were handed over, that wait, and that this primary has made have positive
rounds. -/
structure Positive (s : State) : Prop where
  consensus : ∀ c ∈ s.txConsensus, 1 ≤ c.round
  waiting : ∀ c ∈ s.txCertificateWaiter, 1 ≤ c.round
  made : node.MadePositive s

variable {node} {s t t' : State} {input : Input}

theorem FromRoundOne.assembles {event : Event} (fromRoundOne : node.FromRoundOne s event) :
    node.AssemblesFromRoundOne s event := by
  cases event with
  | core input => exact fromRoundOne.2
  | _ => trivial

/-! ## What is made -/

/-- **An act makes certificates of positive rounds.** -/
theorem MadePositive.acts (assembles : node.AssemblesFromRoundOne s (.core input))
    (acts : node.Acts s input t t') (counting : node.Counting s input t)
    (made : node.MadePositive t) : node.MadePositive t' := by
  intro c inside
  rcases acts.broadcast inside with old | ⟨v, aggregator, subject, appended⟩
  · exact made c old
  · have round : 1 ≤ (s.opened input).currentHeader.round := by
      rcases counting.assembles subject appended with may | ⟨c', header, broadcast⟩
      · exact assembles may
      · exact header ▸ made c' broadcast
    obtain ⟨-, -, -, rfl⟩ := VotesAggregator.append_some appended
    show 1 ≤ t.currentHeader.round
    rw [counting.current]
    exact round

/-- An event makes certificates of positive rounds. -/
theorem MadePositive.advance {event : Event} (made : node.MadePositive s)
    (assembles : node.AssemblesFromRoundOne s event) :
    node.MadePositive (node.advance s event) := by
  cases event with
  | batch => exact made
  | consensus => exact made
  | core input =>
      refine advance_core made fun _ => ?_
      have kept : ∀ t t', node.Acts s input t t' →
          node.MadePositive t ∧ node.Counting s input t →
          node.MadePositive t' ∧ node.Counting s input t' :=
        fun _ _ acts known => ⟨known.1.acts assembles acts known.2, known.2.acts acts⟩
      refine step_acts_settles ?_ kept ?_
      · exact ⟨by cases input <;> exact made, counting_start⟩
      · rintro t t' settles ⟨made, -⟩
        cases settles
        exact made

/-! ## What is handed over -/

/-- What is known during the step that processes a message received at `s`. -/
structure Rising (node : Core) (s : State) (input : Input) (t : State) : Prop where
  positive : node.Positive t
  counting : node.Counting s input t

/-- **An act keeps the rounds positive.** -/
theorem Rising.acts (before : node.Positive s) (admissible : node.Admissible s (.core input))
    (fromRoundOne : node.FromRoundOne s (.core input)) (acts : node.Acts s input t t')
    (rising : node.Rising s input t) : node.Rising s input t' := by
  obtain ⟨⟨consensus, waiting, made⟩, counting⟩ := rising
  have subjectRound : ∀ c, node.CertificateAtHand s input t c → 1 ≤ c.round := by
    rintro c (carries | ⟨-, -, broadcast⟩)
    · cases carries with
      | primaries sane => exact fromRoundOne.1 c rfl sane
      | certificateWaiter => exact before.waiting c admissible.1
    · exact made c broadcast
  refine ⟨⟨fun c inside => ?_, fun c inside => ?_, made.acts fromRoundOne.2 acts counting⟩,
    counting.acts acts⟩
  · rcases acts.delivered inside with old | ⟨subject, -⟩
    · exact consensus c old
    · exact subjectRound c subject
  · rcases acts.waiting inside with old | ⟨subject, -⟩
    · exact waiting c old
    · exact subjectRound c subject

/-- **An event keeps the rounds positive.** -/
theorem Positive.advance {event : Event} (positive : node.Positive s)
    (admissible : node.Admissible s event) (fromRoundOne : node.FromRoundOne s event) :
    node.Positive (node.advance s event) := by
  cases event with
  | batch => exact ⟨positive.consensus, positive.waiting, positive.made⟩
  | consensus => exact ⟨positive.consensus, positive.waiting, positive.made⟩
  | core input =>
      refine advance_core positive fun _ => ?_
      have start : node.Rising s input (s.opened input) := by
        refine ⟨?_, counting_start⟩
        cases input <;> exact ⟨positive.consensus, positive.waiting, positive.made⟩
      apply step_acts_settles start
      · exact fun t t' acts => Rising.acts positive admissible fromRoundOne acts
      · rintro t t' settles ⟨⟨consensus, waiting, made⟩, -⟩
        cases settles
        exact ⟨consensus, waiting, made⟩

theorem positive_run {events : List Event}
    (admissible : Throughout node.advance node.Admissible {} events)
    (fromRoundOne : Throughout node.advance node.FromRoundOne {} events) :
    node.Positive (node.run events) := by
  have start : node.Positive {} :=
    ⟨fun _ member => absurd member List.not_mem_nil, fun _ member => absurd member List.not_mem_nil,
      fun _ member => absurd member List.not_mem_nil⟩
  exact (admissible.and fromRoundOne).invariant node.Positive start
    fun s event positive allowed => positive.advance allowed.1 allowed.2

/-- **The consensus subtracts from positive rounds** when no certificate of round zero is accepted
or assembled: every certificate it receives has a positive round, and so has every certificate with
parents that it has in its dag by then. -/
theorem consensus_rounds_positive {events : List Event}
    (admissible : Throughout node.advance node.Admissible {} events)
    (fromRoundOne : Throughout node.advance node.FromRoundOne {} events)
    {before after : List Certificate} {c : Certificate}
    (received : (node.run events).txConsensus = before ++ c :: after) :
    1 ≤ c.round ∧ ∀ (consensus : Consensus) (state : Consensus.State)
      (subDags : List Consensus.SubDag),
      consensus.committee = node.committee → consensus.run before = some (state, subDags) →
      ∀ r name entry, (state.dag.insert c).entry r name = some entry →
        1 ≤ entry.2.round ∨ entry.2.header.parents.toList = [] := by
  have positive := positive_run admissible fromRoundOne
  have rounds : ∀ x ∈ before ++ c :: after, 1 ≤ x.round := received ▸ positive.consensus
  refine ⟨rounds c (by simp), fun consensus state subDags _ computed r name entry found => ?_⟩
  rw [Consensus.Dag.entry_insert] at found
  split_ifs at found with here
  · cases found
    exact .inl (rounds c (by simp))
  · rcases Consensus.entry_of_run computed found with member | genesis
    · exact .inl (rounds _ (List.mem_append_left _ member))
    · exact .inr (Certificate.round_of_mem_genesis genesis).2

end Runs

section FiveAuthorities

local instance roundsSign : Primitives := executable fun _ _ => true

/-- The first three certificates of round 1. -/
theorem consensus_rounds_positive_opening :
    1 ≤ (firstRound ⟨4⟩).round ∧ ∀ (consensus : Consensus) (state : Consensus.State)
      (subDags : List Consensus.SubDag),
      consensus.committee = thirdAuthority.committee →
      consensus.run [firstRound ⟨1⟩, firstRound ⟨2⟩] = some (state, subDags) →
      ∀ r name entry, (state.dag.insert (firstRound ⟨4⟩)).entry r name = some entry →
        1 ≤ entry.2.round ∨ entry.2.header.parents.toList = [] := by
  have received : (thirdAuthority.run opening).txConsensus =
      [firstRound ⟨1⟩, firstRound ⟨2⟩] ++ firstRound ⟨4⟩ :: [] := by decide +kernel
  exact consensus_rounds_positive (by decide +kernel) (by decide +kernel) received

/-- **A genesis certificate sent by another primary reaches the consensus.** -/
theorem genesis_handed_over : ¬ ∀ (node : Core) (events : List Event),
    Throughout node.advance node.Admissible {} events →
      ∀ c ∈ (node.run events).txConsensus, 1 ≤ c.round := by
  intro positive
  have round := positive thirdAuthority
    [.core (.primaries (.certificate (.genesisOf ⟨1⟩)))] (by decide +kernel)
    (.genesisOf ⟨1⟩) (by decide +kernel)
  exact absurd round (by decide)

end FiveAuthorities

end Tusk.Core
