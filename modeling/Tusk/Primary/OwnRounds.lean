import Tusk.Lib.Runs
import Tusk.Primary.CoreMoves

/-!
# The rounds of a primary's own headers

The rounds of the headers of the `Proposer` increase. Nobody but this primary can sign a header of
its own, so what other primaries send of its headers is of the current round or an earlier one
(`OwnRounds`). Then nothing the primary has of its own is ahead of its current header: its votes for
itself, its headers and certificates that wait, and the certificates it has broadcast (`Behind`). So a
new header is of a round this primary has not voted for itself in.
-/

set_option autoImplicit false

namespace Tusk.Core

open Lib

variable [Primitives] (node : Core)

/-- The `Proposer` makes headers of increasing rounds, and what other primaries send of this
primary's headers is not ahead of the current one. -/
def OwnRounds (s : State) : Event → Prop
  | .core (.proposer h) => s.currentHeader.round < h.round
  | .core (.primaries (.header h)) =>
      node.sanitizeHeader s h = .ok () → h.author = node.name → h.round ≤ s.currentHeader.round
  | .core (.primaries (.certificate c)) =>
      node.sanitizeCertificate s c = .ok () → c.header.author = node.name →
        c.header.round ≤ s.currentHeader.round
  | _ => True

instance (s : State) : ∀ event, Decidable (node.OwnRounds s event)
  | .core (.proposer _) => inferInstanceAs (Decidable (_ < _))
  | .core (.primaries (.header _)) => inferInstanceAs (Decidable (_ = _ → _ → _))
  | .core (.primaries (.certificate _)) => inferInstanceAs (Decidable (_ = _ → _ → _))
  | .core (.primaries (.vote _)) => inferInstanceAs (Decidable True)
  | .core (.primaries (.certificatesRequest _ _)) => inferInstanceAs (Decidable True)
  | .core (.headerWaiter _) => inferInstanceAs (Decidable True)
  | .core (.certificateWaiter _) => inferInstanceAs (Decidable True)
  | .batch _ _ => inferInstanceAs (Decidable True)
  | .consensus _ => inferInstanceAs (Decidable True)

/-- Nothing this primary has of its own is ahead of its current header. -/
structure Behind (s : State) : Prop where
  voted : ∀ round, node.name ∈ HashMap.bucket s.lastVoted round → round ≤ s.currentHeader.round
  headerWaiter : ∀ message ∈ s.txHeaderWaiter, message.deliver.author = node.name →
    message.deliver.round ≤ s.currentHeader.round
  certificateWaiter : ∀ c ∈ s.txCertificateWaiter, c.header.author = node.name →
    c.header.round ≤ s.currentHeader.round
  broadcast : ∀ addresses c, (addresses, .certificate c) ∈ s.network →
    c.header.round ≤ s.currentHeader.round

variable {node} {s t t' : State} {input : Input}

theorem OwnRounds.current_le (ownRounds : node.OwnRounds s (.core input)) :
    s.currentHeader.round ≤ (s.opened input).currentHeader.round := by
  cases input with
  | proposer h => exact le_of_lt ownRounds
  | _ => exact le_rfl

theorem Behind.round_le_of_carries {c : Certificate} (behind : node.Behind s)
    (admissible : node.Admissible s (.core input)) (ownRounds : node.OwnRounds s (.core input))
    (carries : node.Carries s input c) (own : c.header.author = node.name) :
    c.header.round ≤ s.currentHeader.round := by
  cases carries with
  | primaries sane => exact ownRounds sane own
  | certificateWaiter => exact behind.certificateWaiter c admissible.1 own

/-- A header of this primary that is processed is not ahead of the current one. -/
theorem Behind.round_le {h : Header} (behind : node.Behind s)
    (admissible : node.Admissible s (.core input)) (ownRounds : node.OwnRounds s (.core input))
    (subject : node.Handled s input h) (own : h.author = node.name) :
    h.round ≤ (s.opened input).currentHeader.round := by
  rcases subject with hands | ⟨-, rfl⟩
  · cases hands with
    | primaries sane => exact ownRounds sane own
    | headerWaiter =>
        obtain ⟨message, sent, rfl, -⟩ := admissible
        exact behind.headerWaiter message sent own
    | proposer => exact le_rfl
    | embedded carries =>
        exact (behind.round_le_of_carries admissible ownRounds carries own).trans
          ownRounds.current_le
  · exact le_rfl

/-- What is known during the step that processes a message received at `s`. -/
structure Trailing (node : Core) (s : State) (input : Input) (t : State) : Prop where
  behind : node.Behind t
  current : Current s input t

/-- **An act keeps the primary behind its current header.** -/
theorem Trailing.acts (before : node.Behind s) (admissible : node.Admissible s (.core input))
    (ownRounds : node.OwnRounds s (.core input)) (acts : node.Acts s input t t')
    (trailing : node.Trailing s input t) : node.Trailing s input t' := by
  obtain ⟨⟨voted, headerWaiter, certificateWaiter, broadcast⟩, current⟩ := trailing
  have same := acts.currentHeader
  have round : ∀ h, node.HeaderAtHand s input t h → h.author = node.name →
      h.round ≤ t.currentHeader.round := fun h atHand own =>
    current ▸ before.round_le admissible ownRounds atHand.handled own
  refine ⟨⟨?_, fun message member own => ?_, fun c member own => ?_, ?_⟩, same.trans current⟩
  · rw [same]
    cases acts with
    | inspect _ inspects => cases inspects <;> exact voted
    | vote subject =>
        intro r member
        rcases HashMap.mem_bucket_adjoin.mp member with ⟨rfl, own⟩ | old
        · exact round _ subject own.symm
        · exact voted r old
    | _ => exact voted
  · rw [same]
    rcases acts.suspended member with old | ⟨subject, -⟩
    · exact headerWaiter message old own
    · exact round _ subject own
  · rw [same]
    rcases acts.waiting member with old | ⟨subject, -⟩
    · exact certificateWaiter c old own
    · exact round _ subject.header own
  · rw [same]
    intro addresses c member
    cases acts with
    | inspect _ inspects => cases inspects <;> exact broadcast addresses c member
    | sendVote =>
        refine broadcast addresses c ((List.mem_append.mp member).resolve_right fun new => ?_)
        cases List.mem_singleton.mp new
    | announce =>
        refine broadcast addresses c ((List.mem_append.mp member).resolve_right fun new => ?_)
        cases List.mem_singleton.mp new
    | assemble _ appended =>
        rcases List.mem_append.mp member with old | new
        · exact broadcast addresses c old
        · cases List.mem_singleton.mp new
          rw [(VotesAggregator.append_ok appended).2 _ rfl]
    | _ => exact broadcast addresses c member

/-- **An event keeps the primary behind its current header.** -/
theorem Behind.advance {event : Event} (behind : node.Behind s)
    (admissible : node.Admissible s event) (ownRounds : node.OwnRounds s event) :
    node.Behind (node.advance s event) := by
  cases event with
  | batch => exact ⟨behind.voted, behind.headerWaiter, behind.certificateWaiter, behind.broadcast⟩
  | consensus =>
      exact ⟨behind.voted, behind.headerWaiter, behind.certificateWaiter, behind.broadcast⟩
  | core input =>
      refine advance_core behind fun _ => ?_
      have later := ownRounds.current_le
      have start : node.Trailing s input (s.opened input) := by
        refine ⟨⟨fun r member => ?_, fun m member own => ?_, fun c member own => ?_,
          fun addresses c member => ?_⟩, rfl⟩
        · exact (behind.voted r (by cases input <;> exact member)).trans later
        · exact (behind.headerWaiter m (by cases input <;> exact member) own).trans later
        · exact (behind.certificateWaiter c (by cases input <;> exact member) own).trans later
        · exact (behind.broadcast addresses c (by cases input <;> exact member)).trans later
      apply step_acts start fun t t' acts => Trailing.acts behind admissible ownRounds acts
      · rintro t ⟨⟨voted, headerWaiter, certificateWaiter, broadcast⟩, -⟩
        unfold State.cleanup
        dsimp only
        split
        · refine ⟨fun round member => voted round ?_, headerWaiter, certificateWaiter, broadcast⟩
          dsimp only at member
          rw [HashMap.bucket_retainKeys] at member
          split at member
          · exact member
          · exact absurd member (Finset.notMem_empty _)
        · exact ⟨voted, headerWaiter, certificateWaiter, broadcast⟩
      · rintro t p ⟨⟨voted, headerWaiter, certificateWaiter, broadcast⟩, -⟩
        exact ⟨voted, headerWaiter, certificateWaiter, broadcast⟩

omit [Primitives] in
theorem behind_start : node.Behind {} where
  voted round member := absurd member (by simp)
  headerWaiter _ member := absurd member List.not_mem_nil
  certificateWaiter _ member := absurd member List.not_mem_nil
  broadcast _ _ member := absurd member List.not_mem_nil

end Tusk.Core
