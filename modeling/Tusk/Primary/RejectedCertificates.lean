import Tusk.Primary.Assembly
import Tusk.Primary.HeaderErrors
import Tusk.Primary.ProposedParents
import Tusk.Primary.VoteConsistency

/-!
# Rejected certificates

A certificate is rejected when `process_header` fails on its header. Before it looks at the parents
the header is entered in `processing`, and `process_certificate` does not call `process_header` for
a header that is entered there. So the second time the certificate comes its header is not checked,
and it is handed to the consensus if its parents are there (`rejected_delivered`).

Whether a header fails the checks is decided once its parents are there (`Refuses.mono`). So where
no header is passed over that fails them, what was rejected stays rejected
(`rejected_stays_rejected`).
-/

set_option autoImplicit false

namespace Tusk.Core

open Lib

/-! ## Runs without a bypass -/

section Certificates

variable [Primitives] (node : Core)

omit [Primitives] in
/-- The certificate that a message hands over. -/
def certificateOf : Input → Option Certificate
  | .primaries (.certificate c) => some c
  | .certificateWaiter c => some c
  | _ => none

/-- The header counts as processed, and its parents are there and fail the checks. -/
def Bypasses (s : State) (h : Header) : Prop :=
  h.id ∈ HashMap.bucket s.processing h.round ∧
    (∀ digest ∈ h.parents.toList, node.HasParent s.store digest) ∧ node.Refuses s.store h

/-- No header of a certificate that is processed gets past the checks that it fails. -/
def NoBypass (s : State) : Event → Prop
  | .core input => (∀ c ∈ certificateOf input, node.Sane s input → ¬ node.Bypasses s c.header) ∧
      (node.MayAssemble s input → ¬ node.Refuses s.store (s.opened input).currentHeader)
  | .batch _ _ => True
  | .consensus _ => True

instance (s : State) (h : Header) : Decidable (node.Bypasses s h) :=
  inferInstanceAs (Decidable (_ ∧ _ ∧ _))

instance (s : State) : ∀ event, Decidable (node.NoBypass s event)
  | .core _ => inferInstanceAs (Decidable (_ ∧ _))
  | .batch _ _ => inferInstanceAs (Decidable True)
  | .consensus _ => inferInstanceAs (Decidable True)

variable {node} {s t t' : State} {input : Input}

theorem carries_iff {c : Certificate} :
    node.Carries s input c ↔ certificateOf input = some c ∧ node.Sane s input := by
  constructor
  · intro carries
    cases carries with
    | primaries sane => exact ⟨rfl, sane⟩
    | certificateWaiter => exact ⟨rfl, trivial⟩
  · rintro ⟨same, sane⟩
    cases input with
    | primaries message =>
        cases message with
        | certificate c' =>
            cases same
            exact .primaries sane
        | _ => cases same
    | certificateWaiter c' =>
        cases same
        exact .certificateWaiter _
    | _ => cases same

/-! ## A certificate that is held back -/

/-- The changes made while a certificate is processed that is not handed over. -/
inductive HoldsBack (node : Core) (c : Certificate) : State → State → Prop where
  | inspect {s s' : State} (inspects : node.Inspects c.header s s') : HoldsBack node c s s'
  | suspend (s : State) : HoldsBack node c s (s.syncCertificate c)

/-- A parent of the certificate is missing from the store. -/
def Incomplete (node : Core) (store : Store) (c : Certificate) : Prop :=
  ¬ ∀ digest ∈ c.header.parents.toList, node.HasParent store digest

/-- **A certificate whose header does not pass is held back.** -/
theorem processCertificate_holdsBack {c : Certificate} (fails : ¬ node.Passes s.store c.header)
    (noBypass : ¬ node.Bypasses s c.header) :
    Command.Follows (node.HoldsBack c) (fun t => t = s) (node.processCertificate c)
      fun _ _ => True := by
  -- once the header is processed without an error, a parent is missing
  have header : Command.Follows (node.HoldsBack c) (fun t => t = s)
      (node.processHeader c.header) fun _ t => node.Incomplete t.store c := by
    have checked := (node.checkHeader_returns c.header s.store).mono
      fun _ _ => HoldsBack.inspect
    apply Command.Follows.bind (checked.weaken (fun _ same => congrArg State.store same)
      fun _ _ => id)
    intro ready
    split
    · next accepted => exact fun t before => absurd (before.2.2 accepted) fails
    · apply Command.Follows.pure
      rintro t ⟨same, accepted, -⟩ present
      exact fails ⟨same ▸ present, accepted⟩
  have embedded : Command.Follows (node.HoldsBack c) (fun t => t = s)
      (processEmbedded node.processHeader c) fun _ t => node.Incomplete t.store c := by
    apply Command.Follows.bind_get
    intro t
    split
    · exact header.weaken (fun _ before => before.2) fun _ _ => id
    · next processed =>
        apply Command.Follows.pure
        rintro t' ⟨rfl, rfl⟩ present
        exact noBypass ⟨not_not.mp processed, present, fun accepted => fails ⟨present, fun refuses =>
          refuses accepted⟩⟩
  have held : Command.Follows (node.HoldsBack c) (fun t => node.Incomplete t.store c)
      (node.deliverCertificate c) fun delivered _ => delivered = false := by
    apply Command.Follows.bind_get
    intro t
    split
    · next present =>
        apply Command.Follows.pure
        rintro t' ⟨rfl, absent⟩
        exact absurd present absent
    · apply Command.Follows.bind_modify (fun _ => True) (fun t' _ => .suspend t') fun _ _ => trivial
      exact .pure fun _ _ => rfl
  apply Command.Follows.bind embedded
  intro _
  apply Command.Follows.bind held
  intro delivered
  split
  · next here =>
      intro _ absent
      cases here.symm.trans absent
  · exact .pure fun _ _ => trivial

/-- A message that hands over such a certificate changes nothing else. -/
theorem receive_holdsBack {c : Certificate} (carries : node.Carries s input c)
    (fails : ¬ node.Passes s.store c.header) (noBypass : ¬ node.Bypasses s c.header) :
    Relation.ReflTransGen (node.HoldsBack c) s ((node.receive input).outcome s).2 := by
  have processed := processCertificate_holdsBack fails noBypass
  cases carries with
  | primaries sane => exact refused_or_processed (fun t => t = s) rfl fun _ => processed
  | certificateWaiter => exact (processed s rfl).1

/-! ## The invariant -/

/-- What was handed over or broadcast passes the checks. -/
structure Screened (node : Core) (s : State) : Prop where
  delivered : ∀ c ∈ s.txConsensus, node.Passes s.store c.header
  broadcast : ∀ c, (node.others, .certificate c) ∈ s.network → node.Passes s.store c.header

/-- What is known during the step that processes a message received at `s`. -/
structure Screening (node : Core) (known : Set Header) (s : State) (input : Input) (t : State) :
    Prop where
  growing : Growing node known s t
  counting : node.Counting s input t
  screened : node.Screened t

theorem Screened.mono (screened : node.Screened t) (grows : node.Grows t.store t'.store)
    (consensus : t'.txConsensus ⊆ t.txConsensus)
    (broadcast : ∀ c, (node.others, .certificate c) ∈ t'.network →
      (node.others, .certificate c) ∈ t.network) : node.Screened t' where
  delivered c member := (screened.delivered c (consensus member)).mono grows
  broadcast c member := (screened.broadcast c (broadcast c member)).mono grows

/-- Holding a certificate back changes nothing of what was handed over. -/
theorem Screened.holdsBack {c : Certificate} (holdsBack : node.HoldsBack c t t')
    (screened : node.Screened t) : node.Screened t' := by
  obtain ⟨delivered, broadcast⟩ := screened
  cases holdsBack with
  | inspect inspects => cases inspects <;> exact ⟨delivered, broadcast⟩
  | suspend => exact ⟨delivered, broadcast⟩

section Step

variable {known : Set Header} (collisionFree : CollisionFree (hashedFor known))
  (avoids : Primitives.Avoids (hashedFor known) node.committee.fixedDigests)
  (member : node.name ∈ node.committee.authorities.keys)
  (filed : Filed node.committee known s) (proposable : node.Proposable s)
  (admissible : node.Admissible s (.core input))
  (heard : ∀ h, Event.header (.core input) = some h → h ∈ known)
  (noBypass : node.NoBypass s (.core input))

include collisionFree avoids member filed proposable admissible heard noBypass

/-- **An act keeps the certificates screened** when the one that is handed over passes. -/
theorem Screening.acts (passes : ∀ c, node.Carries s input c → node.Passes s.store c.header)
    (acts : node.Acts s input t t') (screening : Screening node known s input t) :
    Screening node known s input t' := by
  obtain ⟨growing, counting, screened⟩ := screening
  have growing' := filed.growing_acts collisionFree avoids member admissible heard acts growing
  have counting' := counting.acts acts
  have grows : node.Grows t.store t'.store :=
    (filed.growing_acts collisionFree avoids member admissible heard acts
      ⟨growing.filed, .refl _⟩).grows
  -- the current header passes when a certificate of it is assembled
  have current : node.MayAssemble s input ∨ node.Announced s input t →
      node.Passes t'.store (s.opened input).currentHeader := by
    rintro (may | ⟨c, header, broadcast⟩)
    · have present := (proposable.opened admissible).current
      have same : (s.opened input).store = s.store := by cases input <;> rfl
      rw [same] at present
      exact Passes.mono ⟨present, noBypass.2 may⟩ growing'.grows
    · exact header ▸ (screened.broadcast c broadcast).mono grows
  have atHand : ∀ c, node.CertificateAtHand s input t c → node.Passes t'.store c.header := by
    rintro c (carries | ⟨-, header, broadcast⟩)
    · exact (passes c carries).mono growing'.grows
    · exact header ▸ current (.inr ⟨c, header, broadcast⟩)
  refine ⟨growing', counting', fun c inside => ?_, fun c inside => ?_⟩
  · rcases acts.delivered inside with old | ⟨subject, -⟩
    · exact (screened.delivered c old).mono grows
    · exact atHand c subject
  · rcases acts.broadcast inside with old | ⟨v, aggregator, subject, appended⟩
    · exact (screened.broadcast c old).mono grows
    · have passes := current (counting.assembles subject appended)
      obtain ⟨-, -, -, rfl⟩ := VotesAggregator.append_some appended
      rw [← counting.current] at passes
      exact passes

/-- **A step keeps the certificates screened.** -/
theorem Screened.step (screened : node.Screened s) : node.Screened (node.step s input) := by
  have settled : ∀ t t', Settles t t' → node.Screened t → node.Screened t' := by
    intro t t' settles screened
    cases settles
    exact ⟨screened.delivered, screened.broadcast⟩
  by_cases passes : ∀ c, node.Carries s input c → node.Passes s.store c.header
  · have start : Screening node known s input (s.opened input) := by
      refine ⟨⟨filed.opened member admissible heard, ?_⟩, counting_start, ?_⟩
      · cases input <;> exact .refl _
      · cases input <;> exact ⟨screened.delivered, screened.broadcast⟩
    refine step_acts_settles start (fun t t' acts => ?_)
      fun t t' settles screening => settled t t' settles screening.screened
    exact Screening.acts collisionFree avoids member filed proposable admissible heard noBypass
      passes acts
  · push Not at passes
    obtain ⟨c, carries, fails⟩ := passes
    obtain ⟨same, sane⟩ := carries_iff.mp carries
    have held := receive_holdsBack carries fails (noBypass.1 c same sane)
    have kept : ∀ t t', node.HoldsBack c t t' → node.Screened t → node.Screened t' :=
      fun t t' => Screened.holdsBack
    exact after_step_settles (Command.kept_of_steps kept held screened) settled

end Step

/-! ## Runs -/

section Runs

variable {known : Set Header} (collisionFree : CollisionFree (hashedFor known))
  (avoids : Primitives.Avoids (hashedFor known) node.committee.fixedDigests)
  (member : node.name ∈ node.committee.authorities.keys)

include collisionFree avoids member

/-- **An event keeps the certificates screened.** -/
theorem Screened.advance {event : Event} (screened : node.Screened s)
    (filed : Filed node.committee known s) (proposable : node.Proposable s)
    (admissible : node.Admissible s event) (heard : ∀ h, event.header = some h → h ∈ known)
    (noBypass : node.NoBypass s event) : node.Screened (node.advance s event) := by
  have grows := filed.grows_advance collisionFree avoids member admissible heard
  cases event with
  | batch => exact screened.mono grows (fun _ => id) fun _ => id
  | consensus => exact screened.mono grows (fun _ => id) fun _ => id
  | core input =>
      refine advance_core screened fun _ => ?_
      exact Screened.step collisionFree avoids member filed proposable admissible heard noBypass
        screened

omit collisionFree avoids member in
theorem screened_start : node.Screened {} :=
  ⟨fun _ inside => absurd inside List.not_mem_nil, fun _ inside => absurd inside List.not_mem_nil⟩

/-- What is known of the certificates in a run. -/
theorem screened_of_run {events : List Event} {start : State}
    (filed : Filed node.committee known start) (proposable : node.Proposable start)
    (screened : node.Screened start)
    (admissible : Throughout node.advance node.Admissible start events)
    (heard : ∀ event ∈ events, ∀ h, event.header = some h → h ∈ known)
    (noBypass : Throughout node.advance node.NoBypass start events) :
    Growing node known start (events.foldl node.advance start) ∧
      node.Proposable (events.foldl node.advance start) ∧
      node.Screened (events.foldl node.advance start) := by
  have allowed := (admissible.and noBypass).and (.of_forall heard start)
  refine allowed.invariant (fun t => Growing node known start t ∧ node.Proposable t ∧
    node.Screened t) ⟨⟨filed, .refl _⟩, proposable, screened⟩ ?_
  rintro t event ⟨growing, proposable, screened⟩ ⟨⟨admissible, noBypass⟩, heard⟩
  exact ⟨⟨growing.filed.advance member admissible heard, growing.grows.trans
      (growing.filed.grows_advance collisionFree avoids member admissible heard)⟩,
    proposable.advance admissible,
    screened.advance collisionFree avoids member growing.filed proposable admissible heard noBypass⟩

end Runs

/-- The certificate is not stored, not sent to the consensus, and not counted as a parent. -/
structure Unused (node : Core) (s : State) (c : Certificate) : Prop where
  stored : ∀ key, s.store.read key ≠ some (.certificate c)
  sent : c ∉ s.txConsensus
  counted : ∀ round aggregator, HashMap.get s.certificatesAggregators round = some aggregator →
    ∃ certificates, Collecting node.committee s.txConsensus round aggregator certificates ∧
      c ∉ certificates

/-- **A rejected certificate stays rejected** when no certificate is processed whose header counts
as processed and fails the checks on its parents. -/
theorem rejected_stays_rejected {before after : List Event}
    (collisionFree : CollisionFree (hashedFor (headersOf (before ++ after))))
    (avoids : Primitives.Avoids (hashedFor (headersOf (before ++ after)))
      node.committee.fixedDigests)
    (member : node.name ∈ node.committee.authorities.keys)
    (admissible : Throughout node.advance node.Admissible {} (before ++ after))
    (noBypass : Throughout node.advance node.NoBypass {} (before ++ after))
    {c : Certificate} {e : DagError}
    (rejected : ((node.processCertificate c).outcome (node.run before)).1 = .error (.error e)) :
    node.Unused (node.run (before ++ after)) c := by
  have heard : ∀ event ∈ before ++ after, ∀ h, event.header = some h →
      h ∈ headersOf (before ++ after) := fun event happened h brings => ⟨event, happened, brings⟩
  obtain ⟨admissible, admissible'⟩ := Throughout.append_iff.mp admissible
  obtain ⟨noBypass, noBypass'⟩ := Throughout.append_iff.mp noBypass
  obtain ⟨growing, proposable, screened⟩ := screened_of_run collisionFree avoids member
    (filed_start _) proposable_start screened_start admissible
    (fun event happened => heard event (List.mem_append_left _ happened)) noBypass
  obtain ⟨⟨filed, grows⟩, proposable, screened⟩ := screened_of_run collisionFree avoids member
    growing.filed proposable screened admissible'
    (fun event happened => heard event (List.mem_append_right _ happened)) noBypass'
  rw [← List.foldl_append] at filed grows proposable screened
  -- the header fails the checks from then on, and what is handed over passes them
  have sent : c ∉ (node.run (before ++ after)).txConsensus := fun delivered =>
    (screened.delivered c delivered).2 ((node.refuses_of_rejected rejected).mono grows)
  refine ⟨fun key stored => ?_, sent, fun round aggregator found => ?_⟩
  · cases filed.store key _ stored with
    | certificate _ _ delivered => exact sent delivered
  · obtain ⟨certificates, collecting⟩ := proposable.aggregated round aggregator found
    exact ⟨certificates, collecting, fun inside => sent (collecting.collected.sent inside)⟩

end Certificates

/-! ## A forged genesis certificate -/

section FiveAuthorities

local instance rejectedSign : Primitives := executable fun _ _ => true

/-- A certificate that passes for one of the genesis and has a parent of round 1. -/
def withParent : Certificate where
  header := { (default : Header) with
    author := ⟨1⟩
    parents := .ofList [(firstRound ⟨1⟩).digest] }
  votes := []

theorem rejected_stays_rejected_once :
    thirdAuthority.Unused (thirdAuthority.run
      (opening ++ [.core (.primaries (.certificate withParent))])) withParent := by
  obtain ⟨collisionFree, avoids⟩ : CollisionFree (hashedFor (headersOf
        (opening ++ [.core (.primaries (.certificate withParent))]))) ∧
      Primitives.Avoids (hashedFor (headersOf
        (opening ++ [.core (.primaries (.certificate withParent))])))
        fiveAuthorities.fixedDigests := by
    rw [headersOf_eq]
    exact hashed_of_headers _ (fun _ brought => brought) (by decide +kernel) (by decide +kernel)
  have rejected : ((thirdAuthority.processCertificate withParent).outcome
      (thirdAuthority.run opening)).1 = .error (.error (.malformedHeader default)) := by
    decide +kernel
  exact rejected_stays_rejected collisionFree avoids (by decide) (by decide +kernel)
    (by decide +kernel) rejected

/-- **A rejected certificate is handed to the consensus when it comes again.** -/
theorem rejected_delivered : ¬ ∀ (node : Core) (before after : List Event) (c : Certificate)
    (e : DagError), node.name ∈ node.committee.authorities.keys →
      Throughout node.advance node.Admissible {} (before ++ after) →
      ((node.processCertificate c).outcome (node.run before)).1 = .error (.error e) →
      c ∉ (node.run (before ++ after)).txConsensus := by
  intro stays
  have rejected : ((thirdAuthority.processCertificate withParent).outcome
      (thirdAuthority.run opening)).1 = .error (.error (.malformedHeader default)) := by
    decide +kernel
  have unsent := stays thirdAuthority opening
    [.core (.primaries (.certificate withParent)), .core (.primaries (.certificate withParent))]
    withParent (.malformedHeader default) (by decide) (by decide +kernel) rejected
  exact absurd unsent (by decide +kernel)

end FiveAuthorities

end Tusk.Core
