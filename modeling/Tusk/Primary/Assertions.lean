import Tusk.Primary.AssembledCertificates
import Tusk.Primary.Assembly
import Tusk.Primary.HeaderErrors

/-!
# The assertions of the Core

The Core asserts that its own vote for a header of its own is processed, and that a certificate it
has made is. A second vote of this primary would be refused by the aggregator, so both assertions rest
on `last_voted` and `processing`: the primary votes for each of its headers once, and the certificate
it makes finds its header in `processing`.

The cleanup drops both entries when the round of the current header is garbage collected, while votes
for the header still come in. A vote that then completes the certificate makes the Core process its
header a second time and vote for it a second time, and the node stops. It also stops when a
certificate is taken for a genesis certificate of this primary, which `verify` accepts unsigned, and
the header in it has parents: the Core votes for that header as for one of its own
(`assertion_fails`). When neither comes, the assertions hold in every run (`assertions_hold`).
-/

set_option autoImplicit false

namespace Tusk.Core

open Lib

section Runs

variable [Primitives] (node : Core)

/-! ## What interrupts the processing -/

omit [Primitives] in
/-- An interruption that is neither of the two assertions. -/
def Calm (i : Interrupt) : Prop := i ≠ .panic .ownVote ∧ i ≠ .panic .validCertificate

omit [Primitives] in
/-- The processing of the header does not come to a vote of this primary for itself. -/
def Unvoted (h : Header) (t : State) : Prop :=
  h.author ≠ node.name ∨ h.parents.toList = [] ∨ h.author ∈ HashMap.bucket t.lastVoted h.round

omit [Primitives] in
/-- A certificate of the header does not have its header processed again, or it has no parents. -/
def Embedded (h : Header) (t : State) : Prop :=
  h.parents.toList = [] ∨ h.id ∈ HashMap.bucket t.processing h.round

omit [Primitives] in
theorem calm_error (e : DagError) : Calm (.error e) := ⟨nofun, nofun⟩

variable {node} {s t t' : State} {input : Input} {h : Header}

/-- Voting is calm for a header of another primary, and when there is a vote already. -/
theorem castVote_calm (processVote : Vote → CoreM Unit) :
    Command.Raises
      (fun t => h.author ≠ node.name ∨ h.author ∈ HashMap.bucket t.lastVoted h.round)
      (node.castVote processVote h) Calm := by
  unfold castVote
  refine .bind_get fun s => ?_
  split
  · exact .pure
  · next first =>
      refine .bind_modify (fun _ => h.author ≠ node.name) ?_ ?_
      · rintro _ ⟨rfl, before⟩
        exact before.resolve_right first
      split
      · next own => exact fun _ other => absurd own other
      · refine .bind_ofExcept (fun e failed _ _ => ?_) fun _ _ => .modify
        obtain ⟨e', -, rfl⟩ := mapError_eq_error_iff.mp failed
        constructor <;> intro same <;> cases same

/-- The parents of a header that is accepted. -/
theorem Accepts.parents_ne_nil (accepts : node.Accepts s h) : h.parents.toList ≠ [] := by
  obtain ⟨parents, read, nonempty, -⟩ := accepts.parents
  intro none
  rw [none] at read
  cases read
  exact nonempty rfl

/-- **Processing a header is calm** unless this primary votes for itself. -/
theorem processHeader_calm : Command.Raises (node.Unvoted h) (node.processHeader h) Calm := by
  have inspected : ∀ t t', node.Inspects h t t' → node.Unvoted h t → node.Unvoted h t' := by
    intro t t' inspects unvoted
    cases inspects <;> exact unvoted
  have checked : Command.Raises (node.Unvoted h) (node.checkHeader h) Calm := by
    intro t _ i raised
    obtain ⟨⟨e, rfl⟩, -⟩ := node.checkHeader_raises h t.store t rfl i raised
    exact calm_error e
  have returns := ((node.checkHeader_follows h).frame inspected).weaken
    (fun t unvoted => ⟨trivial, unvoted⟩) fun _ _ => id
  rw [processHeader_eq]
  refine checked.bind returns fun ready => ?_
  split
  · next accepted =>
      refine .bind_modify _ ?_ (castVote_calm node.processVote)
      rintro t ⟨accepts, unvoted⟩
      exact unvoted.imp_right fun voted => voted.resolve_left (accepts accepted).parents_ne_nil
  · exact .pure

/-- Processing a certificate is calm when its header was processed, or unless this primary votes for
itself. -/
theorem processCertificate_calm {c : Certificate} :
    Command.Raises (node.Unvoted c.header) (node.processCertificate c) Calm :=
  node.processCertificate_raises (processHeader_calm.weaken (fun _ before => before.1) fun _ => id)

/-- **A certificate whose header was processed is processed without an error.** -/
theorem processCertificate_embedded {c : Certificate} :
    Command.Raises (Embedded c.header) (node.processCertificate c) fun _ => False := by
  refine node.processCertificate_raises ?_
  rintro t ⟨embedded, absent⟩ i raised
  rw [processHeader_of_parentless (embedded.resolve_right absent)] at raised
  cases raised

/-- **The vote of an authority that was not counted is processed without an error**, when a
certificate it makes has its header processed already. -/
theorem processVote_raises {v : Vote} {i : Interrupt}
    (embedded : node.QuorumBy t v.author → Embedded t.currentHeader t)
    (raised : ((node.processVote v).outcome t).1 = .error i) :
    v.author ∈ t.votesAggregator.used ∧ ∃ e, i = .error e := by
  rw [processVote_outcome] at raised
  cases appended : t.votesAggregator.append v node.committee t.currentHeader with
  | error e =>
      rw [appended] at raised
      cases raised
      exact ⟨VotesAggregator.used_of_append appended, e, rfl⟩
  | ok counted =>
      obtain ⟨aggregator, made⟩ := counted
      rw [appended] at raised
      cases made with
      | none => cases raised
      | some c =>
          obtain ⟨fresh, reached, -, rfl⟩ := VotesAggregator.append_some appended
          dsimp only at raised
          rw [Command.outcome_interruptWith] at raised
          obtain ⟨i', raised', -⟩ := mapError_eq_error_iff.mp raised
          exact (processCertificate_embedded _ (embedded ⟨fresh, reached⟩) i' raised').elim

/-! ## Own headers in a run -/

omit [Primitives] in
/-- The header that a message has. -/
def headerIn : PrimaryMessage → Option Header
  | .header h => some h
  | _ => none

omit [Primitives] in
/-- The headers of its own that this primary has broadcast. -/
def broadcastHeaders (s : State) : List Header := s.network.filterMap fun sent => headerIn sent.2

variable (node) in
/-- The `Proposer` makes headers with a stored quorum of parents. -/
def ParentsStored (s : State) : Event → Prop
  | .core (.proposer h) => h.parents.toList ≠ [] ∧ node.Passes s.store h
  | _ => True

variable (node) in
/-- A header under the name of this primary that passes the checks, alone or in a certificate, was
broadcast by it or has no parents. -/
def OwnKnown (s : State) : Event → Prop
  | .core (.primaries (.header h)) =>
      node.sanitizeHeader s h = .ok () → h.author = node.name →
        h ∈ broadcastHeaders s ∨ h.parents.toList = []
  | .core (.primaries (.certificate c)) =>
      node.sanitizeCertificate s c = .ok () → c.header.author = node.name →
        c.header ∈ broadcastHeaders s ∨ c.header.parents.toList = []
  | _ => True

variable (node) in
/-- A vote that completes a certificate of the current header comes while the header is in
`processing`, or the header has no parents. -/
def CompletedInTime (s : State) : Event → Prop
  | .core (.primaries (.vote v)) =>
      node.sanitizeVote s v = .ok () → node.QuorumBy s v.author → Embedded s.currentHeader s
  | _ => True

variable (node) in
/-- An event at which no header of this primary is voted for a second time. -/
def Undisturbed (s : State) (event : Event) : Prop :=
  node.OwnKnown s event ∧ node.CompletedInTime s event

omit [Primitives] in
instance (h : Header) (t : State) : Decidable (Embedded h t) :=
  inferInstanceAs (Decidable (_ ∨ _))

instance (s : State) : ∀ event, Decidable (node.ParentsStored s event)
  | .core (.proposer _) => inferInstanceAs (Decidable (_ ∧ _))
  | .core (.primaries _) => inferInstanceAs (Decidable True)
  | .core (.headerWaiter _) => inferInstanceAs (Decidable True)
  | .core (.certificateWaiter _) => inferInstanceAs (Decidable True)
  | .batch _ _ => inferInstanceAs (Decidable True)
  | .consensus _ => inferInstanceAs (Decidable True)

instance (s : State) : ∀ event, Decidable (node.OwnKnown s event)
  | .core (.proposer _) => inferInstanceAs (Decidable True)
  | .core (.primaries (.header _)) => inferInstanceAs (Decidable (_ = _ → _ → _ ∨ _))
  | .core (.primaries (.certificate _)) => inferInstanceAs (Decidable (_ = _ → _ → _ ∨ _))
  | .core (.primaries (.vote _)) => inferInstanceAs (Decidable True)
  | .core (.primaries (.certificatesRequest _ _)) => inferInstanceAs (Decidable True)
  | .core (.headerWaiter _) => inferInstanceAs (Decidable True)
  | .core (.certificateWaiter _) => inferInstanceAs (Decidable True)
  | .batch _ _ => inferInstanceAs (Decidable True)
  | .consensus _ => inferInstanceAs (Decidable True)

instance (s : State) : ∀ event, Decidable (node.CompletedInTime s event)
  | .core (.primaries (.vote _)) => inferInstanceAs (Decidable (_ = _ → _ → _))
  | .core (.primaries (.header _)) => inferInstanceAs (Decidable True)
  | .core (.primaries (.certificate _)) => inferInstanceAs (Decidable True)
  | .core (.primaries (.certificatesRequest _ _)) => inferInstanceAs (Decidable True)
  | .core (.headerWaiter _) => inferInstanceAs (Decidable True)
  | .core (.certificateWaiter _) => inferInstanceAs (Decidable True)
  | .core (.proposer _) => inferInstanceAs (Decidable True)
  | .batch _ _ => inferInstanceAs (Decidable True)
  | .consensus _ => inferInstanceAs (Decidable True)

instance (s : State) (event : Event) : Decidable (node.Undisturbed s event) :=
  inferInstanceAs (Decidable (_ ∧ _))

omit [Primitives] in
/-- A header that this primary has broadcast, or broadcasts at this message. -/
def Own (s : State) (input : Input) (h : Header) : Prop :=
  h ∈ broadcastHeaders s ∨ input = .proposer h

variable (node) in
/-- What is known of the own headers between two steps. -/
structure Steady (s : State) : Prop where
  voted : ∀ h ∈ broadcastHeaders s, s.gcRound ≤ h.round →
    node.name ∈ HashMap.bucket s.lastVoted h.round
  parents : ∀ h ∈ broadcastHeaders s, ∀ digest ∈ h.parents.toList, node.HasParent s.store digest
  headerWaiter : ∀ message ∈ s.txHeaderWaiter, message.deliver.author ≠ node.name
  certificateWaiter : ∀ c ∈ s.txCertificateWaiter, c.header.author ≠ node.name
  current : ∀ digest ∈ s.currentHeader.parents.toList, node.HasParent s.store digest
  gcRound_le : s.gcRound ≤ s.consensusRound - node.gcDepth

/-- What is known of them during the step that processes a message received at `s`. -/
structure Steadying (node : Core) (s : State) (input : Input) (t : State) : Prop where
  voted : ∀ h ∈ broadcastHeaders s, s.gcRound ≤ h.round →
    node.name ∈ HashMap.bucket t.lastVoted h.round
  kept : ∀ digest, node.HasParent s.store digest → node.HasParent t.store digest
  broadcast : ∀ h, h ∈ broadcastHeaders t → Own s input h
  headerWaiter : ∀ message ∈ t.txHeaderWaiter, message.deliver.author ≠ node.name
  certificateWaiter : ∀ c ∈ t.txCertificateWaiter, c.header.author ≠ node.name
  current : Current s input t
  gcRound : t.gcRound = s.gcRound
  consensusRound : t.consensusRound = s.consensusRound

omit [Primitives] in
@[simp] theorem broadcastHeaders_send (addresses : List SocketAddr) (message : PrimaryMessage) :
    broadcastHeaders (s.send addresses message) =
      broadcastHeaders s ++ (headerIn message).toList := by
  simp only [broadcastHeaders, State.send, List.filterMap_append, List.filterMap_cons,
    List.filterMap_nil]
  cases headerIn message <;> rfl

/-- The parents of an own header are stored when it is broadcast. -/
theorem Steady.parents_of_own (steady : node.Steady s)
    (parentsStored : node.ParentsStored s (.core input)) (own : Own s input h) :
    ∀ digest ∈ h.parents.toList, node.HasParent s.store digest := by
  rcases own with sent | rfl
  · exact steady.parents h sent
  · exact parentsStored.2.1

theorem Steady.parents_of_current (steady : node.Steady s)
    (parentsStored : node.ParentsStored s (.core input)) :
    ∀ digest ∈ (s.opened input).currentHeader.parents.toList, node.HasParent s.store digest := by
  cases input with
  | proposer h => exact parentsStored.2.1
  | _ => exact steady.current

/-- **An own header that is processed has all its parents.** -/
theorem Steady.complete (steady : node.Steady s) (admissible : node.Admissible s (.core input))
    (parentsStored : node.ParentsStored s (.core input)) (ownKnown : node.OwnKnown s (.core input))
    (subject : node.Handled s input h) (ours : h.author = node.name) :
    ∀ digest ∈ h.parents.toList, node.HasParent s.store digest := by
  have known : h ∈ broadcastHeaders s ∨ h.parents.toList = [] →
      ∀ digest ∈ h.parents.toList, node.HasParent s.store digest := by
    rintro (sent | none)
    · exact steady.parents h sent
    · rw [none]
      exact fun _ member => absurd member List.not_mem_nil
  rcases subject with hands | ⟨-, rfl⟩
  · cases hands with
    | primaries sane => exact known (ownKnown sane ours)
    | headerWaiter =>
        obtain ⟨message, sent, rfl, -⟩ := admissible
        exact absurd ours (steady.headerWaiter message sent)
    | proposer => exact parentsStored.2.1
    | embedded carries =>
        cases carries with
        | primaries sane => exact known (ownKnown sane ours)
        | certificateWaiter => exact absurd ours (steady.certificateWaiter _ admissible.1)
  · exact steady.parents_of_current parentsStored

/-- What is in the store stays there. -/
theorem Acts.hasParent (acts : node.Acts s input t t') {digest : Digest}
    (present : node.HasParent t.store digest) : node.HasParent t'.store digest := by
  have kept : ∀ u u', node.Moves (node.Handled s input) (node.Carried s input) u u' →
      node.HasParent u.store digest → node.HasParent u'.store digest :=
    fun _ _ moves => moves.hasParent
  exact Command.kept_of_steps kept acts.moves present

/-- A vote that was recorded stays so while a message is processed. -/
theorem Acts.voted (acts : node.Acts s input t t') {round : ℕ} {name : PublicKey}
    (voted : name ∈ HashMap.bucket t.lastVoted round) :
    name ∈ HashMap.bucket t'.lastVoted round := by
  cases acts with
  | inspect _ inspects => cases inspects <;> exact voted
  | vote => exact HashMap.mem_bucket_adjoin.mpr (.inr voted)
  | _ => exact voted

/-- A header that is broadcast is the one of the `Proposer`. -/
theorem Acts.announced (acts : node.Acts s input t t') (sent : h ∈ broadcastHeaders t') :
    h ∈ broadcastHeaders t ∨ input = .proposer h := by
  cases acts with
  | inspect _ inspects => cases inspects <;> exact .inl sent
  | sendVote _ _ addresses =>
      rw [broadcastHeaders_send] at sent
      exact .inl ((List.mem_append.mp sent).resolve_right List.not_mem_nil)
  | announce _ brings =>
      rw [broadcastHeaders_send] at sent
      refine (List.mem_append.mp sent).imp_right fun new => ?_
      rw [List.mem_singleton.mp new]
      exact brings
  | assemble =>
      rw [broadcastHeaders_send] at sent
      exact .inl ((List.mem_append.mp sent).resolve_right List.not_mem_nil)
  | _ => exact .inl sent

/-- **An act keeps the own headers steady.** -/
theorem Steadying.acts (steady : node.Steady s) (admissible : node.Admissible s (.core input))
    (parentsStored : node.ParentsStored s (.core input)) (ownKnown : node.OwnKnown s (.core input))
    (acts : node.Acts s input t t') (steadying : node.Steadying s input t) : node.Steadying s input t' := by
  -- an own header is not suspended
  have complete : ∀ h, node.HeaderAtHand s input t h → h.author = node.name →
      ∀ digest ∈ h.parents.toList, node.HasParent t.store digest :=
    fun h atHand ours digest member => steadying.kept digest
      (steady.complete admissible parentsStored ownKnown atHand.handled ours digest member)
  refine
    { voted := fun h sent live => acts.voted (steadying.voted h sent live)
      kept := fun digest present => acts.hasParent (steadying.kept digest present)
      broadcast := fun h sent => (acts.announced sent).elim (steadying.broadcast h) .inr
      headerWaiter := fun message member ours => ?_
      certificateWaiter := fun c member ours => ?_
      current := acts.currentHeader.trans steadying.current
      gcRound := acts.rounds.1.trans steadying.gcRound
      consensusRound := acts.rounds.2.trans steadying.consensusRound }
  · rcases acts.suspended member with old | ⟨subject, other | ⟨parents, missing, read, absent⟩⟩
    · exact steadying.headerWaiter message old ours
    · exact other ours
    · exact absent (missing_eq_nil read (complete _ subject ours))
  · rcases acts.waiting member with old | ⟨subject, absent⟩
    · exact steadying.certificateWaiter c old ours
    · exact absent (complete _ subject.header ours)

/-- **A header of the `Proposer` is voted for** when it is received. -/
theorem voted_of_proposer (own : h.author = node.name) (passes : node.Passes s.store h)
    (nonempty : h.parents.toList ≠ []) :
    node.name ∈ HashMap.bucket ((node.receive (.proposer h)).outcome s).2.lastVoted h.round := by
  rw [receive_proposer own passes nonempty]
  by_cases voted : h.author ∈ HashMap.bucket (node.entered s h).lastVoted h.round
  · rw [castVote_of_voted voted]
    exact own ▸ voted
  · rw [castVote_of_first own voted, Command.outcome_interruptWith]
    let u : State := (node.entered s h).createVote h (node.voteFor h)
    have atHand : node.VoteAtHand s (.proposer h) u (node.voteFor h) :=
      .own (.inl (.proposer h)) own ⟨s, accepts_of_passes own passes nonempty⟩
    have steps := (processVote_acts (node.voteFor h) u ⟨rfl, atHand⟩).1
    have recorded : node.name ∈ HashMap.bucket u.lastVoted h.round :=
      HashMap.mem_bucket_adjoin.mpr (.inl ⟨rfl, own.symm⟩)
    have kept : ∀ t t', node.Acts s (.proposer h) t t' →
        node.name ∈ HashMap.bucket t.lastVoted h.round →
        node.name ∈ HashMap.bucket t'.lastVoted h.round := fun _ _ acts => acts.voted
    exact Command.kept_of_steps kept steps recorded

/-! ## Runs -/

/-- The start of a step. -/
theorem Steady.opened (steady : node.Steady s) : node.Steadying s input (s.opened input) := by
  cases input <;> exact ⟨steady.voted, fun _ present => present, fun _ => .inl,
    steady.headerWaiter, steady.certificateWaiter, rfl, rfl, rfl⟩

/-- The end of a step that has voted for a new header. -/
theorem Steadying.closed (steady : node.Steady s)
    (parentsStored : node.ParentsStored s (.core input)) (steadying : node.Steadying s input t)
    (ours : ∀ h, input = .proposer h → node.name ∈ HashMap.bucket t.lastVoted h.round) :
    node.Steady t where
  voted h sent live := by
    rcases steadying.broadcast h sent with old | new
    · exact steadying.voted h old (steadying.gcRound ▸ live)
    · exact ours h new
  parents h sent digest member := steadying.kept digest
    (steady.parents_of_own parentsStored (steadying.broadcast h sent) digest member)
  headerWaiter := steadying.headerWaiter
  certificateWaiter := steadying.certificateWaiter
  current digest member := steadying.kept digest
    (steady.parents_of_current parentsStored digest (steadying.current ▸ member))
  gcRound_le := by
    rw [steadying.gcRound, steadying.consensusRound]
    exact steady.gcRound_le

/-- The cleanup drops no vote of a round that is not below the new garbage collected round. -/
theorem Steady.cleanup (steady : node.Steady s) :
    node.Steady (s.cleanup node.gcDepth) := by
  unfold State.cleanup
  dsimp only
  split
  · refine ⟨fun h sent live => ?_, steady.parents, steady.headerWaiter, steady.certificateWaiter,
      steady.current, le_rfl⟩
    have kept : s.consensusRound - node.gcDepth ≤ h.round := live
    have present := steady.voted h sent (steady.gcRound_le.trans kept)
    dsimp only
    rw [HashMap.bucket_retainKeys, if_pos kept]
    exact present
  · exact steady

/-- **An event keeps the own headers steady.** -/
theorem Steady.advance {event : Event} (steady : node.Steady s)
    (proposes : node.Admissible s event) (parentsStored : node.ParentsStored s event)
    (ownKnown : node.OwnKnown s event) : node.Steady (node.advance s event) := by
  cases event with
  | batch =>
      exact ⟨steady.voted, fun h sent digest member => (steady.parents h sent digest member).write _ _,
        steady.headerWaiter, steady.certificateWaiter,
        fun digest member => (steady.current digest member).write _ _, steady.gcRound_le⟩
  | consensus round =>
      have later : s.consensusRound ≤ round := proposes
      exact ⟨steady.voted, steady.parents, steady.headerWaiter, steady.certificateWaiter,
        steady.current, steady.gcRound_le.trans (Nat.sub_le_sub_right later _)⟩
  | core input =>
      refine advance_core steady fun _ => ?_
      have kept : ∀ t t', node.Acts s input t t' → node.Steadying s input t →
          node.Steadying s input t' :=
        fun _ _ acts => Steadying.acts steady proposes parentsStored ownKnown acts
      have steadying : node.Steadying s input ((node.receive input).outcome s).2 :=
        Command.kept_of_steps kept (receive_acts s input) steady.opened
      have ours : ∀ h, input = .proposer h → node.name ∈
          HashMap.bucket ((node.receive input).outcome s).2.lastVoted h.round := by
        rintro h rfl
        have proposes : node.Proposes s h := proposes
        exact voted_of_proposer proposes.author parentsStored.2 parentsStored.1
      apply after_step (steadying.closed steady parentsStored ours)
      · exact fun t steady => steady.cleanup
      · exact fun t p steady => ⟨steady.voted, steady.parents, steady.headerWaiter,
          steady.certificateWaiter, steady.current, steady.gcRound_le⟩

omit [Primitives] in
/-- A message that is refused is calm. -/
theorem calm_of_sane {result : State → Except DagError Unit} {process : CoreM Unit} {i : Interrupt}
    (calm : result s = .ok () → (process.outcome s).1 = .error i → Calm i)
    (raised : (Command.outcome (do
      let s ← get
      check (result s)
      process) s).1 = .error i) : Calm i := by
  cases found : result s with
  | error e =>
      rw [outcome_of_refused found] at raised
      cases raised
      exact calm_error e
  | ok u =>
      rw [outcome_of_sane found] at raised
      exact calm found raised

/-- **Processing a message is calm** when it does not disturb the own headers. -/
theorem receive_calm (steady : node.Steady s) (admissible : node.Admissible s (.core input))
    (parentsStored : node.ParentsStored s (.core input))
    (undisturbed : node.Undisturbed s (.core input)) {i : Interrupt}
    (raised : ((node.receive input).outcome s).1 = .error i) : Calm i := by
  obtain ⟨ownKnown, inTime⟩ := undisturbed
  -- what was broadcast and is not below the garbage collected round has the own vote
  have unvoted : ∀ h, s.gcRound ≤ h.round →
      (h.author = node.name → h ∈ broadcastHeaders s ∨ h.parents.toList = []) →
      node.Unvoted h s := by
    intro h live own
    by_cases ours : h.author = node.name
    · rcases own ours with sent | none
      · exact .inr (.inr (ours ▸ steady.voted h sent live))
      · exact .inr (.inl none)
    · exact .inl ours
  cases input with
  | primaries message =>
      cases message with
      | header h =>
          refine calm_of_sane (fun sane => ?_) raised
          obtain ⟨_, recent, -⟩ := bind_eq_ok_iff.mp sane
          exact processHeader_calm s (unvoted h (ensure_eq_ok_iff.mp recent) (ownKnown sane)) i
      | vote v =>
          refine calm_of_sane (fun sane raised => ?_) raised
          obtain ⟨-, e, rfl⟩ := processVote_raises (inTime sane) raised
          exact calm_error e
      | certificate c =>
          refine calm_of_sane (fun sane => ?_) raised
          obtain ⟨_, recent, -⟩ := bind_eq_ok_iff.mp sane
          exact processCertificate_calm s
            (unvoted c.header (ensure_eq_ok_iff.mp recent) (ownKnown sane)) i
      | certificatesRequest => exact admissible.elim
  | headerWaiter h =>
      obtain ⟨message, sent, rfl, -⟩ := admissible
      exact processHeader_calm s (.inl (steady.headerWaiter message sent)) i raised
  | certificateWaiter c =>
      exact processCertificate_calm s (.inl (steady.certificateWaiter c admissible.1)) i raised
  | proposer h =>
      have proposes : node.Proposes s h := admissible
      have own := proposes.author
      rw [receive_proposer own parentsStored.2 parentsStored.1] at raised
      by_cases voted : h.author ∈ HashMap.bucket (node.entered s h).lastVoted h.round
      · rw [castVote_of_voted voted] at raised
        cases raised
      · rw [castVote_of_first own voted, Command.outcome_interruptWith] at raised
        obtain ⟨i', raised', -⟩ := mapError_eq_error_iff.mp raised
        -- the aggregator is new, and the header is in processing
        have embedded : Embedded h ((node.entered s h).createVote h (node.voteFor h)) :=
          .inr (HashMap.mem_bucket_adjoin.mpr (.inl ⟨rfl, rfl⟩))
        obtain ⟨used, -⟩ := processVote_raises (fun _ => embedded) raised'
        exact absurd used (Finset.notMem_empty _)

/-- The two assertions have not stopped the node. -/
def Unharmed (s : State) : Prop :=
  s.halted ≠ some .ownVote ∧ s.halted ≠ some .validCertificate

instance (s : State) : Decidable (Unharmed s) := inferInstanceAs (Decidable (_ ∧ _))

theorem Acts.halted (acts : node.Acts s input t t') : t'.halted = t.halted := by
  cases acts with
  | inspect _ inspects => cases inspects <;> rfl
  | _ => rfl

omit [Primitives] in
theorem halted_cleanup (gcDepth : ℕ) : (s.cleanup gcDepth).halted = s.halted := by
  obtain ⟨lastVoted, processing, aggregators, gcRound, same, -⟩ := cleanup_cases s gcDepth
  rw [same]

/-- **An event stops the node at neither assertion.** -/
theorem Unharmed.advance {event : Event} (unharmed : Unharmed s) (steady : node.Steady s)
    (admissible : node.Admissible s event) (parentsStored : node.ParentsStored s event)
    (undisturbed : node.Undisturbed s event) : Unharmed (node.advance s event) := by
  cases event with
  | batch => exact unharmed
  | consensus => exact unharmed
  | core input =>
      refine advance_core unharmed fun running => ?_
      have kept : ∀ t t', node.Acts s input t t' → t.halted = s.halted → t'.halted = s.halted :=
        fun _ _ acts same => acts.halted.trans same
      have start : (s.opened input).halted = s.halted := by cases input <;> rfl
      have same : ((node.receive input).outcome s).2.halted = s.halted :=
        Command.kept_of_steps kept (receive_acts s input) start
      have calm := fun i => receive_calm (i := i) steady admissible parentsStored undisturbed
      unfold step
      split
      · next p s' found =>
          obtain ⟨notVote, notCertificate⟩ := calm (.panic p) (congrArg Prod.fst found)
          refine ⟨fun stopped => notVote ?_, fun stopped => notCertificate ?_⟩
          · exact congrArg Interrupt.panic (Option.some.inj stopped)
          · exact congrArg Interrupt.panic (Option.some.inj stopped)
      · exact ⟨nofun, nofun⟩
      · next found =>
          rw [found] at same
          unfold Unharmed
          rw [halted_cleanup, same]
          exact unharmed

/-- **The assertions of the Core hold** in every run in which no vote completes a certificate of a
header that was dropped from `processing`, and no header with parents that this primary did not
broadcast passes the checks under its name. -/
theorem assertions_hold {events : List Event}
    (admissible : Throughout node.advance node.Admissible {} events)
    (parentsStored : Throughout node.advance node.ParentsStored {} events)
    (undisturbed : Throughout node.advance node.Undisturbed {} events) :
    Unharmed (node.run events) := by
  have start : node.Steady {} :=
    { voted := fun _ sent => absurd sent List.not_mem_nil
      parents := fun _ sent => absurd sent List.not_mem_nil
      headerWaiter := fun _ member => absurd member List.not_mem_nil
      certificateWaiter := fun _ member => absurd member List.not_mem_nil
      current := fun _ member => absurd member List.not_mem_nil
      gcRound_le := Nat.zero_le _ }
  have both : node.Steady (node.run events) ∧ Unharmed (node.run events) :=
    ((admissible.and parentsStored).and undisturbed).invariant (fun s => node.Steady s ∧ Unharmed s)
      ⟨start, nofun, nofun⟩ fun s event known allowed =>
        ⟨known.1.advance allowed.1.1 allowed.1.2 allowed.2.1,
          known.2.advance known.1 allowed.1.1 allowed.1.2 allowed.2⟩
  exact both.2

end Runs

/-! ## A vote that comes too late, and a certificate that nobody signed -/

section FiveAuthorities

local instance assertionsSign : Primitives := executable fun _ _ => true

/-- The own header comes back, alone and in a certificate, and then its round is dropped. -/
def returned : List Event :=
  [.core (.primaries (.header ownSecond)),
    .core (.primaries (.certificate (certified ownSecond ⟨4⟩))), .consensus 60,
    .core (.primaries (.certificate (certified ownSecond ⟨5⟩)))]

theorem assertions_hold_returned :
    Unharmed (thirdAuthority.run
      (opening ++ .core (.proposer ownSecond) :: secondVotes ++ returned)) :=
  assertions_hold (by decide +kernel) (by decide +kernel) (by decide +kernel)

/-- The consensus drops the round of the own header before its votes come. -/
def lateVotes : List Event := .core (.proposer ownSecond) :: .consensus 60 :: secondVotes

/-- A certificate of the greatest round, whose header has no parents. -/
def greatestRound (name : PublicKey) : Certificate :=
  certified (.new name (2 ^ 64 - 1) ∅ (.ofList []) (nameSignature name) Header.round_last_lt) ⟨4⟩

/-- It equals the genesis certificate of the third authority, and its header has parents. -/
def forged : Certificate where
  header := { (Certificate.genesisOf ⟨3⟩).header with
    parents := .ofList ([⟨1⟩, ⟨2⟩, ⟨4⟩].map fun name => (greatestRound name).digest) }
  votes := []

/-- The own header is voted for, and the forged certificate comes after its parents. -/
def unsigned : List Event :=
  .core (.proposer ownSecond) ::
    ([greatestRound ⟨1⟩, greatestRound ⟨2⟩, greatestRound ⟨4⟩, forged].map fun c =>
      .core (.primaries (.certificate c)))

/-- **The assertion of the own vote fails** with either half of the condition alone: when votes come
late, and when a header is taken for one of this primary. -/
theorem assertion_fails :
    (¬ ∀ (node : Core) (events : List Event),
      Throughout node.advance node.Admissible {} events →
        Throughout node.advance node.ParentsStored {} events →
        Throughout node.advance node.OwnRounds {} events →
        Throughout node.advance node.OwnKnown {} events →
          (node.run events).halted ≠ some .ownVote) ∧
    ¬ ∀ (node : Core) (events : List Event),
      Throughout node.advance node.Admissible {} events →
        Throughout node.advance node.ParentsStored {} events →
        Throughout node.advance node.OwnRounds {} events →
        Throughout node.advance node.CompletedInTime {} events →
          (node.run events).halted ≠ some .ownVote := by
  refine ⟨fun unharmed => ?_, fun unharmed => ?_⟩
  · have running := unharmed thirdAuthority (opening ++ lateVotes) (by decide +kernel)
      (by decide +kernel) (by decide +kernel) (by decide +kernel)
    exact running (by decide +kernel)
  · have running := unharmed thirdAuthority (opening ++ unsigned) (by decide +kernel)
      (by decide +kernel) (by decide +kernel) (by decide +kernel)
    exact running (by decide +kernel)

end FiveAuthorities

end Tusk.Core
