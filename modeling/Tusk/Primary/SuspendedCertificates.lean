import Tusk.Primary.Assertions
import Tusk.Primary.RejectedCertificates

/-!
# Certificates that wait for their ancestors

A certificate that lacks a parent waits in the `CertificateWaiter`, which is to return it once all
parents are in the store. Each parent has to come as a certificate and to be delivered in turn, with
its own parents, down to the genesis. The Core refuses certificates below the garbage collected round.
It does not look at the certificates that wait when it moves that round, so it may pass an ancestor
that has not come yet, and from then on the certificate waits in vain (`ancestor_passed`).

This is so exactly when the cleanup passes an undelivered ancestor of a certificate that waits above
it, or a certificate is taken in of which an ancestor has been passed already. Where neither happens
no certificate is stranded (`never_stranded`).
-/

set_option autoImplicit false

namespace Tusk.Core

open Lib

section Runs

variable [Primitives] (node : Core)

/-! ## Stranded certificates -/

/-- A parent of a certificate: an acceptable certificate whose digest is among the parents. -/
def ParentOf (committee : Committee) (p c : Certificate) : Prop :=
  p.digest ∈ c.header.parents ∧ p.verify committee = .ok ()

/-- The ancestors of a certificate. -/
def AncestorOf (committee : Committee) : Certificate → Certificate → Prop :=
  Relation.TransGen (ParentOf committee)

/-- The certificate waits in the `CertificateWaiter`, which has not found all its parents. -/
def Suspended (s : State) (c : Certificate) : Prop :=
  c ∈ s.txCertificateWaiter ∧
    ¬ ∀ digest ∈ c.header.parents.toList, (s.store.read digest.asRef).isSome = true

instance (s : State) (c : Certificate) : Decidable (Suspended s c) :=
  inferInstanceAs (Decidable (_ ∧ _))

/-- The digest of the certificate counts as delivered: it is one of the genesis, or a key of the
store. -/
def Delivered (s : State) (c : Certificate) : Prop := node.HasParent s.store c.digest

instance (s : State) (c : Certificate) : Decidable (node.Delivered s c) :=
  inferInstanceAs (Decidable (node.HasParent _ _))

/-- **A running primary has a stranded certificate**: it waits above the garbage collected round for
an ancestor below it that has not been delivered. -/
def Stranded (s : State) : Prop :=
  s.halted = none ∧ ∃ c a, Suspended s c ∧ s.gcRound < c.round ∧ AncestorOf node.committee a c ∧
    ¬ node.Delivered s a ∧ a.round < s.gcRound

/-! ## What a step takes in -/

omit [Primitives] in
/-- The garbage collected round that a step of the main loop ends with. -/
def nextGcRound (s : State) : ℕ :=
  if node.gcDepth < s.consensusRound then s.consensusRound - node.gcDepth else s.gcRound

/-- The certificate is delivered at the message: the message brings it and nothing keeps it back, or
the message is the vote that completes it. -/
inductive Brings (s : State) : Input → Certificate → Prop where
  | carried {input : Input} {c a : Certificate} (carries : node.Carries s input c)
      (same : c.digest = a.digest)
      (parents : ∀ digest ∈ c.header.parents.toList, node.HasParent s.store digest)
      (accepted : c.header.id ∈ HashMap.bucket s.processing c.header.round ∨
        ¬ node.Refuses s.store c.header) : Brings s input a
  | completed {v : Vote} {a : Certificate} (sane : node.sanitizeVote s v = .ok ())
      (quorum : node.QuorumBy s v.author)
      (same : (Certificate.mk s.currentHeader []).digest = a.digest)
      (parents : ∀ digest ∈ s.currentHeader.parents.toList, node.HasParent s.store digest) :
      Brings s (.primaries (.vote v)) a

/-- The cleanup at the end of the step passes no ancestor that a certificate waits for, and no
certificate is taken in that waits for an ancestor which has been passed by then. -/
def SparesAncestors (s : State) : Event → Prop
  | .core input =>
      (∀ c, Suspended s c → node.nextGcRound s < c.round → ∀ a, AncestorOf node.committee a c →
        s.gcRound ≤ a.round → a.round < node.nextGcRound s →
          node.Delivered s a ∨ node.Brings s input a) ∧
      (∀ c, node.Carried s input c →
        ¬ (∀ digest ∈ c.header.parents.toList, node.HasParent s.store digest) →
        node.nextGcRound s < c.round → ∀ a, AncestorOf node.committee a c →
          a.round < node.nextGcRound s → node.Delivered s a ∨ node.Brings s input a)
  | .batch _ _ => True
  | .consensus _ => True

variable {node} {s t t' : State} {input : Input} {c : Certificate}

/-! ## What a step delivers -/

/-- A message that carries a certificate has it processed. -/
theorem Carries.receive (carries : node.Carries s input c) :
    (node.receive input).outcome s = (node.processCertificate c).outcome s ∧
      s.opened input = s := by
  cases carries with
  | primaries sane => exact ⟨outcome_of_sane sane, rfl⟩
  | certificateWaiter => exact ⟨rfl, rfl⟩

/-- **A certificate that is processed to the end is delivered** when its parents are stored. -/
theorem processCertificate_delivers :
    Command.Follows (fun _ _ => True)
      (fun t => (Current s input t ∧ node.CertificateAtHand s input t c ∧ node.Fresh s input t) ∧
        ∀ digest ∈ c.header.parents.toList, node.HasParent t.store digest)
      (node.processCertificate c) fun _ t => node.HasParent t.store c.digest := by
  have kept : ∀ t t', node.Acts s input t t' →
      (∀ digest ∈ c.header.parents.toList, node.HasParent t.store digest) →
      ∀ digest ∈ c.header.parents.toList, node.HasParent t'.store digest :=
    fun _ _ acts parents digest member => acts.hasParent (parents digest member)
  have header := ((processHeader_acts c.header).frame kept).mono fun _ _ _ => trivial
  have embedded : Command.Follows (fun _ _ => True)
      (fun t => (Current s input t ∧ node.CertificateAtHand s input t c ∧ node.Fresh s input t) ∧
        ∀ digest ∈ c.header.parents.toList, node.HasParent t.store digest)
      (processEmbedded node.processHeader c) fun _ t =>
        ∀ digest ∈ c.header.parents.toList, node.HasParent t.store digest := by
    unfold processEmbedded
    apply Command.Follows.bind_get
    intro t
    split
    · refine header.weaken ?_ fun _ _ => And.right
      rintro _ ⟨rfl, ⟨current, atHand, fresh⟩, parents⟩
      exact ⟨⟨current, atHand.header, fresh⟩, parents⟩
    · exact .pure fun _ before => before.2.2
  have delivered : Command.Follows (fun _ _ => True)
      (fun t : State => ∀ digest ∈ c.header.parents.toList, node.HasParent t.store digest)
      (node.deliverCertificate c) fun delivered _ => delivered = true := by
    unfold deliverCertificate
    apply Command.Follows.bind_get
    intro t
    split
    · exact .pure fun _ _ => rfl
    · next absent =>
        rintro _ ⟨rfl, parents⟩
        exact absurd parents absent
  refine embedded.bind fun _ => delivered.bind fun present => ?_
  split
  · refine .modify (fun _ _ => trivial) fun t _ => .inr ?_
    show ((t.store.write c.digest.asRef (.certificate c)).read c.digest.asRef).isSome = true
    rw [Store.read_write, if_pos rfl]
    rfl
  · next absent => exact fun _ present => absurd present absent

/-- **What a message brings is delivered**, unless the node stops. -/
theorem Brings.delivered {a : Certificate} (brings : node.Brings s input a)
    (running : ∀ p, ((node.receive input).outcome s).1 ≠ .error (.panic p)) :
    node.Delivered ((node.receive input).outcome s).2 a := by
  cases brings with
  | @carried _ c _ carries same parents accepted =>
      obtain ⟨outcome, opened⟩ := carries.receive
      rw [outcome] at running ⊢
      have returned : ((node.processCertificate c).outcome s).1 = .ok () := by
        cases found : ((node.processCertificate c).outcome s).1 with
        | ok u => rfl
        | error i =>
            cases i with
            | panic p => exact absurd found (running p)
            | error e =>
                rcases accepted with inside | passes
                · exact (processCertificate_embedded s (.inr inside) _ found).elim
                · exact absurd (node.refuses_of_rejected found) passes
      have current : Current s input s := congrArg State.currentHeader opened.symm
      have delivered := (processCertificate_delivers s
        ⟨⟨current, .inl carries, .inr rfl⟩, parents⟩).2 () returned
      rw [same] at delivered
      exact delivered
  | @completed v _ sane quorum same parents =>
      rw [receive_vote sane, processVote_outcome] at running ⊢
      obtain ⟨next, appended⟩ :=
        VotesAggregator.append_of_quorum s.currentHeader quorum.1 quorum.2
      rw [appended] at running ⊢
      dsimp only at running ⊢
      let c : Certificate :=
        ⟨s.currentHeader, s.votesAggregator.votes ++ [(v.author, v.signature)]⟩
      let u : State := State.send { s with votesAggregator := next } node.others (.certificate c)
      rw [Command.outcome_interruptWith] at running ⊢
      have returned : ((node.processCertificate c).outcome u).1 = .ok () := by
        cases found : ((node.processCertificate c).outcome u).1 with
        | ok _ => rfl
        | error i =>
            cases i with
            | panic p => exact absurd (by rw [found]; rfl) (running p)
            | error e => exact absurd (by rw [found]; rfl) (running .validCertificate)
      have atHand : node.CertificateAtHand s (.primaries (.vote v)) u c :=
        .inr ⟨trivial, rfl, List.mem_append_right _ (List.mem_singleton_self _)⟩
      have delivered := (processCertificate_delivers u
        ⟨⟨rfl, atHand, .inl trivial⟩, parents⟩).2 () returned
      rw [show c.digest = a.digest from same] at delivered
      exact delivered

/-! ## What a step suspends -/

/-- A key of the store stays one. -/
theorem Moves.isSome_read {handled : Header → Prop} {carried : Certificate → Prop}
    (moves : node.Moves handled carried t t') {key : List UInt8}
    (present : (t.store.read key).isSome = true) : (t'.store.read key).isSome = true := by
  cases moves with
  | check _ checks => cases checks <;> exact present
  | store => exact Store.isSome_write present
  | deliver => exact Store.isSome_write present
  | _ => exact present

theorem Acts.isSome_read (acts : node.Acts s input t t') {key : List UInt8}
    (present : (t.store.read key).isSome = true) : (t'.store.read key).isSome = true := by
  have kept : ∀ u u', node.Moves (node.Handled s input) (node.Carried s input) u u' →
      (u.store.read key).isSome = true → (u'.store.read key).isSome = true :=
    fun _ _ moves => moves.isSome_read
  exact Command.kept_of_steps kept acts.moves present

/-- What is known of the certificates that wait, during the step that processes a message received
at `s`. -/
structure Suspending (node : Core) (s : State) (input : Input) (t : State) : Prop where
  waiting : ∀ c ∈ t.txCertificateWaiter, c ∈ s.txCertificateWaiter ∨ (node.Carried s input c ∧
    ¬ ∀ digest ∈ c.header.parents.toList, node.HasParent s.store digest)
  keys : ∀ key, (s.store.read key).isSome = true → (t.store.read key).isSome = true
  rounds : t.gcRound = s.gcRound ∧ t.consensusRound = s.consensusRound

theorem Suspending.hasParent (suspending : node.Suspending s input t) {digest : Digest}
    (present : node.HasParent s.store digest) : node.HasParent t.store digest :=
  present.imp_right (suspending.keys digest.asRef)

/-- **An act suspends a certificate that the message brought and that lacked a parent.** -/
theorem Suspending.acts (acts : node.Acts s input t t')
    (suspending : node.Suspending s input t) : node.Suspending s input t' := by
  refine ⟨fun c member => ?_, fun key present => ?_, ?_⟩
  · rcases acts.waiting member with old | ⟨subject, absent⟩
    · exact suspending.waiting c old
    · exact .inr ⟨subject.carried, fun present => absent fun digest inside =>
        suspending.hasParent (present digest inside)⟩
  · exact acts.isSome_read (suspending.keys key present)
  · exact ⟨acts.rounds.1.trans suspending.rounds.1, acts.rounds.2.trans suspending.rounds.2⟩

theorem suspending_of_receive (s : State) (input : Input) :
    node.Suspending s input ((node.receive input).outcome s).2 := by
  have start : node.Suspending s input (s.opened input) := by
    cases input <;> exact ⟨fun _ => .inl, fun _ present => present, rfl, rfl⟩
  have kept : ∀ t t', node.Acts s input t t' → node.Suspending s input t →
      node.Suspending s input t' := fun _ _ acts => Suspending.acts acts
  exact Command.kept_of_steps kept (receive_acts s input) start

/-! ## Runs -/

/-- What the main loop leaves of a step that does not stop the node. -/
theorem step_running (running : (node.step s input).halted = none) :
    (∀ p, ((node.receive input).outcome s).1 ≠ .error (.panic p)) ∧
      node.step s input = ((node.receive input).outcome s).2.cleanup node.gcDepth := by
  unfold step at running ⊢
  split at running
  · exact nomatch running
  · exact nomatch running
  · next result s' notPanic notStorage found =>
      rw [found]
      exact ⟨fun p same => notPanic p same, rfl⟩

omit [Primitives] in
/-- The garbage collected round after the cleanup. -/
theorem gcRound_cleanup (t : State) :
    (t.cleanup node.gcDepth).gcRound = node.nextGcRound t := by
  unfold State.cleanup nextGcRound
  dsimp only
  split <;> rfl

omit [Primitives] in
theorem Suspended.of_cleanup (suspended : Suspended (t.cleanup node.gcDepth) c) :
    Suspended t c := by
  obtain ⟨lastVoted, processing, aggregators, gcRound, same, -⟩ := cleanup_cases t node.gcDepth
  rw [same] at suspended
  exact suspended

theorem Delivered.cleanup {a : Certificate} (delivered : node.Delivered t a) :
    node.Delivered (t.cleanup node.gcDepth) a := by
  obtain ⟨lastVoted, processing, aggregators, gcRound, same, -⟩ := cleanup_cases t node.gcDepth
  rw [same]
  exact delivered

/-- **A step strands no certificate** when it spares the ancestors. -/
theorem not_stranded_step (alive : s.halted = none) (before : ¬ node.Stranded s)
    (bound : s.gcRound ≤ node.nextGcRound s) (spares : node.SparesAncestors s (.core input)) :
    ¬ node.Stranded (node.step s input) := by
  rintro ⟨running, c, a, suspended, above, ancestor, undelivered, below⟩
  obtain ⟨calm, same⟩ := step_running running
  have suspending : node.Suspending s input ((node.receive input).outcome s).2 :=
    suspending_of_receive s input
  have next : (node.step s input).gcRound = node.nextGcRound s := by
    rw [same, gcRound_cleanup, nextGcRound, suspending.rounds.1, suspending.rounds.2]
    rfl
  rw [next] at above below
  rw [same] at suspended undelivered
  -- what was delivered before the step or is brought by the message is delivered after it
  have absent : ¬ (node.Delivered s a ∨ node.Brings s input a) := by
    rintro (old | brings)
    · exact undelivered (Delivered.cleanup (suspending.hasParent old))
    · exact undelivered (Delivered.cleanup (brings.delivered calm))
  obtain ⟨member, incomplete⟩ := suspended.of_cleanup
  rcases suspending.waiting c member with old | ⟨carried, lacks⟩
  · have suspended' : Suspended s c := ⟨old, fun present => incomplete fun digest inside =>
      suspending.keys _ (present digest inside)⟩
    by_cases passed : a.round < s.gcRound
    · exact before ⟨alive, c, a, suspended', lt_of_le_of_lt bound above, ancestor,
        fun delivered => absent (.inl delivered), passed⟩
    · exact absent (spares.1 c suspended' above a ancestor (not_lt.mp passed) below)
  · exact absent (spares.2 c carried lacks above a ancestor below)

variable (node) in
/-- No certificate is stranded, and the garbage collected round is not ahead of the consensus. -/
structure Unstranded (s : State) : Prop where
  unstranded : ¬ node.Stranded s
  lags : node.Lags s

/-- **An event strands no certificate** when it spares the ancestors. -/
theorem Unstranded.advance {event : Event} (unstranded : node.Unstranded s)
    (admissible : node.Admissible s event) (spares : node.SparesAncestors s event) :
    node.Unstranded (node.advance s event) := by
  refine ⟨?_, unstranded.lags.advance admissible⟩
  obtain ⟨unstranded, bound⟩ := unstranded
  cases event with
  | batch digest workerId =>
      rintro ⟨running, c, a, ⟨member, incomplete⟩, above, ancestor, undelivered, below⟩
      refine unstranded ⟨running, c, a, ⟨member, fun present => incomplete fun digest inside =>
        Store.isSome_write (present digest inside)⟩, above, ancestor, fun delivered => ?_, below⟩
      exact undelivered (delivered.write _ _)
  | consensus => exact unstranded
  | core input =>
      unfold Core.advance
      dsimp only
      split
      · exact unstranded
      · next alive =>
          have moves : s.gcRound ≤ node.nextGcRound s := by
            unfold nextGcRound
            split
            · exact bound
            · exact le_rfl
          exact not_stranded_step (by simpa using alive) unstranded moves spares

variable (node) in
/-- Nothing has been collected yet, or the new garbage collected round is within the bound and every
digest of the list was delivered, or comes with the message and nothing keeps it back. -/
def PassesDelivered (bound : ℕ) (digests : List Digest) (s : State) : Event → Prop
  | .core input => node.nextGcRound s = 0 ∨ node.nextGcRound s ≤ bound ∧ ∀ digest ∈ digests,
      node.HasParent s.store digest ∨ ∃ c ∈ certificateOf input,
        node.Sane s input ∧ c.digest = digest ∧ node.Passes s.store c.header
  | .batch _ _ => True
  | .consensus _ => True

instance (bound : ℕ) (digests : List Digest) (s : State) :
    ∀ event, Decidable (node.PassesDelivered bound digests s event)
  | .core _ => inferInstanceAs (Decidable (_ ∨ _ ∧ _))
  | .batch _ _ => inferInstanceAs (Decidable True)
  | .consensus _ => inferInstanceAs (Decidable True)

/-- **The collection is harmless where what it passes has been delivered**, whoever waits. -/
theorem PassesDelivered.sparesAncestors {bound : ℕ} {digests : List Digest} {event : Event}
    (listed : ∀ a : Certificate, a.verify node.committee = .ok () → a.round < bound →
      a.digest ∈ digests)
    (passes : node.PassesDelivered bound digests s event) : node.SparesAncestors s event := by
  cases event with
  | batch => trivial
  | consensus => trivial
  | core input =>
      have passed : ∀ c a, AncestorOf node.committee a c → a.round < node.nextGcRound s →
          node.Delivered s a ∨ node.Brings s input a := by
        intro c a ancestor below
        rcases passes with zero | ⟨within, delivered⟩
        · exact absurd (zero ▸ below) (Nat.not_lt_zero _)
        · obtain ⟨_, parent, -⟩ := Relation.TransGen.head'_iff.mp ancestor
          have member := listed a parent.2 (below.trans_le within)
          refine (delivered _ member).imp_right ?_
          rintro ⟨c, brought, sane, same, parents, accepted⟩
          exact .carried (carries_iff.mpr ⟨brought, sane⟩) same parents (.inr accepted)
      exact ⟨fun c _ _ a ancestor _ below => passed c a ancestor below,
        fun c _ _ _ a ancestor below => passed c a ancestor below⟩

end Runs

/-! ## A certificate that waits while the collection goes on -/

section FiveAuthorities

local instance suspendedSign : Primitives := executable fun _ _ => true

/-- The certificate of an authority at round 2, on the first three of round 1. -/
def secondRound (name : PublicKey) : Certificate :=
  certified (.new name 2 ∅ (.ofList ([⟨1⟩, ⟨2⟩, ⟨4⟩].map fun name => (firstRound name).digest))
    (nameSignature name) Header.round_two_lt) ⟨4⟩

/-- The certificate of the fourth authority at round 2, on one of the fifth authority. -/
def onFifth : Certificate := certified (twoFaced ⟨5⟩) ⟨5⟩

/-- A certificate at round 3, on the one before. -/
def onFourth : Certificate :=
  certified (.new ⟨1⟩ 3 ∅ (.ofList [(secondRound ⟨1⟩).digest, (secondRound ⟨2⟩).digest,
    onFifth.digest]) (nameSignature ⟨1⟩)) ⟨4⟩

/-- The certificate of round 3 comes before its parent, and the consensus goes on. -/
def suspending : List Event :=
  [.core (.primaries (.certificate (secondRound ⟨1⟩))),
    .core (.primaries (.certificate (secondRound ⟨2⟩))),
    .core (.primaries (.certificate onFourth)), .consensus 52]

/-- The next message does not bring the ancestor of round 1 that is still missing. -/
def overtaken : List Event := suspending ++ [.core (.primaries (.certificate (secondRound ⟨1⟩)))]

/-- The next message brings it, and then the parent comes. The certificate is returned last. -/
def released : List Event :=
  suspending ++ [.core (.primaries (.certificate (firstRound ⟨5⟩))),
    .core (.primaries (.certificate onFifth)), .core (.certificateWaiter onFourth)]

end FiveAuthorities

section KnownSignatures

/-- The certificates of the run. -/
def brought : List Certificate :=
  [firstRound ⟨1⟩, firstRound ⟨2⟩, firstRound ⟨4⟩, firstRound ⟨5⟩, secondRound ⟨1⟩,
    secondRound ⟨2⟩, onFifth, onFourth]

/-- What was signed for them: their headers and, by the voters, their digests. -/
def signedDigests : List Digest :=
  brought.map (fun c => c.header.id) ++ brought.map fun c => digitHash c.hashInput

local instance knownSign : Primitives := executable fun _ digest => signedDigests.contains digest

/-- The digests of the genesis and of the certificates of round 1. -/
def passedDigests : List Digest :=
  thirdAuthority.genesis.map Prod.fst ++ [⟨1⟩, ⟨2⟩, ⟨4⟩, ⟨5⟩].map fun name => (firstRound name).digest

/-- No other certificate of a round below 2 is accepted, as nobody has signed one. -/
theorem digest_mem_passedDigests {a : Certificate} (accepted : a.verify fiveAuthorities = .ok ())
    (below : a.round < 2) : a.digest ∈ passedDigests := by
  rcases Certificate.verify_ok_iff.mp accepted with ⟨id, round, origin⟩ | certified
  · have genesis : ∀ name ∈ fiveAuthorities.authorities.keys,
        digitHash (certifiedBytes default 0 name) ∈ passedDigests := by decide +kernel
    have digest : a.digest = digitHash (certifiedBytes default 0 a.origin) := by
      show digitHash (certifiedBytes a.header.id a.round a.origin) = _
      rw [id, round]
    exact digest ▸ genesis _ origin
  · obtain ⟨-, stake, -, signature⟩ := Header.verify_ok_iff.mp certified.header
    have id : a.header.id ∈ signedDigests := by
      have both := Bool.and_eq_true_iff.mp signature
      exact List.contains_iff_mem.mp both.2
    have voted : a.digest ∈ signedDigests := by
      cases votes : a.votes with
      | nil =>
          have quorum := certified.quorum
          rw [votes] at quorum
          exact absurd quorum (by decide +kernel)
      | cons vote rest =>
          have signatures := certified.signatures
          rw [votes] at signatures
          have first := List.all_eq_true.mp signatures vote List.mem_cons_self
          exact List.contains_iff_mem.mp (Bool.and_eq_true_iff.mp first).2
    have member : a.origin ∈ fiveAuthorities.authorities.keys :=
      fiveAuthorities.mem_keys_of_stake_pos stake
    have listed : ∀ id ∈ signedDigests, ∀ name ∈ fiveAuthorities.authorities.keys,
        ∀ round < 2, digitHash (certifiedBytes id round name) ∈ signedDigests →
          digitHash (certifiedBytes id round name) ∈ passedDigests := by decide +kernel
    exact listed _ id _ member _ below voted

end KnownSignatures

end Tusk.Core
