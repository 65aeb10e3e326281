import Tusk.Consensus.Execution
import Tusk.Primary.Adversary
import Tusk.Primary.Helper
import Tusk.Primary.ParentRequests
import Tusk.Primary.ProposedHeaders
import Tusk.Worker.Storage

/-!
# The tasks of a primary together

A primary is made of tasks that send each other messages over channels: the `Core`, the `Proposer`, the
`HeaderWaiter`, the `CertificateWaiter`, the `PayloadReceiver`, the `Helper` and the `GarbageCollector`, and
the consensus, which takes the certificates of the Core and returns the ordered ones to the
GarbageCollector. An event is a message from the network or one step of a task, so a run has the tasks
interleaved in any order.

The results on the Core assume something of the other tasks. What the tasks send keeps it (`Wired.advance`),
so every run of the primary is a run of its Core, of events that may happen (`core_run`, `admissible_core`).
-/

set_option autoImplicit false

namespace Tusk

open Lib

/-! ## What the Core keeps -/

namespace Core

variable [Primitives] {node : Core}

/-- The channels of the Core, its votes and its store only grow. -/
structure Extends (s t : State) : Prop where
  votes : s.votesCreated <+: t.votesCreated
  proposer : s.txProposer <+: t.txProposer
  headerWaiter : s.txHeaderWaiter <+: t.txHeaderWaiter
  certificateWaiter : s.txCertificateWaiter <+: t.txCertificateWaiter
  consensus : s.txConsensus <+: t.txConsensus
  store : ∀ key, (s.store.read key).isSome = true → (t.store.read key).isSome = true

omit [Primitives] in
theorem Extends.refl (s : State) : Extends s s :=
  ⟨List.prefix_rfl, List.prefix_rfl, List.prefix_rfl, List.prefix_rfl, List.prefix_rfl, fun _ => id⟩

omit [Primitives] in
theorem Extends.trans {s t u : State} (first : Extends s t) (second : Extends t u) : Extends s u where
  votes := first.votes.trans second.votes
  proposer := first.proposer.trans second.proposer
  headerWaiter := first.headerWaiter.trans second.headerWaiter
  certificateWaiter := first.certificateWaiter.trans second.certificateWaiter
  consensus := first.consensus.trans second.consensus
  store key present := second.store key (first.store key present)

theorem Extends.moves {handled : Header → Prop} {carried : Certificate → Prop} {s t t' : State}
    (moves : node.Moves handled carried t t') (grows : Extends s t) : Extends s t' := by
  have store : ∀ key, (s.store.read key).isSome = true → (t'.store.read key).isSome = true :=
    fun key present => moves.isSome_read (grows.store key present)
  obtain ⟨votes, proposer, headerWaiter, certificateWaiter, consensus, -⟩ := grows
  cases moves with
  | check _ checks =>
      cases checks with
      | start => exact ⟨votes, proposer, headerWaiter, certificateWaiter, consensus, store⟩
      | suspend => exact ⟨votes, proposer, headerWaiter.trans (List.prefix_append ..),
          certificateWaiter, consensus, store⟩
  | vote => exact ⟨votes.trans (List.prefix_append ..), proposer, headerWaiter, certificateWaiter,
      consensus, store⟩
  | suspend => exact ⟨votes, proposer, headerWaiter, certificateWaiter.trans (List.prefix_append ..),
      consensus, store⟩
  | deliver => exact ⟨votes, proposer.trans (List.prefix_append ..), headerWaiter, certificateWaiter,
      consensus.trans (List.prefix_append ..), store⟩
  | _ => exact ⟨votes, proposer, headerWaiter, certificateWaiter, consensus, store⟩

/-- **What the Core has sent, voted for and stored stays.** -/
theorem extends_advance (s : State) (event : Event) : Extends s (node.advance s event) := by
  have start := Extends.refl s
  cases event with
  | batch => exact { start with store := fun _ => Store.isSome_write }
  | consensus => exact { start with }
  | core input =>
      refine advance_kept_moves (Extends s) start ?_ (fun t t' => Extends.moves) ?_
      · cases input <;> exact { start with }
      · rintro t _ ⟨⟩ grows
        exact { grows with }

theorem extends_foldl (s : State) (events : List Event) : Extends s (events.foldl node.advance s) := by
  induction events generalizing s with
  | nil => exact .refl s
  | cons event events ih => exact (extends_advance s event).trans (ih _)

/-- The consensus round is left to the consensus. -/
theorem consensusRound_advance (s : State) (input : Input) :
    (node.advance s (.core input)).consensusRound = s.consensusRound := by
  refine advance_kept (fun t => t.consensusRound = s.consensusRound) rfl ?_
    (fun t t' acts same => acts.rounds.2.trans same) ?_
  · cases input <;> rfl
  · rintro t _ ⟨⟩ same
    exact same

/-- The current header is the one that the Proposer has sent last. -/
theorem currentHeader_advance {s : State} (running : s.halted = none) (input : Input) :
    (node.advance s (.core input)).currentHeader = (s.opened input).currentHeader := by
  let same := fun t : State => t.currentHeader = (s.opened input).currentHeader
  have stepped : same (node.step s input) := by
    refine @step_acts_settles _ _ s input same same rfl
      (fun t t' acts same => acts.currentHeader.trans same) ?_
    rintro t _ ⟨⟩ same
    exact same
  unfold Core.advance
  simpa [running] using stepped

end Core

/-- What the HeaderWaiter returns is of a waiter that has ended. -/
theorem HeaderWaiter.mem_txCore_advance {waiter : HeaderWaiter} {s : State} {event : Event}
    {consensusRound : ℕ} {h : Header}
    (returned : h ∈ (waiter.advance s consensusRound event).txCore) :
    h ∈ s.txCore ∨ ∃ number, event = .delivered number ∧
      ∃ w ∈ s.waiting, w.number = number ∧ w.deliver = h := by
  rw [waiter.advance_eq] at returned
  cases handled : waiter.handle s event with
  | none =>
      rw [handled] at returned
      exact .inl returned
  | some t =>
      have inside : h ∈ t.txCore := by
        rw [handled] at returned
        dsimp only at returned
        split_ifs at returned
        · exact returned
        · rwa [(waiter.cleanup_other t consensusRound).2.2.1] at returned
      cases event with
      | synchronizer message now =>
          obtain ⟨-, rfl⟩ := handle_synchronizer handled
          rw [(waiter.synchronize_spec s now message).2.2.2] at inside
          exact .inl inside
      | delivered number =>
          obtain ⟨ended, waiting, same, -, -, -, txCore⟩ := handle_delivered handled
          rw [txCore] at inside
          refine (List.mem_append.mp inside).imp_right fun new => ?_
          exact ⟨number, rfl, ended, waiting, same, (List.mem_singleton.mp new).symm⟩
      | cancelled number =>
          obtain rfl := handle_cancelled handled
          exact .inl inside
      | timer now shuffled =>
          obtain rfl := handle_timer handled
          exact .inl inside

/-! ## The smaller tasks -/

/-- The addresses of all workers of an authority. -/
def Committee.ourWorkers (committee : Committee) (myself : PublicKey) :
    Except ConfigError (List WorkerAddresses) :=
  match committee.authorities.get myself with
  | some authority => .ok (HashMap.values authority.workers)
  | none => .error (.notInCommittee myself)

namespace CertificateWaiter

/-- The state of the CertificateWaiter, with what it has sent. -/
structure State where
  /-- The certificates whose parents are awaited. -/
  waiting : List Certificate := []
  /-- The certificates for which we got all parents, looped back to the Core. -/
  txCore : List Certificate := []

/-- What happens at the CertificateWaiter. -/
inductive Event where
  /-- Receives sync commands from the `Synchronizer`. -/
  | synchronizer (certificate : Certificate)
  /-- A waiter has all the parents of its certificate. -/
  | delivered (position : ℕ)

/-- The state after an event. -/
def advance (s : State) : Event → State
  | .synchronizer certificate => { s with waiting := s.waiting ++ [certificate] }
  | .delivered position =>
      match s.waiting[position]? with
      | some certificate =>
          { waiting := s.waiting.eraseIdx position, txCore := s.txCore ++ [certificate] }
      | none => s

end CertificateWaiter

/-- The GarbageCollector: what does not change during a run. -/
structure GarbageCollector where
  /-- The network addresses of our workers. -/
  addresses : List SocketAddr

namespace GarbageCollector

/-- The state of the GarbageCollector, with what it has sent to the workers. -/
structure State where
  lastCommittedRound : ℕ := 0
  network : List (List SocketAddr × PrimaryWorkerMessage) := []

/-- The round that is stored for all tasks when an ordered certificate is received. -/
def stores (s : State) (certificate : Certificate) : Option ℕ :=
  if s.lastCommittedRound < certificate.round then some certificate.round else none

/-- `GarbageCollector::run`, for one certificate. -/
def receive (collector : GarbageCollector) (s : State) (certificate : Certificate) : State :=
  match stores s certificate with
  | some round =>
      { lastCommittedRound := round
        network := s.network ++ [(collector.addresses, .cleanup round)] }
  | none => s

end GarbageCollector

/-- What the consensus task has done. A panic stops it. -/
structure Ordering where
  state : Consensus.State
  subDags : List Consensus.SubDag := []
  panicked : Bool := false

/-- The consensus task receives a certificate. -/
def Ordering.receive [Primitives] (consensus : Consensus) (s : Ordering) (certificate : Certificate) :
    Ordering :=
  match consensus.step s.state certificate with
  | some (state, subDags) => { s with state := state, subDags := s.subDags ++ subDags }
  | none => { s with panicked := true }

/-- What the consensus task has done is a run. A panic leaves it as it was. -/
theorem Ordering.run_receive [Primitives] {consensus : Consensus} {s : Ordering}
    {delivered : List Certificate} (run : consensus.run delivered = some (s.state, s.subDags))
    (c : Certificate) :
    ∃ now, (now = delivered ∨ now = delivered ++ [c]) ∧
      consensus.run now = some ((s.receive consensus c).state, (s.receive consensus c).subDags) ∧
      ((s.receive consensus c).panicked = false → now = delivered ++ [c]) := by
  unfold Ordering.receive
  cases stepped : consensus.step s.state c with
  | none => exact ⟨delivered, .inl rfl, run, fun impossible => by cases impossible⟩
  | some result =>
      exact ⟨delivered ++ [c], .inr rfl, Consensus.run_snoc_eq_some.mpr ⟨_, _, _, run, stepped, rfl⟩,
        fun _ => rfl⟩

/-! ## The channels -/

/-- A primary: what does not change during a run. The silent authorities and the batches in their rounds are
set in the environment. -/
structure PrimaryNode where
  core : Core
  /-- The public key of this primary is in the committee. -/
  member : core.name ∈ core.committee.authorities.keys
  /-- The preferred header size. -/
  headerSize : ℕ
  /-- The delay before a sync request is sent again. -/
  syncRetryDelay : ℕ
  /-- To how many nodes it is then sent. -/
  syncRetryNodes : ℕ
  faults : ℕ
  adversarySeed : ℕ
  pauseBatchesDuringSilence : Bool

namespace PrimaryNode

/-- The channels between the tasks, by what receives from them. -/
inductive Channel where
  | primaries
  | headerLoopback
  | certificateLoopback
  | headers
  | parents
  | ourDigests
  | othersDigests
  | syncHeaders
  | syncCertificates
  | certRequests
  | newCertificates
  | feedback
deriving DecidableEq

/-- The state of the tasks. The channels are histories, and for each is counted what was received. -/
structure State where
  core : Core.State
  proposer : Proposer.State
  headerWaiter : HeaderWaiter.State
  certificateWaiter : CertificateWaiter.State
  helper : Helper.Reply
  ordering : Ordering
  garbageCollector : GarbageCollector.State
  /-- The messages of other primaries for the Core. -/
  primaryMessages : List PrimaryMessage
  /-- The requests of other primaries for the Helper. -/
  certRequests : List (List Digest × PublicKey)
  /-- The batches of our workers. -/
  ourDigests : List (Digest × WorkerId)
  /-- The batches that our workers have received. -/
  othersDigests : List (Digest × WorkerId)
  received : Channel → ℕ

/-- A step of a task. -/
inductive Step where
  /-- The Core receives from one of its channels. -/
  | primaries
  | headerLoopback
  | certificateLoopback
  | headers
  /-- The Proposer receives, after the check of its timer. -/
  | parents (timerExpired : Bool)
  | ourDigests (timerExpired : Bool)
  | proposerTimer (timerExpired : Bool)
  /-- The PayloadReceiver receives. -/
  | othersDigests
  /-- The HeaderWaiter receives, or one of its waiters ends, or its timer expires. -/
  | syncHeaders (now : ℕ)
  | headerDelivered (number : ℕ)
  | headerCancelled (number : ℕ)
  | headerTimer (now : ℕ) (shuffled : List SocketAddr)
  /-- The CertificateWaiter receives, or one of its waiters ends. -/
  | syncCertificates
  | certificateDelivered (position : ℕ)
  /-- The Helper receives. -/
  | certRequests
  /-- The consensus receives. -/
  | newCertificates
  /-- The GarbageCollector receives. -/
  | feedback

/-- The channel a step receives from. -/
def Step.channel : Step → Option Channel
  | primaries => some .primaries
  | headerLoopback => some .headerLoopback
  | certificateLoopback => some .certificateLoopback
  | headers => some .headers
  | parents _ => some .parents
  | ourDigests _ => some .ourDigests
  | othersDigests => some .othersDigests
  | syncHeaders _ => some .syncHeaders
  | syncCertificates => some .syncCertificates
  | certRequests => some .certRequests
  | newCertificates => some .newCertificates
  | feedback => some .feedback
  | _ => none

/-- What happens at the primary. -/
inductive Event where
  /-- Another primary sends a message. -/
  | primary (message : PrimaryMessage)
  /-- One of our workers sends a message. -/
  | worker (message : WorkerPrimaryMessage)
  | step (step : Step)

/-- What a task does in a step. -/
inductive Input where
  | core (event : Core.Event)
  | proposer (timerExpired : Bool) (event : Proposer.Event)
  | headerWaiter (event : HeaderWaiter.Event)
  | certificateWaiter (event : CertificateWaiter.Event)
  | helper (request : List Digest × PublicKey)
  | consensus (certificate : Certificate)
  | garbageCollector (certificate : Certificate)

namespace State

variable (s : State)

/-- The next message of a channel, of which everything that was sent is given. -/
def next {α : Type} (channel : Channel) (sent : List α) : Option α := sent[s.received channel]?

/-- The Core receives nothing after an assertion has stopped it. -/
def coreInput (input : Option Core.Input) : Option Input :=
  if s.core.halted.isSome then none else input.map fun input => .core (.core input)

/-- What a step does. There is nothing to do without a message, and for a task that has stopped. -/
def input : Step → Option Input
  | .primaries => s.coreInput ((s.next .primaries s.primaryMessages).map .primaries)
  | .headerLoopback => s.coreInput ((s.next .headerLoopback s.headerWaiter.txCore).map .headerWaiter)
  | .certificateLoopback =>
      s.coreInput ((s.next .certificateLoopback s.certificateWaiter.txCore).map .certificateWaiter)
  | .headers => s.coreInput ((s.next .headers s.proposer.txCore).map .proposer)
  | .parents timerExpired => (s.next .parents s.core.txProposer).map fun message =>
      .proposer timerExpired (.parents message.1 message.2)
  | .ourDigests timerExpired => (s.next .ourDigests s.ourDigests).map fun message =>
      .proposer timerExpired (.report message.1 message.2)
  | .proposerTimer timerExpired => some (.proposer timerExpired .timer)
  | .othersDigests => (s.next .othersDigests s.othersDigests).map fun message =>
      .core (.batch message.1 message.2)
  | .syncHeaders now =>
      if s.headerWaiter.panicked then none
      else (s.next .syncHeaders s.core.txHeaderWaiter).map fun message =>
        .headerWaiter (.synchronizer message now)
  | .headerDelivered number => some (.headerWaiter (.delivered number))
  | .headerCancelled number => some (.headerWaiter (.cancelled number))
  | .headerTimer now shuffled => some (.headerWaiter (.timer now shuffled))
  | .syncCertificates => (s.next .syncCertificates s.core.txCertificateWaiter).map fun message =>
      .certificateWaiter (.synchronizer message)
  | .certificateDelivered position => some (.certificateWaiter (.delivered position))
  | .certRequests =>
      if s.helper.panicked then none else (s.next .certRequests s.certRequests).map .helper
  | .newCertificates =>
      if s.ordering.panicked then none
      else (s.next .newCertificates s.core.txConsensus).map .consensus
  | .feedback => (s.next .feedback (Consensus.outputs s.ordering.subDags)).map .garbageCollector

/-- A message was received from a channel. -/
def receives : Option Channel → State
  | some channel =>
      { s with received := Function.update s.received channel (s.received channel + 1) }
  | none => s

end State

variable (node : PrimaryNode)

/-- The Proposer of the primary. -/
def proposer : Proposer where
  name := node.core.name
  committee := node.core.committee
  adversaryFaults := node.faults
  adversarySeed := node.adversarySeed
  pauseBatchesDuringSilence := node.pauseBatchesDuringSilence
  requestSignature := node.core.requestSignature
  headerSize := node.headerSize

/-- The HeaderWaiter of the primary. -/
def headerWaiter : HeaderWaiter where
  name := node.core.name
  committee := node.core.committee
  gcDepth := node.core.gcDepth
  syncRetryDelay := node.syncRetryDelay
  syncRetryNodes := node.syncRetryNodes

/-- The consensus of the primary. -/
def consensus [Primitives] : Consensus where
  committee := node.core.committee
  gcDepth := node.core.gcDepth
  directCommitSelected round :=
    Adversary.directCommitSelected node.core.committee.authorities.keys round node.faults
      node.adversarySeed

/-- The GarbageCollector of the primary. -/
def garbageCollector : GarbageCollector where
  addresses :=
    match node.core.committee.ourWorkers node.core.name with
    | .ok workers => workers.map WorkerAddresses.primaryToWorker
    -- Our public key or worker id is not in the committee.
    | .error _ => []

/-- The Helper of the primary. -/
def helper : Helper := ⟨node.core.committee⟩

section Model

variable [Primitives]

/-- A task does what it does in a step. -/
def perform (s : State) : Input → State
  | .core event => { s with core := node.core.advance s.core event }
  | .proposer timerExpired event =>
      { s with proposer := node.proposer.pass s.proposer (timerExpired, event) }
  | .headerWaiter event =>
      { s with headerWaiter := node.headerWaiter.advance s.headerWaiter s.core.consensusRound event }
  | .certificateWaiter event =>
      { s with certificateWaiter := CertificateWaiter.advance s.certificateWaiter event }
  | .helper request =>
      let reply := node.helper.handle s.core.store request
      { s with helper := ⟨s.helper.sent ++ reply.sent, reply.panicked⟩ }
  | .consensus certificate =>
      { s with ordering := s.ordering.receive node.consensus certificate }
  | .garbageCollector certificate =>
      { s with
        garbageCollector := node.garbageCollector.receive s.garbageCollector certificate
        core :=
          match GarbageCollector.stores s.garbageCollector certificate with
          | some round => node.core.advance s.core (.consensus round)
          | none => s.core }

/-- The state after an event. The handlers of the two receivers put a message on the channel of the task it
is for. -/
def advance (s : State) : Event → State
  | .primary (.certificatesRequest missing requestor) =>
      { s with certRequests := s.certRequests ++ [(missing, requestor)] }
  | .primary request => { s with primaryMessages := s.primaryMessages ++ [request] }
  | .worker (.ourBatch digest workerId) =>
      { s with ourDigests := s.ourDigests ++ [(digest, workerId)] }
  | .worker (.othersBatch digest workerId) =>
      { s with othersDigests := s.othersDigests ++ [(digest, workerId)] }
  | .step step =>
      match s.input step with
      | some input => (node.perform s input).receives step.channel
      | none => s

/-- The state in which the tasks are spawned. -/
def start : State where
  core := {}
  proposer := node.proposer.start
  headerWaiter := {}
  certificateWaiter := {}
  helper := {}
  ordering := { state := .new (Certificate.genesis node.core.committee) }
  garbageCollector := {}
  primaryMessages := []
  certRequests := []
  ourDigests := []
  othersDigests := []
  received _ := 0

/-- The state after a run. -/
def run (events : List Event) : State := events.foldl node.advance node.start

variable {node} in
theorem run_snoc (events : List Event) (event : Event) :
    node.run (events ++ [event]) = node.advance (node.run events) event := by
  rw [run, List.foldl_append]
  rfl

variable {node} in
/-- A step that receives something. -/
theorem advance_step {s : State} {step : Step} {input : Input} (takes : s.input step = some input) :
    node.advance s (.step step) = (node.perform s input).receives step.channel := by
  unfold advance
  simp only [takes]

variable {node} in
/-- A step that finds nothing to do. -/
theorem advance_idle {s : State} {step : Step} (takes : s.input step = none) :
    node.advance s (.step step) = s := by
  unfold advance
  simp only [takes]

omit [Primitives] in
/-- The keys that a waiter which ends has waited for. -/
def State.awaited (s : State) : Step → List (List UInt8)
  | .headerDelivered number =>
      (s.headerWaiter.waiting.filter fun w => decide (w.number = number)).flatMap
        HeaderWaiter.Waiter.waitFor
  | .certificateDelivered position =>
      s.certificateWaiter.waiting[position]?.toList.flatMap fun c =>
        c.header.parents.toList.map Digest.asRef
  | _ => []

omit [Primitives] in
/-- A waiter ends when what it waits for is in the store. -/
def Admissible (s : State) : Event → Prop
  | .step step => ∀ key ∈ s.awaited step, (s.core.store.read key).isSome = true
  | .primary _ => True
  | .worker _ => True

instance (s : State) : ∀ event, Decidable (Admissible s event)
  | .step _ => inferInstanceAs (Decidable (∀ key ∈ _, _ = _))
  | .primary _ => inferInstanceAs (Decidable True)
  | .worker _ => inferInstanceAs (Decidable True)

/-! ## What the tasks see -/

/-- What an event shows the Core: the consensus round is a variable that it shares with the
GarbageCollector. -/
def coreEvents (s : State) : Event → List Core.Event
  | .step step =>
      match s.input step with
      | some (.core event) => [event]
      | some (.garbageCollector certificate) =>
          (GarbageCollector.stores s.garbageCollector certificate).toList.map .consensus
      | _ => []
  | _ => []

/-- What an event shows the Proposer. -/
def proposerEvents (s : State) : Event → List (Bool × Proposer.Event)
  | .step step =>
      match s.input step with
      | some (.proposer timerExpired event) => [(timerExpired, event)]
      | _ => []
  | _ => []

variable {node} {s : State} {event : Event}

/-- **The Core sees its own events only.** -/
theorem core_advance (s : State) (event : Event) :
    (node.advance s event).core = (coreEvents s event).foldl node.core.advance s.core := by
  cases event with
  | primary message => cases message <;> rfl
  | worker message => cases message <;> rfl
  | step step =>
      unfold advance coreEvents
      dsimp only
      cases s.input step with
      | none => rfl
      | some input =>
          have same : ((node.perform s input).receives step.channel).core =
              (node.perform s input).core := by
            cases step.channel <;> rfl
          dsimp only
          rw [same]
          cases input with
          | garbageCollector certificate =>
              unfold perform
              dsimp only
              cases GarbageCollector.stores s.garbageCollector certificate <;> rfl
          | _ => rfl

/-- **The Proposer sees its own events only.** -/
theorem proposer_advance (s : State) (event : Event) :
    (node.advance s event).proposer = (proposerEvents s event).foldl node.proposer.pass s.proposer := by
  cases event with
  | primary message => cases message <;> rfl
  | worker message => cases message <;> rfl
  | step step =>
      unfold advance proposerEvents
      dsimp only
      cases s.input step with
      | none => rfl
      | some input =>
          have same : ((node.perform s input).receives step.channel).proposer =
              (node.perform s input).proposer := by
            cases step.channel <;> rfl
          dsimp only
          rw [same]
          cases input <;> rfl

/-! ## What a step receives -/

/-- What a step receives, and from where. -/
inductive Brings (s : State) : Step → Input → Prop where
  | primaries {message : PrimaryMessage} (running : s.core.halted = none)
      (next : s.next .primaries s.primaryMessages = some message) :
      Brings s .primaries (.core (.core (.primaries message)))
  | headerLoopback {h : Header} (running : s.core.halted = none)
      (next : s.next .headerLoopback s.headerWaiter.txCore = some h) :
      Brings s .headerLoopback (.core (.core (.headerWaiter h)))
  | certificateLoopback {c : Certificate} (running : s.core.halted = none)
      (next : s.next .certificateLoopback s.certificateWaiter.txCore = some c) :
      Brings s .certificateLoopback (.core (.core (.certificateWaiter c)))
  | headers {h : Header} (running : s.core.halted = none)
      (next : s.next .headers s.proposer.txCore = some h) :
      Brings s .headers (.core (.core (.proposer h)))
  | parents (timerExpired : Bool) {digests : List Digest} {round : ℕ}
      (next : s.next .parents s.core.txProposer = some (digests, round)) :
      Brings s (.parents timerExpired) (.proposer timerExpired (.parents digests round))
  | ourDigests (timerExpired : Bool) {digest : Digest} {workerId : WorkerId}
      (next : s.next .ourDigests s.ourDigests = some (digest, workerId)) :
      Brings s (.ourDigests timerExpired) (.proposer timerExpired (.report digest workerId))
  | proposerTimer (timerExpired : Bool) :
      Brings s (.proposerTimer timerExpired) (.proposer timerExpired .timer)
  | othersDigests {digest : Digest} {workerId : WorkerId}
      (next : s.next .othersDigests s.othersDigests = some (digest, workerId)) :
      Brings s .othersDigests (.core (.batch digest workerId))
  | syncHeaders (now : ℕ) {message : WaiterMessage}
      (next : s.next .syncHeaders s.core.txHeaderWaiter = some message) :
      Brings s (.syncHeaders now) (.headerWaiter (.synchronizer message now))
  | headerDelivered (number : ℕ) :
      Brings s (.headerDelivered number) (.headerWaiter (.delivered number))
  | headerCancelled (number : ℕ) :
      Brings s (.headerCancelled number) (.headerWaiter (.cancelled number))
  | headerTimer (now : ℕ) (shuffled : List SocketAddr) :
      Brings s (.headerTimer now shuffled) (.headerWaiter (.timer now shuffled))
  | syncCertificates {c : Certificate}
      (next : s.next .syncCertificates s.core.txCertificateWaiter = some c) :
      Brings s .syncCertificates (.certificateWaiter (.synchronizer c))
  | certificateDelivered (position : ℕ) :
      Brings s (.certificateDelivered position) (.certificateWaiter (.delivered position))
  | certRequests {request : List Digest × PublicKey}
      (next : s.next .certRequests s.certRequests = some request) :
      Brings s .certRequests (.helper request)
  | newCertificates {c : Certificate} (running : s.ordering.panicked = false)
      (next : s.next .newCertificates s.core.txConsensus = some c) :
      Brings s .newCertificates (.consensus c)
  | feedback {c : Certificate}
      (next : s.next .feedback (Consensus.outputs s.ordering.subDags) = some c) :
      Brings s .feedback (.garbageCollector c)

omit [Primitives] in
theorem coreInput_eq_some {input? : Option Core.Input} {input : Input}
    (takes : s.coreInput input? = some input) :
    s.core.halted = none ∧ ∃ message, input? = some message ∧ input = .core (.core message) := by
  unfold State.coreInput at takes
  split_ifs at takes with halted
  obtain ⟨message, found, rfl⟩ := Option.map_eq_some_iff.mp takes
  exact ⟨by simpa using halted, message, found, rfl⟩

omit [Primitives] in
/-- **A step receives the next message of its channel.** -/
theorem brings_of_input {step : Step} {input : Input} (takes : s.input step = some input) :
    Brings s step input := by
  cases step with
  | primaries =>
      obtain ⟨running, _, found, rfl⟩ := coreInput_eq_some takes
      obtain ⟨message, next, rfl⟩ := Option.map_eq_some_iff.mp found
      exact .primaries running next
  | headerLoopback =>
      obtain ⟨running, _, found, rfl⟩ := coreInput_eq_some takes
      obtain ⟨message, next, rfl⟩ := Option.map_eq_some_iff.mp found
      exact .headerLoopback running next
  | certificateLoopback =>
      obtain ⟨running, _, found, rfl⟩ := coreInput_eq_some takes
      obtain ⟨message, next, rfl⟩ := Option.map_eq_some_iff.mp found
      exact .certificateLoopback running next
  | headers =>
      obtain ⟨running, _, found, rfl⟩ := coreInput_eq_some takes
      obtain ⟨message, next, rfl⟩ := Option.map_eq_some_iff.mp found
      exact .headers running next
  | parents timerExpired =>
      obtain ⟨message, next, rfl⟩ := Option.map_eq_some_iff.mp takes
      exact .parents timerExpired next
  | ourDigests timerExpired =>
      obtain ⟨message, next, rfl⟩ := Option.map_eq_some_iff.mp takes
      exact .ourDigests timerExpired next
  | proposerTimer timerExpired =>
      cases takes
      exact .proposerTimer timerExpired
  | othersDigests =>
      obtain ⟨message, next, rfl⟩ := Option.map_eq_some_iff.mp takes
      exact .othersDigests next
  | syncHeaders now =>
      unfold State.input at takes
      dsimp only at takes
      split_ifs at takes
      obtain ⟨message, next, rfl⟩ := Option.map_eq_some_iff.mp takes
      exact .syncHeaders now next
  | headerDelivered number =>
      cases takes
      exact .headerDelivered number
  | headerCancelled number =>
      cases takes
      exact .headerCancelled number
  | headerTimer now shuffled =>
      cases takes
      exact .headerTimer now shuffled
  | syncCertificates =>
      obtain ⟨message, next, rfl⟩ := Option.map_eq_some_iff.mp takes
      exact .syncCertificates next
  | certificateDelivered position =>
      cases takes
      exact .certificateDelivered position
  | certRequests =>
      unfold State.input at takes
      dsimp only at takes
      split_ifs at takes
      obtain ⟨message, next, rfl⟩ := Option.map_eq_some_iff.mp takes
      exact .certRequests next
  | newCertificates =>
      unfold State.input at takes
      dsimp only at takes
      split_ifs at takes with panicked
      obtain ⟨message, next, rfl⟩ := Option.map_eq_some_iff.mp takes
      exact .newCertificates (Bool.eq_false_iff.mpr panicked) next
  | feedback =>
      obtain ⟨message, next, rfl⟩ := Option.map_eq_some_iff.mp takes
      exact .feedback next

/-! ## What is on the channels -/

variable (node) in
/-- What is known of the messages on the channels. -/
structure Wired (s : State) : Prop where
  primaryMessages : ∀ message ∈ s.primaryMessages,
    ∀ missing requestor, message ≠ .certificatesRequest missing requestor
  sourced : node.proposer.Sourced s.core.txProposer s.proposer
  waiting : ∀ w ∈ s.headerWaiter.waiting, ∃ message ∈ s.core.txHeaderWaiter,
    message.deliver = w.deliver ∧ message.waitFor = w.waitFor
  headerLoopback : ∀ h ∈ s.headerWaiter.txCore, ∃ message ∈ s.core.txHeaderWaiter,
    message.deliver = h ∧ ∀ key ∈ message.waitFor, (s.core.store.read key).isSome = true
  suspended : ∀ c ∈ s.certificateWaiter.waiting, c ∈ s.core.txCertificateWaiter
  certificateLoopback : ∀ c ∈ s.certificateWaiter.txCore, c ∈ s.core.txCertificateWaiter ∧
    ∀ digest ∈ c.header.parents.toList, (s.core.store.read digest.asRef).isSome = true
  collected : s.core.consensusRound = s.garbageCollector.lastCommittedRound

/-- More messages of the Core are more sources. -/
theorem Sourced.mono {proposer : Proposer} {messages messages' : List (List Digest × ℕ)}
    {t : Proposer.State} (sourced : proposer.Sourced messages t) (more : messages ⊆ messages') :
    proposer.Sourced messages' t := by
  have within : ∀ message ∈ (proposer.genesis, 0) :: messages,
      message ∈ (proposer.genesis, 0) :: messages' := List.cons_subset_cons _ more
  refine ⟨fun some => ?_, fun h sent => ?_⟩
  · obtain ⟨message, source, same⟩ := sourced.waiting some
    exact ⟨message, within message source, same⟩
  · obtain ⟨author, id, signature, message, source, same⟩ := sourced.headers h sent
    exact ⟨author, id, signature, message, within message source, same⟩

theorem wired_start : node.Wired node.start where
  primaryMessages _ member := absurd member List.not_mem_nil
  sourced := ⟨fun _ => ⟨_, List.mem_cons_self, rfl, rfl⟩, fun _ member => absurd member List.not_mem_nil⟩
  waiting _ member := absurd member List.not_mem_nil
  headerLoopback _ member := absurd member List.not_mem_nil
  suspended _ member := absurd member List.not_mem_nil
  certificateLoopback _ member := absurd member List.not_mem_nil
  collected := rfl

/-- The Core goes on. -/
theorem Wired.extend (wired : node.Wired s) {core : Core.State} (extends_core : Core.Extends s.core core)
    (round : core.consensusRound = s.core.consensusRound) : node.Wired { s with core := core } where
  primaryMessages := wired.primaryMessages
  sourced := Sourced.mono wired.sourced extends_core.proposer.subset
  waiting w inside := by
    obtain ⟨message, sent, same⟩ := wired.waiting w inside
    exact ⟨message, extends_core.headerWaiter.subset sent, same⟩
  headerLoopback h inside := by
    obtain ⟨message, sent, same, stored⟩ := wired.headerLoopback h inside
    exact ⟨message, extends_core.headerWaiter.subset sent, same,
      fun key awaited => extends_core.store key (stored key awaited)⟩
  suspended c inside := extends_core.certificateWaiter.subset (wired.suspended c inside)
  certificateLoopback c inside := by
    obtain ⟨sent, stored⟩ := wired.certificateLoopback c inside
    exact ⟨extends_core.certificateWaiter.subset sent,
      fun digest isParent => extends_core.store _ (stored digest isParent)⟩
  collected := round.trans wired.collected

omit [Primitives] in
theorem mem_of_next {α : Type} {channel : Channel} {sent : List α} {message : α}
    (next : s.next channel sent = some message) : message ∈ sent :=
  List.mem_of_getElem? next

/-- The Proposer goes on. -/
theorem Wired.proposer (wired : node.Wired s) (timerExpired : Bool) (event : Proposer.Event)
    (sent : ∀ digests round, event = .parents digests round → (digests, round) ∈ s.core.txProposer) :
    node.Wired { s with proposer := node.proposer.pass s.proposer (timerExpired, event) } :=
  { wired with sourced := wired.sourced.pass sent }

/-- The HeaderWaiter goes on. -/
theorem Wired.headerWaiter (wired : node.Wired s) (event : HeaderWaiter.Event)
    (sent : ∀ message now, event = .synchronizer message now → message ∈ s.core.txHeaderWaiter)
    (stored : ∀ number w, event = .delivered number → w ∈ s.headerWaiter.waiting →
      w.number = number → ∀ key ∈ w.waitFor, (s.core.store.read key).isSome = true) :
    node.Wired { s with
      headerWaiter := node.headerWaiter.advance s.headerWaiter s.core.consensusRound event } := by
  refine { wired with waiting := fun w inside => ?_, headerLoopback := fun h returned => ?_ }
  · rcases HeaderWaiter.mem_waiting_advance inside with old | ⟨message, now, same, rfl⟩
    · exact wired.waiting w old
    · exact ⟨message, sent message now same, rfl, rfl⟩
  · rcases HeaderWaiter.mem_txCore_advance returned with old | ⟨number, same, w, waits, ends, rfl⟩
    · exact wired.headerLoopback h old
    · obtain ⟨message, sent, deliver, waitFor⟩ := wired.waiting w waits
      exact ⟨message, sent, deliver, fun key awaited =>
        stored number w same waits ends key (waitFor ▸ awaited)⟩

/-- **A step keeps what is known of the channels.** -/
theorem Wired.perform (wired : node.Wired s) {step : Step} {input : Input}
    (brings : Brings s step input) (admissible : Admissible s (.step step)) :
    node.Wired (node.perform s input) := by
  cases brings with
  | primaries => exact wired.extend (Core.extends_advance _ _) (Core.consensusRound_advance _ _)
  | headerLoopback => exact wired.extend (Core.extends_advance _ _) (Core.consensusRound_advance _ _)
  | certificateLoopback =>
      exact wired.extend (Core.extends_advance _ _) (Core.consensusRound_advance _ _)
  | headers => exact wired.extend (Core.extends_advance _ _) (Core.consensusRound_advance _ _)
  | othersDigests => exact wired.extend (Core.extends_advance _ _) rfl
  | parents timerExpired next =>
      exact wired.proposer timerExpired _ fun _ _ same => by cases same; exact mem_of_next next
  | ourDigests timerExpired => exact wired.proposer timerExpired _ fun _ _ same => by cases same
  | proposerTimer timerExpired => exact wired.proposer timerExpired _ fun _ _ same => by cases same
  | syncHeaders now next =>
      exact wired.headerWaiter _ (fun _ _ same => by cases same; exact mem_of_next next)
        fun _ _ same => by cases same
  | headerDelivered number =>
      exact wired.headerWaiter _ (fun _ _ same => by cases same)
        fun _ w same waits ends key awaited => by
          cases same
          exact admissible key (List.mem_flatMap.mpr
            ⟨w, List.mem_filter.mpr ⟨waits, decide_eq_true ends⟩, awaited⟩)
  | headerCancelled =>
      exact wired.headerWaiter _ (fun _ _ same => by cases same) fun _ _ same => by cases same
  | headerTimer =>
      exact wired.headerWaiter _ (fun _ _ same => by cases same) fun _ _ same => by cases same
  | syncCertificates next =>
      refine { wired with suspended := fun c inside => ?_ }
      rcases List.mem_append.mp inside with old | new
      · exact wired.suspended c old
      · rw [List.mem_singleton.mp new]
        exact mem_of_next next
  | certificateDelivered position =>
      unfold PrimaryNode.perform CertificateWaiter.advance
      dsimp only
      cases ended : s.certificateWaiter.waiting[position]? with
      | none => exact wired
      | some c =>
          refine { wired with
            suspended := fun c' inside => wired.suspended c' (List.mem_of_mem_eraseIdx inside)
            certificateLoopback := fun c' looped => ?_ }
          rcases List.mem_append.mp looped with old | new
          · exact wired.certificateLoopback c' old
          · rw [List.mem_singleton.mp new]
            refine ⟨wired.suspended c (List.mem_of_getElem? ended), fun digest isParent => ?_⟩
            refine admissible _ (List.mem_flatMap.mpr ⟨c, ?_, List.mem_map_of_mem isParent⟩)
            exact Option.mem_toList.mpr ended
  | certRequests => exact { wired with }
  | newCertificates => exact { wired with }
  | @feedback c next =>
      unfold PrimaryNode.perform GarbageCollector.receive
      dsimp only
      cases GarbageCollector.stores s.garbageCollector c with
      | none => exact wired
      | some round => exact { wired with collected := rfl }

/-- **Every event keeps what is known of the channels.** -/
theorem Wired.advance (wired : node.Wired s) (admissible : Admissible s event) :
    node.Wired (node.advance s event) := by
  cases event with
  | primary message =>
      cases message with
      | certificatesRequest => exact { wired with }
      | _ =>
          refine { wired with primaryMessages := fun message inside missing requestor same => ?_ }
          rcases List.mem_append.mp inside with old | new
          · exact wired.primaryMessages message old missing requestor same
          · cases (List.mem_singleton.mp new).symm.trans same
  | worker message => cases message <;> exact { wired with }
  | step step =>
      unfold PrimaryNode.advance
      dsimp only
      split
      · next input takes =>
          have performed := wired.perform (brings_of_input takes) admissible
          cases step.channel with
          | none => exact performed
          | some channel => exact { performed with }
      · exact wired

/-! ## The run of the Core -/

variable (node) in
/-- The events of the Core in a run. -/
def coreRun (events : List Event) : List Core.Event := shown node.advance coreEvents node.start events

variable (node) in
/-- The events of the Proposer in a run. -/
def proposerRun (events : List Event) : List (Bool × Proposer.Event) :=
  shown node.advance proposerEvents node.start events

variable (node) in
/-- **A run of the primary is a run of its Core.** -/
theorem core_run (events : List Event) :
    (node.run events).core = node.core.run (node.coreRun events) :=
  part_foldl core_advance node.start events

variable (node) in
theorem proposer_run (events : List Event) :
    (node.run events).proposer = node.proposer.run (node.proposerRun events) :=
  part_foldl proposer_advance node.start events

/-- The headers that the Proposer has sent are ones that the Core may receive. -/
theorem Wired.proposes (wired : node.Wired s) {h : Header} (sent : h ∈ s.proposer.txCore) :
    node.core.Proposes s.core h := by
  have genesis : node.core.genesis.map Prod.fst = node.proposer.genesis := by
    rw [Core.genesis, List.map_map]
    rfl
  obtain ⟨author, id, signature, parents⟩ := wired.sourced.headers h sent
  exact ⟨author, id, signature, genesis ▸ parents⟩

/-- **What the Core receives from the other tasks may come.** -/
theorem Wired.admissible_core (wired : node.Wired s) (event : Event) :
    Throughout node.core.advance node.core.Admissible s.core (coreEvents s event) := by
  cases event with
  | primary => trivial
  | worker => trivial
  | step step =>
      unfold coreEvents
      dsimp only
      cases takes : s.input step with
      | none => trivial
      | some input =>
          have brings := brings_of_input takes
          cases brings with
          | @primaries message _ next =>
              have known := wired.primaryMessages message (mem_of_next next)
              cases message with
              | certificatesRequest missing requestor => exact absurd rfl (known missing requestor)
              | _ => exact ⟨trivial, trivial⟩
          | headerLoopback _ next => exact ⟨wired.headerLoopback _ (mem_of_next next), trivial⟩
          | certificateLoopback _ next =>
              exact ⟨wired.certificateLoopback _ (mem_of_next next), trivial⟩
          | headers _ next => exact ⟨wired.proposes (mem_of_next next), trivial⟩
          | othersDigests => exact ⟨trivial, trivial⟩
          | @feedback c next =>
              dsimp only
              unfold GarbageCollector.stores
              split_ifs with later
              · refine ⟨?_, trivial⟩
                show s.core.consensusRound ≤ c.round
                rw [wired.collected]
                exact later.le
              · trivial
          | _ => trivial

theorem wired_run {events : List Event}
    (admissible : Throughout node.advance Admissible node.start events) :
    node.Wired (node.run events) :=
  admissible.invariant node.Wired wired_start fun _ _ wired may => wired.advance may

/-- **The events of the Core in a run may happen.** -/
theorem admissible_core {events : List Event}
    (admissible : Throughout node.advance Admissible node.start events) :
    Throughout node.core.advance node.core.Admissible {} (node.coreRun events) :=
  (admissible.and_invariant wired_start fun _ _ wired may => wired.advance may).shown core_advance
    fun _ event both => both.2.admissible_core event

end Model

end PrimaryNode

end Tusk
