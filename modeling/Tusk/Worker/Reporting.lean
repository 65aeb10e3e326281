import Mathlib.Data.List.Perm.Subperm
import Tusk.Network.SimpleSender
import Tusk.Worker.Cluster

/-!
# What a primary is told by its worker

The PrimaryConnector of a worker takes the digests that the Processors deliver, in order, and sends them to
the primary with a simple sender. The primary reads the messages that its receiver dispatches. So a report
may be lost when a connection fails, but none is made up or repeated: what a primary is told are reports of
its worker, each at most once, and what they say of a batch is so (`told_backed`). As long as no connection
fails, they come in order and without a gap.
-/

set_option autoImplicit false

namespace Tusk

open Lib Worker

namespace Reporting

/-- The workers of a cluster, and for each of them its PrimaryConnector. -/
structure State where
  workers : Cluster.State := fun _ => {}
  /-- How many digests each PrimaryConnector has taken. -/
  taken : PublicKey → ℕ := fun _ => 0
  /-- The network sender of each. -/
  networks : PublicKey → SimpleSender.State := fun _ => {}

/-- What happens. -/
inductive Event where
  /-- Something happens in the cluster. -/
  | cluster (event : Cluster.Event)
  /-- The PrimaryConnector of a worker takes a digest. When this needs a new connection, its task may fail
  at once. -/
  | connector (name : PublicKey) (fails : Bool)
  /-- Something happens at a connection to the primary. -/
  | task (name : PublicKey) (number : ℕ) (event : SimpleSender.Connection.Event)
  /-- The receiver of the primary reads a frame. -/
  | frame (name : PublicKey) (number : ℕ) (succeeds : Bool)

/-- Nobody sends responses in the place of workers that follow the protocol. -/
def Allowed (cluster : Cluster) : Event → Prop
  | .cluster event => cluster.Allowed event
  | _ => True

section Machine

variable [Primitives] [Bincode WorkerMessage] [Bincode WorkerPrimaryMessage] (cluster : Cluster)

/-- The PrimaryConnector sends the next digest through the network. -/
def forward (s : State) (name : PublicKey) (fails : Bool) : State :=
  match cluster.committee.primary name, (s.workers name).txPrimary[s.taken name]? with
  | .ok addresses, some message =>
      { s with
        taken := Function.update s.taken name (s.taken name + 1)
        networks := Function.update s.networks name
          ((s.networks name).send addresses.workerToPrimary (Bincode.serialize message) fails) }
  | _, _ => s

/-- The network of a worker takes a step. -/
def transmit (s : State) (name : PublicKey) (event : SimpleSender.State.Event) : State :=
  { s with networks := Function.update s.networks name ((s.networks name).advance event) }

/-- The state after an event. -/
def advance (s : State) : Event → State
  | .cluster event => { s with workers := cluster.advance s.workers event }
  | .connector name fails => forward cluster s name fails
  | .task name number event => transmit s name (.task number event)
  | .frame name number succeeds => transmit s name (.frame number succeeds)

/-- The state after a run. -/
def run (events : List Event) : State := events.foldl (advance cluster) {}

/-- What a primary was told by its worker: the messages that it could read. -/
def told (s : State) (name : PublicKey) : List WorkerPrimaryMessage :=
  (s.networks name).dispatched.filterMap fun entry => Bincode.deserialize entry.2.data

/-! ## What the connectors keep -/

/-- A PrimaryConnector has sent the first digests, in order, and nothing else. -/
structure Forwards (address : SocketAddr) (reports : List WorkerPrimaryMessage) (taken : ℕ)
    (network : SimpleSender.State) : Prop where
  sound : network.Sound
  taken_le : taken ≤ reports.length
  submitted : network.submitted.map (fun entry => (entry.1, entry.2.data)) =
    (reports.take taken).map fun message => (address, Bincode.serialize message)

/-- What is known of the workers and their connectors. -/
structure Sound (s : State) : Prop where
  workers : cluster.Sound s.workers
  forwards : ∀ name addresses, cluster.committee.primary name = .ok addresses →
    Forwards addresses.workerToPrimary (s.workers name).txPrimary (s.taken name) (s.networks name)

variable {cluster} {s : State} {address : SocketAddr} {reports : List WorkerPrimaryMessage} {taken : ℕ}
  {network : SimpleSender.State}

omit [Primitives] [Bincode WorkerMessage] in
/-- More reports may come. -/
theorem Forwards.extend (forwards : Forwards address reports taken network)
    {reports' : List WorkerPrimaryMessage} (more : reports <+: reports') :
    Forwards address reports' taken network where
  sound := forwards.sound
  taken_le := forwards.taken_le.trans more.length_le
  submitted := by
    obtain ⟨rest, rfl⟩ := more
    rw [List.take_append_of_le_length forwards.taken_le]
    exact forwards.submitted

omit [Primitives] [Bincode WorkerMessage] in
/-- What happens on the network submits nothing. -/
theorem Forwards.transmit (forwards : Forwards address reports taken network)
    {event : SimpleSender.State.Event} (unsent : ∀ other data fails, event ≠ .send other data fails) :
    Forwards address reports taken (network.advance event) where
  sound := forwards.sound.advance event
  taken_le := forwards.taken_le
  submitted := by
    rw [network.submitted_advance unsent]
    exact forwards.submitted

omit [Primitives] [Bincode WorkerMessage] in
/-- **The next digest is sent.** -/
theorem Forwards.send (forwards : Forwards address reports taken network)
    {message : WorkerPrimaryMessage} (next : reports[taken]? = some message) (fails : Bool) :
    Forwards address reports (taken + 1) (network.send address (Bincode.serialize message) fails) where
  sound := forwards.sound.advance (.send address (Bincode.serialize message) fails)
  taken_le := (List.getElem?_eq_some_iff.mp next).1
  submitted := by
    rw [network.submitted_send, List.map_append, forwards.submitted, List.take_add_one, next]
    simp

/-- **An event keeps what is known of the connectors.** -/
theorem Sound.advance (sound : Sound cluster s) {event : Event} (allowed : Allowed cluster event) :
    Sound cluster (advance cluster s event) := by
  have transmits : ∀ (name : PublicKey) (event : SimpleSender.State.Event),
      (∀ other data fails, event ≠ .send other data fails) →
      Sound cluster (transmit s name event) := by
    intro name event unsent
    refine ⟨sound.workers, fun other addresses found => ?_⟩
    have forwards := sound.forwards other addresses found
    unfold transmit
    dsimp only
    by_cases here : other = name
    · subst here
      rw [Function.update_self]
      exact forwards.transmit unsent
    · rw [Function.update_of_ne here]
      exact forwards
  cases event with
  | cluster event =>
      exact ⟨sound.workers.advance allowed, fun name addresses found =>
        (sound.forwards name addresses found).extend (cluster.txPrimary_advance s.workers event name)⟩
  | connector name fails =>
      unfold Reporting.advance forward
      dsimp only
      split
      · next addresses message found next =>
          refine ⟨sound.workers, fun other addresses' found' => ?_⟩
          have forwards := sound.forwards other addresses' found'
          dsimp only
          by_cases here : other = name
          · subst here
            cases found.symm.trans found'
            rw [Function.update_self, Function.update_self]
            exact forwards.send next fails
          · rw [Function.update_of_ne here, Function.update_of_ne here]
            exact forwards
      · exact sound
  | task name number event => exact transmits name (.task number event) (by simp)
  | frame name number succeeds => exact transmits name (.frame number succeeds) (by simp)

theorem sound_start (cluster : Cluster) : Sound cluster {} where
  workers := Cluster.sound_start cluster
  forwards _ _ _ := ⟨SimpleSender.State.sound_start, Nat.le_refl 0, rfl⟩

theorem sound_run {events : List Event} (allowed : ∀ event ∈ events, Allowed cluster event) :
    Sound cluster (run cluster events) := by
  have throughout : Throughout (advance cluster) (fun _ => Allowed cluster) {} events :=
    .of_forall allowed _
  exact throughout.invariant (Sound cluster) (sound_start cluster) fun _ _ sound allowed =>
    sound.advance allowed

/-! ## What a primary is told -/

omit [Primitives] [Bincode WorkerMessage] in
/-- What was sent is read as it was reported. -/
theorem Forwards.read (forwards : Forwards address reports taken network)
    (readsBack : Bincode.ReadsBack {message | message ∈ reports}) :
    (network.submitted.filterMap fun entry =>
      (Bincode.deserialize entry.2.data : Option WorkerPrimaryMessage)) = reports.take taken := by
  have same := congrArg (List.filterMap fun sent : SocketAddr × List UInt8 =>
    (Bincode.deserialize sent.2 : Option WorkerPrimaryMessage)) forwards.submitted
  rw [List.filterMap_map, List.filterMap_map] at same
  refine same.trans ((List.filterMap_congr fun message member => ?_).trans List.filterMap_some)
  exact readsBack message (List.mem_of_mem_take member)

omit [Primitives] [Bincode WorkerMessage] in
/-- The messages for the primary are all messages. -/
theorem Forwards.address_of_submitted (forwards : Forwards address reports taken network)
    {entry : SocketAddr × ReliableSender.Message} (member : entry ∈ network.submitted) :
    entry.1 = address := by
  have listed := List.mem_map_of_mem (f := fun entry => (entry.1, entry.2.data)) member
  rw [forwards.submitted] at listed
  obtain ⟨message, -, same⟩ := List.mem_map.mp listed
  exact (congrArg Prod.fst same).symm

/-- **A primary is told at most once of what is so.** In every run of the workers, with any failures of the
connections to the primaries, what a primary is told by its worker are reports of this worker, none of them
more often than it was made: of own batches that a quorum holds, and of batches of others that the worker has
stored. If no task for the connection to the primary has returned, they are the first reports, in order. -/
theorem told_backed {events : List Event} (allowed : ∀ event ∈ events, Allowed cluster event)
    (name : PublicKey) {addresses : PrimaryAddresses}
    (found : cluster.committee.primary name = .ok addresses)
    (readsBack : Bincode.ReadsBack (Cluster.sealedMessages ((run cluster events).workers name)))
    (reportsBack : Bincode.ReadsBack
      {message | message ∈ ((run cluster events).workers name).txPrimary}) :
    List.Subperm (told (run cluster events) name) ((run cluster events).workers name).txPrimary ∧
      (∀ message ∈ told (run cluster events) name,
        cluster.Backed (run cluster events).workers name message) ∧
      (((run cluster events).networks name).Intact addresses.workerToPrimary →
        told (run cluster events) name <+: ((run cluster events).workers name).txPrimary) := by
  have sound := sound_run allowed
  generalize run cluster events = s at sound readsBack reportsBack ⊢
  have forwards := sound.forwards name addresses found
  have reads := forwards.read reportsBack
  have subset := forwards.sound.dispatched_subset
  have fewer : List.Subperm (told s name) ((s.workers name).txPrimary.take (s.taken name)) := by
    obtain ⟨list, perm, sublist⟩ := List.Nodup.subperm forwards.sound.once subset
    rw [← reads]
    exact ⟨_, perm.filterMap _, sublist.filterMap _⟩
  have most := fewer.trans (List.take_sublist _ _).subperm
  refine ⟨most, fun message heard => sound.workers.backed readsBack (most.subset heard),
    fun intact => ?_⟩
  -- on one connection the frames are dispatched as they were submitted
  have order := forwards.sound.submitted_of_intact intact
  rw [SimpleSender.State.messagesTo_of_forall fun entry => forwards.address_of_submitted,
    SimpleSender.State.messagesTo_of_forall fun entry member =>
      forwards.address_of_submitted (subset member)] at order
  have before : (s.networks name).dispatched.map Prod.snd <+:
      (s.networks name).submitted.map Prod.snd := order ▸ List.prefix_append _ _
  have read := before.filterMap fun message : ReliableSender.Message =>
    (Bincode.deserialize message.data : Option WorkerPrimaryMessage)
  rw [List.filterMap_map, List.filterMap_map] at read
  have all : List.filterMap ((fun message : ReliableSender.Message =>
      (Bincode.deserialize message.data : Option WorkerPrimaryMessage)) ∘ Prod.snd)
        (s.networks name).submitted <+: (s.workers name).txPrimary := by
    rw [Function.comp_def, reads]
    exact List.take_prefix _ _
  exact read.trans all

end Machine

/-! ## A report that arrives -/

section FourWorkers

/-- The bytes of a report: its tag, the digest and the id of the worker. -/
def reportBytes : WorkerPrimaryMessage → List UInt8
  | .ourBatch digest workerId => [0, 0, 0, 0] ++ (digest.asRef ++ littleEndian 4 workerId.toNat)
  | .othersBatch digest workerId => [1, 0, 0, 0] ++ (digest.asRef ++ littleEndian 4 workerId.toNat)

/-- Read a report. -/
def readReport (bytes : List UInt8) : Option WorkerPrimaryMessage :=
  let digest : Digest := ⟨BitVec.ofNat 256 (ofLittleEndian ((bytes.drop 4).take 32).reverse)⟩
  let workerId : WorkerId := UInt32.ofNat (ofLittleEndian (bytes.drop 36))
  if bytes.take 4 = [0, 0, 0, 0] then some (.ourBatch digest workerId)
  else if bytes.take 4 = [1, 0, 0, 0] then some (.othersBatch digest workerId)
  else none

local instance reportBincode : Bincode WorkerPrimaryMessage where
  serialize := reportBytes
  deserialize := readReport

attribute [local instance] Cluster.clusterSign Cluster.clusterBincode

/-- The first worker reports a batch, and its primary reads the report. -/
def toldOnce : List Event :=
  Cluster.reportedOnce.map .cluster ++
    [.connector ⟨1⟩ false, .task ⟨1⟩ 0 (.connect true), .task ⟨1⟩ 0 .receive,
      .task ⟨1⟩ 0 (.send true), .frame ⟨1⟩ 0 true]

theorem toldOnce_allowed : ∀ event ∈ toldOnce, Allowed Cluster.fourWorkers event := by
  intro event member
  rcases List.mem_append.mp member with inside | outside
  · obtain ⟨event, listed, rfl⟩ := List.mem_map.mp inside
    exact Cluster.reportedOnce_allowed event listed
  · simp only [List.mem_cons, List.not_mem_nil, or_false] at outside
    rcases outside with rfl | rfl | rfl | rfl | rfl <;> trivial

theorem told_backed_toldOnce :
    told (run Cluster.fourWorkers toldOnce) ⟨1⟩ =
        [.ourBatch (digitHash (messageBytes (.batch [[7]]))) 0] ∧
      List.Subperm (told (run Cluster.fourWorkers toldOnce) ⟨1⟩)
        ((run Cluster.fourWorkers toldOnce).workers ⟨1⟩).txPrimary ∧
      (∀ message ∈ told (run Cluster.fourWorkers toldOnce) ⟨1⟩,
        Cluster.fourWorkers.Backed (run Cluster.fourWorkers toldOnce).workers ⟨1⟩ message) ∧
      (((run Cluster.fourWorkers toldOnce).networks ⟨1⟩).Intact ⟨1, 1⟩ →
        told (run Cluster.fourWorkers toldOnce) ⟨1⟩ <+:
          ((run Cluster.fourWorkers toldOnce).workers ⟨1⟩).txPrimary) := by
  have found : Cluster.fourWorkers.committee.primary ⟨1⟩ = .ok ⟨⟨1, 0⟩, ⟨1, 1⟩⟩ := rfl
  refine ⟨by decide +kernel, told_backed toldOnce_allowed ⟨1⟩ found ?_ ?_⟩
  · have only : ((run Cluster.fourWorkers toldOnce).workers ⟨1⟩).sending.maker.sealed = [[[7]]] := by
      decide +kernel
    rintro - ⟨batch, sealed, rfl⟩
    rw [only, List.mem_singleton] at sealed
    subst sealed
    decide +kernel
  · have only : ((run Cluster.fourWorkers toldOnce).workers ⟨1⟩).txPrimary =
        [.ourBatch (digitHash (messageBytes (.batch [[7]]))) 0] := by decide +kernel
    intro message reported
    have listed : message ∈ ((run Cluster.fourWorkers toldOnce).workers ⟨1⟩).txPrimary := reported
    rw [only, List.mem_singleton] at listed
    subst listed
    decide +kernel

end FourWorkers

end Reporting

end Tusk
