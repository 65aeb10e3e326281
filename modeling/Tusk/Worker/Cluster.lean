import Tusk.Lib.Progress
import Tusk.Worker.Storage

/-!
# The workers of a committee

The workers with the same id of all authorities form a cluster. Some of them follow the protocol, and
the others may send anything to anyone and answer what they like. A message that is dispatched at the
other end of a link arrives at the worker with this address, when it follows the protocol.

A worker reports a batch of its own to its primary only when a quorum holds it: each of them that follows
the protocol has stored the batch under its digest, or has it in the channel of its Processor
(`reported_held`). And a batch that one of them has stored can be fetched by any other (`retrievable`).
-/

set_option autoImplicit false

namespace Tusk

open Lib ReliableSender Worker

/-- The workers of a committee with the same id. -/
structure Cluster where
  committee : Committee
  id : WorkerId
  /-- The preferred batch size (in bytes). -/
  batchSize : ℕ
  /-- Whether this is the build with the `benchmark` feature. -/
  benchmark : Bool
  /-- The authorities whose workers follow the protocol. -/
  correct : Finset PublicKey

namespace Cluster

/-- The states of the workers. -/
abbrev State : Type := PublicKey → Node

/-- What happens in the cluster. -/
inductive Event where
  /-- Something happens at the tasks that send batches, or on their links. -/
  | sending (name : PublicKey) (event : Dissemination.Event)
  /-- Anybody sends a message to a worker. -/
  | message (name : PublicKey) (bytes : List UInt8)
  | processOwn (name : PublicKey)
  | processOthers (name : PublicKey)
  /-- The Helper takes a request. Some reads may fail. -/
  | help (name : PublicKey) (fails : Digest → Bool)
  /-- Something that the Helper of a worker has sent arrives at another one. -/
  | reply (helper : PublicKey) (number : ℕ) (name : PublicKey)

variable (cluster : Cluster)

/-- The worker of an authority. -/
def worker (name : PublicKey) : Worker where
  name := name
  id := cluster.id
  committee := cluster.committee
  batchSize := cluster.batchSize
  benchmark := cluster.benchmark

/-- The addresses of the workers that follow the protocol. -/
def honest : Set SocketAddr :=
  {address | ∃ name ∈ cluster.correct, ∃ addresses,
    cluster.committee.worker name cluster.id = .ok addresses ∧ addresses.workerToWorker = address}

/-- Nobody sends responses in the place of workers that follow the protocol. -/
def Allowed : Event → Prop
  | .sending _ event => Dissemination.Allowed cluster.honest event
  | _ => True

/-- The messages that were dispatched on the link to an authority. -/
def dispatchedAt (name : PublicKey) (before after : Dissemination.Links) : List Message :=
  match cluster.committee.worker name cluster.id with
  | .ok addresses => (after addresses.workerToWorker).dispatched.drop
      (before addresses.workerToWorker).dispatched.length
  | .error _ => []

section Machine

variable [Primitives] [Bincode WorkerMessage]

/-- The state after an event. -/
def advance (s : State) : Event → State
  | .sending name event =>
      let sending := Dissemination.advance (cluster.worker name) (s name).sending event
      let sent := Function.update s name { s name with sending := sending }
      fun other => (cluster.dispatchedAt other (s name).sending.links sending.links).foldl
        (fun node message => node.accept message.data) (sent other)
  | .message name bytes => Function.update s name ((s name).accept bytes)
  | .processOwn name => Function.update s name ((s name).processOwn (cluster.worker name))
  | .processOthers name => Function.update s name ((s name).processOthers (cluster.worker name))
  | .help name fails => Function.update s name ((s name).help (cluster.worker name) fails)
  | .reply helper number name =>
      match (s helper).replies[number]?, cluster.committee.worker name cluster.id with
      | some (address, bytes), .ok addresses =>
          if addresses.workerToWorker = address then
            Function.update s name ((s name).accept bytes)
          else s
      | _, _ => s

/-- The state after a run. -/
def run (events : List Event) : State := events.foldl cluster.advance fun _ => {}

theorem run_snoc (events : List Event) (event : Event) :
    cluster.run (events ++ [event]) = cluster.advance (cluster.run events) event := by
  rw [run, List.foldl_append]
  rfl

/-! ## What the cluster keeps -/

/-- What is known of the workers, and of what was dispatched on their links. -/
structure Sound (s : State) : Prop where
  sending : ∀ name, Dissemination.Disseminates (cluster.worker name) cluster.honest (s name).sending
  keeps : ∀ name, Node.Keeps (cluster.worker name) (s name)
  arrived : ∀ name other addresses, cluster.committee.worker other cluster.id = .ok addresses →
    ∀ message ∈ ((s name).sending.links addresses.workerToWorker).dispatched, IsBatch message.data →
      message.data ∈ (s other).receiving.txProcessor

variable {cluster} {s : State}

/-- Messages arrive one after the other. -/
theorem keeps_foldl_accept {worker : Worker} {node : Node} (keeps : Node.Keeps worker node)
    (messages : List Message) :
    let node' := messages.foldl (fun node message => node.accept message.data) node
    Node.Keeps worker node' ∧ node'.sending = node.sending ∧
      node.receiving.txProcessor <+: node'.receiving.txProcessor ∧
      ∀ message ∈ messages, IsBatch message.data → message.data ∈ node'.receiving.txProcessor := by
  induction messages generalizing node with
  | nil => exact ⟨keeps, rfl, List.prefix_rfl, fun _ member => absurd member List.not_mem_nil⟩
  | cons message messages ih =>
      obtain ⟨keeps', sending, more, arrived⟩ := ih (keeps.accept message.data)
      refine ⟨keeps', sending, ?_, fun other member isBatch => ?_⟩
      · refine List.IsPrefix.trans ?_ more
        rcases node.accept_cases message.data with ⟨-, longer⟩ | ⟨-, same⟩
        · rw [longer]
          exact List.prefix_append _ _
        · rw [same]
      · rcases List.mem_cons.mp member with rfl | later
        · refine more.subset ?_
          rcases node.accept_cases other.data with ⟨-, longer⟩ | ⟨none, -⟩
          · rw [longer]
            exact List.mem_append_right _ (List.mem_singleton_self _)
          · exact absurd isBatch none
        · exact arrived other later isBatch

/-- One worker takes a step that sends nothing. -/
theorem Sound.update (sound : cluster.Sound s) {name : PublicKey} {node : Node}
    (keeps : Node.Keeps (cluster.worker name) node) (sending : node.sending = (s name).sending)
    (more : (s name).receiving.txProcessor ⊆ node.receiving.txProcessor) :
    cluster.Sound (Function.update s name node) := by
  have same : ∀ other, (Function.update s name node other).sending = (s other).sending := by
    intro other
    by_cases here : other = name
    · subst here
      rw [Function.update_self]
      exact sending
    · rw [Function.update_of_ne here]
  refine ⟨fun other => ?_, fun other => ?_, fun sender other addresses found message member isBatch => ?_⟩
  · rw [same]
    exact sound.sending other
  · by_cases here : other = name
    · subst here
      rw [Function.update_self]
      exact keeps
    · rw [Function.update_of_ne here]
      exact sound.keeps other
  · rw [same] at member
    have arrived := sound.arrived sender other addresses found message member isBatch
    by_cases here : other = name
    · subst here
      rw [Function.update_self]
      exact more arrived
    · rw [Function.update_of_ne here]
      exact arrived

/-- **An event at the sending side** of a worker has what is dispatched arrive. -/
theorem Sound.send (sound : cluster.Sound s) (name : PublicKey) {event : Dissemination.Event}
    (allowed : Dissemination.Allowed cluster.honest event) :
    cluster.Sound (cluster.advance s (.sending name event)) := by
  have leads := Dissemination.leads_advance (cluster.worker name) (s name).sending allowed
  have passed := Dissemination.txBatch_advance (cluster.worker name) (s name).sending event
  have disseminates := (sound.sending name).advance allowed
  unfold Cluster.advance
  dsimp only
  generalize Dissemination.advance (cluster.worker name) (s name).sending event = sending
    at leads passed disseminates
  generalize sends : Function.update s name { s name with sending := sending } = sent
  have self : sent name = { s name with sending := sending } := by
    rw [← sends, Function.update_self]
  have others : ∀ other, other ≠ name → sent other = s other := by
    intro other different
    rw [← sends, Function.update_of_ne different]
  have receiving : ∀ other, (sent other).receiving = (s other).receiving := by
    intro other
    by_cases here : other = name
    · rw [here, self]
    · rw [others other here]
  have keeps : ∀ other, Node.Keeps (cluster.worker other) (sent other) := by
    intro other
    by_cases here : other = name
    · rw [here, self]
      exact (sound.keeps name).send passed
    · rw [others other here]
      exact sound.keeps other
  refine ⟨fun other => ?_, fun other => (keeps_foldl_accept (keeps other) _).1,
    fun sender other addresses found message member isBatch => ?_⟩
  · rw [(keeps_foldl_accept (keeps other) _).2.1]
    by_cases here : other = name
    · rw [here, self]
      exact disseminates
    · rw [others other here]
      exact sound.sending other
  · rw [(keeps_foldl_accept (keeps sender) _).2.1] at member
    obtain ⟨-, -, more, arrived⟩ := keeps_foldl_accept (keeps other)
      (cluster.dispatchedAt other (s name).sending.links sending.links)
    rw [receiving] at more
    by_cases here : sender = name
    · -- the message was there before, or it arrives now
      rw [here, self] at member
      obtain ⟨new, whole⟩ := leads.dispatched addresses.workerToWorker
      dsimp only at member
      rw [← whole] at member
      rcases List.mem_append.mp member with old | fresh
      · exact more.subset (sound.arrived name other addresses found message old isBatch)
      · refine arrived message ?_ isBatch
        rw [dispatchedAt, found]
        dsimp only
        rw [← whole, List.drop_left]
        exact fresh
    · rw [others sender here] at member
      exact more.subset (sound.arrived sender other addresses found message member isBatch)

theorem Sound.accept (sound : cluster.Sound s) (name : PublicKey) (bytes : List UInt8) :
    cluster.Sound (Function.update s name ((s name).accept bytes)) := by
  refine sound.update ((sound.keeps name).accept bytes) rfl ?_
  rcases (s name).accept_cases bytes with ⟨-, more⟩ | ⟨-, same⟩
  · rw [more]
    exact List.subset_append_left _ _
  · rw [same]
    exact List.Subset.refl _

/-- **An event keeps what is known of the cluster.** -/
theorem Sound.advance (sound : cluster.Sound s) {event : Event} (allowed : cluster.Allowed event) :
    cluster.Sound (cluster.advance s event) := by
  cases event with
  | sending name event => exact sound.send name allowed
  | message name bytes => exact sound.accept name bytes
  | processOwn name =>
      have same : ((s name).processOwn (cluster.worker name)).sending = (s name).sending ∧
          ((s name).processOwn (cluster.worker name)).receiving = (s name).receiving := by
        unfold Node.processOwn
        split <;> exact ⟨rfl, rfl⟩
      exact sound.update (sound.keeps name).processOwn same.1 (same.2 ▸ List.Subset.refl _)
  | processOthers name =>
      have same : ((s name).processOthers (cluster.worker name)).sending = (s name).sending ∧
          ((s name).processOthers (cluster.worker name)).receiving = (s name).receiving := by
        unfold Node.processOthers
        split <;> exact ⟨rfl, rfl⟩
      exact sound.update (sound.keeps name).processOthers same.1 (same.2 ▸ List.Subset.refl _)
  | help name fails =>
      have same : ((s name).help (cluster.worker name) fails).sending = (s name).sending ∧
          ((s name).help (cluster.worker name) fails).receiving = (s name).receiving := by
        unfold Node.help
        split <;> exact ⟨rfl, rfl⟩
      exact sound.update ((sound.keeps name).help fails) same.1 (same.2 ▸ List.Subset.refl _)
  | reply helper number name =>
      simp only [Cluster.advance]
      split
      · split
        · exact sound.accept name _
        · exact sound
      · exact sound

theorem sound_start (cluster : Cluster) : cluster.Sound fun _ => {} where
  sending _ := Dissemination.disseminates_run _ (fun _ none => absurd none List.not_mem_nil)
  keeps _ := Node.keeps_start _
  arrived _ _ _ _ _ member := absurd member List.not_mem_nil

theorem sound_run {events : List Event} (allowed : ∀ event ∈ events, cluster.Allowed event) :
    cluster.Sound (cluster.run events) := by
  have throughout : Throughout cluster.advance (fun _ => cluster.Allowed) (fun _ => {}) events :=
    .of_forall allowed _
  exact throughout.invariant cluster.Sound (sound_start cluster) fun _ _ sound allowed =>
    sound.advance allowed

/-- Reports are only added. -/
theorem txPrimary_advance (cluster : Cluster) (s : State) (event : Event) (other : PublicKey) :
    (s other).txPrimary <+: (cluster.advance s event other).txPrimary := by
  have accepts : ∀ (messages : List Message) (node : Node),
      (messages.foldl (fun node message => node.accept message.data) node).txPrimary =
        node.txPrimary := by
    intro messages
    induction messages with
    | nil => exact fun _ => rfl
    | cons message messages ih => exact fun node => ih (node.accept message.data)
  have updates : ∀ (name : PublicKey) (node : Node), (s name).txPrimary <+: node.txPrimary →
      (s other).txPrimary <+: (Function.update s name node other).txPrimary := by
    intro name node more
    by_cases here : other = name
    · subst here
      rw [Function.update_self]
      exact more
    · exact (Function.update_of_ne here node s).symm ▸ List.prefix_rfl
  cases event with
  | sending name event =>
      unfold Cluster.advance
      dsimp only
      rw [accepts]
      exact updates name _ List.prefix_rfl
  | message name bytes => exact updates name _ List.prefix_rfl
  | processOwn name =>
      refine updates name _ ?_
      unfold Node.processOwn
      split
      · exact List.prefix_rfl
      · exact List.prefix_append _ _
  | processOthers name =>
      refine updates name _ ?_
      unfold Node.processOthers
      split
      · exact List.prefix_rfl
      · exact List.prefix_append _ _
  | help name fails =>
      refine updates name _ ?_
      unfold Node.help
      split <;> exact List.prefix_rfl
  | reply helper number name =>
      have step : cluster.advance s (.reply helper number name) = s ∨ ∃ bytes,
          cluster.advance s (.reply helper number name) =
            Function.update s name ((s name).accept bytes) := by
        simp only [Cluster.advance]
        split
        · split
          · exact .inr ⟨_, rfl⟩
          · exact .inl rfl
        · exact .inl rfl
      rcases step with same | ⟨bytes, arrived⟩
      · rw [same]
      · rw [arrived]
        exact updates name _ List.prefix_rfl

/-- The batches that were passed on were sealed. -/
theorem Sound.exists_sealed (sound : cluster.Sound s) {name : PublicKey} {batch : List UInt8}
    (passed : batch ∈ (s name).sending.txBatch) :
    ∃ transactions ∈ (s name).sending.maker.sealed,
      Dissemination.serialized transactions = batch := by
  obtain ⟨waits, sealed⟩ := sound.sending name
  have inside := ((List.take_sublist _ _).map _).subset (waits.order.subset passed)
  rw [sealed] at inside
  exact List.mem_map.mp inside

/-- The messages for the batches that a worker has sealed. -/
def sealedMessages (node : Node) : Set WorkerMessage :=
  {message | ∃ batch ∈ node.sending.maker.sealed, message = .batch batch}

/-- Whatever is in the store is a batch. -/
theorem Sound.isBatch (sound : cluster.Sound s) {name : PublicKey}
    (readsBack : Bincode.ReadsBack (sealedMessages (s name))) {digest : Digest} {batch : List UInt8}
    (found : HashMap.get (s name).store digest = some batch) : IsBatch batch := by
  rcases ((sound.keeps name).content digest batch found).2 with passed | queued
  · obtain ⟨transactions, made, rfl⟩ := sound.exists_sealed passed
    exact ⟨transactions, readsBack _ ⟨transactions, made, rfl⟩⟩
  · exact (sound.keeps name).queued batch queued

/-! ## Reported batches -/

/-- A batch is held by a worker: it is stored, or it waits in the channel of the Processor. -/
def Holds (s : State) (name : PublicKey) (batch : List UInt8) : Prop :=
  (s name).Stores (Primitives.sha512 batch) ∨
    batch ∈ (s name).receiving.txProcessor.drop (s name).processedOthers

/-- A batch was sealed by a worker, is in its store and is held by a quorum: by every worker of the
quorum that follows the protocol. -/
structure HeldByQuorum (cluster : Cluster) (s : State) (name : PublicKey) (batch : List UInt8) :
    Prop where
  sealed : ∃ transactions ∈ (s name).sending.maker.sealed, Dissemination.serialized transactions = batch
  stored : (s name).Stores (Primitives.sha512 batch)
  quorum : ∃ holders : List PublicKey, holders.Nodup ∧ name ∈ holders ∧
    cluster.committee.quorumThreshold.toNat ≤
      (holders.map fun other => (cluster.committee.stake other).toNat).sum ∧
    ∀ other ∈ holders, other ∈ cluster.correct ∨ other = name → Holds s other batch

/-- What a report of a worker says. -/
def Backed (cluster : Cluster) (s : State) (name : PublicKey) : WorkerPrimaryMessage → Prop
  | .ourBatch digest workerId => workerId = cluster.id ∧
      ∃ batch, Primitives.sha512 batch = digest ∧ cluster.HeldByQuorum s name batch
  | .othersBatch digest workerId => workerId = cluster.id ∧ (s name).Stores digest

/-- **What a worker reports is so.** -/
theorem Sound.backed (sound : cluster.Sound s) {name : PublicKey}
    (readsBack : Bincode.ReadsBack (sealedMessages (s name))) {message : WorkerPrimaryMessage}
    (reported : message ∈ (s name).txPrimary) : cluster.Backed s name message := by
  have keeps := sound.keeps
  cases message with
  | ourBatch digest workerId =>
      have report : (digest, workerId) ∈ (s name).txPrimary.filterMap WorkerPrimaryMessage.ours :=
        List.mem_filterMap.mpr ⟨_, reported, rfl⟩
      rw [(keeps name).reportsOwn] at report
      obtain ⟨batch, taken, same⟩ := List.mem_map.mp report
      obtain ⟨rfl, rfl⟩ := Prod.mk.inj same
      have stored := (keeps name).storesOwn batch taken
      have passed := (List.take_subset _ _) taken
      obtain ⟨waits, -⟩ := sound.sending name
      obtain ⟨transactions, made, rfl⟩ := sound.exists_sealed passed
      have isBatch : IsBatch (Dissemination.serialized transactions) :=
        ⟨transactions, readsBack _ ⟨transactions, made, rfl⟩⟩
      refine ⟨rfl, _, rfl, ⟨transactions, made, rfl⟩, stored, ?_⟩
      obtain ⟨message, member, same, certified⟩ := waits.quorum _ passed
      obtain ⟨names, nodup, other, enough, held⟩ :=
        certified.backed (waits.sent message member) waits.sound
      rw [same] at held
      refine ⟨name :: names, List.nodup_cons.mpr ⟨other, nodup⟩, List.mem_cons_self .., ?_,
        fun holder inside who => ?_⟩
      · rw [List.map_cons, List.sum_cons]
        exact enough
      · rcases List.mem_cons.mp inside with rfl | among
        · exact .inl stored
        · have correct : holder ∈ cluster.correct :=
            who.resolve_right fun same => other (same ▸ among)
          obtain ⟨addresses, found, dispatched⟩ := held holder among
          obtain ⟨heard, there, data⟩ := dispatched ⟨holder, correct, addresses, found, rfl⟩
          have queued := sound.arrived name holder addresses found heard there (data ▸ isBatch)
          rw [data, ← List.take_append_drop (s holder).processedOthers
            (s holder).receiving.txProcessor] at queued
          rcases List.mem_append.mp queued with done | waiting
          · exact .inl ((keeps holder).storesOthers _ done)
          · exact .inr waiting
  | othersBatch digest workerId => exact (keeps name).reported_stored reported

/-- **A batch that a worker reports is held by a quorum.** In every run, with any failures of the links and
any behaviour of the workers that do not follow the protocol, each report of an own batch is for a batch
that the worker has sealed and stored, and that a quorum holds. What it reports of others is in its
store, too. -/
theorem reported_held {events : List Event} (allowed : ∀ event ∈ events, cluster.Allowed event)
    (name : PublicKey)
    (readsBack : Bincode.ReadsBack (sealedMessages (cluster.run events name))) :
    (∀ digest workerId, .ourBatch digest workerId ∈ (cluster.run events name).txPrimary →
        workerId = cluster.id ∧ ∃ batch, Primitives.sha512 batch = digest ∧
          cluster.HeldByQuorum (cluster.run events) name batch) ∧
      ∀ digest workerId, .othersBatch digest workerId ∈ (cluster.run events name).txPrimary →
        workerId = cluster.id ∧ (cluster.run events name).Stores digest := by
  have sound := sound_run allowed
  exact ⟨fun _ _ reported => sound.backed readsBack reported,
    fun _ _ reported => sound.backed readsBack reported⟩

/-! ## Fetching a batch -/

/-- What it takes to fetch a batch: the request arrives, the Helper answers without a failure, an answer
arrives, and the Processor runs. -/
inductive Fetches (digest : Digest) (helper name : PublicKey) : Event → Prop where
  | request : Fetches digest helper name
      (.message helper (Bincode.serialize (WorkerMessage.batchRequest [digest] name)))
  | help : Fetches digest helper name (.help helper fun _ => false)
  | reply (number : ℕ) : Fetches digest helper name (.reply helper number name)
  | process : Fetches digest helper name (.processOthers name)

section Fetching

variable {digest : Digest} {helper name : PublicKey}

/-- One of the states of a worker in the course of some events. -/
theorem leads_update {node node' : Node} {event : Event} (allowed : Fetches digest helper name event)
    {other : PublicKey}
    (steps : cluster.advance (Function.update s other node) event = Function.update s other node') :
    Leads cluster.advance (Fetches digest helper name) (Function.update s other node)
      (Function.update s other node') := steps ▸ .single allowed

/-- **The Helper gets to every request.** -/
theorem leads_to_help (cluster : Cluster) (digest : Digest) (s : State) (helper name : PublicKey)
    (node : Node) {k : ℕ} {request : List Digest × PublicKey}
    (queued : node.receiving.txHelper[k]? = some request) (later : node.helped ≤ k) :
    ∃ node', Leads cluster.advance (Fetches digest helper name) (Function.update s helper node)
        (Function.update s helper node') ∧
      (Worker.Helper.mk cluster.id cluster.committee).reply
        (fun digest => .ok (HashMap.get node.store digest)) request ⊆ node'.replies := by
  have helps : ∀ node : Node, cluster.advance (Function.update s helper node)
      (.help helper fun _ => false) =
        Function.update s helper (node.help (cluster.worker helper) fun _ => false) := by
    intro node
    show Function.update (Function.update s helper node) helper _ = _
    rw [Function.update_self, Function.update_idem]
  have answers : ∀ next : Node, next.receiving = node.receiving → next.helped ≤ k →
      ∃ request', node.receiving.txHelper[next.helped]? = some request' ∧
        next.help (cluster.worker helper) (fun _ => false) =
          { next with
            helped := next.helped + 1
            replies := next.replies ++ (Worker.Helper.mk cluster.id cluster.committee).reply
              (fun digest => .ok (HashMap.get next.store digest)) request' } := by
    intro next same before
    have inside := (List.getElem?_eq_some_iff.mp queued).1
    obtain ⟨request', here⟩ : ∃ request', node.receiving.txHelper[next.helped]? = some request' :=
      ⟨_, List.getElem?_eq_getElem (before.trans_lt inside)⟩
    refine ⟨request', here, ?_⟩
    unfold Node.help
    rw [same, here]
    rfl
  -- the requests before it are answered one after the other
  have reaches := @leads_to_zero _ _ cluster.advance (Fetches digest helper name)
    (fun t => ∃ next : Node, t = Function.update s helper next ∧ next.store = node.store ∧
      next.receiving = node.receiving ∧ next.helped ≤ k)
    (fun t => k - (t helper).helped)
  obtain ⟨t, leads, ⟨next, rfl, store, receiving, few⟩, all⟩ := reaches (by
    rintro - ⟨next, rfl, store, receiving, few⟩ before
    rw [Function.update_self] at before
    obtain ⟨request', -, helped⟩ := answers next receiving few
    refine ⟨_, leads_update .help (helps next), ⟨_, rfl, ?_, ?_, ?_⟩, ?_⟩
    · rw [helped]
      exact store
    · rw [helped]
      exact receiving
    · rw [helped]
      show next.helped + 1 ≤ k
      omega
    · rw [Function.update_self, Function.update_self, helped]
      show k - (next.helped + 1) < k - next.helped
      omega) _ ⟨node, rfl, rfl, rfl, later⟩
  rw [Function.update_self] at all
  have last : next.helped = k := by omega
  obtain ⟨request', here, helped⟩ := answers next receiving few
  rw [last, queued] at here
  obtain rfl := Option.some.inj here
  refine ⟨_, leads.trans (leads_update .help (helps next)), ?_⟩
  rw [helped, store]
  exact List.subset_append_right _ _

/-- **The Processor gets to every batch.** -/
theorem leads_to_process (cluster : Cluster) (digest : Digest) (s : State) (helper name : PublicKey)
    (node : Node) {k : ℕ} {batch : List UInt8}
    (queued : node.receiving.txProcessor[k]? = some batch) (later : node.processedOthers ≤ k) :
    ∃ node', Leads cluster.advance (Fetches digest helper name) (Function.update s name node)
        (Function.update s name node') ∧ node'.Stores (Primitives.sha512 batch) := by
  have processes : ∀ node : Node, cluster.advance (Function.update s name node) (.processOthers name) =
      Function.update s name (node.processOthers (cluster.worker name)) := by
    intro node
    show Function.update (Function.update s name node) name _ = _
    rw [Function.update_self, Function.update_idem]
  have takes : ∀ next : Node, next.receiving = node.receiving → next.processedOthers ≤ k →
      ∃ batch', node.receiving.txProcessor[next.processedOthers]? = some batch' ∧
        (next.processOthers (cluster.worker name)).receiving = next.receiving ∧
        (next.processOthers (cluster.worker name)).processedOthers = next.processedOthers + 1 ∧
        (next.processOthers (cluster.worker name)).Stores (Primitives.sha512 batch') := by
    intro next same before
    have inside := (List.getElem?_eq_some_iff.mp queued).1
    obtain ⟨batch', here⟩ : ∃ batch',
        node.receiving.txProcessor[next.processedOthers]? = some batch' :=
      ⟨_, List.getElem?_eq_getElem (before.trans_lt inside)⟩
    refine ⟨batch', here, ?_⟩
    unfold Node.processOthers
    rw [same, here]
    refine ⟨rfl, rfl, ?_⟩
    show (HashMap.get (HashMap.insert next.store _ batch') _).isSome = true
    rw [HashMap.get_insert, if_pos rfl]
    rfl
  -- the batches before it are processed one after the other
  have reaches := @leads_to_zero _ _ cluster.advance (Fetches digest helper name)
    (fun t => ∃ next : Node, t = Function.update s name next ∧ next.receiving = node.receiving ∧
      next.processedOthers ≤ k)
    (fun t => k - (t name).processedOthers)
  obtain ⟨t, leads, ⟨next, rfl, receiving, few⟩, all⟩ := reaches (by
    rintro - ⟨next, rfl, receiving, few⟩ before
    rw [Function.update_self] at before
    obtain ⟨batch', -, same, more, -⟩ := takes next receiving few
    refine ⟨_, leads_update .process (processes next), ⟨_, rfl, same.trans receiving, ?_⟩, ?_⟩
    · rw [more]
      omega
    · rw [Function.update_self, Function.update_self, more]
      omega) _ ⟨node, rfl, rfl, later⟩
  rw [Function.update_self] at all
  have last : next.processedOthers = k := by omega
  obtain ⟨batch', here, -, -, stores⟩ := takes next receiving few
  rw [last, queued] at here
  obtain rfl := Option.some.inj here
  exact ⟨_, leads.trans (leads_update .process (processes next)), stores⟩

/-- **A batch that is stored can be fetched.** After any run, when a worker has a batch in its store, any
worker of the committee that requests it gets it: the request, an answer of the Helper and passes of the
two tasks bring it into the store under the same digest. -/
theorem retrievable {events : List Event} (allowed : ∀ event ∈ events, cluster.Allowed event)
    (stored : (cluster.run events helper).Stores digest) {addresses : WorkerAddresses}
    (found : cluster.committee.worker name cluster.id = .ok addresses)
    (readsBack : Bincode.ReadsBack
      (insert (.batchRequest [digest] name) (sealedMessages (cluster.run events helper)))) :
    ∃ more, (∀ event ∈ more, Fetches digest helper name event) ∧
      (cluster.run (events ++ more) name).Stores digest := by
  have sound := sound_run allowed
  suffices fetched : ∃ t, Leads cluster.advance (Fetches digest helper name) (cluster.run events) t ∧
      (t name).Stores digest by
    obtain ⟨t, leads, stores⟩ := fetched
    obtain ⟨more, fetches, rfl⟩ := leads.exists_events
    refine ⟨more, fetches, ?_⟩
    rw [run, List.foldl_append]
    exact stores
  generalize cluster.run events = s at sound stored readsBack
  by_cases same : helper = name
  · exact ⟨s, .refl, same ▸ stored⟩
  obtain ⟨batch, inside⟩ := Option.isSome_iff_exists.mp stored
  obtain ⟨rfl, -⟩ := (sound.keeps helper).content digest batch inside
  have isBatch := sound.isBatch (fun message member => readsBack message (.inr member)) inside
  -- the request arrives at the Helper
  let asked := (s helper).accept
    (Bincode.serialize (WorkerMessage.batchRequest [Primitives.sha512 batch] name))
  have requested : asked.receiving.txHelper =
      (s helper).receiving.txHelper ++ [([Primitives.sha512 batch], name)] := by
    simp only [asked, Node.accept, workerReceiverHandler, readsBack _ (.inl rfl)]
  have arrives : Leads cluster.advance (Fetches (Primitives.sha512 batch) helper name) s
      (Function.update s helper asked) := Relation.ReflTransGen.single ⟨_, Fetches.request, rfl⟩
  -- it is answered
  obtain ⟨node, helps, replies⟩ := leads_to_help cluster (Primitives.sha512 batch) s helper name
    asked (by rw [requested, List.getElem?_concat_length]) (sound.keeps helper).helped
  have answer : (addresses.workerToWorker, batch) ∈ node.replies :=
    replies (Node.mem_reply.mpr ⟨⟨addresses, found, rfl⟩, _, List.mem_singleton_self _,
      congrArg Except.ok inside⟩)
  obtain ⟨number, sent⟩ := List.mem_iff_getElem?.mp answer
  -- the answer arrives, and is processed
  have replied : cluster.advance (Function.update s helper node) (.reply helper number name) =
      Function.update (Function.update s helper node) name ((s name).accept batch) := by
    simp only [Cluster.advance, Function.update_self, sent, found, if_true,
      Function.update_of_ne (Ne.symm same)]
  have more : ((s name).accept batch).receiving.txProcessor =
      (s name).receiving.txProcessor ++ [batch] := by
    rcases (s name).accept_cases batch with ⟨-, more⟩ | ⟨none, -⟩
    · exact more
    · exact absurd isBatch none
  obtain ⟨node', processes, stores⟩ := leads_to_process cluster (Primitives.sha512 batch)
    (Function.update s helper node) helper name ((s name).accept batch)
    (by rw [more, List.getElem?_concat_length]) (sound.keeps name).others
  have arrived : Leads cluster.advance (Fetches (Primitives.sha512 batch) helper name)
      (Function.update s helper node)
      (Function.update (Function.update s helper node) name ((s name).accept batch)) :=
    Relation.ReflTransGen.single ⟨_, Fetches.reply number, replied⟩
  refine ⟨_, ((arrives.trans helps).trans arrived).trans processes, ?_⟩
  rw [Function.update_self]
  exact stores

end Fetching

end Machine

/-! ## A batch that is reported, and fetched by a worker that missed it -/

section FourWorkers

local instance clusterSign : Primitives := executable fun _ _ => true

local instance clusterBincode : Bincode WorkerMessage := executableBincode

/-- Four workers, of which the third one does not follow the protocol. -/
def fourWorkers : Cluster where
  committee := Dissemination.firstWorker.committee
  id := 0
  batchSize := 1
  benchmark := false
  correct := {⟨1⟩, ⟨2⟩, ⟨4⟩}

/-- The first worker reports a batch. The second one has it, and the fourth one has not. -/
def reportedOnce : List Event :=
  Dissemination.acknowledgedTwice.map (.sending ⟨1⟩) ++ [.processOwn ⟨1⟩, .processOthers ⟨2⟩]

theorem reportedOnce_allowed : ∀ event ∈ reportedOnce, fourWorkers.Allowed event := by
  have others : ∀ name ∈ fourWorkers.correct,
      (fourWorkers.committee.worker name fourWorkers.id).toOption.map WorkerAddresses.workerToWorker ≠
        some ⟨3, 3⟩ := by
    decide +kernel
  have dishonest : (⟨3, 3⟩ : SocketAddr) ∉ fourWorkers.honest := by
    rintro ⟨name, correct, addresses, found, same⟩
    refine others name correct ?_
    rw [found, ← same]
    rfl
  simp [reportedOnce, Dissemination.acknowledgedTwice, Dissemination.reaches, Allowed,
    Dissemination.Allowed, dishonest]

theorem reported_held_reportedOnce :
    (∀ digest workerId, .ourBatch digest workerId ∈ (fourWorkers.run reportedOnce ⟨1⟩).txPrimary →
        workerId = fourWorkers.id ∧ ∃ batch, Primitives.sha512 batch = digest ∧
          fourWorkers.HeldByQuorum (fourWorkers.run reportedOnce) ⟨1⟩ batch) ∧
      ∀ digest workerId, .othersBatch digest workerId ∈ (fourWorkers.run reportedOnce ⟨1⟩).txPrimary →
        workerId = fourWorkers.id ∧ (fourWorkers.run reportedOnce ⟨1⟩).Stores digest := by
  refine reported_held reportedOnce_allowed ⟨1⟩ ?_
  have only : (fourWorkers.run reportedOnce ⟨1⟩).sending.maker.sealed = [[[7]]] := by decide +kernel
  rintro - ⟨batch, sealed, rfl⟩
  rw [only, List.mem_singleton] at sealed
  subst sealed
  decide +kernel

/-- The batch was reported. -/
example : (fourWorkers.run reportedOnce ⟨1⟩).txPrimary =
    [.ourBatch (digitHash (messageBytes (.batch [[7]]))) 0] := by decide +kernel

theorem retrievable_reportedOnce :
    ∃ more, (∀ event ∈ more, Fetches (digitHash (messageBytes (.batch [[7]]))) ⟨2⟩ ⟨4⟩ event) ∧
      (fourWorkers.run (reportedOnce ++ more) ⟨4⟩).Stores (digitHash (messageBytes (.batch [[7]]))) := by
  have address : fourWorkers.committee.worker ⟨4⟩ fourWorkers.id =
      .ok ⟨⟨4, 2⟩, ⟨4, 3⟩, ⟨4, 4⟩⟩ := rfl
  refine retrievable reportedOnce_allowed (by decide +kernel) address ?_
  have nothing : (fourWorkers.run reportedOnce ⟨2⟩).sending.maker.sealed = [] := by decide +kernel
  rintro - (rfl | ⟨batch, sealed, rfl⟩)
  · decide +kernel
  · rw [nothing] at sealed
    exact absurd sealed List.not_mem_nil

end FourWorkers

end Cluster

end Tusk
