import Tusk.Worker.QuorumWaiter
import Tusk.Worker.Receivers

/-!
# The dissemination of batches

A worker broadcasts every batch it seals to the workers with the same id of all other authorities, over
reliable links. The QuorumWaiter takes the batches in this order, and waits for the acknowledgements of
one batch at a time. When it has enough it passes the batch on to the Processor of the worker, and drops
the handlers that are left.

A handler that resolves with an error counts like one that resolves with an acknowledgement. But the
reliable sender never gives up a message whose handler is there, so the handlers that the QuorumWaiter
awaits resolve with acknowledgements only. `passed_on_by_quorum` says that a batch that is passed on was
acknowledged by a quorum, and was dispatched by every worker of these that follows the protocol.
-/

set_option autoImplicit false

namespace Tusk

open Lib ReliableSender

/-! ## What is broadcast -/

namespace BatchMaker

variable {maker : BatchMaker} {s t : State}

/-- Some batches were sealed, and broadcast to the same workers. -/
structure Broadcasts (maker : BatchMaker) (s t : State) (new : List Batch) : Prop where
  network : t.network = s.network ++ new.map (maker.workersAddresses.map Prod.snd, ·)
  txMessage : t.txMessage = s.txMessage ++ new.map (⟨·, maker.workersAddresses.map Prod.fst⟩)

theorem broadcasts_sealBatch (maker : BatchMaker) (s : State) :
    ∃ new, Broadcasts maker s (maker.sealBatch s) new := by
  unfold sealBatch
  split
  · exact ⟨[], (List.append_nil _).symm, (List.append_nil _).symm⟩
  · exact ⟨[s.currentBatch], rfl, rfl⟩

/-- Nothing is broadcast. -/
theorem broadcasts_nothing (network : t.network = s.network) (txMessage : t.txMessage = s.txMessage) :
    ∃ new, Broadcasts maker s t new :=
  ⟨[], by simpa using network, by simpa using txMessage⟩

theorem broadcasts_seeChange : ∃ new, Broadcasts maker s s.seeChange new := by
  unfold State.seeChange
  dsimp only
  split <;> exact broadcasts_nothing rfl rfl

theorem broadcasts_poll (maker : BatchMaker) (s : State) :
    ∃ new, Broadcasts maker s (maker.poll s) new := by
  unfold BatchMaker.poll
  split
  · unfold pollSilent
    split
    · exact broadcasts_seeChange
    · split <;> exact broadcasts_nothing rfl rfl
  · unfold pollSelect
    split
    · exact broadcasts_seeChange
    · split
      · exact broadcasts_nothing rfl rfl
      · split
        · unfold assemble
          dsimp only
          split
          · obtain ⟨new, network, txMessage⟩ := broadcasts_sealBatch maker _
            exact ⟨new, network, txMessage⟩
          · exact broadcasts_nothing rfl rfl
        · split
          · split
            · exact broadcasts_nothing rfl rfl
            · obtain ⟨new, network, txMessage⟩ := broadcasts_sealBatch maker _
              exact ⟨new, network, txMessage⟩
          · exact broadcasts_nothing rfl rfl

/-- An event has sealed batches broadcast, and nothing else. -/
theorem broadcasts_advance (maker : BatchMaker) (s : State) (event : Event) :
    ∃ new, Broadcasts maker s (maker.advance s event) new := by
  unfold BatchMaker.advance
  split
  · cases event with
    | poll => exact broadcasts_poll maker s
    | _ => exact broadcasts_nothing rfl rfl
  · exact broadcasts_nothing rfl rfl
  · exact broadcasts_nothing rfl rfl

end BatchMaker

/-! ## What a sender keeps -/

namespace ReliableSender

namespace Connection

/-- What was submitted and what was acknowledged stays so. -/
structure Grows (s t : Connection) : Prop where
  submitted : s.submitted <+: t.submitted
  acked : s.acked <+: t.acked

variable {s t u : Connection}

theorem Grows.refl (s : Connection) : Grows s s := ⟨List.prefix_rfl, List.prefix_rfl⟩

theorem Grows.trans (first : Grows s t) (second : Grows t u) : Grows s u :=
  ⟨first.submitted.trans second.submitted, first.acked.trans second.acked⟩

theorem grows_advance (s : Connection) (event : Event) : Grows s (s.advance event) := by
  have steps := s.steps event
  refine ⟨steps.submitted_prefix, ?_⟩
  generalize s.advance event = t at steps
  cases steps with
  | notify => exact List.prefix_append _ _
  | receive =>
      unfold Connection.receive
      dsimp only
      split <;> exact List.prefix_rfl
  | _ => exact List.prefix_rfl

end Connection

theorem Link.grows_advance {η : Type*} (handler : MessageHandler η) (s : Link η)
    (event : Link.Event) : s.sender.Grows (s.advance handler event).sender := by
  cases event with
  | submit data => exact s.sender.grows_advance (.submit data)
  | close id => exact s.sender.grows_advance (.close id)
  | connect succeeds => exact s.sender.grows_advance (.connect succeeds)
  | timer => exact s.sender.grows_advance .timer
  | receive => exact s.sender.grows_advance .receive
  | send succeeds => exact s.sender.grows_advance (.send succeeds)
  | frame number =>
      rw [Link.advance]
      unfold Link.read
      dsimp only
      split
      · exact .refl _
      · split <;> exact .refl _
  | sever number => exact (sender_disturb s number _).symm ▸ .refl _
  | shut number => exact (sender_disturb s number _).symm ▸ .refl _
  | response =>
      rw [Link.advance]
      unfold Link.respond
      split
      · exact .refl _
      · exact s.sender.grows_advance (.response _)
  | fail => exact s.sender.grows_advance (.response none)

end ReliableSender

/-! ## The sending side of a worker -/

/-- A worker: what does not change during a run. -/
structure Worker where
  /-- The public key of this authority. -/
  name : PublicKey
  /-- The id of this worker. -/
  id : WorkerId
  /-- The committee information. -/
  committee : Committee
  /-- The preferred batch size (in bytes). -/
  batchSize : ℕ
  /-- Whether this is the build with the `benchmark` feature. -/
  benchmark : Bool

namespace Worker

variable (worker : Worker)

/-- The other workers that share our id, with their addresses. -/
def others : List (PublicKey × SocketAddr) :=
  (worker.committee.othersWorkers worker.name worker.id).map fun entry =>
    (entry.1, entry.2.workerToWorker)

/-- The transactions are sent to the `BatchMaker`. -/
def batchMaker : BatchMaker where
  batchSize := worker.batchSize
  workersAddresses := worker.others
  benchmark := worker.benchmark

/-- The `QuorumWaiter` waits for 2f authorities to acknowledge reception of the batch. -/
def quorumWaiter : QuorumWaiter where
  committee := worker.committee
  stake := worker.committee.stake worker.name

/-- The authorities that have another worker with our id. -/
def names : List PublicKey := worker.others.map Prod.fst

variable {worker}

theorem mem_others {name : PublicKey} {address : SocketAddr} : (name, address) ∈ worker.others ↔
    name ≠ worker.name ∧ ∃ addresses, worker.committee.worker name worker.id = .ok addresses ∧
      addresses.workerToWorker = address := by
  simp only [others, List.mem_map, Prod.exists, Prod.mk.injEq, Committee.mem_othersWorkers]
  constructor
  · rintro ⟨_, addresses, ⟨different, found⟩, rfl, rfl⟩
    exact ⟨different, addresses, found, rfl⟩
  · rintro ⟨different, addresses, found, rfl⟩
    exact ⟨name, addresses, ⟨different, found⟩, rfl, rfl⟩

theorem names_nodup : worker.names.Nodup := by
  have entries : ((worker.committee.authorities.entries.filter fun entry =>
      decide (entry.1 ≠ worker.name)).map Prod.fst).Nodup :=
    worker.committee.authorities.keys_nodup.sublist (List.filter_sublist.map _)
  have filtered : ∀ entries : List (PublicKey × Authority), ((entries.filterMap fun entry =>
      (HashMap.get entry.2.workers worker.id).map fun addresses => (entry.1, addresses)).map
        Prod.fst).Sublist (entries.map Prod.fst) := by
    intro entries
    induction entries with
    | nil => exact .refl _
    | cons entry entries ih =>
        rw [List.filterMap_cons]
        cases HashMap.get entry.2.workers worker.id with
        | none => exact ih.cons _
        | some addresses => exact ih.cons_cons _
  have same : worker.names =
      (worker.committee.othersWorkers worker.name worker.id).map Prod.fst := by
    rw [names, others, List.map_map]
    rfl
  rw [same]
  exact entries.sublist (filtered _)

theorem not_mem_names : worker.name ∉ worker.names := by
  intro member
  obtain ⟨⟨name, address⟩, inside, same⟩ := List.mem_map.mp member
  exact (mem_others.mp inside).1 same

end Worker

namespace Dissemination

/-- The handler of a message that was sent: the link, and the number of the message. -/
structure CancelHandler where
  address : SocketAddr
  id : ℕ
deriving DecidableEq

/-- What the QuorumWaiter is sent: a serialized batch, and the handlers of its messages. -/
structure Broadcast where
  batch : List UInt8
  handlers : List (PublicKey × CancelHandler)

/-- The other end of a link, as far as the sender is concerned. -/
def peer : MessageHandler Unit where
  dispatch _ _ := { state := (), responses := [ackBytes] }

/-- The links of a worker to the others. -/
abbrev Links : Type := SocketAddr → Link Unit

/-- The tasks that send batches, and their links. The channels are histories. -/
structure State where
  maker : BatchMaker.State
  links : Links := fun _ => { state := () }
  /-- What the QuorumWaiter was sent, and for how many batches it has stopped waiting. -/
  rxMessage : List Broadcast := []
  finished : ℕ := 0
  /-- The batch that it waits for. -/
  current : Option (Broadcast × QuorumWaiter.Waiting) := none
  /-- The batches that were passed on to the Processor. -/
  txBatch : List (List UInt8) := []

/-- What happens at the tasks and on the links. -/
inductive Event where
  | maker (event : BatchMaker.Event)
  | link (address : SocketAddr) (event : Link.Event) (quiet : Link.Quiet event)
  /-- A worker that does not follow the protocol sends a response. -/
  | forge (address : SocketAddr) (bytes : List UInt8)
  /-- The QuorumWaiter takes the next batch. -/
  | take
  /-- A handler resolves. -/
  | resolve (name : PublicKey)

/-- Responses are not sent in the place of the workers at these addresses. -/
def Allowed (honest : Set SocketAddr) : Event → Prop
  | .forge address _ => address ∉ honest
  | _ => True

/-- Something happens on a link. -/
def Links.advance (links : Links) (address : SocketAddr) (event : Link.Event) : Links :=
  Function.update links address ((links address).advance peer event)

/-- `ReliableSender::send`. -/
def Links.send (links : Links) (address : SocketAddr) (data : List UInt8) : Links × CancelHandler :=
  (links.advance address (.submit data), ⟨address, (links address).sender.submitted.length⟩)

/-- `ReliableSender::broadcast`. -/
def Links.broadcast (links : Links) (data : List UInt8) :
    List SocketAddr → Links × List CancelHandler
  | [] => (links, [])
  | address :: addresses =>
      let (links, handler) := links.send address data
      let (links, handlers) := links.broadcast data addresses
      (links, handler :: handlers)

/-- A response is sent in the place of the worker at an address. -/
def Links.forge (links : Links) (address : SocketAddr) (bytes : List UInt8) : Links :=
  let link := links address
  let ack : Ack := ⟨link.sender.connection, link.sender.responses, bytes⟩
  let sender := link.sender.advance (.response (some ack))
  Function.update links address { link with sender := sender }

/-- Handlers are dropped. -/
def Links.abandon (links : Links) (handlers : List CancelHandler) : Links :=
  handlers.foldl (fun links handler => links.advance handler.address (.close handler.id)) links

/-- The message of a handler was acknowledged. -/
def Links.resolved (links : Links) (handler : CancelHandler) : Bool :=
  (links handler.address).sender.acked.any fun entry => decide (entry.1.id = handler.id)

section Machine

variable [Bincode WorkerMessage] (worker : Worker)

/-- The bytes of a batch. -/
def serialized (batch : Batch) : List UInt8 := Bincode.serialize (WorkerMessage.batch batch)

/-- Broadcast a batch, and send it with the handlers to the QuorumWaiter. -/
def deliver (s : State) (sealing : List SocketAddr × Batch) : State :=
  let (links, handlers) := s.links.broadcast (serialized sealing.2) sealing.1
  { s with
    links := links
    rxMessage := s.rxMessage ++ [⟨serialized sealing.2, worker.names.zip handlers⟩] }

/-- The QuorumWaiter takes the next batch. It does not wait without handlers. -/
def take (s : State) : State :=
  match s.current, s.rxMessage[s.finished]? with
  | none, some message =>
      let waiting := worker.quorumWaiter.start (message.handlers.map Prod.fst)
      if waiting.ended then
        { s with finished := s.finished + 1 }
      else
        { s with current := some (message, waiting) }
  | _, _ => s

/-- Whether a name is listed is decided with the order of the names. -/
local instance namesLawful : LawfulBEq PublicKey := inferInstance

/-- A handler resolves that is awaited. -/
def resolve (s : State) (name : PublicKey) : State :=
  match s.current with
  | none => s
  | some (message, waiting) =>
      if name ∈ waiting.waitForQuorum ∧
          ((message.handlers.lookup name).any s.links.resolved) = true then
        let waiting := worker.quorumWaiter.resolve message.batch waiting (name, true)
        if waiting.ended then
          { s with
            links := s.links.abandon
              ((message.handlers.filter fun entry => decide (entry.1 ∈ waiting.waitForQuorum)).map
                Prod.snd)
            finished := s.finished + 1
            current := none
            txBatch := s.txBatch ++ waiting.txBatch }
        else
          { s with current := some (message, waiting) }
      else s

/-- The state after an event. -/
def advance (s : State) : Event → State
  | .maker event =>
      let maker := worker.batchMaker.advance s.maker event
      (maker.network.drop s.maker.network.length).foldl (deliver worker) { s with maker := maker }
  | .link address event _ => { s with links := s.links.advance address event }
  | .forge address bytes => { s with links := s.links.forge address bytes }
  | .take => take worker s
  | .resolve name => resolve worker s name

/-- The state after a run. -/
def run (events : List Event) : State :=
  events.foldl (advance worker) { maker := { rxBatchSilent := (0, false) } }

theorem run_snoc (events : List Event) (event : Event) :
    run worker (events ++ [event]) = advance worker (run worker events) event := by
  rw [run, List.foldl_append]
  rfl

end Machine

/-! ## What the links keep -/

section Links

variable {honest : Set SocketAddr} {links links' links'' : Links}

theorem peer_acknowledges : peer.Acknowledges := fun _ _ => rfl

/-- Nothing on the links is forgotten, and both ends of those to honest workers stay in agreement. -/
structure Links.Leads (honest : Set SocketAddr) (links links' : Links) : Prop where
  grows : ∀ address, (links address).sender.Grows (links' address).sender
  dispatched : ∀ address, (links address).dispatched <+: (links' address).dispatched
  sound : ∀ address ∈ honest, (links address).Sound → (links' address).Sound

theorem Links.Leads.refl (honest : Set SocketAddr) (links : Links) : links.Leads honest links :=
  ⟨fun _ => .refl _, fun _ => List.prefix_rfl, fun _ _ sound => sound⟩

theorem Links.Leads.trans (first : links.Leads honest links') (second : links'.Leads honest links'') :
    links.Leads honest links'' :=
  ⟨fun address => (first.grows address).trans (second.grows address),
    fun address => (first.dispatched address).trans (second.dispatched address),
    fun address member sound => second.sound address member (first.sound address member sound)⟩

/-- One link changes. -/
theorem Links.leads_update (links : Links) {address : SocketAddr} {link : Link Unit}
    (grows : (links address).sender.Grows link.sender)
    (dispatched : (links address).dispatched <+: link.dispatched)
    (sound : address ∈ honest → (links address).Sound → link.Sound) :
    links.Leads honest (Function.update links address link) := by
  refine ⟨fun other => ?_, fun other => ?_, fun other member before => ?_⟩
  · by_cases same : other = address
    · subst same
      rw [Function.update_self]
      exact grows
    · rw [Function.update_of_ne same]
      exact .refl _
  · by_cases same : other = address
    · subst same
      rw [Function.update_self]
      exact dispatched
    · rw [Function.update_of_ne same]
  · by_cases same : other = address
    · subst same
      rw [Function.update_self]
      exact sound member before
    · rw [Function.update_of_ne same]
      exact before

theorem Links.leads_advance (honest : Set SocketAddr) (links : Links) (address : SocketAddr)
    (event : Link.Event) : links.Leads honest (links.advance address event) := by
  refine links.leads_update (Link.grows_advance peer _ event) ?_ fun _ sound =>
    sound.advance peer_acknowledges event
  rcases Link.advance_cases peer (links address) event with ⟨-, same⟩ | ⟨_, -, -, -, -, -, more⟩
  · rw [same]
  · rw [more]
    exact List.prefix_append _ _

theorem Links.leads_abandon (honest : Set SocketAddr) (links : Links)
    (handlers : List CancelHandler) : links.Leads honest (links.abandon handlers) := by
  induction handlers generalizing links with
  | nil => exact .refl _ _
  | cons handler handlers ih => exact (links.leads_advance honest _ _).trans (ih _)

/-- The message of a handler is among those that were submitted. -/
def Links.Submitted (links : Links) (handler : CancelHandler) (data : List UInt8) : Prop :=
  (links handler.address).sender.submitted[handler.id]? = some ⟨handler.id, data⟩

theorem Links.Submitted.leads {handler : CancelHandler} {data : List UInt8}
    (submitted : links.Submitted handler data) (leads : links.Leads honest links') :
    links'.Submitted handler data := by
  obtain ⟨more, same⟩ := (leads.grows handler.address).submitted
  rw [Submitted, ← same, List.getElem?_append_left (List.getElem?_eq_some_iff.mp submitted).1]
  exact submitted

theorem Links.resolved_leads {handler : CancelHandler} (resolved : links.resolved handler = true)
    (leads : links.Leads honest links') : links'.resolved handler = true := by
  obtain ⟨more, same⟩ := (leads.grows handler.address).acked
  rw [Links.resolved, ← same, List.any_append, Bool.or_eq_true]
  exact .inl resolved

/-- Responses may be sent in the place of a worker that is not honest. -/
theorem leads_forge {address : SocketAddr} (dishonest : address ∉ honest) (bytes : List UInt8) :
    links.Leads honest (links.forge address bytes) :=
  links.leads_update ((links address).sender.grows_advance (.response _)) List.prefix_rfl
    fun inside => absurd inside dishonest

/-- **A broadcast submits its message** on the link of every address, in the order of the handlers. -/
theorem Links.broadcast_submits (honest : Set SocketAddr) (links : Links) (data : List UInt8)
    (addresses : List SocketAddr) :
    links.Leads honest (links.broadcast data addresses).1 ∧
      List.Forall₂ (fun address handler => handler.address = address ∧
        (links.broadcast data addresses).1.Submitted handler data)
        addresses (links.broadcast data addresses).2 := by
  induction addresses generalizing links with
  | nil => exact ⟨.refl _ _, .nil⟩
  | cons address addresses ih =>
      obtain ⟨leads, submitted⟩ := ih (links.advance address (.submit data))
      refine ⟨(links.leads_advance honest _ _).trans leads, .cons ⟨rfl, ?_⟩ submitted⟩
      refine Links.Submitted.leads ?_ leads
      show (Function.update links address _ address).sender.submitted[_]? = _
      rw [Function.update_self]
      exact List.getElem?_concat_length

/-- The acknowledgement of a message was sent by an honest worker after it had dispatched the message. -/
theorem Links.dispatched_of_resolved {handler : CancelHandler} {data : List UInt8}
    (sound : (links handler.address).Sound) (submitted : links.Submitted handler data)
    (resolved : links.resolved handler = true) :
    ⟨handler.id, data⟩ ∈ (links handler.address).dispatched := by
  obtain ⟨⟨message, ack⟩, member, same⟩ := List.any_eq_true.mp resolved
  have heard := sound.dispatched_of_acked member
  -- the number of a message is its place
  obtain ⟨i, found⟩ := List.mem_iff_getElem?.mp (sound.submitted_of_dispatched heard)
  obtain ⟨inside, -⟩ := List.getElem?_eq_some_iff.mp found
  have place := congrArg (fun ids => ids[i]?) sound.reliable.numbered
  simp only [List.getElem?_map, found, Option.map_some, List.getElem?_range inside,
    Option.some.injEq] at place
  rw [← place, of_decide_eq_true same, submitted] at found
  rw [Option.some.inj found]
  exact heard

end Links

/-! ## What the tasks keep -/

section Tasks

variable {worker : Worker} {honest : Set SocketAddr} {links links' : Links} {message : Broadcast}
  {s : State}

/-- The messages of a broadcast were submitted to the workers of the names. -/
structure Sent (worker : Worker) (links : Links) (message : Broadcast) : Prop where
  names : message.handlers.map Prod.fst = worker.names
  others : ∀ entry ∈ message.handlers, (entry.1, entry.2.address) ∈ worker.others
  submitted : ∀ entry ∈ message.handlers, links.Submitted entry.2 message.batch

theorem Sent.leads (sent : Sent worker links message) (leads : links.Leads honest links') :
    Sent worker links' message :=
  ⟨sent.names, sent.others, fun entry member => (sent.submitted entry member).leads leads⟩

/-- Some authorities have acknowledged a broadcast. -/
structure Acknowledged (worker : Worker) (links : Links) (message : Broadcast)
    (names : List PublicKey) : Prop where
  nodup : names.Nodup
  among : names ⊆ worker.names
  resolved : ∀ name ∈ names, ∃ handler, (name, handler) ∈ message.handlers ∧
    links.resolved handler = true

theorem Acknowledged.leads {names : List PublicKey}
    (acknowledged : Acknowledged worker links message names) (leads : links.Leads honest links') :
    Acknowledged worker links' message names := by
  refine ⟨acknowledged.nodup, acknowledged.among, fun name member => ?_⟩
  obtain ⟨handler, inside, resolved⟩ := acknowledged.resolved name member
  exact ⟨handler, inside, Links.resolved_leads resolved leads⟩

/-- The resolutions of the handlers of some authorities. -/
def acks (names : List PublicKey) : List QuorumWaiter.Resolution := names.map (·, true)

theorem map_fst_acks (names : List PublicKey) : (acks names).map Prod.fst = names := by
  simp [acks, Function.comp_def]

/-- A quorum has acknowledged a broadcast. -/
def Certified (worker : Worker) (links : Links) (message : Broadcast) : Prop :=
  ∃ names, Acknowledged worker links message names ∧
    worker.quorumWaiter.required ≤ worker.quorumWaiter.resolvedStake (acks names)

/-- What is known of the QuorumWaiter and of the links. -/
structure Waits (worker : Worker) (honest : Set SocketAddr) (s : State) : Prop where
  sound : ∀ address ∈ honest, (s.links address).Sound
  sent : ∀ message ∈ s.rxMessage, Sent worker s.links message
  current : ∀ entry, s.current = some entry → s.rxMessage[s.finished]? = some entry.1 ∧
    entry.2.ended = false ∧ ∃ names, Acknowledged worker s.links entry.1 names ∧
      entry.2 = worker.quorumWaiter.wait entry.1.batch worker.names (acks names)
  order : s.txBatch.Sublist ((s.rxMessage.take s.finished).map Broadcast.batch)
  quorum : ∀ batch ∈ s.txBatch, ∃ message ∈ s.rxMessage, message.batch = batch ∧
    Certified worker s.links message

/-- The links may change. -/
theorem Waits.leads (waits : Waits worker honest s) (leads : s.links.Leads honest links') :
    Waits worker honest { s with links := links' } := by
  refine ⟨fun address member => leads.sound address member (waits.sound address member),
    fun message member => (waits.sent message member).leads leads, fun entry here => ?_,
    waits.order, fun batch member => ?_⟩
  · obtain ⟨place, running, names, acknowledged, same⟩ := waits.current entry here
    exact ⟨place, running, names, acknowledged.leads leads, same⟩
  · obtain ⟨message, inside, same, names, acknowledged, enough⟩ := waits.quorum batch member
    exact ⟨message, inside, same, names, acknowledged.leads leads, enough⟩

/-- There is another message on the channel. -/
theorem Waits.push (waits : Waits worker honest s) (sent : Sent worker s.links message) :
    Waits worker honest { s with rxMessage := s.rxMessage ++ [message] } := by
  refine ⟨waits.sound, fun other member => ?_, fun entry here => ?_, ?_, fun batch member => ?_⟩
  · rcases List.mem_append.mp member with old | new
    · exact waits.sent other old
    · exact List.mem_singleton.mp new ▸ sent
  · obtain ⟨place, rest⟩ := waits.current entry here
    refine ⟨?_, rest⟩
    rw [List.getElem?_append_left (List.getElem?_eq_some_iff.mp place).1, place]
  · refine waits.order.trans (List.Sublist.map _ ?_)
    rw [List.take_append]
    exact List.sublist_append_left _ _
  · obtain ⟨message, inside, rest⟩ := waits.quorum batch member
    exact ⟨message, List.mem_append_left _ inside, rest⟩

variable [Bincode WorkerMessage]

/-- The state after a broadcast. -/
theorem deliver_eq (worker : Worker) (s : State) (sealing : List SocketAddr × Batch) :
    deliver worker s sealing =
      { s with
        links := (s.links.broadcast (serialized sealing.2) sealing.1).1
        rxMessage := s.rxMessage ++ [⟨serialized sealing.2,
          worker.names.zip (s.links.broadcast (serialized sealing.2) sealing.1).2⟩] } := rfl

/-- **A batch is broadcast to the others.** -/
theorem Waits.deliver (waits : Waits worker honest s) (batch : Batch) :
    Waits worker honest (deliver worker s (worker.others.map Prod.snd, batch)) := by
  obtain ⟨leads, submitted⟩ :=
    s.links.broadcast_submits honest (serialized batch) (worker.others.map Prod.snd)
  rw [deliver_eq]
  refine Waits.push (waits.leads leads) ?_
  generalize s.links.broadcast (serialized batch) (worker.others.map Prod.snd) = result
    at submitted
  rw [List.forall₂_map_left_iff, List.forall₂_iff_zip] at submitted
  obtain ⟨same, handled⟩ := submitted
  have zipped : worker.names.zip result.2 = (worker.others.zip result.2).map (Prod.map Prod.fst id) :=
    List.zip_map_left
  refine ⟨List.map_fst_zip ?_, fun entry member => ?_, fun entry member => ?_⟩
  · exact (List.length_map _).trans_le same.le
  · rw [zipped] at member
    obtain ⟨⟨⟨name, address⟩, handler⟩, inside, rfl⟩ := List.mem_map.mp member
    obtain ⟨rfl, -⟩ := handled inside
    exact (List.of_mem_zip inside).1
  · rw [zipped] at member
    obtain ⟨⟨⟨name, address⟩, handler⟩, inside, rfl⟩ := List.mem_map.mp member
    exact (handled inside).2

omit [Bincode WorkerMessage] in
/-- **Taking a batch** starts the wait for it. -/
theorem Waits.take (waits : Waits worker honest s) : Waits worker honest (take worker s) := by
  unfold Dissemination.take
  split
  · next message idle next =>
      have sent := waits.sent message (List.mem_of_getElem? next)
      dsimp only
      split
      · refine ⟨waits.sound, waits.sent, fun entry here => ?_, ?_, waits.quorum⟩
        · exact absurd (idle.symm.trans here) (by simp)
        · exact waits.order.trans ((List.take_sublist_take_left (Nat.le_succ _)).map _)
      · next running =>
          refine ⟨waits.sound, waits.sent, fun entry here => ?_, waits.order, waits.quorum⟩
          obtain rfl := Option.some.inj here
          refine ⟨next, by simpa using running, [], ⟨.nil, List.nil_subset _, ?_⟩, ?_⟩
          · exact fun _ member => absurd member List.not_mem_nil
          · rw [sent.names]
            rfl
  · exact waits

/-! ### Resolutions -/

section Resolutions

variable {names : List PublicKey} {name : PublicKey}
  (acknowledged : Acknowledged worker links message names)

omit [Bincode WorkerMessage]

include acknowledged

/-- What the loop has done when these authorities have acknowledged. -/
theorem Acknowledged.wait_eq :
    (worker.quorumWaiter.Crossed (acks names) →
        (worker.quorumWaiter.wait message.batch worker.names (acks names)).txBatch = [message.batch] ∧
          (worker.quorumWaiter.wait message.batch worker.names (acks names)).ended = true) ∧
      (¬ worker.quorumWaiter.Crossed (acks names) →
        worker.quorumWaiter.wait message.batch worker.names (acks names) =
          ⟨worker.quorumWaiter.total (acks names), worker.names.diff names, [],
            (worker.names.diff names).isEmpty⟩) := by
  have result := @QuorumWaiter.wait_eq worker.quorumWaiter message.batch worker.names (acks names)
  rw [map_fst_acks] at result
  exact result acknowledged.nodup acknowledged.among

/-- A handler that is awaited belongs to an authority that has not acknowledged. -/
theorem Acknowledged.awaited
    (running : (worker.quorumWaiter.wait message.batch worker.names (acks names)).ended = false)
    (awaited : name ∈
      (worker.quorumWaiter.wait message.batch worker.names (acks names)).waitForQuorum) :
    name ∈ worker.names ∧ name ∉ names := by
  obtain ⟨delivered, waiting⟩ := acknowledged.wait_eq
  have uncrossed : ¬ worker.quorumWaiter.Crossed (acks names) := fun crossed => by
    rw [(delivered crossed).2] at running
    exact absurd running (by simp)
  rw [waiting uncrossed] at awaited
  exact Worker.names_nodup.mem_sdiff_iff.mp awaited

theorem Acknowledged.snoc (among : name ∈ worker.names) (fresh : name ∉ names)
    {handler : CancelHandler} (inside : (name, handler) ∈ message.handlers)
    (resolved : links.resolved handler = true) :
    Acknowledged worker links message (names ++ [name]) := by
  refine ⟨?_, List.append_subset.mpr ⟨acknowledged.among, by simpa using among⟩,
    fun other member => ?_⟩
  · rw [← List.concat_eq_append]
    exact acknowledged.nodup.concat fresh
  · rcases List.mem_append.mp member with old | new
    · exact acknowledged.resolved other old
    · rw [List.mem_singleton.mp new]
      exact ⟨handler, inside, resolved⟩

/-- **A batch is delivered when a quorum has acknowledged it.** -/
theorem Acknowledged.delivers :
    (worker.quorumWaiter.wait message.batch worker.names (acks names)).txBatch = [] ∨
      (worker.quorumWaiter.wait message.batch worker.names (acks names)).txBatch = [message.batch] ∧
        Certified worker links message := by
  obtain ⟨delivered, waiting⟩ := acknowledged.wait_eq
  by_cases crossed : worker.quorumWaiter.Crossed (acks names)
  · refine .inr ⟨(delivered crossed).1, names, acknowledged, ?_⟩
    obtain ⟨q, ⟨rest, whole⟩, -, enough⟩ := crossed
    refine (enough.trans (Nat.mod_le _ _)).trans ?_
    rw [← whole, QuorumWaiter.resolvedStake, QuorumWaiter.resolvedStake, List.map_append,
      List.sum_append]
    omega
  · exact .inl (congrArg QuorumWaiter.Waiting.txBatch (waiting crossed))

end Resolutions

omit [Bincode WorkerMessage] in
/-- The wait for a batch ends, with or without a quorum. -/
theorem Waits.finish (waits : Waits worker honest s)
    (place : s.rxMessage[s.finished]? = some message) (leads : s.links.Leads honest links')
    {delivered : List (List UInt8)}
    (outcome : delivered = [] ∨ delivered = [message.batch] ∧ Certified worker s.links message) :
    Waits worker honest { s with
      links := links'
      finished := s.finished + 1
      current := none
      txBatch := s.txBatch ++ delivered } := by
  have left := waits.leads leads
  have finished : (s.rxMessage.take (s.finished + 1)).map Broadcast.batch =
      (s.rxMessage.take s.finished).map Broadcast.batch ++ [message.batch] := by
    rw [List.take_add_one, place, List.map_append]
    rfl
  refine ⟨left.sound, left.sent, fun entry none => absurd none (by simp), ?_, fun batch member => ?_⟩
  · dsimp only
    rw [finished]
    rcases outcome with rfl | ⟨rfl, -⟩
    · rw [List.append_nil]
      exact waits.order.trans (List.sublist_append_left _ _)
    · exact waits.order.append_right _
  · rcases List.mem_append.mp member with old | new
    · exact left.quorum batch old
    · rcases outcome with rfl | ⟨rfl, names, acknowledged, enough⟩
      · exact absurd new List.not_mem_nil
      · exact ⟨message, List.mem_of_getElem? place, (List.mem_singleton.mp new).symm, names,
          acknowledged.leads leads, enough⟩

omit [Bincode WorkerMessage] in
/-- **A handler resolves.** The authorities whose handlers have resolved have acknowledged. -/
theorem Waits.resolve (waits : Waits worker honest s) (name : PublicKey) :
    Waits worker honest (resolve worker s name) := by
  unfold Dissemination.resolve
  split
  · exact waits
  · next message waiting here =>
      obtain ⟨place, running, names, acknowledged, same⟩ := waits.current _ here
      dsimp only at place running acknowledged same
      subst same
      split
      · next ready =>
          obtain ⟨handler, found, resolved⟩ := (Option.any_eq_true _ _).mp ready.2
          have inside : (name, handler) ∈ message.handlers := by
            obtain ⟨before, after, whole, -⟩ := List.lookup_eq_some_iff.mp found
            simp [whole]
          obtain ⟨among, fresh⟩ := acknowledged.awaited running ready.1
          have more := acknowledged.snoc among fresh inside resolved
          have step : worker.quorumWaiter.resolve message.batch
              (worker.quorumWaiter.wait message.batch worker.names (acks names)) (name, true) =
              worker.quorumWaiter.wait message.batch worker.names (acks (names ++ [name])) := by
            rw [acks, acks, List.map_append]
            exact (QuorumWaiter.wait_snoc ..).symm
          rw [step]
          dsimp only
          split
          · exact waits.finish place (s.links.leads_abandon honest _) more.delivers
          · next running =>
              refine ⟨waits.sound, waits.sent, fun entry here => ?_, waits.order, waits.quorum⟩
              obtain rfl := Option.some.inj here
              exact ⟨place, by simpa using running, _, more, rfl⟩
      · exact waits

/-! ### Runs -/

/-- What is known of all tasks: the QuorumWaiter was sent the batches that were sealed. -/
structure Disseminates (worker : Worker) (honest : Set SocketAddr) (s : State) : Prop where
  waits : Waits worker honest s
  sealed : s.rxMessage.map Broadcast.batch = s.maker.sealed.map serialized

/-- Batches are broadcast one after the other. -/
theorem Waits.foldl_deliver (waits : Waits worker honest s) (new : List Batch) :
    let t := (new.map (worker.others.map Prod.snd, ·)).foldl (Dissemination.deliver worker) s
    Waits worker honest t ∧ t.rxMessage.map Broadcast.batch =
      s.rxMessage.map Broadcast.batch ++ new.map serialized ∧ t.maker = s.maker := by
  induction new generalizing s with
  | nil => exact ⟨waits, (List.append_nil _).symm, rfl⟩
  | cons batch new ih =>
      obtain ⟨waits', batches, maker⟩ := ih (waits.deliver batch)
      refine ⟨waits', batches.trans ?_, maker⟩
      rw [deliver_eq, List.map_append, List.append_assoc]
      rfl

/-- Broadcasts leave what was on the links. -/
theorem leads_foldl_deliver (worker : Worker) (honest : Set SocketAddr) (s : State)
    (sealings : List (List SocketAddr × Batch)) :
    s.links.Leads honest (sealings.foldl (Dissemination.deliver worker) s).links := by
  induction sealings generalizing s with
  | nil => exact .refl _ _
  | cons sealing sealings ih =>
      exact (s.links.broadcast_submits honest _ _).1.trans (ih (Dissemination.deliver worker s sealing))

/-- An event leaves what was on the links. -/
theorem leads_advance (worker : Worker) (s : State) {event : Event} (allowed : Allowed honest event) :
    s.links.Leads honest (advance worker s event).links := by
  cases event with
  | maker event =>
      exact leads_foldl_deliver worker honest
        { s with maker := worker.batchMaker.advance s.maker event } _
  | link address event quiet => exact s.links.leads_advance honest address event
  | forge address bytes => exact leads_forge allowed bytes
  | take =>
      show s.links.Leads honest (take worker s).links
      unfold Dissemination.take
      split
      · dsimp only
        split <;> exact .refl _ _
      · exact .refl _ _
  | resolve name =>
      show s.links.Leads honest (resolve worker s name).links
      unfold Dissemination.resolve
      split
      · exact .refl _ _
      · split
        · dsimp only
          split
          · exact s.links.leads_abandon honest _
          · exact .refl _ _
        · exact .refl _ _

/-- What was passed on stays so. -/
theorem txBatch_advance (worker : Worker) (s : State) (event : Event) :
    s.txBatch <+: (advance worker s event).txBatch := by
  cases event with
  | maker event =>
      have same : ∀ (sealings : List (List SocketAddr × Batch)) (t : State),
          (sealings.foldl (Dissemination.deliver worker) t).txBatch = t.txBatch := by
        intro sealings
        induction sealings with
        | nil => exact fun _ => rfl
        | cons sealing sealings ih => exact fun t => ih (Dissemination.deliver worker t sealing)
      exact (same _ _).symm ▸ List.prefix_rfl
  | link => exact List.prefix_rfl
  | forge => exact List.prefix_rfl
  | take =>
      show s.txBatch <+: (take worker s).txBatch
      unfold Dissemination.take
      split
      · dsimp only
        split <;> exact List.prefix_rfl
      · exact List.prefix_rfl
  | resolve name =>
      show s.txBatch <+: (resolve worker s name).txBatch
      unfold Dissemination.resolve
      split
      · exact List.prefix_rfl
      · split
        · dsimp only
          split
          · exact List.prefix_append _ _
          · exact List.prefix_rfl
        · exact List.prefix_rfl

/-- **An event keeps what is known of the tasks.** -/
theorem Disseminates.advance (disseminates : Disseminates worker honest s) {event : Event}
    (allowed : Allowed honest event) : Disseminates worker honest (advance worker s event) := by
  obtain ⟨waits, sealed⟩ := disseminates
  cases event with
  | maker event =>
      obtain ⟨new, network, txMessage⟩ :=
        BatchMaker.broadcasts_advance worker.batchMaker s.maker event
      have made : Waits worker honest
          { s with maker := worker.batchMaker.advance s.maker event } :=
        ⟨waits.sound, waits.sent, waits.current, waits.order, waits.quorum⟩
      obtain ⟨waits', batches, maker⟩ := made.foldl_deliver new
      unfold Dissemination.advance
      dsimp only
      have same : worker.batchMaker.workersAddresses = worker.others := rfl
      rw [network, List.drop_left, same]
      refine ⟨waits', batches.trans ?_⟩
      rw [maker]
      show s.rxMessage.map Broadcast.batch ++ new.map serialized =
        (BatchMaker.State.sealed (worker.batchMaker.advance s.maker event)).map serialized
      rw [BatchMaker.State.sealed, txMessage, List.map_append, List.map_append, sealed,
        List.map_map]
      simp [BatchMaker.State.sealed, Function.comp_def]
  | link address event quiet =>
      exact ⟨waits.leads (s.links.leads_advance honest address event), sealed⟩
  | forge address bytes =>
      exact ⟨waits.leads (leads_forge allowed bytes), sealed⟩
  | take =>
      refine ⟨waits.take, ?_⟩
      show (take worker s).rxMessage.map _ = (take worker s).maker.sealed.map _
      unfold Dissemination.take
      split
      · dsimp only
        split <;> exact sealed
      · exact sealed
  | resolve name =>
      refine ⟨waits.resolve name, ?_⟩
      show (resolve worker s name).rxMessage.map _ = (resolve worker s name).maker.sealed.map _
      unfold Dissemination.resolve
      split
      · exact sealed
      · split
        · dsimp only
          split <;> exact sealed
        · exact sealed

theorem disseminates_run (worker : Worker) {events : List Event}
    (allowed : ∀ event ∈ events, Allowed honest event) :
    Disseminates worker honest (run worker events) := by
  induction events using List.reverseRecOn with
  | nil =>
      refine ⟨⟨fun _ _ => Link.sound_start _, fun _ member => absurd member List.not_mem_nil,
        fun _ none => absurd none (by simp [run]), .refl _,
        fun _ member => absurd member List.not_mem_nil⟩, rfl⟩
  | append_singleton events event ih =>
      rw [run_snoc]
      exact (ih fun event member => allowed event (List.mem_append_left _ member)).advance
        (allowed event (List.mem_append_right _ (List.mem_singleton_self _)))

/-- A quorum holds a batch: this authority, and others to whose workers it was sent. Those of them that
are honest have dispatched it. -/
def Backed (worker : Worker) (honest : Set SocketAddr) (s : State) (batch : List UInt8) : Prop :=
  ∃ names : List PublicKey, names.Nodup ∧ worker.name ∉ names ∧
    worker.committee.quorumThreshold.toNat ≤ (worker.committee.stake worker.name).toNat +
      (names.map fun name => (worker.committee.stake name).toNat).sum ∧
    ∀ name ∈ names, ∃ addresses, worker.committee.worker name worker.id = .ok addresses ∧
      (addresses.workerToWorker ∈ honest →
        ∃ message ∈ (s.links addresses.workerToWorker).dispatched, message.data = batch)

omit [Bincode WorkerMessage] in
/-- A batch that was acknowledged by a quorum is held by it. -/
theorem Certified.backed (certified : Certified worker s.links message)
    (sent : Sent worker s.links message) (sound : ∀ address ∈ honest, (s.links address).Sound) :
    Backed worker honest s message.batch := by
  obtain ⟨names, acknowledged, enough⟩ := certified
  refine ⟨names, acknowledged.nodup, fun own => Worker.not_mem_names (acknowledged.among own),
    ?_, fun name member => ?_⟩
  · rw [QuorumWaiter.resolvedStake, acks, List.map_map] at enough
    exact enough
  · obtain ⟨handler, inside, resolved⟩ := acknowledged.resolved name member
    obtain ⟨-, addresses, found, same⟩ := Worker.mem_others.mp (sent.others _ inside)
    dsimp only at found same
    refine ⟨addresses, found, fun honest => ?_⟩
    rw [same] at honest ⊢
    exact ⟨_, Links.dispatched_of_resolved (sound _ honest) (sent.submitted _ inside) resolved, rfl⟩

/-- **A batch is passed on when a quorum holds it.** In every run, with any failures of the links and any
responses of workers that do not follow the protocol, the batches that are passed on to the Processor are
batches that were sealed, in the same order, and each is held by a quorum. -/
theorem passed_on_by_quorum (worker : Worker) {events : List Event}
    (allowed : ∀ event ∈ events, Allowed honest event) :
    (run worker events).txBatch.Sublist ((run worker events).maker.sealed.map serialized) ∧
      ∀ batch ∈ (run worker events).txBatch, Backed worker honest (run worker events) batch := by
  obtain ⟨waits, sealed⟩ := disseminates_run worker allowed
  generalize run worker events = s at waits sealed ⊢
  refine ⟨sealed ▸ waits.order.trans ((List.take_sublist _ _).map _), fun batch member => ?_⟩
  obtain ⟨message, inside, rfl, certified⟩ := waits.quorum batch member
  exact certified.backed (waits.sent message inside) waits.sound

end Tasks

/-! ## A broadcast to three workers -/

section FourWorkers

local instance disseminatedBincode : Bincode WorkerMessage := Worker.executableBincode

/-- The first of four authorities of the same stake, which have one worker each. -/
def firstWorker : Worker where
  name := ⟨1⟩
  id := 0
  committee :=
    let authority (n : ℕ) : Authority :=
      { stake := 1
        primary := ⟨⟨n, 0⟩, ⟨n, 1⟩⟩
        workers := HashMap.ofList [(0, ⟨⟨n, 2⟩, ⟨n, 3⟩, ⟨n, 4⟩⟩)] }
    ⟨⟨[(⟨1⟩, authority 1), (⟨2⟩, authority 2), (⟨3⟩, authority 3), (⟨4⟩, authority 4)], by decide⟩⟩
  batchSize := 1
  benchmark := false

/-- A message reaches the worker at an address, which replies. -/
def reaches (address : SocketAddr) : List Event :=
  [.link address (.connect true) trivial, .link address .receive trivial,
    .link address (.send true) trivial, .link address (.frame 1) trivial,
    .link address .response trivial]

/-- A batch is acknowledged by the second worker, which is honest, and by the third one, which is not
and has dispatched nothing. -/
def acknowledgedTwice : List Event :=
  [.maker (.transaction [7]), .maker .poll] ++ reaches ⟨2, 3⟩ ++
    [.link ⟨3, 3⟩ (.connect true) trivial, .link ⟨3, 3⟩ .receive trivial,
      .link ⟨3, 3⟩ (.send true) trivial, .forge ⟨3, 3⟩ [], .take, .resolve ⟨3⟩, .resolve ⟨2⟩]

theorem passed_on_by_quorum_acknowledgedTwice :
    (run firstWorker acknowledgedTwice).txBatch.Sublist
        ((run firstWorker acknowledgedTwice).maker.sealed.map serialized) ∧
      ∀ batch ∈ (run firstWorker acknowledgedTwice).txBatch,
        Backed firstWorker {⟨2, 3⟩} (run firstWorker acknowledgedTwice) batch :=
  passed_on_by_quorum firstWorker (by simp [acknowledgedTwice, reaches, Allowed])

/-- The batch was passed on. -/
example : (run firstWorker acknowledgedTwice).txBatch = [Worker.messageBytes (.batch [[7]])] := by decide +kernel

end FourWorkers

end Dissemination

end Tusk
