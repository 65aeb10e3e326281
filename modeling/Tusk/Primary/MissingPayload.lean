import Tusk.Primary.JustifiedVotes
import Tusk.Worker.Synchronizer

/-!
# How missing payload is fetched

A header of another authority whose batches are not all reported is suspended, and the `HeaderWaiter`
is to ask the workers of this authority for the batches, which ask the workers of the author. The
requests name what they should, but they are addressed to the workers of the author. So the payload is
fetched through our own workers if and only if these share the addresses of the author's workers
(`payload_fetched_iff`), and in a committee with an address for each worker it is not
(`sent_to_author`).

The `Core`, the `HeaderWaiter` and the workers that report batches are taken together in a run. The
`HeaderWaiter` takes the messages of the `Core` one after the other, and the state records what it did
with each. A worker is asked in a state of its own, of which nothing is assumed.
-/

set_option autoImplicit false

namespace Tusk

open Lib

/-- The Core and the HeaderWaiter of a primary. -/
structure Primary extends Core where
  /-- The delay before a sync request is sent again. -/
  syncRetryDelay : ℕ
  /-- To how many nodes it is then sent. -/
  syncRetryNodes : ℕ

namespace Primary

/-- What the HeaderWaiter did when it took a header that lacks batches. -/
structure Suspension where
  missing : HashMap Digest WorkerId
  header : Header
  /-- The HeaderWaiter when it took the header. -/
  waiter : HeaderWaiter.State
  /-- What it sent to workers. -/
  sent : List (SocketAddr × PrimaryWorkerMessage)

/-- The state of the Core and the HeaderWaiter. -/
structure State where
  core : Core.State := {}
  waiter : HeaderWaiter.State := {}
  /-- How many messages of the Core the HeaderWaiter has taken. -/
  taken : ℕ := 0
  /-- What it did with those that ask for batches. -/
  suspensions : List Suspension := []

/-- What happens at the primary. -/
inductive Event where
  | core (event : Core.Event)
  /-- The HeaderWaiter takes a message of the Core. -/
  | suspend (now : ℕ)
  | delivered (number : ℕ)
  | cancelled (number : ℕ)
  | timer (now : ℕ) (shuffled : List SocketAddr)

/-- The events of the Core. -/
def Event.ofCore : Event → Option Core.Event
  | core event => some event
  | _ => none

/-- What an event brings to the HeaderWaiter. -/
def State.waiterEvent (s : State) : Event → Option HeaderWaiter.Event
  | .core _ => none
  | .suspend now => s.core.txHeaderWaiter[s.taken]?.map fun message => .synchronizer message now
  | .delivered number => some (.delivered number)
  | .cancelled number => some (.cancelled number)
  | .timer now shuffled => some (.timer now shuffled)

variable (primary : Primary)

/-- The HeaderWaiter of the primary. -/
def headerWaiter : HeaderWaiter :=
  ⟨primary.name, primary.committee, primary.gcDepth, primary.syncRetryDelay, primary.syncRetryNodes⟩

/-- The Synchronizer of a worker of this authority. -/
def worker (id : WorkerId) : Worker.Synchronizer :=
  ⟨primary.name, id, primary.committee, primary.gcDepth, primary.syncRetryDelay,
    primary.syncRetryNodes⟩

/-- The HeaderWaiter after an event of its own. -/
def wait (s : State) (event : HeaderWaiter.Event) : State :=
  { s with waiter := primary.headerWaiter.advance s.waiter s.core.consensusRound event }

/-- The HeaderWaiter takes a message. -/
def take (s : State) (message : WaiterMessage) (now : ℕ) : State :=
  let s' := primary.wait s (.synchronizer message now)
  let sent := s'.waiter.toWorkers.drop s.waiter.toWorkers.length
  { s' with
    taken := s.taken + 1
    suspensions := s.suspensions ++
      match message with
      | .syncBatches missing h => [⟨missing, h, s.waiter, sent⟩]
      | .syncParents _ _ => [] }

section Model

variable [Primitives]

/-- The state after an event. -/
def advance (s : State) : Event → State
  | .core event => { s with core := primary.toCore.advance s.core event }
  | .suspend now =>
      match s.core.txHeaderWaiter[s.taken]? with
      | some message => if s.waiter.panicked then s else primary.take s message now
      | none => s
  | .delivered number => primary.wait s (.delivered number)
  | .cancelled number => primary.wait s (.cancelled number)
  | .timer now shuffled => primary.wait s (.timer now shuffled)

/-- The state after a run, which starts with an empty store. -/
def run (events : List Event) : State := events.foldl primary.advance {}

theorem run_snoc (events : List Event) (event : Event) :
    primary.run (events ++ [event]) = primary.advance (primary.run events) event := by
  rw [run, List.foldl_append]
  rfl

/-- The Core sees its own events only. -/
theorem core_advance (s : State) (event : Event) :
    (primary.advance s event).core =
      match event.ofCore with
      | none => s.core
      | some event => primary.toCore.advance s.core event := by
  cases event with
  | suspend now =>
      unfold advance Event.ofCore
      dsimp only
      split
      · split <;> rfl
      · rfl
  | _ => rfl

/-- The HeaderWaiter sees its own events only. -/
theorem waiter_advance (s : State) (event : Event) :
    (primary.advance s event).waiter =
      match s.waiterEvent event with
      | none => s.waiter
      | some event => primary.headerWaiter.advance s.waiter s.core.consensusRound event := by
  cases event with
  | suspend now =>
      unfold advance State.waiterEvent
      cases s.core.txHeaderWaiter[s.taken]? with
      | none => rfl
      | some message =>
          dsimp only [Option.map_some]
          split
          · next stopped => simp [HeaderWaiter.advance, stopped]
          · rfl
  | _ => rfl

/-! ## What is asked for -/

/-- The batches to ask for: those for which no request is recorded, unless the header is waiting
already. -/
def Suspension.unrequested (suspension : Suspension) : List (Digest × WorkerId) :=
  if suspension.waiter.waits suspension.header then
    []
  else
    (HashMap.items suspension.missing).filter fun entry =>
      decide (HashMap.get suspension.waiter.batchRequests entry.1 = none)

/-- **The missing payload of a header is fetched by our own workers.** The header is of another
authority, every message for it is addressed to a worker of this authority and names batches of the
payload with the id of that worker, which asks the worker of the author with the same id for those it
lacks, and all messages together name each batch to ask for once. -/
structure Fetched (suspension : Suspension) : Prop where
  other : suspension.header.author ≠ primary.name
  payload : ∀ entry ∈ HashMap.items suspension.missing, entry ∈ suspension.header.payload.entries
  addressed : ∀ message ∈ suspension.sent, ∃ id digests,
    message.2 = .synchronize digests suspension.header.author ∧
      primary.committee.workerAddress primary.name id = some message.1 ∧
      (∀ digest ∈ digests, (digest, id) ∈ HashMap.items suspension.missing) ∧
      ∀ reads s now, (primary.worker id).Requests reads s digests suspension.header.author now
  once : (suspension.sent.flatMap fun message => message.2.digests).Perm
    (suspension.unrequested.map Prod.fst)

/-- The workers of this authority share the addresses of the author's workers, for the batches to ask
for. -/
def Shares (suspension : Suspension) : Prop :=
  ∀ entry ∈ suspension.unrequested,
    primary.committee.workerAddress primary.name entry.2 ≠ none ∧
      primary.committee.workerAddress primary.name entry.2 =
        primary.committee.workerAddress suspension.header.author entry.2

instance (suspension : Suspension) : Decidable (primary.Shares suspension) :=
  inferInstanceAs (Decidable (∀ entry ∈ _, _ ∧ _))

/-! ## One header -/

section Suspensions

variable {primary} {suspension : Suspension}

variable (primary) in
/-- What is recorded of a header: it is of another authority, its batches are of its payload, and the
messages are those of the HeaderWaiter. -/
structure Recorded (suspension : Suspension) : Prop where
  other : suspension.header.author ≠ primary.name
  payload : ∀ entry ∈ HashMap.items suspension.missing, entry ∈ suspension.header.payload.entries
  sent : suspension.sent = if suspension.waiter.waits suspension.header then [] else
    (primary.headerWaiter.sendRequests suspension.header.author (HashMap.items
      (HeaderWaiter.requestBatches suspension.header.round suspension.waiter.batchRequests
        (HashMap.items suspension.missing)).2)).1

omit [Primitives] in
/-- A batch is missing from one worker. -/
theorem id_unique {digest : Digest} {id id' : WorkerId}
    (member : (digest, id) ∈ HashMap.items suspension.missing)
    (member' : (digest, id') ∈ HashMap.items suspension.missing) : id = id' := by
  have found := HashMap.mem_items.mp member
  rw [HashMap.mem_items.mp member'] at found
  exact (Option.some.inj found).symm

omit [Primitives] in
/-- The batches of a request are missing, and the worker it is for shares the address of the
author's. -/
theorem shares_of_request (asks : ¬ suspension.waiter.waits suspension.header = true)
    (shares : primary.Shares suspension) {request : WorkerId × List Digest}
    (member : request ∈ HashMap.items (HeaderWaiter.requestBatches suspension.header.round
      suspension.waiter.batchRequests (HashMap.items suspension.missing)).2) :
    (∀ digest ∈ request.2, (digest, request.1) ∈ HashMap.items suspension.missing) ∧
      primary.committee.workerAddress primary.name request.1 ≠ none ∧
      primary.committee.workerAddress primary.name request.1 =
        primary.committee.workerAddress suspension.header.author request.1 := by
  unfold Shares Suspension.unrequested at shares
  rw [if_neg asks] at shares
  obtain ⟨same, some⟩ := (HeaderWaiter.mem_requestBatches
    (HashMap.items_keys_nodup suspension.missing)).mp member
  have among : ∀ digest ∈ request.2, (digest, request.1) ∈ HashMap.items suspension.missing ∧
      HashMap.get suspension.waiter.batchRequests digest = none := by
    intro digest inside
    rw [same] at inside
    exact HeaderWaiter.mem_toRequest.mp inside
  obtain ⟨digest, inside⟩ := List.exists_mem_of_ne_nil _ some
  obtain ⟨missing, absent⟩ := among digest inside
  exact ⟨fun digest inside => (among digest inside).1,
    shares _ (List.mem_filter.mpr ⟨missing, decide_eq_true absent⟩)⟩

omit [Primitives] in
/-- The missing payload is fetched where the addresses are shared. -/
theorem Recorded.fetched (recorded : primary.Recorded suspension)
    (shares : primary.Shares suspension) : primary.Fetched suspension := by
  obtain ⟨other, payload, sent⟩ := recorded
  split at sent
  · next waits =>
      refine ⟨other, payload, fun message member => ?_, ?_⟩
      · rw [sent] at member
        exact absurd member List.not_mem_nil
      · rw [sent, Suspension.unrequested, if_pos waits]
        exact .nil
  · next asks =>
      refine ⟨other, payload, fun message member => ?_, ?_⟩
      · rw [sent] at member
        obtain ⟨request, among, address, body⟩ := HeaderWaiter.mem_sendRequests member
        obtain ⟨inside, -, same⟩ := shares_of_request asks shares among
        have target : primary.committee.workerAddress suspension.header.author request.1 =
          some message.1 := address
        obtain ⟨addresses, known, -⟩ := Committee.workerAddress_eq_some_iff.mp target
        exact ⟨request.1, request.2, body, same.trans target, inside, fun reads s now =>
          (primary.worker request.1).synchronize_requests known⟩
      · rw [sent, HeaderWaiter.digests_sendRequests, Suspension.unrequested, if_neg asks]
        · exact HeaderWaiter.requestBatches_perm (HashMap.items_keys_nodup suspension.missing)
        · intro request among
          obtain ⟨-, own, same⟩ := shares_of_request asks shares among
          exact same ▸ own

omit [Primitives] in
/-- Where the missing payload is fetched the addresses are shared. -/
theorem Recorded.shares (recorded : primary.Recorded suspension)
    (fetched : primary.Fetched suspension) : primary.Shares suspension := by
  rintro ⟨digest, id⟩ member
  have distinct := HashMap.items_keys_nodup suspension.missing
  have asks : ¬ suspension.waiter.waits suspension.header = true := by
    intro waits
    rw [Suspension.unrequested, if_pos waits] at member
    exact List.not_mem_nil member
  have missing : (digest, id) ∈ HashMap.items suspension.missing := by
    rw [Suspension.unrequested, if_neg asks] at member
    exact List.mem_of_mem_filter member
  obtain ⟨message, among, named⟩ :=
    List.mem_flatMap.mp (fetched.once.mem_iff.mpr (List.mem_map_of_mem member))
  -- the message went to our worker and to the author's worker
  obtain ⟨ours, digests, body, address, inside, -⟩ := fetched.addressed message among
  rw [recorded.sent, if_neg asks] at among
  obtain ⟨request, requested, target, body'⟩ := HeaderWaiter.mem_sendRequests among
  have theirs : (digest, request.1) ∈ HashMap.items suspension.missing := by
    rw [body', ((HeaderWaiter.mem_requestBatches distinct).mp requested).1] at named
    exact (HeaderWaiter.mem_toRequest.mp named).1
  rw [body] at named
  rw [id_unique missing (inside digest named), address]
  rw [id_unique theirs (inside digest named)] at target
  exact ⟨Option.some_ne_none _, target.symm⟩

end Suspensions

/-! ## Runs -/

section Runs

/-- The header of a message that asks for batches is of another authority, and the batches are of its
payload. -/
def Foreign (node : Core) : WaiterMessage → Prop
  | .syncBatches missing h => h.author ≠ node.name ∧
      ∀ entry ∈ HashMap.items missing, entry ∈ h.payload.entries
  | .syncParents _ _ => True

variable {node : Core}

omit [Primitives] in
theorem foreign_syncBatches {h : Header} (other : h.author ≠ node.name) (store : Store) :
    Foreign node (.syncBatches (HashMap.ofList (Core.absentPayload store h)) h) := by
  refine ⟨other, fun entry member => ?_⟩
  have distinct : ((Core.absentPayload store h).map Prod.fst).Nodup :=
    h.payload.keys_nodup.sublist (List.filter_sublist.map _)
  exact List.mem_of_mem_filter ((HashMap.get_ofList distinct).mp (HashMap.mem_items.mp member))

/-- **The Core suspends headers of other authorities for missing payload.** -/
theorem foreign_run (node : Core) (events : List Core.Event) :
    ∀ message ∈ (node.run events).txHeaderWaiter, Foreign node message := by
  induction events using List.reverseRecOn with
  | nil => exact fun _ member => absurd member List.not_mem_nil
  | append_singleton events event ih =>
      rw [Core.run_snoc]
      cases event with
      | batch => exact ih
      | consensus => exact ih
      | core input =>
          refine Core.advance_kept (fun t => ∀ message ∈ t.txHeaderWaiter, Foreign node message) ih ?_
            (fun t t' acts kept => ?_) ?_
          · cases input <;> exact ih
          · cases acts with
            | inspect _ inspects =>
                cases inspects with
                | start => exact kept
                | syncParents => exact List.forall_mem_append.mpr ⟨kept, by simp [Foreign]⟩
                | syncBatches other =>
                    exact List.forall_mem_append.mpr
                      ⟨kept, List.forall_mem_singleton.mpr (foreign_syncBatches other _)⟩
            | _ => exact kept
          · rintro t _ ⟨⟩ kept
            exact kept

theorem core_run (events : List Event) :
    (primary.run events).core = primary.toCore.run (events.filterMap Event.ofCore) := by
  induction events using List.reverseRecOn with
  | nil => rfl
  | append_singleton events event ih =>
      rw [run_snoc, List.filterMap_append, core_advance]
      cases ours : event.ofCore with
      | none =>
          rw [List.filterMap_cons_none ours, List.filterMap_nil, List.append_nil]
          exact ih
      | some event =>
          rw [List.filterMap_cons_some ours, List.filterMap_nil, Core.run_snoc, ← ih]

/-- **What is recorded of the headers.** -/
theorem recorded_run (events : List Event) :
    ∀ suspension ∈ (primary.run events).suspensions, primary.Recorded suspension := by
  induction events using List.reverseRecOn with
  | nil => exact fun _ member => absurd member List.not_mem_nil
  | append_singleton events event ih =>
      rw [run_snoc]
      cases event with
      | suspend now =>
          unfold advance
          dsimp only
          split
          · next message found =>
              split
              · exact ih
              · next running =>
                  have among := List.mem_of_getElem? found
                  rw [core_run] at among
                  have foreign := foreign_run _ _ message among
                  cases message with
                  | syncParents => simpa [take, wait] using ih
                  | syncBatches missing h =>
                      refine List.forall_mem_append.mpr ⟨ih, List.forall_mem_singleton.mpr ?_⟩
                      refine ⟨foreign.1, foreign.2, ?_⟩
                      have stays : (primary.run events).waiter.panicked = false :=
                        Bool.eq_false_of_not_eq_true running
                      have sends := primary.headerWaiter.toWorkers_syncBatches
                        (primary.run events).waiter (primary.run events).core.consensusRound now stays
                        missing h
                      show (primary.wait _ _).waiter.toWorkers.drop _ = _
                      rw [show (primary.wait _ _).waiter.toWorkers = _ from sends, List.drop_left]
          · exact ih
      | _ => exact ih

/-- **When missing payload is fetched by our own workers.** In every run, whatever is sent for the
suspended headers is addressed to our own workers and names every batch to ask for once, and a batch
counts as present only when a worker with its id has reported it, if and only if our workers share the
addresses of the author's workers for every batch that is asked for. -/
theorem payload_fetched_iff (events : List Event) :
    ((∀ suspension ∈ (primary.run events).suspensions, primary.Fetched suspension) ∧
      ∀ digest id,
        ((primary.run events).core.store.read (Store.payloadKey digest id)).isSome = true →
          Event.core (.batch digest id) ∈ events) ↔
      ∀ suspension ∈ (primary.run events).suspensions, primary.Shares suspension := by
  have recorded := primary.recorded_run events
  constructor
  · rintro ⟨fetched, -⟩ suspension member
    exact (recorded suspension member).shares (fetched suspension member)
  · intro shares
    refine ⟨fun suspension member => (recorded suspension member).fetched (shares suspension member),
      fun digest id present => ?_⟩
    rw [core_run] at present
    have reported := Core.reported_run primary.toCore (events.filterMap Event.ofCore)
    obtain ⟨event, member, same⟩ := List.mem_filterMap.mp (reported (digest, id) present)
    cases event with
    | core event =>
        cases same
        exact member
    | _ => exact nomatch same

end Runs

end Model

/-! ## A committee with an address for each worker -/

/-- An authority with one worker, at addresses of its own. -/
def addressed (host : ℕ) : Authority where
  stake := 1
  primary := ⟨⟨host, 1⟩, ⟨host, 2⟩⟩
  workers := HashMap.ofList [(0, ⟨⟨host, 3⟩, ⟨host, 4⟩, ⟨host, 5⟩⟩)]

/-- The first of four authorities. -/
def firstPrimary : Primary where
  name := ⟨1⟩
  committee := ⟨⟨[(⟨1⟩, addressed 1), (⟨2⟩, addressed 2), (⟨3⟩, addressed 3), (⟨4⟩, addressed 4)],
    by decide⟩⟩
  gcDepth := 50
  requestSignature := nameSignature ⟨1⟩
  syncRetryDelay := 5000
  syncRetryNodes := 3

section FourAuthorities

local instance payloadSign : Primitives := executable fun _ _ => true

/-- A header of the second authority with one batch. -/
def withBatch : Header :=
  .new ⟨2⟩ 1 (.ofList [(⟨9⟩, 0)]) (.ofList (firstPrimary.toCore.genesis.map Prod.fst))
    (nameSignature ⟨2⟩) Header.round_one_lt

/-- **The request for a batch is sent to a worker of its author.** -/
theorem sent_to_author : ¬ ∀ (primary : Primary) (events : List Event),
    Throughout primary.toCore.advance primary.toCore.Admissible {} (events.filterMap Event.ofCore) →
      ∀ suspension ∈ (primary.run events).suspensions, primary.Fetched suspension := by
  intro fetched
  let events : List Event := [.core (.core (.primaries (.header withBatch))), .suspend 0]
  have all := fetched firstPrimary events (by decide +kernel)
  have shares : ∀ suspension ∈ (firstPrimary.run events).suspensions,
      firstPrimary.Shares suspension := fun suspension member =>
    (firstPrimary.recorded_run events suspension member).shares (all suspension member)
  exact absurd shares (by decide +kernel)

end FourAuthorities

end Primary

end Tusk
