import Tusk.Primary.HeaderWaiter

/-!
# The synchronizer of a worker

The `Synchronizer` keeps a worker in sync with the others. The primary tells it which batches it needs
and which authority has them. It asks the worker of that authority with the same id for those that are
not in the store, waits for them, and asks other workers when a request gets no reply. A waiter ends
without a result when its entry among the pending batches is gone.

`synchronize_requests` says that every batch that is missing is pending afterwards, and requested from
the authority unless it was pending before. A retry asks workers of other authorities (`retry_asks`).
-/

set_option autoImplicit false

namespace Tusk

open Lib

/-- The addresses of all workers with a specific id except the ones of `myself`. -/
def Committee.othersWorkers (committee : Committee) (myself : PublicKey) (id : WorkerId) :
    List (PublicKey × WorkerAddresses) :=
  (committee.authorities.entries.filter fun entry => decide (entry.1 ≠ myself)).filterMap
    fun entry => (HashMap.get entry.2.workers id).map fun addresses => (entry.1, addresses)

theorem Committee.worker_eq_ok_iff {committee : Committee} {name : PublicKey} {id : WorkerId}
    {addresses : WorkerAddresses} :
    committee.worker name id = .ok addresses ↔
      ∃ authority, committee.authorities.get name = some authority ∧
        HashMap.get authority.workers id = some addresses := by
  unfold worker
  cases committee.authorities.get name with
  | none => simp
  | some authority =>
      simp only [Option.some.injEq, exists_eq_left']
      cases HashMap.get authority.workers id <;> simp

theorem Committee.mem_othersWorkers {committee : Committee} {myself name : PublicKey} {id : WorkerId}
    {addresses : WorkerAddresses} :
    (name, addresses) ∈ committee.othersWorkers myself id ↔
      name ≠ myself ∧ committee.worker name id = .ok addresses := by
  rw [worker_eq_ok_iff, othersWorkers, List.mem_filterMap]
  constructor
  · rintro ⟨⟨other, authority⟩, member, found⟩
    obtain ⟨member, different⟩ := List.mem_filter.mp member
    obtain ⟨found, present, same⟩ := Option.map_eq_some_iff.mp found
    cases same
    exact ⟨of_decide_eq_true different, authority, BTreeMap.get_of_mem member, present⟩
  · rintro ⟨different, authority, found, present⟩
    refine ⟨(name, authority), List.mem_filter.mpr ⟨BTreeMap.mem_of_get found, ?_⟩, ?_⟩
    · exact decide_eq_true different
    · exact Option.map_eq_some_iff.mpr ⟨addresses, present, rfl⟩

/-- The message exchanged between workers. -/
inductive WorkerMessage where
  | batch (transactions : List (List UInt8))
  | batchRequest (missing : List Digest) (requestor : PublicKey)
deriving DecidableEq

namespace Worker

/-- The Synchronizer: what does not change during a run. -/
structure Synchronizer where
  /-- The public key of this authority. -/
  name : PublicKey
  /-- The id of this worker. -/
  id : WorkerId
  /-- The committee information. -/
  committee : Committee
  /-- The depth of the garbage collection. -/
  gcDepth : ℕ
  /-- The delay to wait before re-trying to send sync requests. -/
  syncRetryDelay : ℕ
  /-- Determine with how many nodes to sync when re-trying to send sync-requests. -/
  syncRetryNodes : ℕ

namespace Synchronizer

/-- A batch that is awaited. -/
structure Pending where
  /-- The round of the primary when the batch was requested. -/
  round : ℕ
  /-- The number of the waiter. -/
  waiter : ℕ
  /-- When the batch was requested. -/
  timestamp : ℕ

/-- The state of the Synchronizer, with what it has sent. -/
structure State where
  /-- The batches that are awaited. -/
  pending : HashMap Digest Pending := ∅
  /-- Loosely keep track of the primary's round number (only used for cleanup). -/
  round : ℕ := 0
  /-- The waiters that have not ended, by number, with the digests they wait for. -/
  waiting : List (ℕ × Digest) := []
  /-- The number of the next waiter. -/
  waiters : ℕ := 0
  /-- What was sent to other workers. -/
  network : List (List SocketAddr × WorkerMessage) := []

/-- What the store of the worker answers when a batch is read, or that it fails. -/
abbrev Reads : Type := Digest → Except Unit (Option (List UInt8))

namespace State

/-- Whether a batch is awaited. -/
def awaits (s : State) (digest : Digest) : Bool := (HashMap.get s.pending digest).isSome

/-- Add a digest to the waiter. -/
def await (s : State) (digest : Digest) (now : ℕ) : State :=
  { s with
    pending := HashMap.insert s.pending digest ⟨s.round, s.waiters, now⟩
    waiting := s.waiting ++ [(s.waiters, digest)]
    waiters := s.waiters + 1 }

/-- Send a message to other workers. -/
def send (s : State) (addresses : List SocketAddr) (message : WorkerMessage) : State :=
  { s with network := s.network ++ [(addresses, message)] }

end State

/-- Look at one of the digests. A digest that is awaited or cannot be read is passed over. -/
def lookUp (reads : Reads) (now : ℕ) (found : State × List Digest) (digest : Digest) :
    State × List Digest :=
  if found.1.awaits digest then
    found
  else
    match reads digest with
    | .ok none => (found.1.await digest now, found.2 ++ [digest])
    -- The batch arrived in the meantime: no need to request it.
    | .ok (some _) => (found.1.await digest now, found.2)
    | .error _ => found

variable (synchronizer : Synchronizer)

/-- The primary asks for batches. -/
def synchronize (reads : Reads) (s : State) (digests : List Digest) (target : PublicKey) (now : ℕ) :
    State :=
  let (s, missing) := digests.foldl (lookUp reads now) (s, [])
  -- Send sync request to a single node.
  match synchronizer.committee.worker target synchronizer.id with
  | .ok addresses => s.send [addresses.workerToWorker] (.batchRequest missing synchronizer.name)
  -- The primary asked us to sync with an unknown node.
  | .error _ => s

/-- The primary has reached a round. -/
def cleanup (s : State) (round : ℕ) : State :=
  if round < synchronizer.gcDepth then
    { s with round := round }
  else
    let gcRound := round - synchronizer.gcDepth
    { s with
      round := round
      pending := HashMap.retain (fun _ entry => if gcRound < entry.round then some entry else none)
        s.pending }

/-- The timer expires. The requests that got no reply are sent to other workers, which are the first of
the others after these were shuffled. -/
def retry (s : State) (now : ℕ) (shuffled : List SocketAddr) : State :=
  let late := (HashMap.items s.pending).filter fun entry =>
    decide (entry.2.timestamp + synchronizer.syncRetryDelay < now)
  if late.isEmpty then
    s
  else
    s.send (shuffled.take synchronizer.syncRetryNodes)
      (.batchRequest (late.map Prod.fst) synchronizer.name)

/-- What the Synchronizer receives. -/
inductive Event where
  /-- Handle primary's messages. -/
  | primary (message : PrimaryWorkerMessage) (now : ℕ)
  /-- A waiter has its batch. -/
  | delivered (number : ℕ)
  /-- A waiter is cancelled. -/
  | cancelled (number : ℕ)
  /-- The timer expires. -/
  | timer (now : ℕ) (shuffled : List SocketAddr)

/-- The state after an event. -/
def advance (reads : Reads) (s : State) : Event → State
  | .primary (.synchronize digests target) now =>
      synchronizer.synchronize reads s digests target now
  | .primary (.cleanup round) _ => synchronizer.cleanup s round
  -- Batch state is routed directly to BatchMaker by the receiver.
  | .primary (.batchSilent _ _) _ => s
  | .delivered number =>
      let waiting := s.waiting.filter fun other => decide (other.1 ≠ number)
      match s.waiting.find? fun other => decide (other.1 = number) with
      -- We got the batch, remove it from the pending list.
      | some (_, digest) =>
          { s with waiting := waiting, pending := HashMap.remove s.pending digest }
      | none => s
  | .cancelled number =>
      { s with waiting := s.waiting.filter fun other => decide (other.1 ≠ number) }
  | .timer now shuffled => synchronizer.retry s now shuffled

/-! ## Requests -/

/-- **A worker asks for what it lacks**: every digest that is not in its store is pending afterwards,
and one that was not pending before is named in a request to the worker of the target with the same
id. -/
def Requests (reads : Reads) (s : State) (digests : List Digest) (target : PublicKey) (now : ℕ) :
    Prop :=
  ∃ addresses missing, synchronizer.committee.worker target synchronizer.id = .ok addresses ∧
    (synchronizer.advance reads s (.primary (.synchronize digests target) now)).network =
      s.network ++ [([addresses.workerToWorker], .batchRequest missing synchronizer.name)] ∧
    ∀ digest ∈ digests, reads digest = .ok none →
      (synchronizer.advance reads s (.primary (.synchronize digests target) now)).awaits digest =
        true ∧ (s.awaits digest = false → digest ∈ missing)

section Requests

variable {reads : Reads} {s : State} {now : ℕ} {digests : List Digest}

theorem awaits_await {digest other : Digest} :
    (s.await digest now).awaits other = true ↔ other = digest ∨ s.awaits other = true := by
  show (HashMap.get (HashMap.insert s.pending digest _) other).isSome = true ↔ _
  rw [HashMap.get_insert]
  split_ifs with same
  · simp [same]
  · simp [same, State.awaits]

/-- What the digests that were looked at have become. -/
structure LookedUp (reads : Reads) (s : State) (digests : List Digest) (found : State × List Digest) :
    Prop where
  network : found.1.network = s.network
  awaits : ∀ digest, found.1.awaits digest = true → s.awaits digest = true ∨ digest ∈ found.2 ∨
    reads digest ≠ .ok none
  missing : ∀ digest ∈ digests, reads digest = .ok none → found.1.awaits digest = true

theorem lookedUp (digests : List Digest) :
    LookedUp reads s digests (digests.foldl (lookUp reads now) (s, [])) := by
  induction digests using List.reverseRecOn with
  | nil => exact ⟨rfl, fun _ => .inl, fun _ member => absurd member List.not_mem_nil⟩
  | append_singleton digests digest ih =>
      rw [List.foldl_append, List.foldl_cons, List.foldl_nil]
      generalize digests.foldl (lookUp reads now) (s, []) = found at ih ⊢
      obtain ⟨network, awaits, missing⟩ := ih
      unfold lookUp
      split
      · next awaited =>
          refine ⟨network, awaits, fun other member absent => ?_⟩
          rcases List.mem_append.mp member with before | new
          · exact missing other before absent
          · exact List.mem_singleton.mp new ▸ awaited
      · have kept : ∀ other ∈ digests ++ [digest], reads other = .ok none →
            (found.1.await digest now).awaits other = true := by
          intro other member absent
          rw [awaits_await]
          rcases List.mem_append.mp member with before | new
          · exact .inr (missing other before absent)
          · exact .inl (List.mem_singleton.mp new)
        cases answer : reads digest with
        | error e =>
            refine ⟨network, awaits, fun other member absent => ?_⟩
            rcases List.mem_append.mp member with before | new
            · exact missing other before absent
            · rw [List.mem_singleton.mp new, answer] at absent
              exact nomatch absent
        | ok value =>
            cases value with
            | none =>
                refine ⟨network, fun other awaited => ?_, kept⟩
                rcases awaits_await.mp awaited with rfl | before
                · exact .inr (.inl (List.mem_append_right _ (List.mem_singleton_self _)))
                · exact (awaits other before).imp_right (.imp_left (List.mem_append_left _))
            | some batch =>
                refine ⟨network, fun other awaited => ?_, kept⟩
                rcases awaits_await.mp awaited with rfl | before
                · refine .inr (.inr fun absent => ?_)
                  rw [answer] at absent
                  exact nomatch absent
                · exact awaits other before

/-- **A worker asks a known target for what it lacks.** -/
theorem synchronize_requests {target : PublicKey} {addresses : WorkerAddresses}
    (known : synchronizer.committee.worker target synchronizer.id = .ok addresses) :
    synchronizer.Requests reads s digests target now := by
  let found := digests.foldl (lookUp reads now) (s, [])
  obtain ⟨network, awaits, missing⟩ : LookedUp reads s digests found := lookedUp digests
  have sends : synchronizer.advance reads s (.primary (.synchronize digests target) now) =
      found.1.send [addresses.workerToWorker] (.batchRequest found.2 synchronizer.name) := by
    unfold advance synchronize
    dsimp only
    rw [known]
  refine ⟨addresses, found.2, known, ?_, fun digest member absent => ?_⟩
  · rw [sends, ← network]
    rfl
  · have awaited := missing digest member absent
    refine ⟨sends ▸ awaited, fun fresh => ?_⟩
    rcases awaits digest awaited with before | named | present
    · rw [fresh] at before
      exact absurd before Bool.false_ne_true
    · exact named
    · exact absurd absent present

/-- **A retry asks workers of other authorities**, with the id of this worker. -/
theorem retry_asks {shuffled : List SocketAddr}
    (others : shuffled.Perm ((synchronizer.committee.othersWorkers synchronizer.name
      synchronizer.id).map fun entry => entry.2.workerToWorker))
    {request : List SocketAddr × WorkerMessage}
    (sent : request ∈ (synchronizer.retry s now shuffled).network) :
    request ∈ s.network ∨ ∀ address ∈ request.1, ∃ name addresses, name ≠ synchronizer.name ∧
      synchronizer.committee.worker name synchronizer.id = .ok addresses ∧
      address = addresses.workerToWorker := by
  unfold retry at sent
  dsimp only at sent
  split_ifs at sent
  · exact .inl sent
  · rcases List.mem_append.mp sent with before | new
    · exact .inl before
    · refine .inr fun address member => ?_
      rw [List.mem_singleton.mp new] at member
      obtain ⟨⟨name, addresses⟩, entry, rfl⟩ :=
        List.mem_map.mp (others.mem_iff.mp (List.mem_of_mem_take member))
      obtain ⟨different, known⟩ := Committee.mem_othersWorkers.mp entry
      exact ⟨name, addresses, different, known, rfl⟩

end Requests

end Synchronizer

end Worker

end Tusk
