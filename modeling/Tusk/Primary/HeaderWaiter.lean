import Tusk.Primary.Core

/-!
# The header waiter

The `HeaderWaiter` takes the headers that the Core has suspended. It asks for the batches and the
certificates that are missing, waits until all of them are in the store, and returns the header to the
Core. A waiter ends without a result when its entry among the pending headers is gone, because the
other end of its channel is dropped with the entry.

What the requests for batches name is described by `requestBatches_spec`: every missing digest for which
no request is recorded is put with the others of its worker id, once.
-/

set_option autoImplicit false

namespace Tusk

open Lib

/-- The address on which a worker of an authority listens to its primary. -/
def Committee.workerAddress (committee : Committee) (name : PublicKey) (id : WorkerId) :
    Option SocketAddr :=
  match committee.worker name id with
  | .ok addresses => some addresses.primaryToWorker
  | .error _ => none

theorem Committee.workerAddress_eq_some_iff {committee : Committee} {name : PublicKey}
    {id : WorkerId} {address : SocketAddr} :
    committee.workerAddress name id = some address ↔
      ∃ addresses, committee.worker name id = .ok addresses ∧
        addresses.primaryToWorker = address := by
  unfold workerAddress
  cases committee.worker name id <;> simp

/-- The messages sent by the primary to its workers. -/
inductive PrimaryWorkerMessage where
  /-- The primary indicates that the worker need to sync the target missing batches. -/
  | synchronize (digests : List Digest) (target : PublicKey)
  /-- The primary indicates a round update. -/
  | cleanup (round : ℕ)
  /-- Pause or resume local batch production for a proposer round. -/
  | batchSilent (round : ℕ) (silent : Bool)
deriving DecidableEq

/-- The digests of batches that a message names. -/
def PrimaryWorkerMessage.digests : PrimaryWorkerMessage → List Digest
  | synchronize digests _ => digests
  | _ => []

/-- The HeaderWaiter: what does not change during a run. -/
structure HeaderWaiter where
  /-- The name of this authority. -/
  name : PublicKey
  /-- The committee information. -/
  committee : Committee
  /-- The depth of the garbage collector. -/
  gcDepth : ℕ
  /-- The delay to wait before re-trying sync requests. -/
  syncRetryDelay : ℕ
  /-- Determine with how many nodes to sync when re-trying to send sync-request. -/
  syncRetryNodes : ℕ

namespace HeaderWaiter

/-- A header that waits for keys of the store. -/
structure Waiter where
  number : ℕ
  waitFor : List (List UInt8)
  deliver : Header

/-- The state of the HeaderWaiter, with what it has sent. -/
structure State where
  /-- The headers that are waiting, by id, with their rounds and the numbers of their waiters. -/
  pending : HashMap Digest (ℕ × ℕ) := ∅
  /-- The batches for which we sent a sync request, with the rounds of the headers. -/
  batchRequests : HashMap Digest ℕ := ∅
  /-- The certificates for which we sent a sync request, with the rounds of the headers and the times
  of the requests. -/
  parentRequests : HashMap Digest (ℕ × ℕ) := ∅
  /-- The waiters that have not ended. -/
  waiting : List Waiter := []
  /-- The number of the next waiter. -/
  waiters : ℕ := 0
  /-- What was sent to workers. -/
  toWorkers : List (SocketAddr × PrimaryWorkerMessage) := []
  /-- What was sent to primaries. -/
  toPrimaries : List (List SocketAddr × PrimaryMessage) := []
  /-- The headers returned to the Core. -/
  txCore : List Header := []
  /-- An assertion has stopped the task. -/
  panicked : Bool := false

namespace State

/-- Whether a header is waiting. -/
def waits (s : State) (h : Header) : Bool := (HashMap.get s.pending h.id).isSome

/-- Add a header to the waiter pool. -/
def await (s : State) (message : WaiterMessage) : State :=
  { s with
    pending := HashMap.insert s.pending message.deliver.id (message.deliver.round, s.waiters)
    waiting := s.waiting ++ [⟨s.waiters, message.waitFor, message.deliver⟩]
    waiters := s.waiters + 1 }

end State

/-- Record a request for a batch, unless there is one. -/
def requestBatch (round : ℕ) (requests : HashMap Digest ℕ × HashMap WorkerId (List Digest))
    (entry : Digest × WorkerId) : HashMap Digest ℕ × HashMap WorkerId (List Digest) :=
  match HashMap.get requests.1 entry.1 with
  | some _ => requests
  | none =>
      (HashMap.insert requests.1 entry.1 round,
        HashMap.upsert requests.2 entry.2 fun digests => digests.getD [] ++ [entry.1])

/-- Record the requests for batches. The result has the digests to request, by worker id. -/
def requestBatches (round : ℕ) (recorded : HashMap Digest ℕ) (missing : List (Digest × WorkerId)) :
    HashMap Digest ℕ × HashMap WorkerId (List Digest) :=
  missing.foldl (requestBatch round) (recorded, ∅)

/-- Record a request for a certificate, unless there is one. -/
def requestParent (round now : ℕ) (requests : HashMap Digest (ℕ × ℕ) × List Digest)
    (digest : Digest) : HashMap Digest (ℕ × ℕ) × List Digest :=
  match HashMap.get requests.1 digest with
  | some _ => requests
  | none => (HashMap.insert requests.1 digest (round, now), requests.2 ++ [digest])

variable (waiter : HeaderWaiter)

/-- The requests for the batches of an author, and whether its worker is unknown, which stops the
task. -/
def sendRequests (author : PublicKey) :
    List (WorkerId × List Digest) → List (SocketAddr × PrimaryWorkerMessage) × Bool
  | [] => ([], false)
  | (workerId, digests) :: requests =>
      match waiter.committee.worker author workerId with
      | .ok addresses =>
          let (sent, panicked) := sendRequests author requests
          ((addresses.primaryToWorker, .synchronize digests author) :: sent, panicked)
      -- Author of valid header is not in the committee.
      | .error _ => ([], true)

/-- Synch the payload of a header. -/
def syncBatches (s : State) (missing : HashMap Digest WorkerId) (h : Header) : State :=
  let s := s.await (.syncBatches missing h)
  -- Ensure we didn't already send a sync request for these batches.
  let (batchRequests, requiresSync) :=
    requestBatches h.round s.batchRequests (HashMap.items missing)
  let (sent, panicked) := waiter.sendRequests h.author (HashMap.items requiresSync)
  { s with
    batchRequests := batchRequests
    toWorkers := s.toWorkers ++ sent
    panicked := panicked }

/-- Synch the parents of a header. -/
def syncParents (s : State) (missing : List Digest) (h : Header) (now : ℕ) : State :=
  let s := s.await (.syncParents missing h)
  -- Ensure we didn't already sent a sync request for these parents.
  let (parentRequests, requiresSync) :=
    missing.foldl (requestParent h.round now) (s.parentRequests, [])
  let s := { s with parentRequests := parentRequests }
  if requiresSync.isEmpty then
    s
  else
    match waiter.committee.primary h.author with
    | .ok addresses =>
        { s with
          toPrimaries := s.toPrimaries ++
            [([addresses.primaryToPrimary], .certificatesRequest requiresSync waiter.name)] }
    -- Author of valid header not in the committee.
    | .error _ => { s with panicked := true }

/-- The payload or the parents of a header are missing. -/
def synchronize (s : State) (now : ℕ) : WaiterMessage → State
  | .syncBatches missing h => waiter.syncBatches s missing h
  | .syncParents missing h => waiter.syncParents s missing h now

/-- A waiter has all its keys. Its header is returned to the Core. -/
def deliver (s : State) (h : Header) : State :=
  { s with
    pending := HashMap.remove s.pending h.id
    batchRequests := h.payload.keys.foldl HashMap.remove s.batchRequests
    parentRequests := h.parents.toList.foldl HashMap.remove s.parentRequests
    txCore := s.txCore ++ [h] }

/-- The timer expires. The requests for certificates that got no reply are sent to other nodes, which
are the first of the other primaries after these were shuffled. -/
def retry (s : State) (now : ℕ) (shuffled : List SocketAddr) : State :=
  let late := (HashMap.items s.parentRequests).filter fun entry =>
    decide (entry.2.2 + waiter.syncRetryDelay < now)
  { s with
    toPrimaries := s.toPrimaries ++ [(shuffled.take waiter.syncRetryNodes,
      .certificatesRequest (late.map Prod.fst) waiter.name)] }

/-- Cleanup internal state. -/
def cleanup (s : State) (consensusRound : ℕ) : State :=
  if waiter.gcDepth < consensusRound then
    let gcRound := consensusRound - waiter.gcDepth
    { s with
      pending := HashMap.retain (fun _ entry => if gcRound < entry.1 then some entry else none) s.pending
      batchRequests :=
        HashMap.retain (fun _ round => if gcRound < round then some round else none) s.batchRequests
      parentRequests :=
        HashMap.retain (fun _ entry => if gcRound < entry.1 then some entry else none)
          s.parentRequests }
  else s

/-- What the HeaderWaiter receives. -/
inductive Event where
  /-- Receives sync commands from the `Synchronizer`. -/
  | synchronizer (message : WaiterMessage) (now : ℕ)
  /-- A waiter has all its keys. -/
  | delivered (number : ℕ)
  /-- A waiter is cancelled. -/
  | cancelled (number : ℕ)
  /-- The timer expires. -/
  | timer (now : ℕ) (shuffled : List SocketAddr)

/-- The state after an event. A header is synched only once, and then the cleanup is left out. -/
def advance (s : State) (consensusRound : ℕ) (event : Event) : State :=
  if s.panicked then
    s
  else
    match event with
    | .synchronizer message now =>
        if s.waits message.deliver then
          s
        else
          let s := waiter.synchronize s now message
          if s.panicked then s else waiter.cleanup s consensusRound
    | .delivered number =>
        match s.waiting.find? fun other => decide (other.number = number) with
        | some ended =>
            let waiting := s.waiting.filter fun other => decide (other.number ≠ number)
            waiter.cleanup (deliver { s with waiting := waiting } ended.deliver) consensusRound
        | none => s
    | .cancelled number =>
        let waiting := s.waiting.filter fun other => decide (other.number ≠ number)
        waiter.cleanup { s with waiting := waiting } consensusRound
    | .timer now shuffled => waiter.cleanup (waiter.retry s now shuffled) consensusRound

/-! ## The requests for batches -/

section Requests

variable {round : ℕ} {recorded : HashMap Digest ℕ} {missing : List (Digest × WorkerId)}

/-- The digests of a worker for which no request is recorded. -/
def toRequest (recorded : HashMap Digest ℕ) (missing : List (Digest × WorkerId))
    (workerId : WorkerId) : List Digest :=
  (missing.filter fun entry =>
    decide (entry.2 = workerId ∧ HashMap.get recorded entry.1 = none)).map Prod.fst

theorem mem_toRequest {workerId : WorkerId} {digest : Digest} :
    digest ∈ toRequest recorded missing workerId ↔
      (digest, workerId) ∈ missing ∧ HashMap.get recorded digest = none := by
  unfold toRequest
  simp only [List.mem_map, List.mem_filter, decide_eq_true_eq, Prod.exists]
  constructor
  · rintro ⟨digest, workerId, ⟨member, rfl, absent⟩, rfl⟩
    exact ⟨member, absent⟩
  · rintro ⟨member, absent⟩
    exact ⟨digest, workerId, ⟨member, rfl, absent⟩, rfl⟩

theorem requestBatches_snoc (entry : Digest × WorkerId) :
    requestBatches round recorded (missing ++ [entry]) =
      requestBatch round (requestBatches round recorded missing) entry := by
  rw [requestBatches, List.foldl_append]
  rfl

/-- Requests are recorded for the missing digests only. -/
theorem requestBatches_fst {digest : Digest} (other : digest ∉ missing.map Prod.fst) :
    HashMap.get (requestBatches round recorded missing).1 digest = HashMap.get recorded digest := by
  induction missing using List.reverseRecOn with
  | nil => rfl
  | append_singleton missing entry ih =>
      rw [List.map_append, List.mem_append, not_or, List.map_singleton, List.mem_singleton] at other
      rw [requestBatches_snoc, requestBatch]
      split
      · exact ih other.1
      · rw [HashMap.get_insert, if_neg other.2]
        exact ih other.1

/-- **Each missing digest without a request is put with those of its worker id, once.** -/
theorem requestBatches_spec (distinct : (missing.map Prod.fst).Nodup) (workerId : WorkerId) :
    HashMap.get (requestBatches round recorded missing).2 workerId =
      if toRequest recorded missing workerId = [] then none
      else some (toRequest recorded missing workerId) := by
  induction missing using List.reverseRecOn with
  | nil => rfl
  | append_singleton missing entry ih =>
      obtain ⟨digest, workerId'⟩ := entry
      rw [List.map_append, List.nodup_append] at distinct
      have fresh : digest ∉ missing.map Prod.fst := fun member =>
        distinct.2.2 digest member digest (List.mem_singleton_self _) rfl
      have more : toRequest recorded (missing ++ [(digest, workerId')]) workerId =
          toRequest recorded missing workerId ++
            if workerId' = workerId ∧ HashMap.get recorded digest = none then [digest] else [] := by
        rw [toRequest, List.filter_append, List.map_append, ← toRequest]
        by_cases asked : workerId' = workerId ∧ HashMap.get recorded digest = none
        · simp [asked]
        · simp [asked]
      rw [requestBatches_snoc, requestBatch, requestBatches_fst fresh, more]
      cases HashMap.get recorded digest with
      | some round' => simpa using ih distinct.1
      | none =>
          dsimp only
          rw [HashMap.get_upsert]
          by_cases same : workerId = workerId'
          · subst same
            rw [ih distinct.1]
            by_cases none : toRequest recorded missing workerId = [] <;> simp [none]
          · rw [if_neg same, ih distinct.1]
            simp [Ne.symm same]

/-- The requests are for the digests of a worker that are to be requested, when there are some. -/
theorem mem_requestBatches (distinct : (missing.map Prod.fst).Nodup) {workerId : WorkerId}
    {digests : List Digest} :
    (workerId, digests) ∈ HashMap.items (requestBatches round recorded missing).2 ↔
      digests = toRequest recorded missing workerId ∧ digests ≠ [] := by
  rw [HashMap.mem_items, requestBatches_spec distinct]
  by_cases none : toRequest recorded missing workerId = []
  · rw [if_pos none]
    refine iff_of_false (fun impossible => nomatch impossible) ?_
    rintro ⟨rfl, some⟩
    exact some none
  · rw [if_neg none, Option.some_inj]
    constructor
    · rintro rfl
      exact ⟨rfl, none⟩
    · exact fun same => same.1.symm

/-- **The requests name every missing digest without a recorded request once.** -/
theorem requestBatches_perm (distinct : (missing.map Prod.fst).Nodup) :
    ((HashMap.items (requestBatches round recorded missing).2).flatMap Prod.snd).Perm
      ((missing.filter fun entry => decide (HashMap.get recorded entry.1 = none)).map Prod.fst) := by
  have unique : ((missing.filter fun entry =>
      decide (HashMap.get recorded entry.1 = none)).map Prod.fst).Nodup :=
    distinct.sublist (List.filter_sublist.map _)
  have apart : ((HashMap.items (requestBatches round recorded missing).2).flatMap
      Prod.snd).Nodup := by
    refine List.nodup_flatMap.mpr ⟨fun request member => ?_, ?_⟩
    · obtain ⟨same, -⟩ := (mem_requestBatches distinct).mp member
      rw [same]
      exact distinct.sublist (List.filter_sublist.map _)
    · have workers := List.pairwise_map.mp
        (HashMap.items_keys_nodup (requestBatches round recorded missing).2)
      refine workers.imp_of_mem fun {request other} member member' different digest inside inside' => ?_
      rw [((mem_requestBatches distinct).mp member).1] at inside
      rw [((mem_requestBatches distinct).mp member').1] at inside'
      -- a digest is missing from one worker
      have same := List.inj_on_of_nodup_map distinct (mem_toRequest.mp inside).1
        (mem_toRequest.mp inside').1 rfl
      exact different (congrArg Prod.snd same)
  refine (List.perm_ext_iff_of_nodup apart unique).mpr fun digest => ?_
  rw [List.mem_flatMap]
  constructor
  · rintro ⟨⟨workerId, digests⟩, member, inside⟩
    obtain ⟨rfl, -⟩ := (mem_requestBatches distinct).mp member
    obtain ⟨among, absent⟩ := mem_toRequest.mp inside
    exact List.mem_map.mpr ⟨_, List.mem_filter.mpr ⟨among, decide_eq_true absent⟩, rfl⟩
  · intro member
    obtain ⟨⟨digest, workerId⟩, among, rfl⟩ := List.mem_map.mp member
    obtain ⟨inside, absent⟩ := List.mem_filter.mp among
    have requested : digest ∈ toRequest recorded missing workerId :=
      mem_toRequest.mpr ⟨inside, of_decide_eq_true absent⟩
    exact ⟨(workerId, _), (mem_requestBatches distinct).mpr
      ⟨rfl, List.ne_nil_of_mem requested⟩, requested⟩

end Requests

section Sending

variable {waiter : HeaderWaiter} {author : PublicKey} {requests : List (WorkerId × List Digest)}

/-- Every message is a request to the worker of the author with the id of the request. -/
theorem mem_sendRequests {message : SocketAddr × PrimaryWorkerMessage}
    (member : message ∈ (waiter.sendRequests author requests).1) :
    ∃ request ∈ requests, waiter.committee.workerAddress author request.1 = some message.1 ∧
      message.2 = .synchronize request.2 author := by
  induction requests with
  | nil => exact absurd member List.not_mem_nil
  | cons request requests ih =>
      unfold sendRequests at member
      cases found : waiter.committee.worker author request.1 with
      | error e =>
          rw [found] at member
          exact absurd member List.not_mem_nil
      | ok addresses =>
          rw [found] at member
          rcases List.mem_cons.mp member with rfl | later
          · have address := Committee.workerAddress_eq_some_iff.mpr ⟨addresses, found, rfl⟩
            exact ⟨request, List.mem_cons_self, address, rfl⟩
          · obtain ⟨request', among, sent⟩ := ih later
            exact ⟨request', List.mem_cons_of_mem _ among, sent⟩

/-- When the workers of the author are known, all requests are sent. -/
theorem digests_sendRequests
    (known : ∀ request ∈ requests, waiter.committee.workerAddress author request.1 ≠ none) :
    ((waiter.sendRequests author requests).1.flatMap fun message => message.2.digests) =
      requests.flatMap Prod.snd := by
  induction requests with
  | nil => rfl
  | cons request requests ih =>
      obtain ⟨first, rest⟩ := List.forall_mem_cons.mp known
      obtain ⟨address, found⟩ := Option.ne_none_iff_exists'.mp first
      obtain ⟨addresses, found, -⟩ := Committee.workerAddress_eq_some_iff.mp found
      unfold sendRequests
      rw [found]
      dsimp only
      rw [List.flatMap_cons, List.flatMap_cons, ih rest]
      rfl

/-- What the HeaderWaiter sends for a header that lacks batches. -/
theorem toWorkers_syncBatches (s : State) (consensusRound now : ℕ) (running : s.panicked = false)
    (missing : HashMap Digest WorkerId) (h : Header) :
    (waiter.advance s consensusRound (.synchronizer (.syncBatches missing h) now)).toWorkers =
      s.toWorkers ++ if s.waits h then [] else
        (waiter.sendRequests h.author (HashMap.items
          (requestBatches h.round s.batchRequests (HashMap.items missing)).2)).1 := by
  have kept : ∀ t : State, (waiter.cleanup t consensusRound).toWorkers = t.toWorkers := by
    intro t
    unfold cleanup
    split <;> rfl
  unfold advance
  rw [running, if_neg Bool.false_ne_true]
  show (if s.waits h then s else if (waiter.syncBatches s missing h).panicked
    then waiter.syncBatches s missing h
    else waiter.cleanup (waiter.syncBatches s missing h) consensusRound).toWorkers = _
  split_ifs
  · exact (List.append_nil _).symm
  · rfl
  · rw [kept]
    rfl

end Sending

end HeaderWaiter

end Tusk
