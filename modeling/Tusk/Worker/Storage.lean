import Tusk.Worker.Dissemination
import Tusk.Worker.Receivers

/-!
# What a worker stores

A worker has two Processors, one for its own batches, which the QuorumWaiter passes on, and one for the
batches that arrive from other workers. They store a batch under its digest and then report the digest to
the primary. The Helper answers requests for batches from the store.

The store is addressed by content: what is found under a digest is a batch with this digest. The reports
name the batches that were processed, in order and once each, and what was reported is in the store
(`Keeps`).
-/

set_option autoImplicit false

namespace Tusk

open Lib ReliableSender

/-- The message sent by a worker to its primary. -/
inductive WorkerPrimaryMessage where
  /-- The worker has sealed and disseminated a batch. -/
  | ourBatch (digest : Digest) (workerId : WorkerId)
  /-- The worker has received a batch of another worker. -/
  | othersBatch (digest : Digest) (workerId : WorkerId)
deriving DecidableEq

namespace WorkerPrimaryMessage

/-- The batch that is reported. -/
def report : WorkerPrimaryMessage → Digest × WorkerId
  | ourBatch digest workerId => (digest, workerId)
  | othersBatch digest workerId => (digest, workerId)

/-- The report of a batch of this worker. -/
def ours : WorkerPrimaryMessage → Option (Digest × WorkerId)
  | ourBatch digest workerId => some (digest, workerId)
  | othersBatch _ _ => none

/-- The report of a batch of another worker. -/
def others : WorkerPrimaryMessage → Option (Digest × WorkerId)
  | ourBatch _ _ => none
  | othersBatch digest workerId => some (digest, workerId)

end WorkerPrimaryMessage

namespace Worker

/-- The batches in the store, by their digests. -/
abbrev Batches : Type := HashMap Digest (List UInt8)

/-- What the store answers. Some reads may fail. -/
def readsOf (store : Batches) (fails : Digest → Bool) : Synchronizer.Reads := fun digest =>
  if fails digest then .error () else .ok (HashMap.get store digest)

/-- Hashes and stores batches, it then outputs the batch's digest. -/
structure Processor where
  /-- Our worker's id. -/
  id : WorkerId
  /-- Whether we are processing our own batches or the batches of other nodes. -/
  ownDigest : Bool

/-- Store a batch, and deliver its digest. -/
def Processor.process [Primitives] (processor : Processor) (store : Batches) (batch : List UInt8) :
    Batches × WorkerPrimaryMessage :=
  let digest := Primitives.sha512 batch
  (HashMap.insert store digest batch,
    match processor.ownDigest with
    | true => .ourBatch digest processor.id
    | false => .othersBatch digest processor.id)

/-- A task dedicated to help other authorities by replying to their batch requests. -/
structure Helper where
  /-- The id of this worker. -/
  id : WorkerId
  /-- The committee information. -/
  committee : Committee

/-- Reply to a request (the best we can). -/
def Helper.reply (helper : Helper) (reads : Synchronizer.Reads) (request : List Digest × PublicKey) :
    List (SocketAddr × List UInt8) :=
  match helper.committee.worker request.2 helper.id with
  | .error _ => []
  | .ok addresses => request.1.filterMap fun digest =>
      match reads digest with
      | .ok (some data) => some (addresses.workerToWorker, data)
      | .ok none => none
      | .error _ => none

/-- The state of a worker. The channels are histories, with the number of what was taken. -/
structure Node where
  sending : Dissemination.State := { maker := { rxBatchSilent := (0, false) } }
  receiving : FromWorkers := {}
  /-- How many batches each Processor has handled. -/
  processedOwn : ℕ := 0
  processedOthers : ℕ := 0
  /-- How many requests the Helper has answered. -/
  helped : ℕ := 0
  store : Batches := ∅
  /-- The reports to the primary. -/
  txPrimary : List WorkerPrimaryMessage := []
  /-- What the Helper has sent. -/
  replies : List (SocketAddr × List UInt8) := []

/-- Something is a serialized batch. -/
def IsBatch [Bincode WorkerMessage] (bytes : List UInt8) : Prop :=
  ∃ transactions, (Bincode.deserialize bytes : Option WorkerMessage) = some (.batch transactions)

namespace Node

/-- Whether a batch is in the store. -/
def Stores (s : Node) (digest : Digest) : Prop := (HashMap.get s.store digest).isSome = true

instance (s : Node) (digest : Digest) : Decidable (s.Stores digest) :=
  inferInstanceAs (Decidable (_ = true))

/-- A message arrives from another worker. -/
def accept [Bincode WorkerMessage] (s : Node) (bytes : List UInt8) : Node :=
  { s with receiving := (workerReceiverHandler.dispatch s.receiving bytes).state }

section Steps

variable [Primitives] (worker : Worker) (s : Node)

/-- The Processor for our own batches takes the next one. -/
def processOwn : Node :=
  match s.sending.txBatch[s.processedOwn]? with
  | none => s
  | some batch =>
      let processor : Processor := ⟨worker.id, true⟩
      let (store, message) := processor.process s.store batch
      { s with
        processedOwn := s.processedOwn + 1
        store := store
        txPrimary := s.txPrimary ++ [message] }

/-- The Processor for the batches of others takes the next one. -/
def processOthers : Node :=
  match s.receiving.txProcessor[s.processedOthers]? with
  | none => s
  | some batch =>
      let processor : Processor := ⟨worker.id, false⟩
      let (store, message) := processor.process s.store batch
      { s with
        processedOthers := s.processedOthers + 1
        store := store
        txPrimary := s.txPrimary ++ [message] }

omit [Primitives] in
/-- The Helper takes the next request. Some reads may fail. -/
def help (fails : Digest → Bool) : Node :=
  match s.receiving.txHelper[s.helped]? with
  | none => s
  | some request =>
      let helper : Helper := ⟨worker.id, worker.committee⟩
      { s with
        helped := s.helped + 1
        replies := s.replies ++ helper.reply (readsOf s.store fails) request }

end Steps

/-! ## What a worker keeps -/

section Keeps

variable [Primitives] [Bincode WorkerMessage] {worker : Worker} {s : Node}

/-- **The store is addressed by content, and holds what was reported.** -/
structure Keeps (worker : Worker) (s : Node) : Prop where
  own : s.processedOwn ≤ s.sending.txBatch.length
  others : s.processedOthers ≤ s.receiving.txProcessor.length
  helped : s.helped ≤ s.receiving.txHelper.length
  storesOwn : ∀ batch ∈ s.sending.txBatch.take s.processedOwn, s.Stores (Primitives.sha512 batch)
  storesOthers : ∀ batch ∈ s.receiving.txProcessor.take s.processedOthers,
    s.Stores (Primitives.sha512 batch)
  content : ∀ digest batch, HashMap.get s.store digest = some batch → Primitives.sha512 batch = digest ∧
    (batch ∈ s.sending.txBatch ∨ batch ∈ s.receiving.txProcessor)
  queued : ∀ bytes ∈ s.receiving.txProcessor, IsBatch bytes
  reportsOwn : s.txPrimary.filterMap WorkerPrimaryMessage.ours =
    (s.sending.txBatch.take s.processedOwn).map fun batch => (Primitives.sha512 batch, worker.id)
  reportsOthers : s.txPrimary.filterMap WorkerPrimaryMessage.others =
    (s.receiving.txProcessor.take s.processedOthers).map fun batch =>
      (Primitives.sha512 batch, worker.id)
  replies : ∀ reply ∈ s.replies,
    reply.2 ∈ s.sending.txBatch ∨ reply.2 ∈ s.receiving.txProcessor

omit [Primitives] [Bincode WorkerMessage] in
theorem Stores.insert {digest other : Digest} (stores : s.Stores digest) (batch : List UInt8) :
    (HashMap.get (HashMap.insert s.store other batch) digest).isSome = true := by
  rw [HashMap.get_insert]
  split
  · rfl
  · exact stores

omit [Primitives] in
/-- What is on the channels after a message. -/
theorem accept_cases (s : Node) (bytes : List UInt8) :
    (IsBatch bytes ∧ (s.accept bytes).receiving.txProcessor = s.receiving.txProcessor ++ [bytes]) ∨
      (¬ IsBatch bytes ∧ (s.accept bytes).receiving.txProcessor = s.receiving.txProcessor) := by
  unfold accept workerReceiverHandler
  dsimp only
  split
  · next transactions read => exact .inl ⟨⟨transactions, read⟩, rfl⟩
  · next read => exact .inr ⟨fun ⟨_, other⟩ => by simp [read] at other, rfl⟩
  · next read => exact .inr ⟨fun ⟨_, other⟩ => by simp [read] at other, rfl⟩

omit [Primitives] in
theorem length_txHelper_accept (s : Node) (bytes : List UInt8) :
    s.receiving.txHelper.length ≤ (s.accept bytes).receiving.txHelper.length := by
  unfold Node.accept workerReceiverHandler
  dsimp only
  split
  · exact le_rfl
  · simp
  · exact le_rfl

/-- **A message keeps the store addressed by content.** -/
theorem Keeps.accept (keeps : Keeps worker s) (bytes : List UInt8) : Keeps worker (s.accept bytes) := by
  have prefixed : s.receiving.txProcessor <+: (s.accept bytes).receiving.txProcessor := by
    rcases accept_cases s bytes with ⟨-, more⟩ | ⟨-, same⟩
    · rw [more]
      exact List.prefix_append _ _
    · rw [same]
  have taken : (s.accept bytes).receiving.txProcessor.take s.processedOthers =
      s.receiving.txProcessor.take s.processedOthers := by
    obtain ⟨rest, whole⟩ := prefixed
    rw [← whole, List.take_append_of_le_length keeps.others]
  refine
    { own := keeps.own
      others := keeps.others.trans prefixed.length_le
      helped := keeps.helped.trans (length_txHelper_accept s bytes)
      storesOwn := keeps.storesOwn
      storesOthers := fun batch member => keeps.storesOthers batch (taken ▸ member)
      content := fun digest batch found => ?_
      queued := fun other member => ?_
      reportsOwn := keeps.reportsOwn
      reportsOthers := keeps.reportsOthers.trans (by rw [← taken]; rfl)
      replies := fun reply member =>
        (keeps.replies reply member).imp_right fun inside => prefixed.subset inside }
  · obtain ⟨same, source⟩ := keeps.content digest batch found
    exact ⟨same, source.imp_right fun member => prefixed.subset member⟩
  · rcases accept_cases s bytes with ⟨isBatch, more⟩ | ⟨-, same⟩
    · rw [more] at member
      rcases List.mem_append.mp member with old | new
      · exact keeps.queued other old
      · exact List.mem_singleton.mp new ▸ isBatch
    · exact keeps.queued other (same ▸ member)

/-- What is in the store after a batch was stored. -/
theorem Keeps.content_insert (keeps : Keeps worker s) {batch : List UInt8}
    (source : batch ∈ s.sending.txBatch ∨ batch ∈ s.receiving.txProcessor) (digest : Digest)
    (other : List UInt8)
    (found : HashMap.get (HashMap.insert s.store (Primitives.sha512 batch) batch) digest = some other) :
    Primitives.sha512 other = digest ∧
      (other ∈ s.sending.txBatch ∨ other ∈ s.receiving.txProcessor) := by
  rw [HashMap.get_insert] at found
  split at found
  · next same =>
      obtain rfl := Option.some.inj found
      exact ⟨same.symm, source⟩
  · exact keeps.content digest other found

omit [Primitives] [Bincode WorkerMessage] in
theorem take_succ {batches : List (List UInt8)} {n : ℕ} {batch : List UInt8}
    (next : batches[n]? = some batch) : batches.take (n + 1) = batches.take n ++ [batch] := by
  rw [List.take_add_one, next]
  rfl

/-- **The Processor for our own batches stores them under their digests.** -/
theorem Keeps.processOwn (keeps : Keeps worker s) : Keeps worker (s.processOwn worker) := by
  unfold Node.processOwn
  split
  · exact keeps
  · next batch next =>
      refine
        { own := (List.getElem?_eq_some_iff.mp next).1
          others := keeps.others
          helped := keeps.helped
          storesOwn := fun other member => ?_
          storesOthers := fun other member => (keeps.storesOthers other member).insert batch
          content := keeps.content_insert (.inl (List.mem_of_getElem? next))
          queued := keeps.queued
          reportsOwn := ?_
          reportsOthers := ?_
          replies := keeps.replies }
      · dsimp only at member
        rw [take_succ next] at member
        rcases List.mem_append.mp member with old | new
        · exact (keeps.storesOwn other old).insert batch
        · rw [List.mem_singleton.mp new]
          show (HashMap.get (HashMap.insert s.store _ batch) _).isSome = true
          rw [HashMap.get_insert, if_pos rfl]
          rfl
      · rw [List.filterMap_append, keeps.reportsOwn, take_succ next, List.map_append]
        rfl
      · rw [List.filterMap_append, keeps.reportsOthers]
        exact List.append_nil _

/-- **The Processor for the batches of others does so too.** -/
theorem Keeps.processOthers (keeps : Keeps worker s) : Keeps worker (s.processOthers worker) := by
  unfold Node.processOthers
  split
  · exact keeps
  · next batch next =>
      refine
        { own := keeps.own
          others := (List.getElem?_eq_some_iff.mp next).1
          helped := keeps.helped
          storesOwn := fun other member => (keeps.storesOwn other member).insert batch
          storesOthers := fun other member => ?_
          content := keeps.content_insert (.inr (List.mem_of_getElem? next))
          queued := keeps.queued
          reportsOwn := ?_
          reportsOthers := ?_
          replies := keeps.replies }
      · dsimp only at member
        rw [take_succ next] at member
        rcases List.mem_append.mp member with old | new
        · exact (keeps.storesOthers other old).insert batch
        · rw [List.mem_singleton.mp new]
          show (HashMap.get (HashMap.insert s.store _ batch) _).isSome = true
          rw [HashMap.get_insert, if_pos rfl]
          rfl
      · rw [List.filterMap_append, keeps.reportsOwn]
        exact List.append_nil _
      · rw [List.filterMap_append, keeps.reportsOthers, take_succ next, List.map_append]
        rfl

omit [Primitives] [Bincode WorkerMessage] in
/-- What the Helper sends was found under a digest that was requested. -/
theorem mem_reply {helper : Helper} {reads : Synchronizer.Reads} {request : List Digest × PublicKey}
    {reply : SocketAddr × List UInt8} : reply ∈ helper.reply reads request ↔
      (∃ addresses, helper.committee.worker request.2 helper.id = .ok addresses ∧
        reply.1 = addresses.workerToWorker) ∧
      ∃ digest ∈ request.1, reads digest = .ok (some reply.2) := by
  unfold Helper.reply
  cases found : helper.committee.worker request.2 helper.id with
  | error e => simp
  | ok addresses =>
      simp only [List.mem_filterMap, Except.ok.injEq, exists_eq_left']
      constructor
      · rintro ⟨digest, requested, sent⟩
        split at sent
        · next data read =>
            obtain rfl := Option.some.inj sent
            exact ⟨rfl, digest, requested, read⟩
        · exact absurd sent (by simp)
        · exact absurd sent (by simp)
      · rintro ⟨address, digest, requested, read⟩
        refine ⟨digest, requested, ?_⟩
        rw [read, ← address]

/-- The Helper does not touch the store. -/
theorem Keeps.help (keeps : Keeps worker s) (fails : Digest → Bool) :
    Keeps worker (s.help worker fails) := by
  unfold Node.help
  split
  · exact keeps
  · next request next =>
    refine ⟨keeps.own, keeps.others, (List.getElem?_eq_some_iff.mp next).1, keeps.storesOwn,
      keeps.storesOthers, keeps.content, keeps.queued, keeps.reportsOwn, keeps.reportsOthers,
      fun reply member => ?_⟩
    rcases List.mem_append.mp member with old | new
    · exact keeps.replies reply old
    · obtain ⟨-, digest, -, read⟩ := mem_reply.mp new
      unfold readsOf at read
      split at read
      · exact absurd read (by simp)
      · exact (keeps.content digest reply.2 (Except.ok.inj read)).2

/-- More batches are passed on. -/
theorem Keeps.send (keeps : Keeps worker s) {sending : Dissemination.State}
    (more : s.sending.txBatch <+: sending.txBatch) :
    Keeps worker { s with sending := sending } := by
  have taken : sending.txBatch.take s.processedOwn = s.sending.txBatch.take s.processedOwn := by
    obtain ⟨rest, whole⟩ := more
    rw [← whole, List.take_append_of_le_length keeps.own]
  refine
    { own := keeps.own.trans more.length_le
      others := keeps.others
      helped := keeps.helped
      storesOwn := fun batch member => keeps.storesOwn batch (taken ▸ member)
      storesOthers := keeps.storesOthers
      content := fun digest batch found => ?_
      queued := keeps.queued
      reportsOwn := keeps.reportsOwn.trans (by rw [← taken])
      reportsOthers := keeps.reportsOthers
      replies := fun reply member =>
        (keeps.replies reply member).imp_left fun inside => more.subset inside }
  obtain ⟨same, source⟩ := keeps.content digest batch found
  exact ⟨same, source.imp_left fun member => more.subset member⟩

/-- **What was reported is in the store.** -/
theorem Keeps.reported_stored (keeps : Keeps worker s) {message : WorkerPrimaryMessage}
    (reported : message ∈ s.txPrimary) :
    message.report.2 = worker.id ∧ s.Stores message.report.1 := by
  cases message with
  | ourBatch digest workerId =>
      have report : (digest, workerId) ∈ s.txPrimary.filterMap WorkerPrimaryMessage.ours :=
        List.mem_filterMap.mpr ⟨_, reported, rfl⟩
      rw [keeps.reportsOwn] at report
      obtain ⟨batch, taken, same⟩ := List.mem_map.mp report
      obtain ⟨rfl, rfl⟩ := Prod.mk.inj same
      exact ⟨rfl, keeps.storesOwn batch taken⟩
  | othersBatch digest workerId =>
      have report : (digest, workerId) ∈ s.txPrimary.filterMap WorkerPrimaryMessage.others :=
        List.mem_filterMap.mpr ⟨_, reported, rfl⟩
      rw [keeps.reportsOthers] at report
      obtain ⟨batch, taken, same⟩ := List.mem_map.mp report
      obtain ⟨rfl, rfl⟩ := Prod.mk.inj same
      exact ⟨rfl, keeps.storesOthers batch taken⟩

theorem keeps_start (worker : Worker) : Keeps worker {} where
  own := Nat.le_refl 0
  others := Nat.le_refl 0
  helped := Nat.le_refl 0
  storesOwn _ member := absurd member List.not_mem_nil
  storesOthers _ member := absurd member List.not_mem_nil
  content _ _ found := nomatch (HashMap.get_empty _).symm.trans found
  queued _ member := absurd member List.not_mem_nil
  reportsOwn := rfl
  reportsOthers := rfl
  replies _ member := absurd member List.not_mem_nil

end Keeps

end Node

end Worker

end Tusk
