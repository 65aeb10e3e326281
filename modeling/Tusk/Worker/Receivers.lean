import Tusk.Lib.Base64
import Tusk.Network.Receiver
import Tusk.Worker.BatchMaker
import Tusk.Worker.Synchronizer

/-!
# What a worker receives

A worker listens on three addresses: to its clients, to the other workers and to its primary. Each
handler sorts the messages into the channels of the tasks. Transactions go to the `BatchMaker` as they
are. The handlers for workers and for the primary reply with an ACK before they look at a message, and
go on when it cannot be decoded.

A message that pauses or resumes the worker is passed on only if its round is not below the one of the
last such message, so that messages which arrive late or twice do not bring an old state back.
-/

set_option autoImplicit false

namespace Tusk

open Lib

namespace Worker

/-- Defines how the network receiver handles incoming transactions. -/
def txReceiverHandler : MessageHandler (List Transaction) where
  dispatch txBatchMaker message := { state := txBatchMaker ++ [message] }

/-- The channels for what comes from other workers. -/
structure FromWorkers where
  txHelper : List (List Digest × PublicKey) := []
  txProcessor : List (List UInt8) := []

/-- Defines how the network receiver handles incoming workers messages. -/
def workerReceiverHandler [Bincode WorkerMessage] : MessageHandler FromWorkers where
  dispatch s serialized :=
    { state :=
        match (Bincode.deserialize serialized : Option WorkerMessage) with
        | some (.batch _) => { s with txProcessor := s.txProcessor ++ [serialized] }
        | some (.batchRequest missing requestor) =>
            { s with txHelper := s.txHelper ++ [(missing, requestor)] }
        | none => s
      responses := [ackBytes] }

/-- The channels for what comes from the primary. -/
structure FromPrimary where
  txSynchronizer : List PrimaryWorkerMessage := []
  /-- The values that were sent on the watch, the last one at the end. -/
  txBatchSilent : List (ℕ × Bool) := []

/-- The value on the watch. -/
def FromPrimary.borrow (s : FromPrimary) : ℕ × Bool := s.txBatchSilent.getLast?.getD (0, false)

/-- Defines how the network receiver handles incoming primary messages. -/
def primaryReceiverHandler [Bincode PrimaryWorkerMessage] : MessageHandler FromPrimary where
  dispatch s serialized :=
    { state :=
        match (Bincode.deserialize serialized : Option PrimaryWorkerMessage) with
        | none => s
        | some (.batchSilent round silent) =>
            if s.borrow.1 ≤ round then
              { s with txBatchSilent := s.txBatchSilent ++ [(round, silent)] }
            else s
        | some message => { s with txSynchronizer := s.txSynchronizer ++ [message] }
      responses := [ackBytes] }

theorem workerReceiverHandler_acknowledges [Bincode WorkerMessage] :
    workerReceiverHandler.Acknowledges := fun _ _ => rfl

theorem primaryReceiverHandler_acknowledges [Bincode PrimaryWorkerMessage] :
    primaryReceiverHandler.Acknowledges := fun _ _ => rfl

/-! ## The watch -/

section Watch

variable [Bincode PrimaryWorkerMessage] {s : FromPrimary} {serialized : List UInt8}

omit [Bincode PrimaryWorkerMessage] in
theorem FromPrimary.borrow_snoc (s : FromPrimary) (value : ℕ × Bool) :
    FromPrimary.borrow { s with txBatchSilent := s.txBatchSilent ++ [value] } = value := by
  simp [borrow]

/-- The value on the watch after a message: the one of the message, if its round is not too low. -/
theorem borrow_dispatch_batchSilent {round : ℕ} {silent : Bool}
    (read : Bincode.deserialize serialized = some (PrimaryWorkerMessage.batchSilent round silent)) :
    (primaryReceiverHandler.dispatch s serialized).state.borrow =
      if s.borrow.1 ≤ round then (round, silent) else s.borrow := by
  simp only [primaryReceiverHandler, read]
  split
  · exact s.borrow_snoc (round, silent)
  · rfl

end Watch

/-! ## An executable bincode

How the messages between workers are written, and how what was written is read. -/

/-- The bytes of a message: its tag, and the fields with the lengths of lists in front of them. -/
def messageBytes : WorkerMessage → List UInt8
  | .batch transactions => [0, 0, 0, 0] ++ (littleEndian 8 transactions.length ++
      transactions.flatMap fun transaction => littleEndian 8 transaction.length ++ transaction)
  | .batchRequest missing requestor => [1, 0, 0, 0] ++ (littleEndian 8 missing.length ++
      (missing.flatMap Digest.asRef ++ (littleEndian 8 44 ++
        (Base64.letters requestor.asRef).map fun letter => UInt8.ofNat letter.toNat)))

/-- Some transactions, each with its length in front. -/
def readTransactions : ℕ → List UInt8 → List Transaction
  | 0, _ => []
  | n + 1, bytes =>
      let length := ofLittleEndian (bytes.take 8)
      (bytes.drop 8).take length :: readTransactions n ((bytes.drop 8).drop length)

/-- Some digests. -/
def readDigests : ℕ → List UInt8 → List Digest
  | 0, _ => []
  | n + 1, bytes =>
      ⟨BitVec.ofNat 256 (ofLittleEndian (bytes.take 32).reverse)⟩ :: readDigests n (bytes.drop 32)

/-- Read a message. -/
def readMessage (bytes : List UInt8) : Option WorkerMessage :=
  let count := ofLittleEndian ((bytes.drop 4).take 8)
  let fields := bytes.drop 12
  if bytes.take 4 = [0, 0, 0, 0] then
    some (.batch (readTransactions count fields))
  else if bytes.take 4 = [1, 0, 0, 0] then
    let text := (fields.drop (32 * count + 8)).map fun byte => Char.ofNat byte.toNat
    some (.batchRequest (readDigests count fields)
      ⟨BitVec.ofNat 256 (ofLittleEndian (Base64.read text).reverse)⟩)
  else none

/-- bincode, on what it has written. -/
@[reducible] def executableBincode : Bincode WorkerMessage where
  serialize := messageBytes
  deserialize := readMessage

end Worker

end Tusk
