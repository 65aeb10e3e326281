import Tusk.Lib.Commands
import Tusk.Primary.Aggregators
import Tusk.Primary.Store

/-!
# The state of the Core

What the Core keeps between two messages, the store it shares with the other tasks of the primary,
and everything it has sent so far on its channels and on the network. The channels are histories:
nothing is ever taken out, so that what a task may receive can be read off the state.

Processing a message may be interrupted by an error, which is logged, or by a failed assertion,
which stops the node. The changes made before the interruption stay.
-/

set_option autoImplicit false

namespace Tusk

open Lib

/-- The messages between primaries. -/
inductive PrimaryMessage where
  | header (h : Header)
  | vote (v : Vote)
  | certificate (c : Certificate)
  | certificatesRequest (digests : List Digest) (requestor : PublicKey)

/-- The commands for the `HeaderWaiter`. -/
inductive WaiterMessage where
  | syncBatches (missing : HashMap Digest WorkerId) (h : Header)
  | syncParents (missing : List Digest) (h : Header)

namespace WaiterMessage

/-- The header to deliver. -/
def deliver : WaiterMessage → Header
  | syncBatches _ h => h
  | syncParents _ h => h

/-- The keys to wait for. -/
def waitFor : WaiterMessage → List (List UInt8)
  | syncBatches missing _ =>
      (HashMap.items missing).map fun entry => Store.payloadKey entry.1 entry.2
  | syncParents missing _ => missing.map Digest.asRef

end WaiterMessage

/-- The assertions that stop the node. -/
inductive Panic where
  /-- Failed to process our own vote. -/
  | ownVote
  /-- Author of valid header is not in the committee. -/
  | unknownAuthor
  /-- Failed to process valid certificate. -/
  | validCertificate
  /-- Unexpected core message. -/
  | unexpectedMessage
  /-- Storage failure: killing node. -/
  | storage
deriving DecidableEq

/-- Why processing a message ends early. -/
inductive Interrupt where
  | error (e : DagError)
  | panic (p : Panic)
deriving DecidableEq

/-- A computation that must not fail. -/
def Interrupt.expect (p : Panic) : Interrupt → Interrupt
  | error _ => panic p
  | panic q => panic q

/-- The Core: what does not change during a run. `requestSignature` is the signature service. -/
structure Core where
  /-- The public key of this primary. -/
  name : PublicKey
  /-- The committee information. -/
  committee : Committee
  /-- The depth of the garbage collector. -/
  gcDepth : ℕ
  /-- Service to sign headers. -/
  requestSignature : Digest → Signature

namespace Core

/-- The state of the Core and of what it shares with the other tasks. -/
structure State where
  /-- The persistent storage. -/
  store : Store := ∅
  /-- The current consensus round (used for cleanup). -/
  consensusRound : ℕ := 0
  /-- The last garbage collected round. -/
  gcRound : ℕ := 0
  /-- The authors of the last voted headers. -/
  lastVoted : HashMap ℕ (Finset PublicKey) := ∅
  /-- The set of headers we are currently processing. -/
  processing : HashMap ℕ (Finset Digest) := ∅
  /-- The last header we proposed (for which we are waiting votes). -/
  currentHeader : Header := default
  /-- Aggregates votes into a certificate. -/
  votesAggregator : VotesAggregator := .new
  /-- Aggregates certificates to use as parents for new headers. -/
  certificatesAggregators : HashMap ℕ CertificatesAggregator := ∅
  /-- The votes created so far, each with its header. -/
  votesCreated : List (Header × Vote) := []
  /-- What was sent to other primaries. -/
  network : List (List SocketAddr × PrimaryMessage) := []
  /-- What was sent to the `HeaderWaiter`. -/
  txHeaderWaiter : List WaiterMessage := []
  /-- What was sent to the `CertificateWaiter`. -/
  txCertificateWaiter : List Certificate := []
  /-- What was sent to the `Proposer`. -/
  txProposer : List (List Digest × ℕ) := []
  /-- What was sent to the consensus layer. -/
  txConsensus : List Certificate := []
  /-- The assertion that stopped the node. -/
  halted : Option Panic := none

namespace State

/-- Indicate that we are processing a header. -/
def startProcessing (s : State) (header : Header) : State :=
  { s with processing := HashMap.adjoin s.processing header.round header.id }

/-- Suspend a header until the `HeaderWaiter` has what it lacks. -/
def syncHeader (s : State) (message : WaiterMessage) : State :=
  { s with txHeaderWaiter := s.txHeaderWaiter ++ [message] }

/-- Suspend a certificate until the `CertificateWaiter` has its parents. -/
def syncCertificate (s : State) (certificate : Certificate) : State :=
  { s with txCertificateWaiter := s.txCertificateWaiter ++ [certificate] }

/-- Store a header. -/
def storeHeader (s : State) (header : Header) : State :=
  { s with store := s.store.write header.id.asRef (.header header) }

/-- Record that the author of a header has our vote for its round, and the vote. -/
def createVote (s : State) (header : Header) (vote : Vote) : State :=
  { s with
    lastVoted := HashMap.adjoin s.lastVoted header.round header.author
    votesCreated := s.votesCreated ++ [(header, vote)] }

/-- Send a message to other primaries. -/
def send (s : State) (addresses : List SocketAddr) (message : PrimaryMessage) : State :=
  { s with network := s.network ++ [(addresses, message)] }

/-- Start to collect the votes for a header of this primary. -/
def propose (s : State) (header : Header) : State :=
  { s with currentHeader := header, votesAggregator := .new }

/-- Store a certificate, count it as a parent for the next round, tell the `Proposer` when the
parents are enough, and send it to the consensus layer. -/
def deliver [Primitives] (s : State) (committee : Committee) (certificate : Certificate) :
    State :=
  let aggregator := (HashMap.get s.certificatesAggregators certificate.round).getD .new
  let (aggregator, parents) := aggregator.append certificate committee
  { s with
    store := s.store.write certificate.digest.asRef (.certificate certificate)
    certificatesAggregators :=
      HashMap.insert s.certificatesAggregators certificate.round aggregator
    txProposer := s.txProposer ++ parents.toList.map fun digests => (digests, certificate.round)
    txConsensus := s.txConsensus ++ [certificate] }

/-- Cleanup internal state. -/
def cleanup (s : State) (gcDepth : ℕ) : State :=
  let round := s.consensusRound
  if gcDepth < round then
    let gcRound := round - gcDepth
    { s with
      lastVoted := HashMap.retainKeys (gcRound ≤ ·) s.lastVoted
      processing := HashMap.retainKeys (gcRound ≤ ·) s.processing
      certificatesAggregators := HashMap.retainKeys (gcRound ≤ ·) s.certificatesAggregators
      gcRound := gcRound }
  else s

end State

/-- A computation of the Core. -/
abbrev CoreM (α : Type) : Type := Command Interrupt State α

/-- Go on when a check succeeds, and end with its error otherwise. -/
def check {α : Type} (result : Except DagError α) : CoreM α :=
  Command.ofExcept (result.mapError .error)

end Core

end Tusk
