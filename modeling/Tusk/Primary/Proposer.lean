import Tusk.Primary.Adversary
import Tusk.Primary.Messages

/-!
# The Proposer

The `Proposer` collects the digests of batches from the workers of this primary, and it makes a
header of them when it has parents for its round, and enough digests or waited long enough. The
Core sends it the parents, and with parents of a round it advances to the next one. In a round in
which the simulated adversary is silent it drops the parents and keeps the digests.

A pass of the main loop first checks whether to make a header and then takes one event. Whether the
timer has expired by then is part of the input.
-/

set_option autoImplicit false

namespace Tusk

open Lib

/-- The size of a digest in bytes. -/
def Digest.size (digest : Digest) : ℕ := digest.asRef.length

/-- The Proposer: what does not change during a run. -/
structure Proposer where
  /-- The public key of this primary. -/
  name : PublicKey
  /-- The committee information. -/
  committee : Committee
  /-- How many authorities are silent in a round. -/
  adversaryFaults : ℕ
  /-- The seed of the simulated adversary. -/
  adversarySeed : ℕ
  /-- Whether the workers pause in silent rounds. -/
  pauseBatchesDuringSilence : Bool
  /-- Service to sign headers. -/
  requestSignature : Digest → Signature
  /-- The size of the headers' payload. -/
  headerSize : ℕ

namespace Proposer

/-- The state of the Proposer, with what it has sent. -/
structure State where
  /-- The current round of the dag. -/
  round : ℕ
  /-- Whether this primary is silent in the round. -/
  silent : Bool
  /-- Holds the certificates' ids waiting to be included in the next header. -/
  lastParents : List Digest
  /-- Holds the batches' digests waiting to be included in the next header. -/
  digests : List (Digest × WorkerId)
  /-- Keeps track of the size (in bytes) of batches' digests that we received so far. -/
  payloadSize : ℕ
  /-- The headers sent to the `Core`. -/
  txCore : List Header
  /-- What was sent to the workers: a round, and whether they pause in it. -/
  workerNetwork : List (ℕ × Bool)
  round_lt : round < 2 ^ 64

/-- What the Proposer receives. -/
inductive Event where
  /-- The parents to include in the next header (along with their round number). -/
  | parents (digests : List Digest) (round : ℕ)
  /-- A batch's digest from one of our workers. -/
  | report (digest : Digest) (workerId : WorkerId)
  /-- The timer expires. -/
  | timer

variable [Primitives] (proposer : Proposer)

/-- The authorities of the committee. -/
def authorities : List PublicKey := proposer.committee.authorities.keys

/-- Whether this primary is silent in a round. -/
def selected (round : ℕ) : Bool :=
  Adversary.selected proposer.name proposer.authorities round proposer.adversaryFaults
    proposer.adversarySeed

/-- Enter a round, and tell the workers if there is an adversary. -/
def enterRound (s : State) (round : ℕ) (round_lt : round < 2 ^ 64) : State :=
  let silent := proposer.selected round
  { s with
    round := round
    silent := silent
    workerNetwork :=
      if proposer.adversaryFaults = 0 then s.workerNetwork
      else s.workerNetwork ++ [(round, silent && proposer.pauseBatchesDuringSilence)]
    round_lt := round_lt }

/-- Make a new header of the digests and parents, and send it to the `Core`. -/
def makeHeader (s : State) : State :=
  let header := Header.new proposer.name s.round (.ofList s.digests) (.ofList s.lastParents)
    proposer.requestSignature s.round_lt
  { s with
    lastParents := []
    digests := []
    txCore := s.txCore ++ [header] }

/-- Check if we can propose a new header. -/
def checkProposal (s : State) (timerExpired : Bool) : State :=
  if (timerExpired = true ∨ proposer.headerSize ≤ s.payloadSize) ∧ s.lastParents ≠ [] then
    if s.silent then
      { s with lastParents := [] }
    else
      { proposer.makeHeader s with payloadSize := 0 }
  else
    s

/-- Take an event. -/
def receive (s : State) : Event → State
  | .parents digests round =>
      if round < s.round then s
      else
        { proposer.enterRound s ((round + 1) % 2 ^ 64) (Nat.mod_lt _ (by decide)) with
          lastParents := digests }
  | .report digest workerId =>
      { s with
        payloadSize := s.payloadSize + digest.size
        digests := s.digests ++ [(digest, workerId)] }
  | .timer => s

/-- One pass of the main loop: the check, and then an event. -/
def pass (s : State) (input : Bool × Event) : State :=
  proposer.receive (proposer.checkProposal s input.1) input.2

/-- The digests of the genesis. -/
def genesis : List Digest := (Certificate.genesis proposer.committee).map Certificate.digest

/-- The state in which the main loop starts. -/
def start : State :=
  let s : State :=
    { round := 1
      silent := false
      lastParents := proposer.genesis
      digests := []
      payloadSize := 0
      txCore := []
      workerNetwork := []
      round_lt := Header.round_one_lt }
  proposer.enterRound s 1 Header.round_one_lt

/-- The state after a run. -/
def run (inputs : List (Bool × Event)) : State := inputs.foldl proposer.pass proposer.start

end Proposer

end Tusk
