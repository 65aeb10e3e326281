import Tusk.Lib.Runs
import Tusk.Primary.Synchronizer

/-!
# The Core

The Core votes for headers, turns the votes for its own header into a certificate, and hands
certificates whose parents it has to the consensus. `processHeader`, `processVote` and
`processCertificate` call each other: a header of this primary is voted for, the vote may complete
a certificate, and the header of a certificate is processed. Each of the three is written with the
one it calls as a parameter, and `processHeader` ties them together to a depth of two.
`processHeader_eq` says that the depth does not show: the three functions satisfy the equations of
the source.

A step of the Core takes one message from one of its four channels and then cleans up. Beside the
Core, workers report batches to the store and the consensus advances its round. `Admissible` says
what the other tasks of the primary may put on the channels: the waiters return what they were
given once the keys they wait for are in the store, and the `Proposer` makes headers from the
parents it was sent.
-/

set_option autoImplicit false

namespace Tusk

open Lib

namespace Core

variable [Primitives] (node : Core)

/-! ## Headers -/

/-- Ensure the parents are all from the previous round, and add up their stake. -/
def sumParents (header : Header) : List Certificate → Stake → Except DagError Stake
  | [], stake => .ok stake
  | x :: parents, stake => do
      ensure ((x.round + 1) % 2 ^ 64 = header.round) (.malformedHeader header.id)
      sumParents header parents (stake + node.committee.stake x.origin)

/-- Ensure the parents form a quorum and are all from the previous round. -/
def checkParents (header : Header) (parents : List Certificate) : Except DagError Unit := do
  let stake ← node.sumParents header parents 0
  ensure (node.committee.quorumThreshold ≤ stake) (.headerRequiresQuorum header.id)

/-- Check a header. The result is false when the processing of the header is suspended. -/
def checkHeader (header : Header) : CoreM Bool := do
  modify fun s => s.startProcessing header
  let parents ← node.getParents header
  if parents.isEmpty then
    return false
  else
    check (node.checkParents header parents)
    let missing ← node.missingPayload header
    return !missing

/-- The vote of this primary for a header. -/
def voteFor (header : Header) : Vote := Vote.new header node.name node.requestSignature

/-- Vote for a header if we did not vote for its author and round yet. -/
def castVote (processVote : Vote → CoreM Unit) (header : Header) : CoreM Unit := do
  let s ← get
  if header.author ∈ HashMap.bucket s.lastVoted header.round then
    return
  else
    -- Make a vote and send it to the header's creator.
    let vote := node.voteFor header
    modify fun s => s.createVote header vote
    if vote.origin = node.name then
      (processVote vote).interruptWith (Interrupt.expect .ownVote)
    else
      let address ← Command.ofExcept
        ((node.committee.primary header.author).mapError fun _ => .panic .unknownAuthor)
      modify fun s => s.send [address.primaryToPrimary] (.vote vote)

/-- `process_header`, given `process_vote`. -/
def processHeaderWith (processVote : Vote → CoreM Unit) (header : Header) : CoreM Unit := do
  let ready ← node.checkHeader header
  if ready then
    modify fun s => s.storeHeader header
    -- Check if we can vote for this header.
    node.castVote processVote header
  else
    return

/-! ## Votes and certificates -/

/-- The addresses of the other primaries. -/
def others : List SocketAddr :=
  (node.committee.othersPrimaries node.name).map fun entry => entry.2.primaryToPrimary

/-- `process_vote`, given `process_certificate`. -/
def processVoteWith (processCertificate : Certificate → CoreM Unit) (vote : Vote) :
    CoreM Unit := do
  -- Add it to the votes' aggregator and try to make a new certificate.
  let s ← get
  let (aggregator, assembled) ←
    check (s.votesAggregator.append vote node.committee s.currentHeader)
  modify fun s => { s with votesAggregator := aggregator }
  match assembled with
  | none => return
  | some certificate =>
      modify fun s => s.send node.others (.certificate certificate)
      (processCertificate certificate).interruptWith (Interrupt.expect .validCertificate)

/-- Process the header embedded in a certificate if we haven't already. -/
def processEmbedded (processHeader : Header → CoreM Unit) (certificate : Certificate) :
    CoreM Unit := do
  let s ← get
  if certificate.header.id ∉ HashMap.bucket s.processing certificate.header.round then
    processHeader certificate.header
  else
    return

/-- `process_certificate`, given `process_header`. -/
def processCertificateWith (processHeader : Header → CoreM Unit) (certificate : Certificate) :
    CoreM Unit := do
  processEmbedded processHeader certificate
  -- Ensure we have all the ancestors of this certificate yet.
  let delivered ← node.deliverCertificate certificate
  if delivered then
    modify fun s => s.deliver node.committee certificate
  else
    return

/-- `process_header` with calls of itself to a given depth, where `last` is called. -/
def processHeaderTo (last : Header → CoreM Unit) : ℕ → Header → CoreM Unit
  | 0 => last
  | depth + 1 => node.processHeaderWith (node.processVoteWith
      (node.processCertificateWith (processHeaderTo last depth)))

/-- `Core::process_header`. -/
def processHeader : Header → CoreM Unit := node.processHeaderTo (fun _ => pure ()) 2

/-- `Core::process_certificate`. -/
def processCertificate : Certificate → CoreM Unit :=
  node.processCertificateWith node.processHeader

/-- `Core::process_vote`. -/
def processVote : Vote → CoreM Unit := node.processVoteWith node.processCertificate

/-- `Core::process_own_header`. -/
def processOwnHeader (header : Header) : CoreM Unit := do
  modify fun s => s.propose header
  modify fun s => s.send node.others (.header header)
  node.processHeader header

/-! ## Sanitizing -/

/-- `Core::sanitize_header`. -/
def sanitizeHeader (s : State) (header : Header) : Except DagError Unit := do
  ensure (s.gcRound ≤ header.round) (.tooOld header.id header.round)
  header.verify node.committee

/-- `Core::sanitize_vote`. -/
def sanitizeVote (s : State) (vote : Vote) : Except DagError Unit := do
  ensure (s.currentHeader.round ≤ vote.round) (.tooOld vote.digest vote.round)
  -- Ensure we receive a vote on the expected header.
  ensure (vote.id = s.currentHeader.id ∧ vote.origin = s.currentHeader.author ∧
    vote.round = s.currentHeader.round) (.unexpectedVote vote.id)
  vote.verify node.committee

/-- `Core::sanitize_certificate`. -/
def sanitizeCertificate (s : State) (certificate : Certificate) : Except DagError Unit := do
  ensure (s.gcRound ≤ certificate.round) (.tooOld certificate.digest certificate.round)
  -- Verify the certificate (and the embedded header).
  certificate.verify node.committee

/-! ## The main loop -/

/-- What the Core receives, by channel. -/
inductive Input where
  /-- Receiver for dag messages (headers, votes, certificates). -/
  | primaries (message : PrimaryMessage)
  /-- Receives loopback headers from the `HeaderWaiter`. -/
  | headerWaiter (h : Header)
  /-- Receives loopback certificates from the `CertificateWaiter`. -/
  | certificateWaiter (c : Certificate)
  /-- Receives our newly created headers from the `Proposer`. -/
  | proposer (h : Header)

/-- Process what was received on one of the channels. -/
def receive : Input → CoreM Unit
  | .primaries (.header h) => do
      let s ← get
      check (node.sanitizeHeader s h)
      node.processHeader h
  | .primaries (.vote v) => do
      let s ← get
      check (node.sanitizeVote s v)
      node.processVote v
  | .primaries (.certificate c) => do
      let s ← get
      check (node.sanitizeCertificate s c)
      node.processCertificate c
  | .primaries (.certificatesRequest _ _) => Command.ofExcept (.error (.panic .unexpectedMessage))
  | .headerWaiter h => node.processHeader h
  | .certificateWaiter c => node.processCertificate c
  | .proposer h => node.processOwnHeader h

/-- One pass of the main loop. -/
def step (s : State) (input : Input) : State :=
  match (node.receive input).outcome s with
  | (.error (.panic p), s') => { s' with halted := some p }
  | (.error (.error .storeError), s') => { s' with halted := some .storage }
  | (_, s') => s'.cleanup node.gcDepth

/-- What happens at the primary. -/
inductive Event where
  /-- The Core receives a message. -/
  | core (input : Input)
  /-- A worker reports a batch of another authority. -/
  | batch (digest : Digest) (workerId : WorkerId)
  /-- The consensus reaches a round. -/
  | consensus (round : ℕ)

/-- The state after an event. A node that was stopped by an assertion takes no more messages. -/
def advance (s : State) : Event → State
  | .core input => if s.halted.isSome then s else node.step s input
  | .batch digest workerId =>
      { s with store := s.store.write (Store.payloadKey digest workerId) .empty }
  | .consensus round => { s with consensusRound := round }

/-- A message does what a step of the main loop does, and a stopped node ignores it. -/
theorem advance_core {node : Core} {s : State} {input : Input} {after : State → Prop}
    (ignored : after s) (stepped : s.halted = none → after (node.step s input)) :
    after (node.advance s (.core input)) := by
  unfold Core.advance
  dsimp only
  split
  · exact ignored
  · next running => exact stepped (by simpa using running)

/-- The state after a run, which starts with an empty store. -/
def run (events : List Event) : State := events.foldl node.advance {}

theorem run_snoc (events : List Event) (event : Event) :
    node.run (events ++ [event]) = node.advance (node.run events) event := by
  rw [run, List.foldl_append]
  rfl

/-! ## The other tasks -/

/-- The `Proposer` makes a header from the genesis or from parents it was sent. -/
structure Proposes (s : State) (header : Header) : Prop where
  author : header.author = node.name
  id : header.id = header.digest
  signature : header.signature = node.requestSignature header.id
  parents : ∃ proposal ∈ (node.genesis.map Prod.fst, 0) :: s.txProposer,
    header.parents = .ofList proposal.1 ∧ header.round = (proposal.2 + 1) % 2 ^ 64

instance (s : State) (header : Header) : Decidable (node.Proposes s header) :=
  decidable_of_iff (header.author = node.name ∧ header.id = header.digest ∧
      header.signature = node.requestSignature header.id ∧
      ∃ proposal ∈ (node.genesis.map Prod.fst, 0) :: s.txProposer,
        header.parents = .ofList proposal.1 ∧ header.round = (proposal.2 + 1) % 2 ^ 64)
    ⟨fun ⟨author, id, signature, parents⟩ => ⟨author, id, signature, parents⟩,
      fun ⟨author, id, signature, parents⟩ => ⟨author, id, signature, parents⟩⟩

/-- The events that may come next. The network may bring any header, vote and certificate. Requests
for certificates are not passed on to the Core. -/
def Admissible (s : State) : Event → Prop
  | .core (.primaries (.certificatesRequest _ _)) => False
  | .core (.primaries _) => True
  | .core (.headerWaiter h) => ∃ message ∈ s.txHeaderWaiter, message.deliver = h ∧
      ∀ key ∈ message.waitFor, (s.store.read key).isSome = true
  | .core (.certificateWaiter c) => c ∈ s.txCertificateWaiter ∧
      ∀ digest ∈ c.header.parents.toList, (s.store.read digest.asRef).isSome = true
  | .core (.proposer h) => node.Proposes s h
  | .batch _ _ => True
  | .consensus round => s.consensusRound ≤ round

instance (s : State) : ∀ event, Decidable (node.Admissible s event)
  | .core (.primaries (.certificatesRequest _ _)) => inferInstanceAs (Decidable False)
  | .core (.primaries (.header _)) => inferInstanceAs (Decidable True)
  | .core (.primaries (.vote _)) => inferInstanceAs (Decidable True)
  | .core (.primaries (.certificate _)) => inferInstanceAs (Decidable True)
  | .core (.headerWaiter h) =>
      inferInstanceAs (Decidable (∃ message ∈ s.txHeaderWaiter, message.deliver = h ∧
        ∀ key ∈ message.waitFor, (s.store.read key).isSome = true))
  | .core (.certificateWaiter _) => inferInstanceAs (Decidable (_ ∧ _))
  | .core (.proposer h) => inferInstanceAs (Decidable (node.Proposes s h))
  | .batch _ _ => inferInstanceAs (Decidable True)
  | .consensus _ => inferInstanceAs (Decidable (_ ≤ _))

end Core

end Tusk
