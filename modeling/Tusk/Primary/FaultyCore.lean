import Tusk.Lib.Parts
import Tusk.Primary.CoreRecursion
import Tusk.Store.Task

/-!
# The Core on a database whose puts may fail

The puts of the database are numbered, and some of them fail. The task of the store does not look at
the result of a put, and a write returns nothing, so the Core goes on in any case. `FaultyCore` is the
`Core` with the writes handed to the task of the store, beside which the waiters and other tasks wait
for keys. The state records every put and what was done on the strength of it: the readers that were
answered, the votes, and the certificates that were counted and sent to the consensus.

The reads and the checks are those of the `Core`. `run_of_never_fails` says that the two are the same
as long as no put fails, and `processHeader_eq` that the functions which call each other satisfy the
equations of the source here, too.
-/

set_option autoImplicit false

namespace Tusk

open Lib

/-- A Core and the database it writes to: the puts are numbered, and these fail. -/
structure FaultyCore extends Core where
  fails : ℕ → Bool

namespace FaultyCore

/-- A put, with what it found. -/
structure Put where
  key : List UInt8
  value : StoreValue
  failed : Bool
  /-- The readers that wait for the key. -/
  waiters : List ℕ
  /-- The Core when it writes. -/
  core : Core.State

/-- What is done on the strength of a put, which is given by its number. -/
inductive Effect where
  /-- A reader that waits for the key is answered. -/
  | answered (reader : ℕ) (key : List UInt8) (value : StoreValue) (put : ℕ)
  /-- A vote for the header is sent to its creator. -/
  | voted (h : Header) (put : ℕ)
  /-- The certificate is counted as a parent and sent to the consensus. -/
  | delivered (c : Certificate) (put : ℕ)

namespace Effect

/-- The number of the put. -/
def put : Effect → ℕ
  | answered _ _ _ n => n
  | voted _ n => n
  | delivered _ n => n

variable [Primitives]

/-- The key that has to be written. -/
def key : Effect → List UInt8
  | answered _ key _ _ => key
  | voted h _ => h.id.asRef
  | delivered c _ => c.digest.asRef

/-- The value that has to be written. -/
def value : Effect → StoreValue
  | answered _ _ value _ => value
  | voted h _ => .header h
  | delivered c _ => .certificate c

end Effect

/-- The state of the Core, of the store and of the readers that wait. -/
structure State where
  core : Core.State := {}
  /-- The readers that wait for a key. -/
  obligations : HashMap (List UInt8) (List ℕ) := ∅
  /-- The number of the next reader. -/
  readers : ℕ := 0
  /-- The puts so far. -/
  puts : List Put := []
  /-- What was done on the strength of the puts. -/
  effects : List Effect := []

/-- A computation of the Core and the store. -/
abbrev FaultyM (α : Type) : Type := Command Interrupt State α

/-- The Core is a part of the state. -/
def corePart : Part State Core.State where
  read s := s.core
  replace s core := { s with core := core }
  read_replace _ _ := rfl

namespace State

/-- The task of the store. -/
def task (s : State) : StoreTask (List UInt8) StoreValue := ⟨s.core.store.db, s.obligations⟩

/-- Record what is done on the strength of a put. -/
def note (s : State) (effect : Effect) : State := { s with effects := s.effects ++ [effect] }

/-- Read a key, and wait for it when it is not there. -/
def notifyRead (s : State) (key : List UInt8) : State :=
  { s with
    obligations := (s.task.handle false s.readers (.notifyRead key)).1.obligations
    readers := s.readers + 1 }

/-- Count a certificate as a parent and send it to the consensus. The certificate has been written. -/
def deliver [Primitives] (s : State) (committee : Committee) (certificate : Certificate) (put : ℕ) :
    State :=
  note { s with core := { s.core.deliver committee certificate with store := s.core.store } }
    (.delivered certificate put)

end State

variable [Primitives] (node : FaultyCore)

omit [Primitives] in
/-- The task of the store serves a write. -/
def put (s : State) (key : List UInt8) (value : StoreValue) : State :=
  let n := s.puts.length
  let (task, answers) := s.task.handle (node.fails n) s.readers (.write key value)
  { s with
    core := { s.core with store := ⟨task.db⟩ }
    obligations := task.obligations
    puts := s.puts ++ [⟨key, value, node.fails n, s.task.waiters key, s.core⟩]
    effects := s.effects ++ answers.map fun answer => .answered answer.1 key value n }

omit [Primitives] in
/-- `Store::write`. The number of the put is kept for the record. -/
def write (key : List UInt8) (value : StoreValue) : FaultyM ℕ := do
  let s ← get
  modify fun s => node.put s key value
  return s.puts.length

/-! ## The functions of the Core -/

/-- Vote for a header if we did not vote for its author and round yet. -/
def castVote (processVote : Vote → FaultyM Unit) (header : Header) (put : ℕ) : FaultyM Unit := do
  let s ← get
  if header.author ∈ HashMap.bucket s.core.lastVoted header.round then
    return
  else
    let vote := node.voteFor header
    corePart.on (modify fun core => core.createVote header vote)
    if vote.origin = node.name then
      modify fun s => s.note (.voted header put)
      (processVote vote).interruptWith (Interrupt.expect .ownVote)
    else
      let address ← Command.ofExcept
        ((node.committee.primary header.author).mapError fun _ => .panic .unknownAuthor)
      corePart.on (modify fun core => core.send [address.primaryToPrimary] (.vote vote))
      modify fun s => s.note (.voted header put)

/-- `process_header`, given `process_vote`. -/
def processHeaderWith (processVote : Vote → FaultyM Unit) (header : Header) : FaultyM Unit := do
  let ready ← corePart.on (node.checkHeader header)
  if ready then
    let put ← node.write header.id.asRef (.header header)
    node.castVote processVote header put
  else
    return

/-- `process_vote`, given `process_certificate`. -/
def processVoteWith (processCertificate : Certificate → FaultyM Unit) (vote : Vote) :
    FaultyM Unit := do
  let s ← get
  let (aggregator, assembled) ←
    corePart.on (Core.check (s.core.votesAggregator.append vote node.committee s.core.currentHeader))
  corePart.on (modify fun core => { core with votesAggregator := aggregator })
  match assembled with
  | none => return
  | some certificate =>
      corePart.on (modify fun core => core.send node.others (.certificate certificate))
      (processCertificate certificate).interruptWith (Interrupt.expect .validCertificate)

omit [Primitives] in
/-- Process the header embedded in a certificate if we haven't already. -/
def processEmbedded (processHeader : Header → FaultyM Unit) (certificate : Certificate) :
    FaultyM Unit := do
  let s ← get
  if certificate.header.id ∉ HashMap.bucket s.core.processing certificate.header.round then
    processHeader certificate.header
  else
    return

/-- `process_certificate`, given `process_header`. -/
def processCertificateWith (processHeader : Header → FaultyM Unit) (certificate : Certificate) :
    FaultyM Unit := do
  processEmbedded processHeader certificate
  let delivered ← corePart.on (node.deliverCertificate certificate)
  if delivered then
    let put ← node.write certificate.digest.asRef (.certificate certificate)
    modify fun s => s.deliver node.committee certificate put
  else
    return

/-- `process_header` with calls of itself to a given depth, where `last` is called. -/
def processHeaderTo (last : Header → FaultyM Unit) : ℕ → Header → FaultyM Unit
  | 0 => last
  | depth + 1 => node.processHeaderWith (node.processVoteWith
      (node.processCertificateWith (processHeaderTo last depth)))

/-- `Core::process_header`. -/
def processHeader : Header → FaultyM Unit := node.processHeaderTo (fun _ => pure ()) 2

/-- `Core::process_certificate`. -/
def processCertificate : Certificate → FaultyM Unit :=
  node.processCertificateWith node.processHeader

/-- `Core::process_vote`. -/
def processVote : Vote → FaultyM Unit := node.processVoteWith node.processCertificate

/-- `Core::process_own_header`. -/
def processOwnHeader (header : Header) : FaultyM Unit := do
  corePart.on (modify fun core => core.propose header)
  corePart.on (modify fun core => core.send node.others (.header header))
  node.processHeader header

/-! ## The main loop -/

/-- Process what was received on one of the channels. -/
def receive : Core.Input → FaultyM Unit
  | .primaries (.header h) => do
      let s ← get
      corePart.on (Core.check (node.sanitizeHeader s.core h))
      node.processHeader h
  | .primaries (.vote v) => do
      let s ← get
      corePart.on (Core.check (node.sanitizeVote s.core v))
      node.processVote v
  | .primaries (.certificate c) => do
      let s ← get
      corePart.on (Core.check (node.sanitizeCertificate s.core c))
      node.processCertificate c
  | .primaries (.certificatesRequest _ _) => Command.ofExcept (.error (.panic .unexpectedMessage))
  | .headerWaiter h => node.processHeader h
  | .certificateWaiter c => node.processCertificate c
  | .proposer h => node.processOwnHeader h

/-- One pass of the main loop. -/
def step (s : State) (input : Core.Input) : State :=
  match (node.receive input).outcome s with
  | (.error (.panic p), s') => corePart.replace s' { s'.core with halted := some p }
  | (.error (.error .storeError), s') =>
      corePart.replace s' { s'.core with halted := some .storage }
  | (_, s') => corePart.replace s' (s'.core.cleanup node.gcDepth)

/-- What happens at the primary. -/
inductive Event where
  | core (event : Core.Event)
  /-- A waiter or another task waits for a key. -/
  | notifyRead (key : List UInt8)

/-- The state after an event. -/
def advance (s : State) : Event → State
  | .core (.core input) => if s.core.halted.isSome then s else node.step s input
  | .core (.batch digest workerId) => node.put s (Store.payloadKey digest workerId) .empty
  | .core (.consensus round) => corePart.replace s { s.core with consensusRound := round }
  | .notifyRead key => s.notifyRead key

/-- The state after a run, which starts with an empty store. -/
def run (events : List Event) : State := events.foldl node.advance {}

theorem run_snoc (events : List Event) (event : Event) :
    node.run (events ++ [event]) = node.advance (node.run events) event := by
  rw [run, List.foldl_append]
  rfl

/-! ## As long as no put fails -/

section NeverFails

variable {node} {processVote : Vote → FaultyM Unit} {processVote' : Vote → Core.CoreM Unit}
  {processCertificate : Certificate → FaultyM Unit}
  {processCertificate' : Certificate → Core.CoreM Unit}
  {processHeader : Header → FaultyM Unit} {processHeader' : Header → Core.CoreM Unit}

omit [Primitives] in
theorem core_put {s : State} {key : List UInt8} {value : StoreValue}
    (succeeds : node.fails s.puts.length = false) :
    (node.put s key value).core = { s.core with store := s.core.store.write key value } := by
  have db := @StoreTask.db_handle_write _ _ _ s.task (node.fails s.puts.length) s.readers key value
  unfold put
  dsimp only
  rw [db, succeeds]
  rfl

omit [Primitives] in
/-- A write changes the store of the Core. -/
theorem write_projects {α : Type} {key : List UInt8} {value : StoreValue} {next : ℕ → FaultyM α}
    {next' : Core.CoreM α} (never : ∀ n, node.fails n = false)
    (rest : ∀ n, corePart.Projects (next n) next') :
    corePart.Projects (node.write key value >>= next)
      (modify (fun core : Core.State => { core with store := core.store.write key value }) >>=
        fun _ => next') := by
  intro s
  have written := rest s.puts.length (node.put s key value)
  rw [show corePart.read (node.put s key value) = _ from core_put (never _)] at written
  exact written

theorem castVote_projects {header : Header} {put : ℕ}
    (alike : ∀ vote, corePart.Projects (processVote vote) (processVote' vote)) :
    corePart.Projects (node.castVote processVote header put)
      (node.toCore.castVote processVote' header) := by
  unfold castVote Core.castVote
  apply Part.Projects.bind_get
  intro s
  refine .ite Iff.rfl (.pure _) ?_
  apply Part.Projects.bind (.on _)
  intro _
  refine .ite Iff.rfl (.unseen (fun _ => rfl) (alike _).interruptWith) ?_
  apply Part.Projects.bind (.ofExcept _)
  intro address
  exact .unseen_last (.on _) fun _ => rfl

theorem processHeaderWith_projects (never : ∀ n, node.fails n = false)
    (alike : ∀ vote, corePart.Projects (processVote vote) (processVote' vote)) (header : Header) :
    corePart.Projects (node.processHeaderWith processVote header)
      (node.toCore.processHeaderWith processVote' header) := by
  unfold processHeaderWith Core.processHeaderWith
  apply Part.Projects.bind (.on _)
  intro ready
  refine .ite Iff.rfl ?_ (.pure _)
  exact write_projects never fun _ => castVote_projects alike

omit [Primitives] in
theorem processVoteWith_projects
    (alike : ∀ c, corePart.Projects (processCertificate c) (processCertificate' c)) (vote : Vote) :
    corePart.Projects (node.processVoteWith processCertificate vote)
      (node.toCore.processVoteWith processCertificate' vote) := by
  unfold processVoteWith Core.processVoteWith
  apply Part.Projects.bind_get
  intro s
  apply Part.Projects.bind (.on _)
  rintro ⟨aggregator, assembled⟩
  apply Part.Projects.bind (.on _)
  intro _
  cases assembled with
  | none => exact .pure _
  | some c =>
      apply Part.Projects.bind (.on _)
      intro _
      exact (alike c).interruptWith

theorem processCertificateWith_projects (never : ∀ n, node.fails n = false)
    (alike : ∀ h, corePart.Projects (processHeader h) (processHeader' h)) (c : Certificate) :
    corePart.Projects (node.processCertificateWith processHeader c)
      (node.toCore.processCertificateWith processHeader' c) := by
  unfold processCertificateWith Core.processCertificateWith
  apply Part.Projects.bind
  · unfold processEmbedded Core.processEmbedded
    apply Part.Projects.bind_get
    intro s
    exact .ite Iff.rfl (alike _) (.pure _)
  intro _
  apply Part.Projects.bind (.on _)
  intro delivered
  refine .ite Iff.rfl ?_ (.pure _)
  -- the Core writes and goes on in one change
  have goesOn : ∀ n, corePart.Projects
      (modify fun s => s.deliver node.committee c n : FaultyM PUnit)
      (modify fun core => { core.deliver node.committee c with store := core.store }) :=
    fun _ => .modify fun _ => rfl
  have both : corePart.Projects (node.write c.digest.asRef (.certificate c) >>= fun n =>
      modify fun s => s.deliver node.committee c n) _ := write_projects never goesOn
  exact both

theorem processHeaderTo_projects (never : ∀ n, node.fails n = false) (depth : ℕ) (h : Header) :
    corePart.Projects (node.processHeaderTo (fun _ => pure ()) depth h)
      (node.toCore.processHeaderTo (fun _ => pure ()) depth h) := by
  induction depth generalizing h with
  | zero => exact .pure _
  | succ depth ih =>
      exact processHeaderWith_projects never (processVoteWith_projects
        (processCertificateWith_projects never ih)) h

/-- A message is processed as it is by the Core. -/
theorem receive_projects (never : ∀ n, node.fails n = false) (input : Core.Input) :
    corePart.Projects (node.receive input) (node.toCore.receive input) := by
  have onHeader := processHeaderTo_projects never 2
  have onCertificate := processCertificateWith_projects never onHeader
  have checked : ∀ (result : Core.State → Except DagError Unit) {process : FaultyM Unit}
      {process' : Core.CoreM Unit}, corePart.Projects process process' →
      corePart.Projects (do let s ← get; corePart.on (Core.check (result s.core)); process)
        (do let s ← get; Core.check (result s); process') := by
    intro result process process' alike
    apply Part.Projects.bind_get
    intro s
    exact .bind (.on _) fun _ => alike
  cases input with
  | primaries message =>
      cases message with
      | header h => exact checked (node.sanitizeHeader · h) (onHeader h)
      | vote v => exact checked (node.sanitizeVote · v) (processVoteWith_projects onCertificate v)
      | certificate c => exact checked (node.sanitizeCertificate · c) (onCertificate c)
      | certificatesRequest => exact .ofExcept _
  | headerWaiter h => exact onHeader h
  | certificateWaiter c => exact onCertificate c
  | proposer h => exact .bind (.on _) fun _ => .bind (.on _) fun _ => onHeader h

theorem core_step (never : ∀ n, node.fails n = false) (s : State) (input : Core.Input) :
    (node.step s input).core = node.toCore.step s.core input := by
  have alike : _ = (node.toCore.receive input).outcome s.core := receive_projects never input s
  unfold step Core.step
  rw [← alike]
  cases (node.receive input).outcome s with
  | mk result s' =>
      rcases result with (e | p) | u
      · cases e <;> rfl
      · rfl
      · rfl

/-- The events that the Core has part in. -/
def Event.ofCore : Event → Option Core.Event
  | .core event => some event
  | .notifyRead _ => none

/-- **As long as no put fails the Core is as it was.** -/
theorem run_of_never_fails (never : ∀ n, node.fails n = false) (events : List Event) :
    (node.run events).core = node.toCore.run (events.filterMap Event.ofCore) := by
  induction events using List.reverseRecOn with
  | nil => rfl
  | append_singleton events event ih =>
      rw [run_snoc, List.filterMap_append]
      cases event with
      | notifyRead key =>
          simp only [List.filterMap_cons, Event.ofCore, List.filterMap_nil, List.append_nil]
          exact ih
      | core event =>
          simp only [List.filterMap_cons, Event.ofCore, List.filterMap_nil]
          rw [Core.run_snoc, ← ih]
          cases event with
          | core input =>
              unfold advance Core.advance
              dsimp only
              split
              · rfl
              · exact core_step never _ _
          | batch digest workerId => exact core_put (never _)
          | consensus round => rfl

end NeverFails

/-! ## How deep the Core calls itself -/

section Depth

variable {node}

theorem processHeaderWith_congr {processVote processVote' : Vote → FaultyM Unit} {h : Header}
    {s : State}
    (alike : ∀ vote s', vote.author = node.name →
      s'.core.votesAggregator = s.core.votesAggregator →
      (processVote vote).outcome s' = (processVote' vote).outcome s') :
    (node.processHeaderWith processVote h).outcome s =
      (node.processHeaderWith processVote' h).outcome s := by
  have step : ∀ core core', node.Inspects h core core' →
      core.votesAggregator = s.core.votesAggregator →
      core'.votesAggregator = s.core.votesAggregator := by
    intro core core' inspects same
    cases inspects <;> exact same
  have aggregator := (node.checkHeader_follows h).keeps step trivial rfl
  apply Command.outcome_bind_congr
  intro ready _
  split
  · apply Command.outcome_bind_congr
    intro n _
    apply Command.outcome_bind_congr
    intro s' found
    cases found
    split
    · rfl
    · apply Command.outcome_bind_congr
      intro _ _
      split
      · apply Command.outcome_bind_congr
        intro _ _
        exact Command.interruptWith_congr (alike _ _ rfl aggregator)
      · rfl
  · rfl

omit [Primitives] in
/-- A second vote of an author is refused, whatever would be called at a certificate. -/
theorem processVoteWith_of_used (processCertificate : Certificate → FaultyM Unit) {vote : Vote}
    {s : State} (used : vote.author ∈ s.core.votesAggregator.used) :
    (node.processVoteWith processCertificate vote).outcome s =
      (.error (.error (.authorityReuse vote.author)), s) := by
  unfold processVoteWith
  rw [Command.outcome_bind, Command.outcome_get]
  dsimp only
  rw [VotesAggregator.append_of_used used]
  rfl

omit [Primitives] in
/-- What is called at a certificate matters when the author of the vote has been counted. -/
theorem processVoteWith_congr {processCertificate processCertificate' : Certificate → FaultyM Unit}
    {vote : Vote} {s : State}
    (alike : ∀ c s', vote.author ∈ s'.core.votesAggregator.used →
      (processCertificate c).outcome s' = (processCertificate' c).outcome s') :
    (node.processVoteWith processCertificate vote).outcome s =
      (node.processVoteWith processCertificate' vote).outcome s := by
  apply Command.outcome_bind_congr
  intro s' found
  cases found
  apply Command.outcome_bind_congr
  intro counted found
  obtain ⟨aggregator, assembled⟩ := counted
  have used := (VotesAggregator.append_ok (mapError_eq_ok_iff.mp found)).1
  apply Command.outcome_bind_congr
  intro _ _
  cases assembled with
  | none => rfl
  | some c =>
      apply Command.outcome_bind_congr
      intro _ _
      exact Command.interruptWith_congr (alike c _ used)

/-- The header of a certificate is processed first. -/
theorem processCertificateWith_congr {processHeader processHeader' : Header → FaultyM Unit}
    {c : Certificate} {s : State}
    (alike : (processHeader c.header).outcome s = (processHeader' c.header).outcome s) :
    (node.processCertificateWith processHeader c).outcome s =
      (node.processCertificateWith processHeader' c).outcome s := by
  have embedded : (processEmbedded processHeader c).outcome s =
      (processEmbedded processHeader' c).outcome s := by
    apply Command.outcome_bind_congr
    intro s' found
    cases found
    split
    · exact alike
    · rfl
  unfold processCertificateWith
  rw [Command.outcome_bind, Command.outcome_bind, embedded]

/-- **The calls end before the depth is reached**, as they do in the Core. -/
theorem processHeaderTo_two (last last' : Header → FaultyM Unit) :
    node.processHeaderTo last 2 = node.processHeaderTo last' 2 := by
  funext h
  apply Command.ext
  intro s
  apply processHeaderWith_congr
  intro vote s' ours _
  apply processVoteWith_congr
  intro c s'' used
  apply processCertificateWith_congr
  apply processHeaderWith_congr
  intro vote' t ours' aggregator
  have reused : vote'.author ∈ t.core.votesAggregator.used := by
    rw [aggregator, ours', ← ours]
    exact used
  rw [processVoteWith_of_used _ reused, processVoteWith_of_used _ reused]

/-- **The three functions satisfy the equations of the source.** -/
theorem processHeader_eq : node.processHeader = node.processHeaderWith node.processVote :=
  processHeaderTo_two (fun _ => pure ()) (node.processHeaderTo (fun _ => pure ()) 1)

end Depth

end FaultyCore

end Tusk
