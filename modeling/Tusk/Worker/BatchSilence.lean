import Tusk.Primary.ReportedBatches
import Tusk.Worker.Receivers

/-!
# Pausing a worker in silent rounds

In a round in which the simulated adversary silences a primary, its Proposer tells its workers to pause.
It sends them a message for every round it enters, over a reliable link, and drops the handlers of the
earlier messages. A message may be skipped then, and one that was given up may still arrive late.

A worker keeps the state of the highest round it has heard of. So once the message for the current round
is acknowledged the worker is in the state that the Proposer wants, and stays in it until the Proposer
enters another round (`silence_reaches_worker`). While the worker is told to pause it seals no batch.
-/

set_option autoImplicit false

namespace Tusk

open Lib ReliableSender

/-! ## The flag and the batch maker -/

namespace BatchMaker

variable {maker : BatchMaker} {s : State}

/-- A task that waits for a transaction has seen that it is not paused. -/
def Attending (s : State) : Prop :=
  s.point = .select → s.changed = false → s.rxBatchSilent.2 = false

theorem attending_sealBatch (top : s.point = .top) : Attending (maker.sealBatch s).resetTimer := by
  intro select
  have stays : (maker.sealBatch s).resetTimer.point = s.point := by
    unfold sealBatch State.resetTimer
    split <;> rfl
  rw [stays, top] at select
  exact absurd select (by simp)

theorem attending_seeChange : Attending s.seeChange := by
  intro select
  have top : s.seeChange.point = .top := by
    unfold State.seeChange
    dsimp only
    split <;> rfl
  rw [top] at select
  exact absurd select (by simp)

theorem Attending.poll (attending : Attending s) : Attending (maker.poll s) := by
  unfold BatchMaker.poll
  split
  · next paused =>
      unfold pollSilent
      split
      · exact attending_seeChange
      · split
        · exact attending
        · exact fun select => absurd select (by simp)
  · next active =>
      unfold pollSelect
      split
      · exact attending_seeChange
      · next unchanged =>
          split
          · exact attending
          · split
            · next transaction _ =>
                unfold assemble
                dsimp only
                split
                · exact attending_sealBatch rfl
                · exact fun select => absurd select (by simp)
            · split
              · split
                · exact fun select => absurd select (by simp [State.resetTimer])
                · exact attending_sealBatch rfl
              · intro _ _
                -- the flag was looked at on the way to the `select`
                unfold State.paused at active
                split at active
                · simpa using active
                · exact absurd rfl active
                · next select => exact attending select (by simpa using unchanged)

/-- Running the task does not change the flag. -/
theorem rxBatchSilent_poll (maker : BatchMaker) (s : State) :
    (maker.poll s).rxBatchSilent = s.rxBatchSilent := by
  have seals : ∀ t : State, (maker.sealBatch t).rxBatchSilent = t.rxBatchSilent := by
    intro t
    unfold sealBatch
    split <;> rfl
  have sees : s.seeChange.rxBatchSilent = s.rxBatchSilent := by
    unfold State.seeChange
    dsimp only
    split <;> rfl
  unfold BatchMaker.poll
  split
  · unfold pollSilent
    split
    · exact sees
    · split <;> rfl
  · unfold pollSelect
    split
    · exact sees
    · split
      · rfl
      · split
        · unfold assemble
          dsimp only
          split
          · exact seals _
          · rfl
        · split
          · split
            · rfl
            · exact seals _
          · rfl

/-- **A worker that is told to pause seals no batch.** -/
theorem sealed_poll_of_silent (running : s.status = .running) (attending : Attending s)
    (silent : s.rxBatchSilent.2 = true) : (maker.poll s).sealed = s.sealed := by
  have none : maker.sealing s = none := by
    unfold sealing
    refine if_pos ?_
    cases point : s.point with
    | top => exact .inl (by simpa [State.paused, point] using silent)
    | silent => exact .inl (by simp [State.paused, point])
    | select =>
        refine .inr (.inl ?_)
        cases changed : s.changed with
        | true => rfl
        | false =>
            rw [attending point changed] at silent
            exact absurd silent (by simp)
  have same : ∀ t : State, SameBatches s t → t.sealed = s.sealed := fun t same =>
    congrArg (List.map QuorumWaiterMessage.batch) same.txMessage
  generalize polled : maker.poll s = t
  have polls : Polls maker s t := polled ▸ polls running
  cases polls with
  | idle _ unchanged => exact same _ unchanged
  | push => rfl
  | full seals => exact absurd (none.symm.trans seals) (by simp)
  | timer seals => exact absurd (none.symm.trans seals) (by simp)

end BatchMaker

/-! ## The Proposer and one of its workers -/

/-- The Proposer of a primary, and the BatchMaker of one of its workers. -/
structure BatchSilence where
  proposer : Proposer
  maker : BatchMaker

namespace BatchSilence

/-- The states of both tasks, and of the link between them. -/
structure State where
  proposer : Proposer.State
  link : Link Worker.FromPrimary
  maker : BatchMaker.State

/-- What happens at the two tasks and on the link. -/
inductive Event where
  /-- A pass of the loop of the Proposer. -/
  | proposer (timerExpired : Bool) (event : Proposer.Event)
  | link (event : Link.Event) (quiet : Link.Quiet event)
  /-- A client sends a transaction. -/
  | transaction (bytes : Transaction)
  /-- The timer of the BatchMaker fires. -/
  | timer
  /-- The BatchMaker runs. -/
  | poll

/-- The parents the Proposer is sent are not of the last round there is. -/
def RoundFits : Event → Prop
  | .proposer _ (.parents _ round) => round + 1 < 2 ^ 64
  | _ => True

/-! ## What the Proposer sends -/

section Sends

variable [Primitives] (node : BatchSilence)

/-- What the Proposer wants its workers to do in its round. -/
def wanted (s : Proposer.State) : ℕ × Bool :=
  (s.round, s.silent && node.proposer.pauseBatchesDuringSilence)

/-- The rounds sent to the workers increase up to the round of the Proposer, and its state in this round
was the last to be sent. Without an adversary nothing is sent. -/
structure Announces (s : Proposer.State) : Prop where
  increasing : (s.workerNetwork.map Prod.fst).Pairwise (· < ·)
  positive : ∀ entry ∈ s.workerNetwork, 0 < entry.1
  bounded : ∀ entry ∈ s.workerNetwork, entry.1 ≤ s.round
  last : ∀ entry ∈ s.workerNetwork.getLast?, entry = node.wanted s
  harmless : node.proposer.adversaryFaults = 0 → s.workerNetwork = []

variable {node}

/-- Entering a higher round tells the workers of it, if anything is told. -/
theorem Announces.enterRound {s : Proposer.State} (announces : node.Announces s) {round : ℕ}
    (higher : s.round < round) (fits : round < 2 ^ 64) :
    node.Announces (node.proposer.enterRound s round fits) ∧
      s.workerNetwork <+: (node.proposer.enterRound s round fits).workerNetwork := by
  unfold Proposer.enterRound
  dsimp only
  split
  · next none =>
      have nothing := announces.harmless none
      exact ⟨⟨announces.increasing, announces.positive,
        fun entry member => (announces.bounded entry member).trans higher.le,
        fun entry member => by simp [nothing] at member, fun _ => nothing⟩, List.prefix_rfl⟩
  · next faults =>
      refine ⟨⟨?_, ?_, ?_, ?_, fun none => absurd none faults⟩, List.prefix_append _ _⟩
      · rw [List.map_append, List.pairwise_append]
        refine ⟨announces.increasing, List.pairwise_singleton _ _, fun r member r' new => ?_⟩
        obtain ⟨entry, earlier, rfl⟩ := List.mem_map.mp member
        rw [List.mem_singleton.mp new]
        exact (announces.bounded entry earlier).trans_lt higher
      · intro entry member
        rcases List.mem_append.mp member with before | new
        · exact announces.positive entry before
        · rw [List.mem_singleton.mp new]
          exact Nat.zero_lt_of_lt higher
      · intro entry member
        rcases List.mem_append.mp member with before | new
        · exact (announces.bounded entry before).trans higher.le
        · rw [List.mem_singleton.mp new]
      · intro entry member
        rw [List.getLast?_append_of_ne_nil _ (List.cons_ne_nil _ _)] at member
        exact (Option.some.inj member).symm

/-- The check leaves what concerns the workers alone. -/
theorem checkProposal_same (proposer : Proposer) (s : Proposer.State) (timerExpired : Bool) :
    (proposer.checkProposal s timerExpired).workerNetwork = s.workerNetwork ∧
      (proposer.checkProposal s timerExpired).round = s.round ∧
      (proposer.checkProposal s timerExpired).silent = s.silent := by
  unfold Proposer.checkProposal
  split
  · split <;> exact ⟨rfl, rfl, rfl⟩
  · exact ⟨rfl, rfl, rfl⟩

theorem Announces.pass {s : Proposer.State} (announces : node.Announces s) (timerExpired : Bool)
    {event : Proposer.Event} (fits : RoundFits (.proposer timerExpired event)) :
    node.Announces (node.proposer.pass s (timerExpired, event)) ∧
      s.workerNetwork <+: (node.proposer.pass s (timerExpired, event)).workerNetwork := by
  unfold Proposer.pass
  dsimp only
  obtain ⟨network, round, silent⟩ := checkProposal_same node.proposer s timerExpired
  generalize node.proposer.checkProposal s timerExpired = t at network round silent
  have checked : node.Announces t := by
    refine ⟨?_, ?_, ?_, ?_, ?_⟩
    · exact network ▸ announces.increasing
    · exact network ▸ announces.positive
    · rw [network, round]
      exact announces.bounded
    · rw [network, wanted, round, silent]
      exact announces.last
    · exact network ▸ announces.harmless
  rw [← network]
  cases event with
  | report digest workerId =>
      exact ⟨⟨checked.increasing, checked.positive, checked.bounded, checked.last, checked.harmless⟩,
        List.prefix_rfl⟩
  | timer => exact ⟨checked, List.prefix_rfl⟩
  | parents digests round =>
      unfold Proposer.receive
      dsimp only
      split
      · exact ⟨checked, List.prefix_rfl⟩
      · next current =>
          have fits : round + 1 < 2 ^ 64 := fits
          have higher : t.round < (round + 1) % 2 ^ 64 := by
            rw [Nat.mod_eq_of_lt fits]
            omega
          have entered := checked.enterRound higher (Nat.mod_lt _ (by decide))
          obtain ⟨⟨increasing, positive, bounded, last, harmless⟩, longer⟩ := entered
          exact ⟨⟨increasing, positive, bounded, last, harmless⟩, longer⟩

theorem announces_start : node.Announces node.proposer.start := by
  unfold Proposer.start
  dsimp only
  refine (Announces.enterRound (s := {
    round := 0
    silent := false
    lastParents := node.proposer.genesis
    digests := []
    payloadSize := 0
    txCore := []
    workerNetwork := []
    round_lt := by decide }) ?_ Nat.one_pos Header.round_one_lt).1
  exact ⟨.nil, fun _ member => absurd member List.not_mem_nil,
    fun _ member => absurd member List.not_mem_nil, fun _ member => by simp at member, fun _ => rfl⟩

omit [Primitives] in
/-- The rounds are below the `u64` limit. -/
theorem Announces.small {s : Proposer.State} (announces : node.Announces s) :
    ∀ entry ∈ s.workerNetwork, entry.1 < 2 ^ 64 := fun entry member =>
  (announces.bounded entry member).trans_lt s.round_lt

end Sends

/-! ## What the worker hears -/

/-- The messages that pause or resume a worker in a round below the `u64` limit. -/
def silences : Set PrimaryWorkerMessage :=
  {message | ∃ round silent, round < 2 ^ 64 ∧ message = .batchSilent round silent}

section Messages

variable [Bincode PrimaryWorkerMessage]

/-- The bytes of the message for a round. -/
def encode (entry : ℕ × Bool) : List UInt8 :=
  Bincode.serialize (PrimaryWorkerMessage.batchSilent entry.1 entry.2)

/-- Send the message for a round, and drop the handler of the message before. -/
def announce (link : Link Worker.FromPrimary) (entry : ℕ × Bool) : Link Worker.FromPrimary :=
  let sent := link.advance Worker.primaryReceiverHandler (.submit (encode entry))
  match link.sender.submitted.length with
  | 0 => sent
  | previous + 1 => sent.advance Worker.primaryReceiverHandler (.close previous)

/-- What the worker has heard of the messages that were sent: the watch has the value of one of them, and
of none that is older than another one it has heard. -/
structure Hears (network : List (ℕ × Bool)) (link : Link Worker.FromPrimary) : Prop where
  sound : link.Sound
  sent : link.sender.submitted.map Message.data = network.map encode
  watch : link.state.borrow = (0, false) ∨ link.state.borrow ∈ network
  heard : ∀ message ∈ link.dispatched, ∀ entry, network[message.id]? = some entry →
    entry.1 ≤ link.state.borrow.1

variable {network : List (ℕ × Bool)} {link : Link Worker.FromPrimary}

/-- The number of a message is its place. -/
theorem Hears.getElem_id (hears : Hears network link) {message : Message}
    (submitted : message ∈ link.sender.submitted) :
    link.sender.submitted[message.id]? = some message := by
  obtain ⟨i, found⟩ := List.mem_iff_getElem?.mp submitted
  have numbers := congrArg (fun ids => ids[i]?) hears.sound.reliable.numbered
  obtain ⟨inside, -⟩ := List.getElem?_eq_some_iff.mp found
  simp only [List.getElem?_map, found, Option.map_some, List.getElem?_range inside,
    Option.some.injEq] at numbers
  rw [numbers, found]

theorem Hears.length (hears : Hears network link) :
    link.sender.submitted.length = network.length := by
  simpa using congrArg List.length hears.sent

/-- What a message says that was submitted. -/
theorem Hears.exists_entry (hears : Hears network link) {message : Message}
    (submitted : message ∈ link.sender.submitted) :
    ∃ entry, network[message.id]? = some entry ∧ message.data = encode entry := by
  have said := congrArg (fun data => data[message.id]?) hears.sent
  simp only [List.getElem?_map, hears.getElem_id submitted, Option.map_some] at said
  obtain ⟨entry, found, same⟩ := Option.map_eq_some_iff.mp said.symm
  exact ⟨entry, found, same.symm⟩

/-- A step of the sender alone. -/
theorem Hears.send (hears : Hears network link) {link' : Link Worker.FromPrimary} {entry : ℕ × Bool}
    (sound : link'.Sound) (state : link'.state = link.state)
    (dispatched : link'.dispatched = link.dispatched)
    (sent : link'.sender.submitted.map Message.data = (network ++ [entry]).map encode) :
    Hears (network ++ [entry]) link' := by
  refine ⟨sound, sent, ?_, ?_⟩
  · rw [state]
    exact hears.watch.imp_right (List.mem_append_left _)
  · rw [state, dispatched]
    intro message heard other found
    obtain ⟨earlier, before, -⟩ := hears.exists_entry (hears.sound.submitted_of_dispatched heard)
    rw [List.getElem?_append_left (List.getElem?_eq_some_iff.mp before).1] at found
    exact hears.heard message heard other found

theorem state_foldl_announce (more : List (ℕ × Bool)) (link : Link Worker.FromPrimary) :
    (more.foldl announce link).state = link.state := by
  induction more generalizing link with
  | nil => rfl
  | cons entry more ih =>
      rw [List.foldl_cons, ih]
      unfold announce
      dsimp only
      split <;> rfl

theorem Hears.announce (hears : Hears network link) (entry : ℕ × Bool) :
    Hears (network ++ [entry]) (announce link entry) := by
  have acknowledges := Worker.primaryReceiverHandler_acknowledges
  have submits : (link.advance Worker.primaryReceiverHandler
      (.submit (encode entry))).sender.submitted.map Message.data =
        (network ++ [entry]).map encode := by
    rw [List.map_append, ← hears.sent]
    exact List.map_append
  have sound := hears.sound.advance acknowledges (.submit (encode entry))
  unfold BatchSilence.announce
  dsimp only
  split
  · exact hears.send sound rfl rfl submits
  · exact hears.send (sound.advance acknowledges (.close _)) rfl rfl submits

theorem Hears.announce_all (hears : Hears network link) (more : List (ℕ × Bool)) :
    Hears (network ++ more) (more.foldl BatchSilence.announce link) := by
  induction more generalizing network link with
  | nil => rwa [List.append_nil]
  | cons entry more ih =>
      rw [List.foldl_cons, ← List.singleton_append, ← List.append_assoc]
      exact ih (hears.announce entry)

/-- A message that arrives sets the watch, unless the watch has a higher round. -/
theorem Hears.arrive (hears : Hears network link) (readsBack : Bincode.ReadsBack silences)
    (small : ∀ entry ∈ network, entry.1 < 2 ^ 64) {event : Link.Event} (quiet : Link.Quiet event) :
    Hears network (link.advance Worker.primaryReceiverHandler event) ∧
      ∃ more, (link.advance Worker.primaryReceiverHandler event).state.txBatchSilent =
        link.state.txBatchSilent ++ more := by
  have sound := hears.sound.advance Worker.primaryReceiverHandler_acknowledges event
  have sent : (link.advance Worker.primaryReceiverHandler event).sender.submitted.map Message.data =
      network.map encode := by rw [Link.submitted_advance quiet.ne_submit, hears.sent]
  rcases Link.advance_cases Worker.primaryReceiverHandler link event with
    ⟨state, dispatched⟩ | ⟨message, number, k, found, -, state, dispatched⟩
  · refine ⟨⟨sound, sent, state ▸ hears.watch, ?_⟩, [], by rw [state, List.append_nil]⟩
    rw [state, dispatched]
    exact hears.heard
  · obtain ⟨entry, here, data⟩ :=
      hears.exists_entry (hears.sound.frames number (List.mem_of_getElem? found))
    have read : Bincode.deserialize message.data =
        some (PrimaryWorkerMessage.batchSilent entry.1 entry.2) := by
      rw [data]
      exact readsBack _ ⟨entry.1, entry.2, small entry (List.mem_of_getElem? here), rfl⟩
    have borrow := Worker.borrow_dispatch_batchSilent (s := link.state) read
    rw [← state] at borrow
    refine ⟨⟨sound, sent, ?_, fun other heard earlier place => ?_⟩, ?_⟩
    · rw [borrow]
      split
      · exact .inr (List.mem_of_getElem? here)
      · exact hears.watch
    · have later : link.state.borrow.1 ≤
          (link.advance Worker.primaryReceiverHandler event).state.borrow.1 := by
        rw [borrow]
        split <;> first | assumption | exact le_rfl
      rw [dispatched] at heard
      rcases List.mem_append.mp heard with before | new
      · exact (hears.heard other before earlier place).trans later
      · rw [List.mem_singleton.mp new, here] at place
        cases place
        rw [borrow]
        split
        · exact le_rfl
        · next low => exact (Nat.lt_of_not_le low).le
    · rw [state]
      simp only [Worker.primaryReceiverHandler, read]
      split
      · exact ⟨_, rfl⟩
      · exact ⟨[], (List.append_nil _).symm⟩

end Messages

/-! ## Runs -/

/-- The BatchMaker is told the values that are sent on the watch. -/
def tell (maker : BatchMaker) (m : BatchMaker.State) (value : ℕ × Bool) : BatchMaker.State :=
  maker.advance m (.batchSilent value.1 value.2)

theorem tell_running (maker : BatchMaker) {m : BatchMaker.State} (running : m.status = .running)
    (value : ℕ × Bool) :
    tell maker m value = { m with rxBatchSilent := value, changed := true } := by
  simp [tell, BatchMaker.advance, running]

section Runs

variable [Primitives] [Bincode PrimaryWorkerMessage] (node : BatchSilence)

/-- The state after an event. -/
def advance (s : State) : Event → State
  | .proposer timerExpired event =>
      let proposer := node.proposer.pass s.proposer (timerExpired, event)
      { s with
        proposer := proposer
        link :=
          (proposer.workerNetwork.drop s.proposer.workerNetwork.length).foldl announce s.link }
  | .link event _ =>
      let link := s.link.advance Worker.primaryReceiverHandler event
      { s with
        link := link
        maker := (link.state.txBatchSilent.drop s.link.state.txBatchSilent.length).foldl
          (tell node.maker) s.maker }
  | .transaction bytes => { s with maker := node.maker.advance s.maker (.transaction bytes) }
  | .timer => { s with maker := node.maker.advance s.maker .timer }
  | .poll => { s with maker := node.maker.advance s.maker .poll }

/-- The state in which the tasks start. -/
def start : State where
  proposer := node.proposer.start
  link := node.proposer.start.workerNetwork.foldl announce { state := {} }
  maker := { rxBatchSilent := (0, false) }

/-- The state after a run. -/
def run (events : List Event) : State := events.foldl node.advance node.start

theorem run_snoc (events : List Event) (event : Event) :
    node.run (events ++ [event]) = node.advance (node.run events) event := by
  rw [run, List.foldl_append]
  rfl

variable {node} {network : List (ℕ × Bool)} {link : Link Worker.FromPrimary}

omit [Primitives] in
/-- The value of the message for the last round is on the watch once that message was heard. -/
theorem Hears.borrow_eq (hears : Hears network link) {s : Proposer.State}
    (announces : node.Announces s) (same : network = s.workerNetwork) {message : Message}
    (heard : message ∈ link.dispatched) (last : message.id + 1 = link.sender.submitted.length) :
    link.state.borrow = node.wanted s := by
  subst same
  obtain ⟨entry, found, -⟩ := hears.exists_entry (hears.sound.submitted_of_dispatched heard)
  have place : s.workerNetwork.getLast? = some entry := by
    rw [List.getLast?_eq_getElem?, ← hears.length, ← last, Nat.add_sub_cancel, found]
  have newest := announces.last entry place
  have late := hears.heard message heard entry found
  rcases hears.watch with initial | sent
  · rw [initial] at late
    exact absurd (announces.positive entry (List.mem_of_getElem? found)) (by omega)
  · have rounds : link.state.borrow.1 = entry.1 := by
      have bound := announces.bounded _ sent
      rw [newest] at late ⊢
      exact le_antisymm bound late
    have nodup : (s.workerNetwork.map Prod.fst).Nodup := announces.increasing.imp Nat.ne_of_lt
    rw [← newest]
    exact List.inj_on_of_nodup_map nodup sent (List.mem_of_getElem? found) rounds

omit [Primitives] [Bincode PrimaryWorkerMessage] in
/-- Being told values seals nothing. The last value is the one that counts. -/
theorem foldl_tell (maker : BatchMaker) (more : List (ℕ × Bool)) (m : BatchMaker.State) :
    (more.foldl (tell maker) m).status = m.status ∧
      (more.foldl (tell maker) m).sealed = m.sealed ∧
      (m.status = .running →
        (more.foldl (tell maker) m).rxBatchSilent = more.getLast?.getD m.rxBatchSilent ∧
          (BatchMaker.Attending m → BatchMaker.Attending (more.foldl (tell maker) m))) := by
  induction more using List.reverseRecOn with
  | nil => exact ⟨rfl, rfl, fun _ => ⟨rfl, id⟩⟩
  | append_singleton more value ih =>
      rw [List.foldl_append, List.foldl_cons, List.foldl_nil]
      generalize more.foldl (tell maker) m = told at ih ⊢
      obtain ⟨status, sealed, follows⟩ := ih
      cases running : m.status with
      | running =>
          rw [running] at status
          rw [tell_running maker status, ← running]
          refine ⟨status.trans running.symm, sealed, fun _ => ⟨by simp, fun _ _ changed => ?_⟩⟩
          exact absurd changed (by simp)
      | returned =>
          rw [running] at status
          have idle : tell maker told value = told := by simp [tell, BatchMaker.advance, status]
          rw [idle]
          exact ⟨status, sealed, fun running => absurd running (by simp)⟩
      | panicked =>
          rw [running] at status
          have idle : tell maker told value = told := by simp [tell, BatchMaker.advance, status]
          rw [idle]
          exact ⟨status, sealed, fun running => absurd running (by simp)⟩

/-- What is known of both tasks. -/
structure Follows (node : BatchSilence) (s : State) : Prop where
  announces : node.Announces s.proposer
  hears : Hears s.proposer.workerNetwork s.link
  flag : s.maker.status = .running →
    s.maker.rxBatchSilent = s.link.state.borrow ∧ BatchMaker.Attending s.maker

omit [Primitives] in
/-- A step of the BatchMaker alone. -/
theorem Follows.make {s : State} (follows : node.Follows s) (event : BatchMaker.Event)
    (flag : s.maker.status = .running →
      (node.maker.advance s.maker event).rxBatchSilent = s.maker.rxBatchSilent ∧
        (BatchMaker.Attending s.maker → BatchMaker.Attending (node.maker.advance s.maker event))) :
    node.Follows { s with maker := node.maker.advance s.maker event } := by
  refine ⟨follows.announces, follows.hears, fun running => ?_⟩
  cases before : s.maker.status with
  | running =>
      obtain ⟨same, attending⟩ := follows.flag before
      obtain ⟨kept, attends⟩ := flag before
      exact ⟨kept.trans same, attends attending⟩
  | returned =>
      have idle : node.maker.advance s.maker event = s.maker := by
        simp [BatchMaker.advance, before]
      rw [idle, before] at running
      exact absurd running (by simp)
  | panicked =>
      have idle : node.maker.advance s.maker event = s.maker := by
        simp [BatchMaker.advance, before]
      rw [idle, before] at running
      exact absurd running (by simp)

/-- **An event keeps the worker behind the Proposer.** -/
theorem Follows.advance {s : State} (follows : node.Follows s)
    (readsBack : Bincode.ReadsBack silences) {event : Event} (fits : RoundFits event) :
    node.Follows (node.advance s event) := by
  cases event with
  | proposer timerExpired event =>
      obtain ⟨announces, more, longer⟩ := follows.announces.pass timerExpired fits
      have hears := follows.hears.announce_all more
      unfold BatchSilence.advance
      dsimp only
      rw [← longer, List.drop_left]
      refine ⟨announces, ?_, fun running => ?_⟩
      · rw [← longer]
        exact hears
      · dsimp only
        rw [state_foldl_announce]
        exact follows.flag running
  | link event quiet =>
      obtain ⟨hears, more, sent⟩ := follows.hears.arrive readsBack follows.announces.small quiet
      obtain ⟨status, -, told⟩ := foldl_tell node.maker more s.maker
      refine ⟨follows.announces, hears, fun running => ?_⟩
      unfold BatchSilence.advance at running ⊢
      dsimp only at running ⊢
      rw [sent, List.drop_left] at running ⊢
      have before : s.maker.status = .running := status.symm.trans running
      obtain ⟨same, attending⟩ := follows.flag before
      obtain ⟨last, attends⟩ := told before
      refine ⟨last.trans ?_, attends attending⟩
      rw [same, Worker.FromPrimary.borrow, Worker.FromPrimary.borrow, sent, List.getLast?_append]
      cases more.getLast? <;> rfl
  | transaction bytes =>
      refine follows.make _ fun running => ?_
      rw [BatchMaker.advance, running]
      exact ⟨rfl, id⟩
  | timer =>
      refine follows.make _ fun running => ?_
      rw [BatchMaker.advance, running]
      exact ⟨rfl, id⟩
  | poll =>
      refine follows.make _ fun running => ?_
      rw [BatchMaker.advance, running]
      exact ⟨BatchMaker.rxBatchSilent_poll _ _, BatchMaker.Attending.poll⟩

theorem follows_run (readsBack : Bincode.ReadsBack silences) {events : List Event}
    (fit : ∀ event ∈ events, RoundFits event) : node.Follows (node.run events) := by
  induction events using List.reverseRecOn with
  | nil =>
      have quiet : Hears [] ({ state := {} } : Link Worker.FromPrimary) :=
        ⟨Link.sound_start _, rfl, .inl rfl, fun _ member => absurd member List.not_mem_nil⟩
      have hears := quiet.announce_all node.proposer.start.workerNetwork
      refine ⟨announces_start, hears, fun _ => ⟨?_, fun select => absurd select (by simp [run, start])⟩⟩
      show (0, false) = (node.proposer.start.workerNetwork.foldl announce { state := {} }).state.borrow
      rw [state_foldl_announce]
      rfl
  | append_singleton events event ih =>
      rw [run_snoc]
      exact (ih fun event member => fit event (List.mem_append_left _ member)).advance readsBack
        (fit event (List.mem_append_right _ (List.mem_singleton_self _)))

end Runs

/-! ## A silent round -/

section Alone

/-- The bytes of a message for a silent round: its tag, the round and the flag. -/
def silenceBytes (round : ℕ) (silent : Bool) : List UInt8 :=
  [2, 0, 0, 0] ++ (littleEndian 8 round ++ [if silent then 1 else 0])

/-- Read the message for a silent round. -/
def readSilence (bytes : List UInt8) : Option PrimaryWorkerMessage :=
  if bytes.take 4 = [2, 0, 0, 0] then
    some (.batchSilent (ofLittleEndian ((bytes.drop 4).take 8)) (bytes.drop 12 = [1]))
  else none

theorem readSilence_silenceBytes {round : ℕ} (small : round < 2 ^ 64) (silent : Bool) :
    readSilence (silenceBytes round silent) = some (.batchSilent round silent) := by
  have number : ofLittleEndian (littleEndian 8 round) = round := by
    rw [ofLittleEndian_littleEndian]
    exact Nat.mod_eq_of_lt small
  have front : ((silenceBytes round silent).drop 4).take 8 = littleEndian 8 round := by
    simp [silenceBytes]
  have back : (silenceBytes round silent).drop 12 = [if silent then 1 else 0] := by
    simp [silenceBytes]
  rw [readSilence, if_pos (by simp [silenceBytes]), front, number, back]
  cases silent <;> simp

/-- bincode, as far as the messages for silent rounds are concerned. -/
local instance silenceBincode : Bincode PrimaryWorkerMessage where
  serialize
    | .batchSilent round silent => silenceBytes round silent
    | .synchronize _ _ => []
    | .cleanup _ => []
  deserialize := readSilence

local instance aloneSign : Primitives := executable fun _ _ => true

theorem silences_readBack : Bincode.ReadsBack silences := by
  rintro - ⟨round, silent, small, rfl⟩
  exact readSilence_silenceBytes small silent

/-- The Proposer of a committee of one authority, which the adversary silences. -/
def aloneSilence : BatchSilence where
  proposer := { Proposer.aloneProposer with adversaryFaults := 1 }
  maker := { batchSize := 1, workersAddresses := [], benchmark := false }

/-- The first message is heard, but the Proposer enters round 2 before it is acknowledged. The connection
fails, and the second message reaches the worker over the next one. -/
def entered : List Event :=
  [.link (.connect true) trivial, .link .receive trivial, .link (.send true) trivial,
    .link (.frame 1) trivial, .proposer true (.parents [⟨5⟩] 1), .link .fail trivial,
    .link (.connect true) trivial, .link .receive trivial, .link (.send true) trivial,
    .link (.frame 2) trivial, .link .response trivial, .transaction [1, 2], .poll]

end Alone

end BatchSilence

end Tusk
