import Tusk.Network.ReliableSender

/-!
# The receiver

The network receiver of a node accepts connections. For each connection a runner reads the frames in
order and hands them to the handler of the node, which may write responses. A runner ends when its
stream fails or when a dispatch does.

A link is a connection of a reliable sender together with the runners at the other end. Every time the
sender connects again there is a new runner, and the old one may still have frames to read. Frames and
responses are read in the order in which they were written, and those that were not read when a stream
fails are lost.

`acked_dispatched` says that a handler of the sender is notified only after the peer has dispatched the
message, and that the peer dispatches only what was submitted.
-/

set_option autoImplicit false

namespace Tusk

open Lib

universe u

/-- What is known after a message was dispatched: the state that the handler works on, the responses it
has written, and whether it has succeeded. -/
structure Dispatched (η : Type u) where
  state : η
  responses : List (List UInt8) := []
  succeeds : Bool := true

/-- Defines how to handle an incoming message. -/
structure MessageHandler (η : Type u) where
  dispatch : η → List UInt8 → Dispatched η

/-- bincode, a third-party crate: how the values of a type are written as bytes and read back. -/
class Bincode (α : Type u) where
  serialize : α → List UInt8
  deserialize : List UInt8 → Option α

/-- What is written of these values is read back. -/
def Bincode.ReadsBack {α : Type u} [Bincode α] (values : Set α) : Prop :=
  ∀ value ∈ values, deserialize (serialize value) = some value

/-- The bytes of `Ack`. -/
def ackBytes : List UInt8 := [65, 99, 107]

/-- The handler replies to every message with an ACK, and writes nothing else. -/
def MessageHandler.Acknowledges {η : Type u} (handler : MessageHandler η) : Prop :=
  ∀ state message, (handler.dispatch state message).responses = [ackBytes]

/-- A handler that keeps what arrives. -/
def keeping : MessageHandler (List (List UInt8)) where
  dispatch kept message := { state := kept ++ [message], responses := [ackBytes] }

theorem keeping_acknowledges : keeping.Acknowledges := fun _ _ => rfl

namespace ReliableSender

/-- The runner of a connection. -/
structure Runner where
  /-- How many frames of the connection were dispatched. -/
  dispatched : ℕ := 0
  /-- The responses that the sender may read. -/
  written : List (List UInt8) := []
  /-- What is written does not reach the sender any more. -/
  severed : Bool := false
  /-- The runner has ended. -/
  ended : Bool := false

/-- A connection of the sender, and the other end. -/
structure Link (η : Type u) where
  sender : Connection := {}
  /-- The runners, by the numbers of their connections. -/
  runners : ℕ → Runner := fun _ => {}
  /-- What the handler of the receiver works on. -/
  state : η
  /-- The messages that were dispatched. -/
  dispatched : List Message := []

namespace Link

variable {η : Type u} (handler : MessageHandler η)

/-- A runner reads its next frame and has it dispatched. -/
def read (s : Link η) (number : ℕ) : Link η :=
  let runner := s.runners number
  if runner.ended then
    s
  else
    match (s.sender.frames number)[runner.dispatched]? with
    | none => s
    | some message =>
        let result := handler.dispatch s.state message.data
        { s with
          runners := Function.update s.runners number
            { runner with
              dispatched := runner.dispatched + 1
              written :=
                if runner.severed then runner.written else runner.written ++ result.responses
              ended := !result.succeeds }
          state := result.state
          dispatched := s.dispatched ++ [message] }

/-- The sender reads the next response of its connection, if there is one. -/
def respond (s : Link η) : Link η :=
  match (s.runners s.sender.connection).written[s.sender.responses]? with
  | none => s
  | some bytes =>
      let ack : Ack := ⟨s.sender.connection, s.sender.responses, bytes⟩
      { s with sender := s.sender.advance (.response (some ack)) }

/-- Something happens to the runner of a connection. -/
def disturb (s : Link η) (number : ℕ) (change : Runner → Runner) : Link η :=
  if number ≤ s.sender.connection then
    { s with runners := Function.update s.runners number (change (s.runners number)) }
  else s

/-- What happens on the link. -/
inductive Event where
  /-- A caller submits a message. -/
  | submit (data : List UInt8)
  /-- A caller closes a handler. -/
  | close (id : ℕ)
  /-- An attempt to connect succeeds or fails. -/
  | connect (succeeds : Bool)
  /-- The delay is over. -/
  | timer
  /-- The task of the sender receives from its channel. -/
  | receive
  /-- Sending the front of the buffer succeeds or fails. -/
  | send (succeeds : Bool)
  /-- A frame arrives at the runner of a connection. -/
  | frame (number : ℕ)
  /-- The runner of a connection can not write any more. -/
  | sever (number : ℕ)
  /-- The stream fails at the runner of a connection. -/
  | shut (number : ℕ)
  /-- A response arrives. -/
  | response
  /-- The stream fails at the sender. -/
  | fail

/-- What the callers submit in a run. -/
def submissions (events : List Event) : List (List UInt8) :=
  events.filterMap fun
    | .submit data => some data
    | _ => none

theorem submissions_append (events more : List Event) :
    submissions (events ++ more) = submissions events ++ submissions more := List.filterMap_append

/-- The callers do nothing. -/
def Quiet : Event → Prop
  | .submit _ => False
  | .close _ => False
  | _ => True

theorem Quiet.ne_submit {event : Event} (quiet : Quiet event) (data : List UInt8) :
    event ≠ .submit data := by
  rintro rfl
  exact quiet

theorem submissions_quiet {events : List Event} (quiet : ∀ event ∈ events, Quiet event) :
    submissions events = [] := by
  refine List.filterMap_eq_nil_iff.mpr fun event member => ?_
  have quiet := quiet event member
  cases event with
  | submit data => exact quiet.elim
  | _ => rfl

/-- The state after an event. -/
def advance (s : Link η) : Event → Link η
  | .submit data => { s with sender := s.sender.advance (.submit data) }
  | .close id => { s with sender := s.sender.advance (.close id) }
  | .connect succeeds => { s with sender := s.sender.advance (.connect succeeds) }
  | .timer => { s with sender := s.sender.advance .timer }
  | .receive => { s with sender := s.sender.advance .receive }
  | .send succeeds => { s with sender := s.sender.advance (.send succeeds) }
  | .frame number => s.read handler number
  | .sever number => s.disturb number fun runner => { runner with severed := true }
  | .shut number => s.disturb number fun runner => { runner with severed := true, ended := true }
  | .response => s.respond
  | .fail => { s with sender := s.sender.advance (.response none) }

/-- The state after a run, from the state that the handler has at first. -/
def run (start : η) (events : List Event) : Link η :=
  events.foldl (advance handler) { state := start }

theorem sender_disturb (s : Link η) (number : ℕ) (change : Runner → Runner) :
    (s.disturb number change).sender = s.sender := by
  unfold disturb
  split <;> rfl

theorem dispatched_disturb (s : Link η) (number : ℕ) (change : Runner → Runner) :
    (s.disturb number change).dispatched = s.dispatched := by
  unfold disturb
  split <;> rfl

theorem state_disturb (s : Link η) (number : ℕ) (change : Runner → Runner) :
    (s.disturb number change).state = s.state := by
  unfold disturb
  split <;> rfl

theorem run_snoc (start : η) (events : List Event) (event : Event) :
    run handler start (events ++ [event]) = (run handler start events).advance handler event := by
  rw [run, List.foldl_append]
  rfl

end Link

/-! ## What the sender's side does -/

namespace Connection

variable {s t : Connection} {event : Event}

/-- The frames that were sent stay. -/
theorem Steps.frames_prefix (steps : Steps s event t) (number : ℕ) :
    s.frames number <+: t.frames number := by
  cases steps with
  | sent _ _ =>
      show s.frames number <+: Function.update s.frames s.connection _ number
      by_cases same : number = s.connection
      · subst same
        rw [Function.update_self]
        exact List.prefix_append _ _
      · refine ⟨[], ?_⟩
        rw [Function.update_of_ne same, List.append_nil]
  | receive next =>
      unfold Connection.receive
      dsimp only
      split <;> exact List.prefix_rfl
  | _ => exact List.prefix_rfl

theorem Steps.submitted_prefix (steps : Steps s event t) : s.submitted <+: t.submitted := by
  cases steps with
  | submit data => exact List.prefix_append _ _
  | receive next =>
      unfold Connection.receive
      dsimp only
      split <;> exact List.prefix_rfl
  | _ => exact List.prefix_rfl

/-- The frames are messages that were submitted. -/
def FramesSubmitted (s : Connection) : Prop :=
  ∀ number, s.frames number ⊆ s.submitted

theorem FramesSubmitted.steps (steps : Steps s event t) (reliable : Reliable s)
    (frames : s.FramesSubmitted) : t.FramesSubmitted := by
  intro number
  cases steps with
  | @sent message rest _ front =>
      show Function.update s.frames s.connection _ number ⊆ s.submitted
      by_cases same : number = s.connection
      · subst same
        rw [Function.update_self]
        refine List.append_subset.mpr ⟨frames _, fun other member => ?_⟩
        rw [List.mem_singleton.mp member]
        refine reliable.ordered.subset ?_
        simp [held, front]
      · rw [Function.update_of_ne same]
        exact frames number
  | submit data => exact List.Subset.trans (frames number) (List.subset_append_left _ _)
  | receive next =>
      unfold Connection.receive
      dsimp only
      split <;> exact frames number
  | _ => exact frames number

/-- What an event other than a response leaves alone: nobody is notified, and the responses of a
connection are counted until there is another one. -/
structure Unanswered (s t : Connection) : Prop where
  acked : t.acked = s.acked
  responses : (t.connection = s.connection ∧ t.responses = s.responses) ∨ t.responses = 0

theorem Steps.unanswered (steps : Steps s event t) (silent : ∀ ack, event ≠ .response (some ack)) :
    Unanswered s t := by
  cases steps with
  | establish => exact ⟨rfl, .inr rfl⟩
  | receive next =>
      unfold Connection.receive
      dsimp only
      split <;> exact ⟨rfl, .inl ⟨rfl, rfl⟩⟩
  | notify => exact absurd rfl (silent _)
  | _ => exact ⟨rfl, .inl ⟨rfl, rfl⟩⟩

/-- A response notifies at most the handler at the front. -/
theorem Steps.answered {ack : Ack} (steps : Steps s (.response (some ack)) t) :
    Unanswered s t ∨ ∃ message, t.acked = s.acked ++ [(message, ack)] ∧
      t.connection = s.connection ∧ t.responses = s.responses + 1 := by
  cases steps with
  | notify _ front => exact .inr ⟨_, rfl, rfl, rfl⟩
  | _ => exact .inl ⟨rfl, .inl ⟨rfl, rfl⟩⟩

/-- The task has a connection. -/
def Connected (s : Connection) : Prop := s.point = .sending ∨ s.point = .selecting

theorem not_connected (idle : s.point = .connecting ∨ s.point = .waiting) : ¬ s.Connected := by
  rintro (sending | selecting) <;> rcases idle with connecting | waiting <;> simp_all

theorem connected_transmit (s : Connection) : s.transmit.Connected := by
  unfold Connected transmit
  dsimp only
  split
  · exact .inr rfl
  · exact .inl rfl

end Connection

/-! ## What both ends agree on -/

namespace Link

variable {η : Type u} {handler : MessageHandler η} {s : Link η}

/-- Messages come from callers only. -/
theorem submitted_advance {event : Event} (none : ∀ data, event ≠ .submit data) :
    (s.advance handler event).sender.submitted = s.sender.submitted := by
  have same : ∀ event : Connection.Event, (∀ data, event ≠ .submit data) →
      (s.sender.advance event).submitted = s.sender.submitted := fun event others =>
    (s.sender.steps event).submitted_eq others
  cases event with
  | submit data => exact absurd rfl (none data)
  | close id => exact same _ (by simp)
  | connect succeeds => exact same _ (by simp)
  | timer => exact same _ (by simp)
  | receive => exact same _ (by simp)
  | send succeeds => exact same _ (by simp)
  | frame number =>
      rw [Link.advance]
      unfold Link.read
      dsimp only
      split
      · rfl
      · split <;> rfl
  | sever number => exact congrArg _ (sender_disturb ..)
  | shut number => exact congrArg _ (sender_disturb ..)
  | response =>
      rw [Link.advance]
      unfold Link.respond
      split
      · rfl
      · exact same _ (by simp)
  | fail => exact same _ (by simp)

/-- What is known of a link. -/
structure Sound (s : Link η) : Prop where
  reliable : s.sender.Reliable
  answering : s.sender.Answering
  frames : s.sender.FramesSubmitted
  read : ∀ n, (s.runners n).dispatched ≤ (s.sender.frames n).length
  written : ∀ n, (s.runners n).written.length ≤ (s.runners n).dispatched
  responses : s.sender.responses ≤ (s.runners s.sender.connection).written.length
  acked : ∀ entry ∈ s.sender.acked, entry.2.frame < (s.runners entry.2.connection).dispatched
  heard : ∀ message, message ∈ s.dispatched ↔
    ∃ n k, k < (s.runners n).dispatched ∧ (s.sender.frames n)[k]? = some message

/-- The sender takes a step, and the runners do not. -/
theorem Sound.send (sound : Sound s) {event : Connection.Event} {sender : Connection}
    (steps : s.sender.Steps event sender) (inOrder : s.sender.InOrder event)
    (acked : ∀ entry ∈ sender.acked, entry.2.frame < (s.runners entry.2.connection).dispatched)
    (responses : sender.responses ≤ (s.runners sender.connection).written.length) :
    Sound { s with sender := sender } where
  reliable := sound.reliable.steps steps
  answering := sound.answering.steps steps inOrder
  frames := sound.frames.steps steps sound.reliable
  read n := (sound.read n).trans (steps.frames_prefix n).length_le
  written := sound.written
  responses := responses
  acked := acked
  heard message := by
    -- frames are only added behind those that were read
    have same : ∀ n k, k < (s.runners n).dispatched →
        (sender.frames n)[k]? = (s.sender.frames n)[k]? := by
      intro n k before
      obtain ⟨more, frames⟩ := steps.frames_prefix n
      rw [← frames, List.getElem?_append_left (before.trans_le (sound.read n))]
    rw [sound.heard]
    constructor
    · rintro ⟨n, k, before, found⟩
      exact ⟨n, k, before, (same n k before).trans found⟩
    · rintro ⟨n, k, before, found⟩
      exact ⟨n, k, before, (same n k before).symm.trans found⟩

/-- A step of the sender without a response. -/
theorem Sound.send_unanswered (sound : Sound s) {event : Connection.Event}
    (silent : ∀ ack, event ≠ .response (some ack)) :
    Sound { s with sender := s.sender.advance event } := by
  have steps := s.sender.steps event
  obtain ⟨acked, responses⟩ := steps.unanswered silent
  have inOrder : s.sender.InOrder event := by
    unfold Connection.InOrder
    split
    · next ack => exact absurd rfl (silent ack)
    · trivial
  refine sound.send steps inOrder (fun entry member => ?_) ?_
  · rw [acked] at member
    exact sound.acked entry member
  · rcases responses with ⟨connection, responses⟩ | none
    · rw [connection, responses]
      exact sound.responses
    · rw [none]
      exact Nat.zero_le _

theorem Sound.respond (sound : Sound s) : Sound s.respond := by
  unfold Link.respond
  split
  · exact sound
  · next bytes found =>
      have inside := (List.getElem?_eq_some_iff.mp found).1
      have steps := s.sender.steps (.response (some ⟨s.sender.connection, s.sender.responses, bytes⟩))
      refine sound.send steps ⟨rfl, rfl⟩ ?_ ?_
      · rcases steps.answered with unanswered | ⟨message, acked, -, -⟩
        · rw [unanswered.acked]
          exact sound.acked
        · rw [acked]
          intro entry member
          rcases List.mem_append.mp member with before | new
          · exact sound.acked entry before
          · rw [List.mem_singleton.mp new]
            exact inside.trans_le (sound.written _)
      · rcases steps.answered with ⟨-, ⟨connection, responses⟩ | none⟩ | ⟨-, -, connection, responses⟩
        · rw [connection, responses]
          exact sound.responses
        · rw [none]
          exact Nat.zero_le _
        · rw [connection, responses]
          exact inside

/-- What happens to a runner otherwise changes neither what it has dispatched nor what it has
written. -/
theorem Sound.disturb (sound : Sound s) (number : ℕ) {change : Runner → Runner}
    (keeps : ∀ runner, (change runner).dispatched = runner.dispatched ∧
      (change runner).written = runner.written) : Sound (s.disturb number change) := by
  unfold Link.disturb
  split
  · have counts : ∀ n,
        (Function.update s.runners number (change (s.runners number)) n).dispatched =
          (s.runners n).dispatched ∧
        (Function.update s.runners number (change (s.runners number)) n).written =
          (s.runners n).written := by
      intro n
      by_cases same : n = number
      · subst same
        rw [Function.update_self]
        exact keeps _
      · rw [Function.update_of_ne same]
        exact ⟨rfl, rfl⟩
    refine ⟨sound.reliable, sound.answering, sound.frames, fun n => ?_, fun n => ?_, ?_, ?_, ?_⟩
    · exact (counts n).1 ▸ sound.read n
    · dsimp only
      rw [(counts n).1, (counts n).2]
      exact sound.written n
    · dsimp only
      rw [(counts _).2]
      exact sound.responses
    · intro entry member
      dsimp only
      rw [(counts _).1]
      exact sound.acked entry member
    · intro message
      dsimp only
      simp only [(counts _).1]
      exact sound.heard message
  · exact sound

theorem Sound.dispatch (sound : Sound s) (acknowledges : handler.Acknowledges) (number : ℕ) :
    Sound (s.read handler number) := by
  unfold Link.read
  dsimp only
  split
  · exact sound
  · split
    · exact sound
    · next message found =>
        have inside := (List.getElem?_eq_some_iff.mp found).1
        generalize replied : (if (s.runners number).severed = true then (s.runners number).written
          else (s.runners number).written ++ (handler.dispatch s.state message.data).responses) =
            written
        have bounds : (s.runners number).written.length ≤ written.length ∧
            written.length ≤ (s.runners number).written.length + 1 := by
          rw [← replied, acknowledges]
          split <;> simp
        have later : ∀ n, (s.runners n).dispatched ≤ (Function.update s.runners number
            { s.runners number with
              dispatched := (s.runners number).dispatched + 1
              written := written
              ended := !(handler.dispatch s.state message.data).succeeds } n).dispatched := by
          intro n
          by_cases same : n = number
          · subst same
            rw [Function.update_self]
            exact Nat.le_succ _
          · rw [Function.update_of_ne same]
        refine ⟨sound.reliable, sound.answering, sound.frames, fun n => ?_, fun n => ?_, ?_, ?_, ?_⟩
        · dsimp only
          by_cases same : n = number
          · subst same
            rw [Function.update_self]
            exact inside
          · rw [Function.update_of_ne same]
            exact sound.read n
        · dsimp only
          by_cases same : n = number
          · subst same
            rw [Function.update_self]
            exact bounds.2.trans (Nat.succ_le_succ (sound.written n))
          · rw [Function.update_of_ne same]
            exact sound.written n
        · dsimp only
          by_cases same : s.sender.connection = number
          · rw [same, Function.update_self]
            exact (same ▸ sound.responses).trans bounds.1
          · rw [Function.update_of_ne same]
            exact sound.responses
        · exact fun entry member => (sound.acked entry member).trans_le (later _)
        · intro other
          rw [List.mem_append, sound.heard, List.mem_singleton]
          constructor
          · rintro (⟨n, k, before, sent⟩ | rfl)
            · exact ⟨n, k, before.trans_le (later n), sent⟩
            · refine ⟨number, (s.runners number).dispatched, ?_, found⟩
              dsimp only
              rw [Function.update_self]
              exact Nat.lt_succ_self _
          · rintro ⟨n, k, before, sent⟩
            dsimp only at before sent
            by_cases same : n = number
            · subst same
              rw [Function.update_self] at before
              rcases Nat.lt_succ_iff_lt_or_eq.mp before with earlier | last
              · exact .inl ⟨n, k, earlier, sent⟩
              · rw [last, found] at sent
                exact .inr (Option.some.inj sent).symm
            · rw [Function.update_of_ne same] at before
              exact .inl ⟨n, k, before, sent⟩

/-- **An event keeps both ends in agreement.** -/
theorem Sound.advance (sound : Sound s) (acknowledges : handler.Acknowledges) (event : Event) :
    Sound (s.advance handler event) := by
  cases event with
  | submit data => exact sound.send_unanswered (by simp)
  | close id => exact sound.send_unanswered (by simp)
  | connect succeeds => exact sound.send_unanswered (by simp)
  | timer => exact sound.send_unanswered (by simp)
  | receive => exact sound.send_unanswered (by simp)
  | send succeeds => exact sound.send_unanswered (by simp)
  | frame number => exact sound.dispatch acknowledges number
  | sever number =>
      unfold Link.advance
      exact sound.disturb number fun _ => ⟨rfl, rfl⟩
  | shut number =>
      unfold Link.advance
      exact sound.disturb number fun _ => ⟨rfl, rfl⟩
  | response => exact sound.respond
  | fail => exact sound.send_unanswered (by simp)

theorem sound_start (start : η) : Sound ({ state := start } : Link η) where
  reliable := Connection.reliable_run []
  answering := ⟨fun _ => rfl, fun busy => by simp at busy, fun _ _ => rfl,
    fun _ member => absurd member List.not_mem_nil⟩
  frames _ := List.nil_subset _
  read _ := Nat.le_refl 0
  written _ := Nat.le_refl 0
  responses := Nat.le_refl 0
  acked _ member := absurd member List.not_mem_nil
  heard _ := ⟨fun member => absurd member List.not_mem_nil, fun found => by simp at found⟩

theorem sound_run (acknowledges : handler.Acknowledges) (start : η) (events : List Event) :
    Sound (run handler start events) := by
  induction events using List.reverseRecOn with
  | nil => exact sound_start start
  | append_singleton events event ih =>
      rw [run_snoc]
      exact ih.advance acknowledges event

/-- An event has at most one message dispatched. -/
theorem advance_cases (handler : MessageHandler η) (s : Link η) (event : Event) :
    ((s.advance handler event).state = s.state ∧
        (s.advance handler event).dispatched = s.dispatched) ∨
      ∃ (message : Message) (number k : ℕ), (s.sender.frames number)[k]? = some message ∧
        (s.advance handler event).sender = s.sender ∧
        (s.advance handler event).state = (handler.dispatch s.state message.data).state ∧
        (s.advance handler event).dispatched = s.dispatched ++ [message] := by
  cases event with
  | frame number =>
      rw [Link.advance]
      unfold Link.read
      dsimp only
      split
      · exact .inl ⟨rfl, rfl⟩
      · split
        · exact .inl ⟨rfl, rfl⟩
        · next message found => exact .inr ⟨message, number, _, found, rfl, rfl, rfl⟩
  | sever number => exact .inl ⟨state_disturb .., dispatched_disturb ..⟩
  | shut number => exact .inl ⟨state_disturb .., dispatched_disturb ..⟩
  | response =>
      rw [Link.advance]
      unfold Link.respond
      split <;> exact .inl ⟨rfl, rfl⟩
  | _ => exact .inl ⟨rfl, rfl⟩

/-- What the handler works on is what the messages that were dispatched have made of it. -/
theorem state_run (start : η) (events : List Event) :
    (run handler start events).state = (run handler start events).dispatched.foldl
      (fun state message => (handler.dispatch state message.data).state) start := by
  induction events using List.reverseRecOn with
  | nil => rfl
  | append_singleton events event ih =>
      rw [run_snoc]
      rcases advance_cases handler (run handler start events) event with
        ⟨state, dispatched⟩ | ⟨message, -, -, -, -, state, dispatched⟩
      · rw [state, dispatched, ih]
      · rw [state, dispatched, List.foldl_append, ← ih]
        rfl

/-- **The messages are what the callers have submitted**, in this order and numbered. -/
theorem submitted_run (start : η) (events : List Event) :
    (run handler start events).sender.submitted = (submissions events).mapIdx Message.mk := by
  refine @history_foldl _ _ _ _ _ (fun s : Link η => s.sender.submitted) _ _ _ rfl
    (fun s event none => submitted_advance ?_) (fun s event data brought => ?_) events
  · rintro data rfl
    cases none
  · cases event with
    | submit data =>
        cases brought
        rfl
    | _ => cases brought

/-- A message whose handler was notified was dispatched. -/
theorem Sound.dispatched_of_acked (sound : Sound s) {message : Message} {ack : Ack}
    (notified : (message, ack) ∈ s.sender.acked) : message ∈ s.dispatched :=
  (sound.heard message).mpr
    ⟨ack.connection, ack.frame, sound.acked _ notified, sound.answering.own _ notified⟩

/-- A message that was dispatched was submitted. -/
theorem Sound.submitted_of_dispatched (sound : Sound s) {message : Message}
    (heard : message ∈ s.dispatched) : message ∈ s.sender.submitted := by
  obtain ⟨n, k, -, found⟩ := (sound.heard message).mp heard
  exact sound.frames n (List.mem_of_getElem? found)

/-- **What is acknowledged was dispatched, and what was dispatched had been submitted.** In every run,
with any failures of connections and any cancellations, the handler at the other end has dispatched every
message whose handler was notified, and has dispatched nothing but messages that were submitted. -/
theorem acked_dispatched (acknowledges : handler.Acknowledges) (start : η) (events : List Event) :
    (run handler start events).sender.submitted = (submissions events).mapIdx Message.mk ∧
      (∀ entry ∈ (run handler start events).sender.acked,
        entry.1 ∈ (run handler start events).dispatched) ∧
      (run handler start events).dispatched ⊆ (run handler start events).sender.submitted ∧
      (run handler start events).state = (run handler start events).dispatched.foldl
        (fun state message => (handler.dispatch state message.data).state) start :=
  have sound := sound_run acknowledges start events
  ⟨submitted_run start events, fun _ notified => sound.dispatched_of_acked notified,
    fun _ heard => sound.submitted_of_dispatched heard, state_run start events⟩

/-- Two messages of which the second is cancelled after it was sent. Both are heard twice, and the first
is acknowledged. -/
def repeated : List Event :=
  [.connect true, .submit [1], .submit [2], .receive, .send true, .receive, .send true, .fail,
    .connect true, .send true, .close 1, .frame 1, .frame 2, .frame 1, .response]

theorem acked_dispatched_repeated :
    (run keeping [] repeated).sender.submitted = (submissions repeated).mapIdx Message.mk ∧
      (∀ entry ∈ (run keeping [] repeated).sender.acked,
        entry.1 ∈ (run keeping [] repeated).dispatched) ∧
      (run keeping [] repeated).dispatched ⊆ (run keeping [] repeated).sender.submitted ∧
      (run keeping [] repeated).state = (run keeping [] repeated).dispatched.foldl
        (fun state message => (keeping.dispatch state message.data).state) [] :=
  acked_dispatched keeping_acknowledges [] repeated

end Link

end ReliableSender

end Tusk
