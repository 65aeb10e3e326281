import Mathlib.Data.List.Induction
import Mathlib.Data.List.Nodup
import Mathlib.Data.List.TakeWhile
import Tusk.Lib.Runs

/-!
# The reliable sender

For every peer one task keeps a connection alive and transmits the messages that callers submit. A message
moves from the input channel to the buffer, and when it was sent to the queue of pending replies, where it
waits for its acknowledgement. When the connection fails, what was not acknowledged goes back to the
front of the buffer, to be sent again. A caller cancels a message by closing its handler, and a cancelled
message that has not been sent is skipped.

In every run each message is in exactly one place, and the messages that are held are in the order in
which they were submitted (`Reliable`, `nothing_lost`). If the peer answers the frames of a connection in
order, a handler is completed with the acknowledgement of its own message (`OwnAcks`).
-/

set_option autoImplicit false

namespace Tusk

open Lib

namespace ReliableSender

/-- A message, with the number of its handler. -/
structure Message where
  id : ℕ
  data : List UInt8
deriving DecidableEq

/-- A response of the peer, with the frame that it answers. -/
structure Ack where
  connection : ℕ
  frame : ℕ
  bytes : List UInt8
deriving DecidableEq

/-- What the task waits for. -/
inductive Point where
  /-- For the connection to be established. -/
  | connecting
  /-- For the delay before the next attempt. -/
  | waiting
  /-- For the message at the front of the buffer to be sent. -/
  | sending
  /-- For a message to send or for a response. -/
  | selecting
deriving DecidableEq

/-- The state of a `Connection`, with the history of its messages. The message that is being sent counts
as the front of the buffer, where it is put back when sending fails. -/
structure Connection where
  /-- Channel from which the connection receives its commands. -/
  receiver : List Message := []
  /-- Buffer keeping all messages that need to be re-transmitted. -/
  buffer : List Message := []
  /-- The messages that were transmitted and wait for an ACK. -/
  pendingReplies : List Message := []
  point : Point := .connecting
  /-- The delay before re-attempting a connection (in ms). -/
  delay : ℕ := 200
  retry : ℕ := 0
  /-- All messages in the order of their submission. -/
  submitted : List Message := []
  /-- The handlers that the callers have closed. -/
  closed : List ℕ := []
  /-- The messages whose handlers were notified, with the responses. -/
  acked : List (Message × Ack) := []
  /-- The messages that were skipped. -/
  discarded : List Message := []
  /-- The number of the connection, the frames sent on each, and the responses on this one. -/
  connection : ℕ := 0
  frames : ℕ → List Message := fun _ => []
  responses : ℕ := 0

namespace Connection

/-- Whether the handler of a message is closed. -/
def isClosed (s : Connection) (message : Message) : Bool := decide (message.id ∈ s.closed)

/-- Try to send all messages of the buffer, and skip those that have been cancelled. -/
def transmit (s : Connection) : Connection :=
  let buffer := s.buffer.dropWhile s.isClosed
  { s with
    buffer := buffer
    discarded := s.discarded ++ s.buffer.takeWhile s.isClosed
    point := if buffer.isEmpty then .selecting else .sending }

/-- Put the messages for which we didn't receive an ACK back into the buffer, and connect again. -/
def disconnect (s : Connection) : Connection :=
  { s with
    buffer := s.pendingReplies ++ s.buffer
    pendingReplies := []
    point := .connecting }

/-- The connection is established. -/
def establish (s : Connection) : Connection :=
  transmit { s with
    delay := 200
    retry := 0
    connection := s.connection + 1
    responses := 0 }

/-- Receive a message from the channel. -/
def receive (s : Connection) (message : Message) (rest : List Message) : Connection :=
  let buffer := s.buffer ++ [message]
  match s.point with
  | .waiting =>
      { s with
        receiver := rest
        buffer := buffer.filter fun m => !s.isClosed m
        discarded := s.discarded ++ buffer.filter s.isClosed }
  | .selecting => transmit { s with receiver := rest, buffer := buffer }
  | .connecting => s
  | .sending => s

/-- The front of the buffer was sent. -/
def sent (s : Connection) (message : Message) (rest : List Message) : Connection :=
  transmit { s with
    buffer := rest
    pendingReplies := s.pendingReplies ++ [message]
    frames := Function.update s.frames s.connection (s.frames s.connection ++ [message]) }

/-- Notify the handler that the message has been successfully sent. -/
def notify (s : Connection) (message : Message) (rest : List Message) (ack : Ack) : Connection :=
  transmit { s with
    pendingReplies := rest
    acked := s.acked ++ [(message, ack)]
    responses := s.responses + 1 }

/-- What happens at the connection. -/
inductive Event where
  /-- A caller submits a message. -/
  | submit (data : List UInt8)
  /-- A caller closes a handler. -/
  | close (id : ℕ)
  /-- An attempt to connect succeeds or fails. -/
  | connect (succeeds : Bool)
  /-- The delay is over. -/
  | timer
  /-- The task receives from the channel. -/
  | receive
  /-- Sending the front of the buffer succeeds or fails. -/
  | send (succeeds : Bool)
  /-- A response arrives, or the stream ends or fails. -/
  | response (ack : Option Ack)

/-- The state after an event. What the task does not wait for does not happen. -/
def advance (s : Connection) : Event → Connection
  | .submit data =>
      let message : Message := ⟨s.submitted.length, data⟩
      { s with receiver := s.receiver ++ [message], submitted := s.submitted ++ [message] }
  | .close id => { s with closed := id :: s.closed }
  | .connect succeeds =>
      if s.point = .connecting then
        if succeeds then s.establish else { s with point := .waiting }
      else s
  | .timer =>
      if s.point = .waiting then
        { s with delay := min (2 * s.delay) 60000, retry := s.retry + 1, point := .connecting }
      else s
  | .receive =>
      match s.receiver with
      | message :: rest => s.receive message rest
      | [] => s
  | .send succeeds =>
      if s.point = .sending then
        match s.buffer with
        | message :: rest => if succeeds then s.sent message rest else s.disconnect
        | [] => s
      else s
  | .response ack =>
      if s.point = .selecting then
        match s.pendingReplies, ack with
        | message :: rest, some ack => s.notify message rest ack
        -- Something has gone wrong, and the message stays at the front.
        | _ :: _, none => s.disconnect
        -- An unexpected ACK.
        | [], _ => s.disconnect
      else s

/-- The state after a run. -/
def run (events : List Event) : Connection := events.foldl advance {}

theorem run_snoc (events : List Event) (event : Event) :
    run (events ++ [event]) = (run events).advance event := by
  rw [run, List.foldl_append]
  rfl

/-- What the callers submit in a run. -/
def submissions (events : List Event) : List (List UInt8) :=
  events.filterMap fun
    | .submit data => some data
    | _ => none

/-- What an event does at the connection. -/
inductive Steps (s : Connection) : Event → Connection → Prop where
  | idle {event : Event} : Steps s event s
  | submit (data : List UInt8) : Steps s (.submit data) (s.advance (.submit data))
  | close (id : ℕ) : Steps s (.close id) { s with closed := id :: s.closed }
  | establish (connecting : s.point = .connecting) : Steps s (.connect true) s.establish
  | refuse (connecting : s.point = .connecting) :
      Steps s (.connect false) { s with point := .waiting }
  | timer (waiting : s.point = .waiting) :
      Steps s .timer
        { s with delay := min (2 * s.delay) 60000, retry := s.retry + 1, point := .connecting }
  | receive {message : Message} {rest : List Message} (next : s.receiver = message :: rest) :
      Steps s .receive (s.receive message rest)
  | sent {message : Message} {rest : List Message} (sending : s.point = .sending)
      (front : s.buffer = message :: rest) : Steps s (.send true) (s.sent message rest)
  | disconnect {event : Event} : Steps s event s.disconnect
  | notify {message : Message} {rest : List Message} {ack : Ack} (selecting : s.point = .selecting)
      (front : s.pendingReplies = message :: rest) :
      Steps s (.response (some ack)) (s.notify message rest ack)

/-- **An event does nothing else.** -/
theorem steps (s : Connection) (event : Event) : Steps s event (s.advance event) := by
  cases event with
  | submit data => exact .submit data
  | close id => exact .close id
  | connect succeeds =>
      unfold advance
      dsimp only
      split
      · next connecting =>
          cases succeeds with
          | true => exact .establish connecting
          | false => exact .refuse connecting
      · exact .idle
  | timer =>
      unfold advance
      dsimp only
      split
      · next waiting => exact .timer waiting
      · exact .idle
  | receive =>
      unfold advance
      dsimp only
      split
      · next next => exact .receive next
      · exact .idle
  | send succeeds =>
      unfold advance
      dsimp only
      split
      · next sending =>
          split
          · next front =>
              cases succeeds with
              | true => exact .sent sending front
              | false => exact .disconnect
          · exact .idle
      · exact .idle
  | response ack =>
      unfold advance
      dsimp only
      split
      · next selecting =>
          split
          · next front => exact .notify selecting front
          · exact .disconnect
          · exact .disconnect
      · exact .idle

/-! ## What was submitted -/

/-- Messages come from callers only. -/
theorem Steps.submitted_eq {s t : Connection} {event : Event} (steps : Steps s event t)
    (others : ∀ data, event ≠ .submit data) : t.submitted = s.submitted := by
  cases steps with
  | submit data => exact absurd rfl (others data)
  | receive next =>
      unfold Connection.receive
      dsimp only
      split <;> rfl
  | _ => rfl

/-- **The messages are what the callers have submitted**, in this order and numbered. -/
theorem submitted_run (events : List Event) :
    (run events).submitted = (submissions events).mapIdx Message.mk := by
  refine history_foldl rfl (fun s event none => ?_) (fun s event data brought => ?_) events
  · refine (s.steps event).submitted_eq ?_
    rintro data rfl
    cases none
  · cases event with
    | submit data =>
        cases brought
        rfl
    | _ => cases brought

/-! ## Where the messages are -/

/-- The messages that are held, in the order in which they are to be delivered. -/
def held (s : Connection) : List Message := s.pendingReplies ++ s.buffer ++ s.receiver

/-- **Nothing is lost, duplicated or reordered.** Every message is in exactly one place: held in one of
the three queues, acknowledged, or discarded after its handler was closed. -/
structure Reliable (s : Connection) : Prop where
  partition : (s.held ++ s.acked.map Prod.fst ++ s.discarded).Perm s.submitted
  numbered : s.submitted.map Message.id = List.range s.submitted.length
  ordered : s.held.Sublist s.submitted
  cancelled : ∀ message ∈ s.discarded, message.id ∈ s.closed

variable {s t : Connection}

/-- The submitted messages are distinct. -/
theorem Reliable.submitted_nodup (reliable : Reliable s) : s.submitted.Nodup :=
  List.Nodup.of_map Message.id (reliable.numbered ▸ List.nodup_range)

/-- No handler is notified twice. -/
theorem Reliable.acked_nodup (reliable : Reliable s) : (s.acked.map Prod.fst).Nodup := by
  have all := reliable.partition.nodup_iff.mpr reliable.submitted_nodup
  exact (List.nodup_append.mp (List.nodup_append.mp all).1).2.1

/-- **Cancelled messages may be dropped** from what is held, which otherwise stays as it is. -/
theorem Reliable.drop (reliable : Reliable s) (dropped : List Message)
    (fewer : t.held.Sublist s.held) (all : (t.held ++ dropped).Perm s.held)
    (cancelled : ∀ message ∈ dropped, message.id ∈ s.closed) (acked : t.acked = s.acked)
    (discarded : t.discarded = s.discarded ++ dropped) (submitted : t.submitted = s.submitted)
    (closed : t.closed = s.closed) : Reliable t := by
  refine ⟨?_, submitted ▸ reliable.numbered, submitted ▸ fewer.trans reliable.ordered, ?_⟩
  · rw [submitted, acked, discarded]
    refine List.Perm.trans (List.perm_iff_count.mpr fun message => ?_) reliable.partition
    have count := all.count_eq message
    simp only [List.count_append] at count ⊢
    omega
  · rw [discarded, closed]
    intro message member
    rcases List.mem_append.mp member with old | new
    · exact reliable.cancelled message old
    · exact cancelled message new

/-- Messages may move from one queue to the next. -/
theorem Reliable.move (reliable : Reliable s) (held : t.held = s.held) (acked : t.acked = s.acked)
    (discarded : t.discarded = s.discarded) (submitted : t.submitted = s.submitted)
    (closed : t.closed = s.closed) : Reliable t :=
  reliable.drop [] (held ▸ List.Sublist.refl _) (by rw [held, List.append_nil])
    (fun _ member => absurd member List.not_mem_nil) acked (by rw [discarded, List.append_nil])
    submitted closed

theorem Reliable.transmit (reliable : Reliable s) : Reliable s.transmit := by
  have parts := List.takeWhile_append_dropWhile (p := s.isClosed) (l := s.buffer)
  refine reliable.drop (s.buffer.takeWhile s.isClosed) ?_ ?_ ?_ rfl rfl rfl rfl
  · exact ((List.dropWhile_sublist _).append_left _).append_right _
  · refine List.perm_iff_count.mpr fun message => ?_
    have count := congrArg (List.count message) parts
    show List.count message ((s.pendingReplies ++ s.buffer.dropWhile s.isClosed ++ s.receiver) ++
      s.buffer.takeWhile s.isClosed) = List.count message (s.pendingReplies ++ s.buffer ++ s.receiver)
    simp only [List.count_append] at count ⊢
    omega
  · intro message member
    have closed : s.isClosed message = true := List.mem_takeWhile_imp member
    exact of_decide_eq_true closed

theorem Reliable.disconnect (reliable : Reliable s) : Reliable s.disconnect :=
  reliable.move rfl rfl rfl rfl rfl

theorem Reliable.receive (reliable : Reliable s) {message : Message} {rest : List Message}
    (next : s.receiver = message :: rest) : Reliable (s.receive message rest) := by
  have moved : s.pendingReplies ++ (s.buffer ++ [message]) ++ rest = s.held := by
    rw [held, next]
    simp
  unfold Connection.receive
  dsimp only
  split
  · refine reliable.drop ((s.buffer ++ [message]).filter s.isClosed) ?_ ?_ ?_ rfl rfl rfl rfl
    · rw [← moved]
      exact (List.filter_sublist.append_left _).append_right _
    · rw [← moved]
      refine List.perm_iff_count.mpr fun other => ?_
      have count := (List.filter_append_perm s.isClosed (s.buffer ++ [message])).count_eq other
      show List.count other ((s.pendingReplies ++ (s.buffer ++ [message]).filter
        (fun m => !s.isClosed m) ++ rest) ++ (s.buffer ++ [message]).filter s.isClosed) = _
      simp only [List.count_append] at count ⊢
      omega
    · exact fun message member => of_decide_eq_true (List.mem_filter.mp member).2
  · have received : Reliable { s with receiver := rest, buffer := s.buffer ++ [message] } :=
      reliable.move moved rfl rfl rfl rfl
    exact received.transmit
  · exact reliable
  · exact reliable

theorem Reliable.sent (reliable : Reliable s) {message : Message} {rest : List Message}
    (front : s.buffer = message :: rest) : Reliable (s.sent message rest) := by
  have moved : Reliable { s with
      buffer := rest
      pendingReplies := s.pendingReplies ++ [message]
      frames := Function.update s.frames s.connection (s.frames s.connection ++ [message]) } := by
    refine reliable.move ?_ rfl rfl rfl rfl
    rw [held, held, front]
    simp
  exact moved.transmit

theorem Reliable.notify (reliable : Reliable s) {message : Message} {rest : List Message}
    (front : s.pendingReplies = message :: rest) (ack : Ack) :
    Reliable (s.notify message rest ack) := by
  have notified : Reliable { s with
      pendingReplies := rest
      acked := s.acked ++ [(message, ack)]
      responses := s.responses + 1 } := by
    refine ⟨?_, reliable.numbered, ?_, reliable.cancelled⟩
    · refine List.Perm.trans (List.perm_iff_count.mpr fun other => ?_) reliable.partition
      rw [held, held, front]
      simp only [List.map_append, List.map_singleton, List.count_append, List.count_cons,
        List.count_nil]
      omega
    · refine List.Sublist.trans ?_ reliable.ordered
      rw [held, held, front]
      exact List.sublist_cons_self ..
  exact notified.transmit

theorem Reliable.submit (reliable : Reliable s) (data : List UInt8) :
    Reliable (s.advance (.submit data)) := by
  let message : Message := ⟨s.submitted.length, data⟩
  have more : (s.advance (.submit data)).held = s.held ++ [message] :=
    (List.append_assoc (s.pendingReplies ++ s.buffer) s.receiver [message]).symm
  refine ⟨?_, ?_, ?_, reliable.cancelled⟩
  · rw [more]
    show (s.held ++ [message] ++ s.acked.map Prod.fst ++ s.discarded).Perm (s.submitted ++ [message])
    refine List.perm_iff_count.mpr fun other => ?_
    have count := reliable.partition.count_eq other
    simp only [List.count_append] at count ⊢
    omega
  · show (s.submitted ++ [message]).map Message.id = List.range (s.submitted ++ [message]).length
    rw [List.map_append, reliable.numbered, List.length_append, List.length_singleton,
      List.range_succ]
    rfl
  · rw [more]
    exact reliable.ordered.append_right [message]

theorem Reliable.establish (reliable : Reliable s) : Reliable s.establish := by
  have established : Reliable { s with
      delay := 200
      retry := 0
      connection := s.connection + 1
      responses := 0 } := reliable.move rfl rfl rfl rfl rfl
  exact established.transmit

/-- **An event loses nothing.** -/
theorem Reliable.steps {event : Event} (steps : Steps s event t) (reliable : Reliable s) :
    Reliable t := by
  cases steps with
  | idle => exact reliable
  | submit data => exact reliable.submit data
  | close id =>
      exact ⟨reliable.partition, reliable.numbered, reliable.ordered,
        fun message member => List.mem_cons_of_mem _ (reliable.cancelled message member)⟩
  | establish => exact reliable.establish
  | refuse => exact reliable.move rfl rfl rfl rfl rfl
  | timer => exact reliable.move rfl rfl rfl rfl rfl
  | receive next => exact reliable.receive next
  | sent _ front => exact reliable.sent front
  | disconnect => exact reliable.disconnect
  | notify _ front => exact reliable.notify front _

/-! ## Whose acknowledgement it is -/

/-- The handlers were notified with the responses to the frames of their own messages. -/
def OwnAcks (s : Connection) : Prop :=
  ∀ entry ∈ s.acked, (s.frames entry.2.connection)[entry.2.frame]? = some entry.1

/-- The peer answers the frames of a connection in order. -/
def InOrder (s : Connection) : Event → Prop
  | .response (some ack) => ack.connection = s.connection ∧ ack.frame = s.responses
  | _ => True

instance (s : Connection) : ∀ event, Decidable (InOrder s event)
  | .submit _ => inferInstanceAs (Decidable True)
  | .close _ => inferInstanceAs (Decidable True)
  | .connect _ => inferInstanceAs (Decidable True)
  | .timer => inferInstanceAs (Decidable True)
  | .receive => inferInstanceAs (Decidable True)
  | .send _ => inferInstanceAs (Decidable True)
  | .response none => inferInstanceAs (Decidable True)
  | .response (some _) => inferInstanceAs (Decidable (_ ∧ _))

/-- The messages that wait for a reply are the frames of this connection without a response. -/
def AwaitsReplies (s : Connection) : Prop :=
  s.responses ≤ (s.frames s.connection).length ∧
    s.pendingReplies = (s.frames s.connection).drop s.responses

/-- What is known of the frames and the replies. -/
structure Answering (s : Connection) : Prop where
  idle : s.point = .connecting ∨ s.point = .waiting → s.pendingReplies = []
  replies : s.point = .sending ∨ s.point = .selecting → s.AwaitsReplies
  fresh : ∀ number, s.connection < number → s.frames number = []
  own : s.OwnAcks

/-- Transmitting the buffer does not touch the frames and the replies. -/
theorem answering_transmit (replies : s.AwaitsReplies)
    (fresh : ∀ number, s.connection < number → s.frames number = []) (own : s.OwnAcks) :
    Answering s.transmit := by
  refine ⟨fun idle => ?_, fun _ => replies, fresh, own⟩
  have busy : s.transmit.point = .selecting ∨ s.transmit.point = .sending := by
    unfold Connection.transmit
    dsimp only
    split
    · exact .inl rfl
    · exact .inr rfl
  rcases idle with connecting | waiting
  · rw [connecting] at busy
    simp at busy
  · rw [waiting] at busy
    simp at busy

theorem Answering.disconnect (answering : Answering s) : Answering s.disconnect :=
  ⟨fun _ => rfl, fun busy => by simp [Connection.disconnect] at busy, answering.fresh, answering.own⟩

theorem Answering.establish (answering : Answering s) (connecting : s.point = .connecting) :
    Answering s.establish := by
  have none := answering.fresh (s.connection + 1) (Nat.lt_succ_self _)
  refine answering_transmit ⟨Nat.zero_le _, ?_⟩ (fun number later => ?_) answering.own
  · show s.pendingReplies = (s.frames (s.connection + 1)).drop 0
    rw [none, answering.idle (.inl connecting)]
    rfl
  · exact answering.fresh number (Nat.lt_of_succ_lt later)

theorem Answering.receive (answering : Answering s) (message : Message) (rest : List Message) :
    Answering (s.receive message rest) := by
  unfold Connection.receive
  dsimp only
  split
  · exact ⟨answering.idle, answering.replies, answering.fresh, answering.own⟩
  · next selecting =>
      exact answering_transmit (answering.replies (.inr selecting)) answering.fresh answering.own
  · exact answering
  · exact answering

theorem Answering.sent (answering : Answering s) (sending : s.point = .sending) (message : Message)
    (rest : List Message) : Answering (s.sent message rest) := by
  obtain ⟨few, pending⟩ := answering.replies (.inl sending)
  refine answering_transmit ?_ (fun number later => ?_) fun entry member => ?_
  · unfold AwaitsReplies
    dsimp only
    rw [Function.update_self]
    refine ⟨few.trans (List.length_append ▸ Nat.le_add_right _ _), ?_⟩
    rw [List.drop_append_of_le_length few, pending]
  · dsimp only at later ⊢
    rw [Function.update_of_ne later.ne', answering.fresh number later]
  · have found := answering.own entry member
    dsimp only
    by_cases same : entry.2.connection = s.connection
    · rw [same] at found ⊢
      have inside := (List.getElem?_eq_some_iff.mp found).1
      rw [Function.update_self, List.getElem?_append_left inside, found]
    · rw [Function.update_of_ne same, found]

theorem Answering.notify (answering : Answering s) (selecting : s.point = .selecting)
    {message : Message} {rest : List Message} (front : s.pendingReplies = message :: rest) {ack : Ack}
    (inOrder : InOrder s (.response (some ack))) : Answering (s.notify message rest ack) := by
  obtain ⟨few, pending⟩ := answering.replies (.inr selecting)
  obtain ⟨connection, frame⟩ := inOrder
  rw [front] at pending
  have inside : s.responses < (s.frames s.connection).length := by
    refine Nat.lt_of_not_le fun all => ?_
    rw [List.drop_eq_nil_of_le all] at pending
    cases pending
  rw [List.drop_eq_getElem_cons inside, List.cons.injEq] at pending
  refine answering_transmit ⟨inside, pending.2⟩ answering.fresh fun entry member => ?_
  rcases List.mem_append.mp member with old | new
  · exact answering.own entry old
  · obtain rfl := List.mem_singleton.mp new
    show (s.frames ack.connection)[ack.frame]? = some message
    rw [connection, frame, List.getElem?_eq_getElem inside, pending.1]

/-- **An event keeps the replies in order** when the peer does. -/
theorem Answering.steps {event : Event} (steps : Steps s event t) (inOrder : InOrder s event)
    (answering : Answering s) : Answering t := by
  cases steps with
  | idle => exact answering
  | submit => exact ⟨answering.idle, answering.replies, answering.fresh, answering.own⟩
  | close => exact ⟨answering.idle, answering.replies, answering.fresh, answering.own⟩
  | establish connecting => exact answering.establish connecting
  | refuse connecting =>
      exact ⟨fun _ => answering.idle (.inl connecting), fun busy => by simp at busy,
        answering.fresh, answering.own⟩
  | timer waiting =>
      exact ⟨fun _ => answering.idle (.inr waiting), fun busy => by simp at busy,
        answering.fresh, answering.own⟩
  | receive => exact answering.receive _ _
  | sent sending => exact answering.sent sending _ _
  | disconnect => exact answering.disconnect
  | notify selecting front => exact answering.notify selecting front inOrder

/-! ## Runs -/

theorem reliable_run (events : List Event) : Reliable (run events) := by
  induction events using List.reverseRecOn with
  | nil =>
      exact ⟨.refl _, rfl, .refl _, fun _ member => absurd member List.not_mem_nil⟩
  | append_singleton events event ih =>
      rw [run_snoc]
      exact ih.steps ((run events).steps event)

/-- **The reliable sender loses nothing.** In every run each message that was submitted is in exactly one
place and the messages that are held are in the order of their submission. No handler is notified twice, and
if the peer answers the frames of every connection in order, each is notified with the response to its own
message. -/
theorem nothing_lost (events : List Event) :
    Reliable (run events) ∧ (run events).submitted = (submissions events).mapIdx Message.mk ∧
      (run events).submitted.Nodup ∧ ((run events).acked.map Prod.fst).Nodup ∧
      (Throughout advance InOrder {} events → OwnAcks (run events)) := by
  have reliable := reliable_run events
  refine ⟨reliable, submitted_run events, reliable.submitted_nodup, reliable.acked_nodup,
    fun inOrder => ?_⟩
  have start : Answering {} :=
    ⟨fun _ => rfl, fun busy => by simp at busy, fun _ _ => rfl,
      fun _ member => absurd member List.not_mem_nil⟩
  exact (inOrder.invariant Answering start fun s event answering allowed =>
    answering.steps (s.steps event) allowed).own

/-- A message that is sent on two connections, and acknowledged on the second. -/
def resent : List Event :=
  [.connect true, .submit [1], .receive, .send true, .response none, .connect true, .send true,
    .response (some ⟨2, 0, [65]⟩)]

theorem nothing_lost_resent : OwnAcks (run resent) :=
  (nothing_lost resent).2.2.2.2 (by decide +kernel)

end Connection

end ReliableSender

end Tusk
