import Tusk.Network.Receiver

/-!
# The order in which a peer hears messages

A message may be dispatched several times, when its acknowledgement is lost and the sender transmits it
again, and a runner may still dispatch frames of a connection that the sender has given up. As long as
no caller closes a handler, every connection transmits the messages without a gap, from the first one on
that is not acknowledged. So the peer hears the messages for the first time in the order in which they
were submitted (`heard_in_order`).

With cancelled messages this does not hold: a cancelled message may be dispatched late, by a runner of
an earlier connection.
-/

set_option autoImplicit false

namespace Tusk

open Lib

universe u

namespace Lib

variable {α : Type u} [DecidableEq α]

/-- **A list that is heard from its front on**, with repetitions: an element that is heard after all
elements before it keeps the first occurrences a front of the list. -/
theorem eraseDups_snoc_prefix {heard list : List α} {a : α} {i : ℕ} (nodup : list.Nodup)
    (firsts : heard.eraseDups <+: list) (found : list[i]? = some a) (before : list.take i ⊆ heard) :
    (heard ++ [a]).eraseDups <+: list := by
  rw [List.eraseDups_append]
  by_cases again : a ∈ heard
  · have nothing : [a].removeAll heard = [] := by simp [List.removeAll, again]
    rw [nothing, List.eraseDups_nil, List.append_nil]
    exact firsts
  · have new : [a].removeAll heard = [a] := by simp [List.removeAll, again]
    have alone : [a].eraseDups = [a] := by simp [List.eraseDups_cons]
    rw [new, alone]
    obtain ⟨rest, rfl⟩ := firsts
    cases rest with
    | nil =>
        rw [List.append_nil] at found
        exact absurd (List.mem_eraseDups.mp (List.mem_of_getElem? found)) again
    | cons b rest =>
        obtain ⟨-, -, disjoint⟩ := List.nodup_append.mp nodup
        rcases Nat.lt_trichotomy i heard.eraseDups.length with early | here | late
        · rw [List.getElem?_append_left early] at found
          exact absurd (List.mem_eraseDups.mp (List.mem_of_getElem? found)) again
        · rw [here, List.getElem?_append_right le_rfl, Nat.sub_self, List.getElem?_cons_zero] at found
          cases found
          exact ⟨rest, by simp⟩
        · have inside : b ∈ (heard.eraseDups ++ b :: rest).take i := by
            rw [List.take_append, List.take_cons (by omega)]
            exact List.mem_append_right _ (List.mem_cons_self ..)
          exact absurd rfl (disjoint b (List.mem_eraseDups.mpr (before inside)) b
            (List.mem_cons_self ..))

end Lib

namespace ReliableSender

namespace Connection

variable {s t : Connection}

/-- Nothing is skipped when no handler is closed. -/
theorem transmit_of_open (opened : s.closed = []) :
    s.transmit = { s with point := if s.buffer.isEmpty then .selecting else .sending } := by
  have none : ∀ message, s.isClosed message = false := by simp [isClosed, opened]
  have keeps : s.buffer.dropWhile s.isClosed = s.buffer := by
    cases s.buffer with
    | nil => rfl
    | cons message rest => rw [List.dropWhile_cons_of_neg (by simp [none message])]
  have skips : s.buffer.takeWhile s.isClosed = [] := by
    cases s.buffer with
    | nil => rfl
    | cons message rest => rw [List.takeWhile_cons_of_neg (by simp [none message])]
  unfold transmit
  dsimp only
  rw [keeps, skips, List.append_nil]

/-- What is known when no handler was ever closed: the acknowledged messages and those that are held are
all messages, in their order, and a connection transmits them without a gap. -/
structure Gapless (s : Connection) : Prop where
  opened : s.closed = []
  queue : s.acked.map Prod.fst ++ s.held = s.submitted
  segment : ∀ n, ∃ k, k ≤ s.acked.length ∧ s.frames n <+: s.submitted.drop k
  current : s.Connected → ∃ k, k ≤ s.acked.length ∧
    s.frames s.connection ++ (s.buffer ++ s.receiver) = s.submitted.drop k

theorem Gapless.acked_le (gapless : Gapless s) : s.acked.length ≤ s.submitted.length := by
  have lengths := congrArg List.length gapless.queue
  rw [List.length_append, List.length_map] at lengths
  omega

/-- The messages before a place that was reached are acknowledged. -/
theorem Gapless.take_acked (gapless : Gapless s) {k : ℕ} (reached : k ≤ s.acked.length) :
    s.submitted.take k ⊆ s.acked.map Prod.fst := by
  rw [← gapless.queue, List.take_append_of_le_length (by simpa using reached)]
  exact List.take_subset k _

/-- Moving messages along the queues keeps the order. -/
theorem Gapless.move (gapless : Gapless s) (opened : t.closed = s.closed) (acked : t.acked = s.acked)
    (held : t.held = s.held) (submitted : t.submitted = s.submitted) (frames : t.frames = s.frames)
    (current : t.Connected → ∃ k, k ≤ s.acked.length ∧
      s.frames t.connection ++ (t.buffer ++ t.receiver) = s.submitted.drop k) : Gapless t where
  opened := opened.trans gapless.opened
  queue := by rw [acked, held, submitted, gapless.queue]
  segment n := by
    rw [acked, frames, submitted]
    exact gapless.segment n
  current connected := by
    rw [acked, frames, submitted]
    exact current connected

theorem Gapless.submit (gapless : Gapless s) (data : List UInt8) :
    Gapless (s.advance (.submit data)) := by
  let message : Message := ⟨s.submitted.length, data⟩
  have bound := gapless.acked_le
  refine ⟨gapless.opened, ?_, fun n => ?_, fun connected => ?_⟩
  · show s.acked.map Prod.fst ++ (s.pendingReplies ++ s.buffer ++ (s.receiver ++ [message])) =
      s.submitted ++ [message]
    rw [← gapless.queue, held]
    simp only [List.append_assoc]
  · obtain ⟨k, reached, frames⟩ := gapless.segment n
    refine ⟨k, reached, ?_⟩
    show s.frames n <+: (s.submitted ++ [message]).drop k
    rw [List.drop_append_of_le_length (reached.trans bound)]
    exact frames.trans (List.prefix_append _ _)
  · obtain ⟨k, reached, frames⟩ := gapless.current connected
    refine ⟨k, reached, ?_⟩
    show s.frames s.connection ++ (s.buffer ++ (s.receiver ++ [message])) =
      (s.submitted ++ [message]).drop k
    rw [List.drop_append_of_le_length (reached.trans bound), ← frames]
    simp only [List.append_assoc]

theorem Gapless.establish (gapless : Gapless s) (answering : Answering s)
    (connecting : s.point = .connecting) : Gapless s.establish := by
  have fresh := answering.fresh (s.connection + 1) (Nat.lt_succ_self _)
  unfold Connection.establish
  rw [transmit_of_open (by exact gapless.opened)]
  refine gapless.move rfl rfl rfl rfl rfl fun _ => ⟨s.acked.length, le_rfl, ?_⟩
  -- the connection starts with the first message that is not acknowledged
  show s.frames (s.connection + 1) ++ (s.buffer ++ s.receiver) = s.submitted.drop s.acked.length
  rw [← gapless.queue, held, answering.idle (.inl connecting), fresh]
  simp

theorem Gapless.receive (gapless : Gapless s) {message : Message} {rest : List Message}
    (next : s.receiver = message :: rest) : Gapless (s.receive message rest) := by
  have none : ∀ message, s.isClosed message = false := by simp [isClosed, gapless.opened]
  have moved : s.pendingReplies ++ (s.buffer ++ [message]) ++ rest = s.held := by
    rw [held, next]
    simp
  unfold Connection.receive
  dsimp only
  split
  · next waiting =>
      refine gapless.move rfl rfl ?_ rfl rfl fun connected => ?_
      · show s.pendingReplies ++ (s.buffer ++ [message]).filter (fun m => !s.isClosed m) ++ rest = _
        simp only [none, Bool.not_false, List.filter_true]
        exact moved
      · exact absurd connected (not_connected (.inr waiting))
  · next selecting =>
      rw [transmit_of_open (by exact gapless.opened)]
      refine gapless.move rfl rfl moved rfl rfl fun _ => ?_
      obtain ⟨k, reached, frames⟩ := gapless.current (.inr selecting)
      refine ⟨k, reached, ?_⟩
      rw [← frames, next]
      simp
  · exact gapless
  · exact gapless

theorem Gapless.sent (gapless : Gapless s) (sending : s.point = .sending) {message : Message}
    {rest : List Message} (front : s.buffer = message :: rest) : Gapless (s.sent message rest) := by
  obtain ⟨k, reached, frames⟩ := gapless.current (.inl sending)
  have longer : s.frames s.connection ++ [message] ++ (rest ++ s.receiver) = s.submitted.drop k := by
    rw [← frames, front]
    simp
  unfold Connection.sent
  rw [transmit_of_open (by exact gapless.opened)]
  refine ⟨gapless.opened, ?_, fun n => ?_, fun _ => ⟨k, reached, ?_⟩⟩
  · rw [← gapless.queue]
    simp [held, front]
  · dsimp only
    by_cases same : n = s.connection
    · subst same
      rw [Function.update_self]
      refine ⟨k, reached, ?_⟩
      rw [← longer]
      exact List.prefix_append _ _
    · rw [Function.update_of_ne same]
      exact gapless.segment n
  · dsimp only
    rw [Function.update_self]
    exact longer

theorem Gapless.notify (gapless : Gapless s) (selecting : s.point = .selecting) {message : Message}
    {rest : List Message} (front : s.pendingReplies = message :: rest) (ack : Ack) :
    Gapless (s.notify message rest ack) := by
  obtain ⟨k, reached, frames⟩ := gapless.current (.inr selecting)
  unfold Connection.notify
  rw [transmit_of_open (by exact gapless.opened)]
  refine ⟨gapless.opened, ?_, fun n => ?_, fun _ => ⟨k, ?_, frames⟩⟩
  · rw [← gapless.queue]
    simp [held, front]
  · obtain ⟨k, reached, frames⟩ := gapless.segment n
    exact ⟨k, reached.trans (by simp), frames⟩
  · exact reached.trans (by simp)

/-- **An event leaves no gap** when it closes no handler. -/
theorem Gapless.steps {event : Event} (steps : Steps s event t) (answering : Answering s)
    (opens : ∀ id, event ≠ .close id) (gapless : Gapless s) : Gapless t := by
  cases steps with
  | idle => exact gapless
  | submit data => exact gapless.submit data
  | close id => exact absurd rfl (opens id)
  | establish connecting => exact gapless.establish answering connecting
  | refuse =>
      exact gapless.move rfl rfl rfl rfl rfl fun connected =>
        absurd connected (not_connected (.inr rfl))
  | timer =>
      exact gapless.move rfl rfl rfl rfl rfl fun connected =>
        absurd connected (not_connected (.inl rfl))
  | receive next => exact gapless.receive next
  | sent sending front => exact gapless.sent sending front
  | disconnect =>
      refine gapless.move rfl rfl ?_ rfl rfl fun connected => ?_
      · simp [held, Connection.disconnect]
      · exact absurd connected (not_connected (.inl rfl))
  | notify selecting front => exact gapless.notify selecting front _

end Connection

namespace Link

variable {η : Type u} {handler : MessageHandler η} {s : Link η}

/-- The messages in the order in which they are dispatched for the first time. -/
def firsts (s : Link η) : List Message := s.dispatched.eraseDups

/-- What is known of a link without cancellations. -/
structure InSequence (s : Link η) : Prop where
  sound : Sound s
  gapless : s.sender.Gapless
  firsts : s.firsts <+: s.sender.submitted

/-- A step of the sender keeps what the peer has heard. -/
theorem InSequence.send (inSequence : InSequence s) {event : Connection.Event}
    (opens : ∀ id, event ≠ .close id) (sound : Sound { s with sender := s.sender.advance event }) :
    InSequence { s with sender := s.sender.advance event } := by
  have steps := s.sender.steps event
  exact ⟨sound, inSequence.gapless.steps steps inSequence.sound.answering opens,
    inSequence.firsts.trans steps.submitted_prefix⟩

/-- What comes next on a connection comes after messages that were heard. -/
theorem InSequence.take_heard (inSequence : InSequence s) {number : ℕ} {message : Message}
    (found : (s.sender.frames number)[(s.runners number).dispatched]? = some message) :
    ∃ i, s.sender.submitted[i]? = some message ∧ s.sender.submitted.take i ⊆ s.dispatched := by
  obtain ⟨k, reached, more, frames⟩ := inSequence.gapless.segment number
  obtain ⟨inside, -⟩ := List.getElem?_eq_some_iff.mp found
  have sent : ∀ j, j < (s.sender.frames number).length →
      (s.sender.submitted.drop k)[j]? = (s.sender.frames number)[j]? := by
    intro j bound
    rw [← frames, List.getElem?_append_left bound]
  refine ⟨k + (s.runners number).dispatched, ?_, fun other member => ?_⟩
  · rw [← List.getElem?_drop, sent _ inside, found]
  · rw [List.take_add] at member
    rcases List.mem_append.mp member with before | here
    · -- those before the connection was established are acknowledged
      obtain ⟨entry, notified, rfl⟩ := List.mem_map.mp (inSequence.gapless.take_acked reached before)
      exact inSequence.sound.dispatched_of_acked notified
    · obtain ⟨j, found⟩ := List.mem_iff_getElem?.mp here
      rw [List.getElem?_take] at found
      split_ifs at found with earlier
      rw [sent j (earlier.trans inside)] at found
      exact (inSequence.sound.heard other).mpr ⟨number, j, earlier, found⟩

theorem InSequence.dispatch (inSequence : InSequence s) (acknowledges : handler.Acknowledges)
    (number : ℕ) : InSequence (s.read handler number) := by
  have sound := inSequence.sound.dispatch acknowledges number
  have same : (s.read handler number).sender = s.sender := by
    unfold Link.read
    dsimp only
    split
    · rfl
    · split <;> rfl
  refine ⟨sound, same ▸ inSequence.gapless, ?_⟩
  rw [same]
  unfold Link.read Link.firsts
  dsimp only
  split
  · exact inSequence.firsts
  · split
    · exact inSequence.firsts
    · next message found =>
        obtain ⟨i, submitted, before⟩ := inSequence.take_heard found
        exact eraseDups_snoc_prefix inSequence.sound.reliable.submitted_nodup inSequence.firsts
          submitted before

theorem InSequence.disturb (inSequence : InSequence s) {number : ℕ} {change : Runner → Runner}
    (sound : Sound (s.disturb number change)) : InSequence (s.disturb number change) := by
  refine ⟨sound, ?_, ?_⟩
  · rw [sender_disturb]
    exact inSequence.gapless
  · rw [sender_disturb, Link.firsts, dispatched_disturb]
    exact inSequence.firsts

/-- **An event keeps the order** when it closes no handler. -/
theorem InSequence.advance (inSequence : InSequence s) (acknowledges : handler.Acknowledges)
    {event : Event} (opens : ∀ id, event ≠ .close id) : InSequence (s.advance handler event) := by
  have sound := inSequence.sound.advance acknowledges event
  cases event with
  | submit data => exact inSequence.send (by simp) sound
  | close id => exact absurd rfl (opens id)
  | connect succeeds => exact inSequence.send (by simp) sound
  | timer => exact inSequence.send (by simp) sound
  | receive => exact inSequence.send (by simp) sound
  | send succeeds => exact inSequence.send (by simp) sound
  | frame number => exact inSequence.dispatch acknowledges number
  | sever number =>
      unfold Link.advance at sound ⊢
      exact inSequence.disturb sound
  | shut number =>
      unfold Link.advance at sound ⊢
      exact inSequence.disturb sound
  | response =>
      show InSequence s.respond
      have sound : Sound s.respond := sound
      unfold Link.respond at sound ⊢
      split at sound
      · exact inSequence
      · exact inSequence.send (by simp) sound
  | fail => exact inSequence.send (by simp) sound

/-- **Messages are heard in the order of their submission**, and what is acknowledged was heard. In
every run without cancellations the messages that the peer dispatches, each counted when it comes for
the first time, are a front of those that were submitted, and they include all messages whose handlers
were notified. -/
theorem heard_in_order (acknowledges : handler.Acknowledges) (start : η) (events : List Event)
    (opens : ∀ id, .close id ∉ events) :
    (run handler start events).sender.submitted = (submissions events).mapIdx Message.mk ∧
      (run handler start events).firsts <+: (run handler start events).sender.submitted ∧
      ∀ entry ∈ (run handler start events).sender.acked,
        entry.1 ∈ (run handler start events).firsts := by
  have inSequence : InSequence (run handler start events) := by
    induction events using List.reverseRecOn with
    | nil => exact ⟨sound_start start, ⟨rfl, rfl, fun n => ⟨0, le_rfl, List.prefix_rfl⟩,
        fun connected => absurd connected (Connection.not_connected (.inl rfl))⟩, List.prefix_rfl⟩
    | append_singleton events event ih =>
        rw [run_snoc]
        refine (ih fun id member => opens id (List.mem_append_left _ member)).advance acknowledges ?_
        rintro id rfl
        exact opens id (List.mem_append_right _ (List.mem_singleton_self _))
  exact ⟨submitted_run start events, inSequence.firsts, fun entry notified =>
    List.mem_eraseDups.mpr (inSequence.sound.dispatched_of_acked notified)⟩

theorem heard_in_order_repeated :
    let events := repeated.filter fun event => !(event matches .close _)
    (run keeping [] events).sender.submitted = (submissions events).mapIdx Message.mk ∧
      (run keeping [] events).firsts <+: (run keeping [] events).sender.submitted ∧
      ∀ entry ∈ (run keeping [] events).sender.acked, entry.1 ∈ (run keeping [] events).firsts :=
  heard_in_order keeping_acknowledges [] _ fun id member => by simp [repeated] at member

end Link

end ReliableSender

end Tusk
