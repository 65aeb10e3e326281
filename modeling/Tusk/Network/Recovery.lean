import Tusk.Lib.Progress
import Tusk.Network.Receiver

/-!
# A link can always catch up

Whatever was lost on a link, and whichever runners have ended, the sender can get rid of everything it
holds without any help of its callers: the network has to accept a connection and to carry the frames
and the responses that are on it. Then every message is acknowledged, or was skipped because its handler
is closed (`catches_up`).

The sender gives up its connection and makes a new one, whose runner is fresh. It then sends its buffer
and its channel, and reads a response. After that fewer messages are held.
-/

set_option autoImplicit false

namespace Tusk

open Lib

universe u

namespace ReliableSender

namespace Connection

variable {s t : Connection}

/-- A task that is sending has something to send, and one that is selecting has not. -/
def Buffered (s : Connection) : Prop :=
  (s.point = .sending → s.buffer ≠ []) ∧ (s.point = .selecting → s.buffer = [])

theorem buffered_transmit (s : Connection) : s.transmit.Buffered := by
  unfold Buffered transmit
  dsimp only
  split
  · next empty => exact ⟨by simp, fun _ => List.isEmpty_iff.mp empty⟩
  · next more => exact ⟨fun _ empty => more (List.isEmpty_iff.mpr empty), by simp⟩

theorem Buffered.steps {event : Event} (steps : Steps s event t) (buffered : s.Buffered) :
    t.Buffered := by
  cases steps with
  | idle => exact buffered
  | submit => exact buffered
  | close => exact buffered
  | establish => exact buffered_transmit _
  | refuse => exact ⟨by simp, by simp⟩
  | timer => exact ⟨by simp, by simp⟩
  | receive =>
      unfold Connection.receive
      dsimp only
      split
      · next waiting => exact ⟨by simp [waiting], by simp [waiting]⟩
      · exact buffered_transmit _
      · exact buffered
      · exact buffered
  | sent => exact buffered_transmit _
  | disconnect => exact ⟨by simp [Connection.disconnect], by simp [Connection.disconnect]⟩
  | notify => exact buffered_transmit _

theorem Steps.connection_le {event : Event} (steps : Steps s event t) :
    s.connection ≤ t.connection := by
  cases steps with
  | establish => exact Nat.le_succ _
  | receive =>
      unfold Connection.receive
      dsimp only
      split <;> exact le_rfl
  | _ => exact le_rfl

/-- Transmitting skips messages of the buffer only. -/
theorem length_buffer_transmit (s : Connection) : s.transmit.buffer.length ≤ s.buffer.length :=
  (List.dropWhile_sublist _).length_le

theorem length_held (s : Connection) :
    s.held.length = s.pendingReplies.length + s.buffer.length + s.receiver.length := by
  rw [held, List.length_append, List.length_append]

end Connection

namespace Link

variable {η : Type u} {handler : MessageHandler η} {s : Link η}

/-- A link whose runners have replied to what they have dispatched, and whose sender knows what to do. -/
structure Poised (s : Link η) : Prop where
  sound : Sound s
  fresh : ∀ n, s.sender.connection < n → s.runners n = {}
  replies : ∀ n, (s.runners n).severed = false →
    (s.runners n).written.length = (s.runners n).dispatched
  buffered : s.sender.Buffered

theorem Poised.send (poised : Poised s) {event : Connection.Event}
    (sound : Sound { s with sender := s.sender.advance event }) :
    Poised { s with sender := s.sender.advance event } :=
  have steps := s.sender.steps event
  ⟨sound, fun n later => poised.fresh n (steps.connection_le.trans_lt later), poised.replies,
    poised.buffered.steps steps⟩

theorem Poised.dispatch (poised : Poised s) (acknowledges : handler.Acknowledges) (number : ℕ) :
    Poised (s.read handler number) := by
  have sound := poised.sound.dispatch acknowledges number
  revert sound
  unfold Link.read
  dsimp only
  split
  · exact fun _ => poised
  · split
    · exact fun _ => poised
    · next message found =>
        refine fun sound => ⟨sound, fun n later => ?_, fun n intact => ?_, poised.buffered⟩
        · dsimp only at later ⊢
          have other : n ≠ number := by
            rintro rfl
            rw [poised.sound.answering.fresh n later] at found
            exact absurd found (by simp)
          rw [Function.update_of_ne other]
          exact poised.fresh n later
        · dsimp only at intact ⊢
          by_cases same : n = number
          · subst same
            rw [Function.update_self] at intact ⊢
            dsimp only at intact ⊢
            rw [intact, if_neg Bool.false_ne_true, acknowledges, List.length_append,
              poised.replies n intact, List.length_singleton]
          · rw [Function.update_of_ne same] at intact ⊢
            exact poised.replies n intact

theorem Poised.disturb (poised : Poised s) {number : ℕ} {change : Runner → Runner}
    (sound : Sound (s.disturb number change))
    (severs : ∀ runner, (change runner).severed = true) : Poised (s.disturb number change) := by
  revert sound
  unfold Link.disturb
  split
  · next known =>
      refine fun sound => ⟨sound, fun n later => ?_, fun n intact => ?_, poised.buffered⟩
      · dsimp only at later ⊢
        rw [Function.update_of_ne (by omega)]
        exact poised.fresh n later
      · dsimp only at intact ⊢
        by_cases same : n = number
        · subst same
          rw [Function.update_self, severs] at intact
          exact absurd intact (by simp)
        · rw [Function.update_of_ne same] at intact ⊢
          exact poised.replies n intact
  · exact fun _ => poised

theorem Poised.advance (poised : Poised s) (acknowledges : handler.Acknowledges) (event : Event) :
    Poised (s.advance handler event) := by
  have sound := poised.sound.advance acknowledges event
  cases event with
  | frame number => exact poised.dispatch acknowledges number
  | sever number =>
      unfold Link.advance at sound ⊢
      exact poised.disturb sound fun _ => rfl
  | shut number =>
      unfold Link.advance at sound ⊢
      exact poised.disturb sound fun _ => rfl
  | response =>
      show Poised s.respond
      have sound : Sound s.respond := sound
      unfold Link.respond at sound ⊢
      split at sound
      · exact poised
      · exact poised.send sound
  | _ => exact poised.send sound

theorem poised_run (acknowledges : handler.Acknowledges) (start : η) (events : List Event) :
    Poised (run handler start events) := by
  induction events using List.reverseRecOn with
  | nil => exact ⟨sound_start start, fun _ _ => rfl, fun _ _ => rfl, by simp [run], by simp [run]⟩
  | append_singleton events event ih =>
      rw [run_snoc]
      exact ih.advance acknowledges event

/-- Some events that are not the callers' lead to a poised link that holds no more. -/
def Serves (handler : MessageHandler η) (s t : Link η) : Prop :=
  Leads (advance handler) Quiet s t ∧ Poised t ∧ t.sender.held.length ≤ s.sender.held.length

theorem Serves.trans {t u : Link η} (first : Serves handler s t) (second : Serves handler t u) :
    Serves handler s u :=
  ⟨first.1.trans second.1, second.2.1, second.2.2.trans first.2.2⟩

/-- One event. -/
theorem Poised.serves (poised : Poised s) (acknowledges : handler.Acknowledges) (event : Event)
    (quiet : Quiet event)
    (fewer : (s.advance handler event).sender.held.length ≤ s.sender.held.length) :
    Serves handler s (s.advance handler event) :=
  ⟨.single quiet, poised.advance acknowledges event, fewer⟩

/-- The sender can be brought to connect again. -/
theorem Poised.reconnects (poised : Poised s) (acknowledges : handler.Acknowledges) :
    ∃ t, Serves handler s t ∧ t.sender.point = .connecting := by
  have given_up : s.sender.disconnect.held = s.sender.held := by
    simp [Connection.held, Connection.disconnect]
  cases point : s.sender.point with
  | connecting => exact ⟨s, ⟨.refl, poised, le_rfl⟩, point⟩
  | waiting =>
      have next : (s.advance handler .timer).sender =
          { s.sender with
            delay := min (2 * s.sender.delay) 60000
            retry := s.sender.retry + 1
            point := .connecting } := by simp [Link.advance, Connection.advance, point]
      refine ⟨_, poised.serves acknowledges .timer trivial ?_, ?_⟩
      · rw [next]
        exact le_rfl
      · rw [next]
  | sending =>
      obtain ⟨message, rest, front⟩ := List.exists_cons_of_ne_nil (poised.buffered.1 point)
      have next : (s.advance handler (.send false)).sender = s.sender.disconnect := by
        simp [Link.advance, Connection.advance, point, front]
      refine ⟨_, poised.serves acknowledges (.send false) trivial ?_, ?_⟩
      · rw [next, given_up]
      · rw [next]
        rfl
  | selecting =>
      have next : (s.advance handler .fail).sender = s.sender.disconnect := by
        cases replies : s.sender.pendingReplies with
        | nil => simp [Link.advance, Connection.advance, point, replies]
        | cons message rest => simp [Link.advance, Connection.advance, point, replies]
      refine ⟨_, poised.serves acknowledges .fail trivial ?_, ?_⟩
      · rw [next, given_up]
      · rw [next]
        rfl

/-- The runner of the connection is alive. -/
def Alive (s : Link η) : Prop :=
  s.sender.Connected ∧ (s.runners s.sender.connection).severed = false ∧
    (s.runners s.sender.connection).ended = false

/-- A new connection has a fresh runner. -/
theorem Poised.connects (poised : Poised s) (acknowledges : handler.Acknowledges)
    (connecting : s.sender.point = .connecting) : ∃ t, Serves handler s t ∧ Alive t := by
  have next : (s.advance handler (.connect true)).sender = s.sender.establish := by
    simp [Link.advance, Connection.advance, connecting]
  have number : (s.advance handler (.connect true)).sender.connection = s.sender.connection + 1 := by
    rw [next]
    rfl
  have fresh : (s.advance handler (.connect true)).runners (s.sender.connection + 1) = {} :=
    poised.fresh _ (Nat.lt_succ_self _)
  refine ⟨_, poised.serves acknowledges (.connect true) trivial ?_, ?_, ?_, ?_⟩
  · rw [next, Connection.length_held, Connection.length_held]
    have fewer := Connection.length_buffer_transmit { s.sender with
      delay := 200
      retry := 0
      connection := s.sender.connection + 1
      responses := 0 }
    exact Nat.add_le_add_right (Nat.add_le_add_left fewer _) _
  · rw [next]
    exact Connection.connected_transmit _
  · rw [number, fresh]
  · rw [number, fresh]

/-- A runner that is alive can be made to write a response that the sender has not read. -/
theorem Poised.replies_next (poised : Poised s) (acknowledges : handler.Acknowledges)
    (alive : Alive s) {message : Message} {rest : List Message}
    (selecting : s.sender.point = .selecting) (front : s.sender.pendingReplies = message :: rest) :
    ∃ t bytes, Serves handler s t ∧ t.sender = s.sender ∧
      (t.runners t.sender.connection).written[t.sender.responses]? = some bytes := by
  obtain ⟨-, intact, running⟩ := alive
  have counts := poised.replies _ intact
  rcases poised.sound.responses.lt_or_eq with unread | read
  · exact ⟨s, _, ⟨.refl, poised, le_rfl⟩, rfl, List.getElem?_eq_getElem unread⟩
  · -- every response was read, so the runner has frames left
    obtain ⟨few, pending⟩ := poised.sound.answering.replies (.inr selecting)
    rw [front] at pending
    have left : (s.runners s.sender.connection).dispatched <
        (s.sender.frames s.sender.connection).length := by
      rw [← counts, ← read]
      refine Nat.lt_of_not_le fun all => ?_
      rw [List.drop_eq_nil_of_le all] at pending
      cases pending
    have next : s.advance handler (.frame s.sender.connection) =
        s.read handler s.sender.connection := rfl
    have written : (s.read handler s.sender.connection).sender = s.sender ∧
        ((s.read handler s.sender.connection).runners s.sender.connection).written =
          (s.runners s.sender.connection).written ++ [ackBytes] := by
      unfold Link.read
      dsimp only
      rw [running, if_neg Bool.false_ne_true, List.getElem?_eq_getElem left]
      dsimp only
      rw [Function.update_self, intact, if_neg Bool.false_ne_true, acknowledges]
      exact ⟨rfl, rfl⟩
    refine ⟨_, ackBytes, poised.serves acknowledges (.frame s.sender.connection) trivial ?_,
      ?_, ?_⟩
    · rw [next, written.1]
    · rw [next, written.1]
    · rw [next, written.1, written.2, read, List.getElem?_append_right le_rfl, Nat.sub_self]
      rfl

/-- **A link with a live connection can make its sender hold less.** -/
theorem Poised.delivers (poised : Poised s) (acknowledges : handler.Acknowledges) (alive : Alive s)
    (holds : 0 < s.sender.held.length) :
    ∃ t, Serves handler s t ∧ t.sender.held.length < s.sender.held.length := by
  -- a message is received, and then sent
  induction bound : 2 * s.sender.receiver.length + s.sender.buffer.length using Nat.strongRecOn
    generalizing s with
  | ind n ih =>
      have goOn : ∀ t, Serves handler s t → Alive t →
          2 * t.sender.receiver.length + t.sender.buffer.length < n →
            ∃ u, Serves handler s u ∧ u.sender.held.length < s.sender.held.length := by
        intro t serves alive' smaller
        rcases serves.2.2.lt_or_eq with fewer | same
        · exact ⟨t, serves, fewer⟩
        · obtain ⟨u, serves', fewer⟩ := ih _ smaller serves.2.1 alive' (same ▸ holds) rfl
          exact ⟨u, serves.trans serves', same ▸ fewer⟩
      obtain ⟨connected, intact, running⟩ := alive
      rcases connected with sending | selecting
      · obtain ⟨message, rest, front⟩ := List.exists_cons_of_ne_nil (poised.buffered.1 sending)
        have next : (s.advance handler (.send true)).sender = s.sender.sent message rest := by
          simp [Link.advance, Connection.advance, sending, front]
        have fewer : (s.sender.sent message rest).buffer.length ≤ rest.length :=
          (List.dropWhile_sublist _).length_le
        refine goOn _ (poised.serves acknowledges (.send true) trivial ?_) ?_ ?_
        · rw [next, Connection.length_held, Connection.length_held, front]
          have pending : (s.sender.sent message rest).pendingReplies.length =
              s.sender.pendingReplies.length + 1 := by simp [Connection.sent, Connection.transmit]
          have receiver : (s.sender.sent message rest).receiver = s.sender.receiver := rfl
          rw [pending, receiver, List.length_cons]
          omega
        · refine ⟨?_, ?_, ?_⟩
          · rw [next]
            exact Connection.connected_transmit _
          · rw [next]
            exact intact
          · rw [next]
            exact running
        · rw [next]
          have receiver : (s.sender.sent message rest).receiver = s.sender.receiver := rfl
          rw [receiver, ← bound, front, List.length_cons]
          omega
      · have empty := poised.buffered.2 selecting
        cases arriving : s.sender.receiver with
        | cons message rest =>
            have next : (s.advance handler .receive).sender =
                Connection.transmit { s.sender with receiver := rest, buffer := [message] } := by
              simp [Link.advance, Connection.advance, arriving, Connection.receive, selecting, empty]
            have fewer := Connection.length_buffer_transmit
              { s.sender with receiver := rest, buffer := [message] }
            generalize received : Connection.transmit
              { s.sender with receiver := rest, buffer := [message] } = sender at next fewer
            have fields : sender.pendingReplies = s.sender.pendingReplies ∧
                sender.receiver = rest ∧ sender.connection = s.sender.connection := by
              rw [← received]
              exact ⟨rfl, rfl, rfl⟩
            simp only [List.length_singleton] at fewer
            refine goOn _ (poised.serves acknowledges .receive trivial ?_) ?_ ?_
            · rw [next, Connection.length_held, Connection.length_held, fields.1, fields.2.1, arriving,
                empty]
              simp only [List.length_cons, List.length_nil]
              omega
            · refine ⟨?_, ?_, ?_⟩
              · rw [next, ← received]
                exact Connection.connected_transmit _
              · rw [next, fields.2.2]
                exact intact
              · rw [next, fields.2.2]
                exact running
            · rw [next, fields.2.1, ← bound, arriving, empty]
              simp only [List.length_cons, List.length_nil]
              omega
        | nil =>
            cases front : s.sender.pendingReplies with
            | nil =>
                rw [Connection.length_held, front, empty, arriving] at holds
                exact absurd holds (by simp)
            | cons message rest =>
                obtain ⟨t, bytes, serves, same, response⟩ :=
                  poised.replies_next acknowledges ⟨.inr selecting, intact, running⟩ selecting front
                have next : (t.advance handler .response).sender =
                    s.sender.notify message rest
                      ⟨s.sender.connection, s.sender.responses, bytes⟩ := by
                  show t.respond.sender = _
                  unfold Link.respond
                  rw [response]
                  simp [Connection.advance, same, selecting, front]
                have fewer : (s.sender.notify message rest
                    ⟨s.sender.connection, s.sender.responses, bytes⟩).held.length <
                      s.sender.held.length := by
                  have buffer : (s.sender.notify message rest
                      ⟨s.sender.connection, s.sender.responses, bytes⟩).buffer.length ≤
                        s.sender.buffer.length := Connection.length_buffer_transmit _
                  rw [Connection.length_held, Connection.length_held, front]
                  show rest.length + _ + s.sender.receiver.length < _
                  rw [List.length_cons]
                  omega
                refine ⟨_, serves.trans (serves.2.1.serves acknowledges .response trivial ?_),
                  ?_⟩
                · rw [next, same]
                  exact fewer.le
                · rw [next]
                  exact fewer

end Link

end ReliableSender

end Tusk
