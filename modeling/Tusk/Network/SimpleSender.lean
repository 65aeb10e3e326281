import Tusk.Config
import Tusk.Lib.HashMap
import Tusk.Lib.Progress
import Tusk.Network.ReliableSender

/-!
# The simple sender

Requests for certificates and batches, the answers to them and the messages between a primary and its own
workers are sent best-effort: nobody acknowledges them, and nothing is sent again. For every address the
sender keeps the channel of one task, which connects once and transmits what it receives. The task returns
when it fails to connect or to send, or when the stream ends, and what was in its channel is dropped. The
next message to the address then makes a new connection.

In every run each message is dispatched at most once, and at its own address only. As long as no task for an
address has returned, nothing is lost: the messages that were submitted to it are those that were dispatched,
in the same order, and then those that are underway (`best_effort`). If no runner for the address has ended
either, these can still be dispatched (`delivers_all`).
-/

set_option autoImplicit false

namespace Tusk

open Lib

namespace SimpleSender

open ReliableSender (Message)

/-- What the task of a connection waits for. -/
inductive Point where
  /-- For the connection to be established. -/
  | connecting
  /-- For a message to send or for a response. -/
  | selecting
  /-- For a message to be sent. -/
  | sending (message : Message)
  /-- For nothing: the task has returned. -/
  | returned
deriving DecidableEq

/-- The task of a connection and the runner at the other end, with the history of its messages. -/
structure Connection where
  /-- The destination address. -/
  address : SocketAddr
  /-- Channel from which the connection receives its commands. -/
  receiver : List Message := []
  point : Point := .connecting
  /-- The messages that were put into the channel. -/
  accepted : List Message := []
  /-- The frames that were sent. -/
  frames : List Message := []
  /-- How many of them the runner has dispatched. -/
  heard : ℕ := 0
  /-- The runner has ended. -/
  ended : Bool := false
  /-- The messages that were dropped when the task returned. -/
  lost : List Message := []

namespace Connection

/-- The message that is being sent. -/
def inHand (c : Connection) : List Message :=
  match c.point with
  | .sending message => [message]
  | _ => []

/-- The messages that have been accepted and are still to be sent. -/
def waiting (c : Connection) : List Message := c.inHand ++ c.receiver

/-- The messages that the runner has dispatched. -/
def heardFrames (c : Connection) : List Message := c.frames.take c.heard

/-- The messages that have been accepted and are still to be dispatched. -/
def underway (c : Connection) : List Message := c.frames.drop c.heard ++ c.waiting

/-- A message is put into the channel. -/
def accept (c : Connection) (message : Message) : Connection :=
  { c with receiver := c.receiver ++ [message], accepted := c.accepted ++ [message] }

/-- The task returns, and its channel is dropped. -/
def close (c : Connection) : Connection :=
  { c with receiver := [], point := .returned, lost := c.lost ++ c.waiting }

/-- The runner dispatches its next frame. -/
def dispatch (c : Connection) (succeeds : Bool) : Connection :=
  { c with heard := c.heard + 1, ended := !succeeds }

/-- The next frame that the runner reads. -/
def next (c : Connection) : Option Message := if c.ended then none else c.frames[c.heard]?

/-- What happens to the task of a connection, or to the runner. -/
inductive Event where
  /-- The attempt to connect succeeds or fails. -/
  | connect (succeeds : Bool)
  /-- The task receives a message from its channel. -/
  | receive
  /-- Sending succeeds or fails. -/
  | send (succeeds : Bool)
  /-- A response arrives, or something has gone wrong with the stream. -/
  | reply (arrives : Bool)
  /-- The stream fails at the runner. -/
  | shut
deriving DecidableEq

/-- The state of a connection after an event. What the task does not wait for does not happen. -/
def advance (c : Connection) : Event → Connection
  | .connect succeeds =>
      match c.point with
      | .connecting => if succeeds then { c with point := .selecting } else c.close
      | _ => c
  | .receive =>
      match c.point, c.receiver with
      | .selecting, message :: rest => { c with receiver := rest, point := .sending message }
      | _, _ => c
  | .send succeeds =>
      match c.point with
      | .sending message =>
          if succeeds then { c with point := .selecting, frames := c.frames ++ [message] } else c.close
      | _ => c
  | .reply arrives =>
      match c.point with
      -- Sink the reply.
      | .selecting => if arrives then c else c.close
      | _ => c
  | .shut => { c with ended := true }

/-- What is known of a connection: a message that was accepted was sent, or it waits, or it was lost when the
task returned. -/
structure Sound (c : Connection) : Prop where
  whole : c.accepted = c.frames ++ c.waiting ++ c.lost
  kept : c.point ≠ .returned → c.lost = []
  read : c.heard ≤ c.frames.length

/-- What an event leaves of a connection. -/
structure Advances (c t : Connection) : Prop where
  sound : t.Sound
  address : t.address = c.address
  accepted : t.accepted = c.accepted
  heardFrames : t.heardFrames = c.heardFrames
  running : t.point ≠ .returned → c.point ≠ .returned

variable {c : Connection}

theorem Sound.unchanged (sound : c.Sound) : c.Advances c := ⟨sound, rfl, rfl, rfl, fun running => running⟩

theorem Sound.close (sound : c.Sound) (running : c.point ≠ .returned) : c.Advances c.close where
  sound := by
    refine ⟨?_, fun still => absurd rfl still, sound.read⟩
    show c.accepted = c.frames ++ ([] ++ []) ++ (c.lost ++ c.waiting)
    rw [sound.whole, sound.kept running]
    simp
  address := rfl
  accepted := rfl
  heardFrames := rfl
  running still := absurd rfl still

/-- **An event loses nothing** unless the task returns. -/
theorem Sound.advance (sound : c.Sound) (event : Event) : c.Advances (c.advance event) := by
  have whole := sound.whole
  cases event with
  | connect succeeds =>
      unfold Connection.advance
      dsimp only
      split
      · next connecting =>
          have running : c.point ≠ .returned := by simp [connecting]
          cases succeeds with
          | true =>
              refine ⟨⟨?_, fun _ => sound.kept running, sound.read⟩, rfl, rfl, rfl, fun _ => running⟩
              simpa [waiting, inHand, connecting] using whole
          | false => exact sound.close running
      · exact sound.unchanged
  | receive =>
      unfold Connection.advance
      dsimp only
      split
      · next message rest selecting queued =>
          have running : c.point ≠ .returned := by simp [selecting]
          refine ⟨⟨?_, fun _ => sound.kept running, sound.read⟩, rfl, rfl, rfl, fun _ => running⟩
          simpa [waiting, inHand, selecting, queued] using whole
      · exact sound.unchanged
  | send succeeds =>
      unfold Connection.advance
      dsimp only
      split
      · next message sending =>
          have running : c.point ≠ .returned := by simp [sending]
          cases succeeds with
          | true =>
              refine ⟨⟨?_, fun _ => sound.kept running, ?_⟩, rfl, rfl, ?_, fun _ => running⟩
              · simpa [waiting, inHand, sending] using whole
              · exact sound.read.trans (by simp)
              · exact List.take_append_of_le_length sound.read
          | false => exact sound.close running
      · exact sound.unchanged
  | reply arrives =>
      unfold Connection.advance
      dsimp only
      split
      · next selecting =>
          cases arrives with
          | true => exact sound.unchanged
          | false => exact sound.close (by simp [selecting])
      · exact sound.unchanged
  | shut => exact ⟨⟨whole, sound.kept, sound.read⟩, rfl, rfl, rfl, fun running => running⟩

theorem Sound.accept (sound : c.Sound) (running : c.point ≠ .returned) (message : Message) :
    (c.accept message).Sound where
  whole := by
    have whole := sound.whole
    rw [sound.kept running] at whole
    show c.accepted ++ [message] = c.frames ++ (c.inHand ++ (c.receiver ++ [message])) ++ c.lost
    rw [whole, sound.kept running, waiting]
    simp only [List.append_assoc, List.append_nil]
  kept _ := sound.kept running
  read := sound.read

/-- What was dispatched had been accepted before. -/
theorem Sound.heardFrames_sublist (sound : c.Sound) : c.heardFrames.Sublist c.accepted := by
  rw [sound.whole, List.append_assoc]
  exact (List.take_sublist _ _).trans (List.sublist_append_left _ _)

/-- The runner reads the frames in order. -/
theorem Sound.dispatch (sound : c.Sound) {message : Message} (next : c.next = some message)
    (succeeds : Bool) : (c.dispatch succeeds).Sound ∧
      (c.dispatch succeeds).heardFrames = c.heardFrames ++ [message] := by
  have found : c.frames[c.heard]? = some message := by
    unfold Connection.next at next
    split at next
    · cases next
    · exact next
  refine ⟨⟨sound.whole, sound.kept, (List.getElem?_eq_some_iff.mp found).1⟩, ?_⟩
  show c.frames.take (c.heard + 1) = c.frames.take c.heard ++ [message]
  rw [List.take_add_one, found]
  rfl

end Connection

/-- The sender with all tasks that it has spawned, and the history of the messages. A message is numbered by
its place among all that were submitted. -/
structure State where
  /-- A map holding the channels to our connections. -/
  connections : HashMap SocketAddr ℕ := ∅
  spawned : List Connection := []
  submitted : List (SocketAddr × Message) := []
  dispatched : List (SocketAddr × Message) := []

namespace State

/-- Put a message into the channel of a connection. This fails when the task has returned. -/
def push (s : State) (number : ℕ) (message : Message) : Option State :=
  match s.spawned[number]? with
  | none => none
  | some c =>
      if c.point = .returned then none
      else some { s with spawned := s.spawned.set number (c.accept message) }

/-- Spawn a new connection. Its task may fail to connect before anything is put into the channel. -/
def spawnConnection (s : State) (address : SocketAddr) (fails : Bool) : State × ℕ :=
  ({ s with
      spawned := s.spawned ++
        [{ address := address, point := if fails then .returned else .connecting }] },
    s.spawned.length)

/-- Try (best-effort) to send a message to a specific address. -/
def send (s : State) (address : SocketAddr) (data : List UInt8) (fails : Bool) : State :=
  let message : Message := ⟨s.submitted.length, data⟩
  let s := { s with submitted := s.submitted ++ [(address, message)] }
  -- Try to re-use an existing connection if possible.
  match (HashMap.get s.connections address).bind fun number => s.push number message with
  | some s => s
  | none =>
      -- Otherwise make a new connection.
      let (s, number) := s.spawnConnection address fails
      match s.push number message with
      | some s => { s with connections := HashMap.insert s.connections address number }
      | none => s

/-- What happens at the sender, its connections and their runners. -/
inductive Event where
  /-- Send a message. When this needs a new connection, its task may fail at once. -/
  | send (address : SocketAddr) (data : List UInt8) (fails : Bool)
  /-- Something happens at a connection. -/
  | task (number : ℕ) (event : Connection.Event)
  /-- The runner at the other end reads a frame, and dispatching it succeeds or fails. -/
  | frame (number : ℕ) (succeeds : Bool)
deriving DecidableEq

/-- The state after an event. -/
def advance (s : State) : Event → State
  | .send address data fails => s.send address data fails
  | .task number event =>
      match s.spawned[number]? with
      | none => s
      | some c => { s with spawned := s.spawned.set number (c.advance event) }
  | .frame number succeeds =>
      match s.spawned[number]? with
      | none => s
      | some c =>
          match c.next with
          | none => s
          | some message =>
              { s with
                spawned := s.spawned.set number (c.dispatch succeeds)
                dispatched := s.dispatched ++ [(c.address, message)] }

/-- The state after a run. -/
def run (events : List Event) : State := events.foldl advance {}

theorem run_snoc (events : List Event) (event : Event) :
    run (events ++ [event]) = (run events).advance event := by
  rw [run, List.foldl_append]
  rfl

/-- What is sent in a run, with the addresses. -/
def submissions (events : List Event) : List (SocketAddr × List UInt8) :=
  events.filterMap fun
    | .send address data _ => some (address, data)
    | _ => none

/-- The messages of a history that are for an address. -/
def messagesTo (address : SocketAddr) (history : List (SocketAddr × Message)) : List Message :=
  (history.filter fun entry => entry.1 = address).map Prod.snd

@[simp] theorem messagesTo_append (address : SocketAddr) (history more : List (SocketAddr × Message)) :
    messagesTo address (history ++ more) = messagesTo address history ++ messagesTo address more := by
  simp [messagesTo]

theorem messagesTo_pairs (address : SocketAddr) (messages : List Message) :
    messagesTo address (messages.map fun message => (address, message)) = messages := by
  simp [messagesTo, List.filter_map, Function.comp_def]

theorem messagesTo_pairs_other {address other : SocketAddr} (different : other ≠ address)
    (messages : List Message) :
    messagesTo address (messages.map fun message => (other, message)) = [] := by
  simp [messagesTo, List.filter_map, Function.comp_def, different]

theorem mem_messagesTo {address : SocketAddr} {history : List (SocketAddr × Message)}
    {message : Message} : message ∈ messagesTo address history ↔ (address, message) ∈ history := by
  simp [messagesTo]

/-- The messages for one address are distinct when all are. -/
theorem nodup_messagesTo (address : SocketAddr) {history : List (SocketAddr × Message)}
    (nodup : history.Nodup) : (messagesTo address history).Nodup := by
  refine (nodup.filter _).map_on fun x xs y ys same => ?_
  have first := of_decide_eq_true (List.mem_filter.mp xs).2
  have second := of_decide_eq_true (List.mem_filter.mp ys).2
  exact Prod.ext (first.trans second.symm) same

/-- When all messages of a history are for one address. -/
theorem messagesTo_of_forall {address : SocketAddr} {history : List (SocketAddr × Message)}
    (all : ∀ entry ∈ history, entry.1 = address) : messagesTo address history = history.map Prod.snd := by
  rw [messagesTo, List.filter_eq_self.mpr fun entry member => decide_eq_true (all entry member)]

/-- No task for an address has returned. -/
def Intact (s : State) (address : SocketAddr) : Prop :=
  ∀ c ∈ s.spawned, c.address = address → c.point ≠ .returned

variable {s : State}

/-- The connection that the sender would use for an address has returned, if there is one. -/
def Gone (s : State) (address : SocketAddr) : Prop :=
  ∀ number, HashMap.get s.connections address = some number → ∀ c, s.spawned[number]? = some c →
    c.point = .returned

/-- **What sending does.** The message goes to a connection that has not returned, or there is no such
connection and it goes to a new one, unless that fails at once. -/
inductive Sends (s : State) (address : SocketAddr) (message : Message) : State → Prop where
  | reuse {number : ℕ} {c : Connection} (current : HashMap.get s.connections address = some number)
      (found : s.spawned[number]? = some c) (running : c.point ≠ .returned) :
      Sends s address message
        { s with
          spawned := s.spawned.set number (c.accept message)
          submitted := s.submitted ++ [(address, message)] }
  | spawn (gone : s.Gone address) :
      Sends s address message
        { s with
          connections := HashMap.insert s.connections address s.spawned.length
          spawned := s.spawned ++ [{ address := address, receiver := [message], accepted := [message] }]
          submitted := s.submitted ++ [(address, message)] }
  | refuse (gone : s.Gone address) :
      Sends s address message
        { s with
          spawned := s.spawned ++ [{ address := address, point := .returned }]
          submitted := s.submitted ++ [(address, message)] }

theorem sends (s : State) (address : SocketAddr) (data : List UInt8) (fails : Bool) :
    Sends s address ⟨s.submitted.length, data⟩ (s.send address data fails) := by
  unfold send
  dsimp only
  split
  · next t reused =>
      obtain ⟨number, current, pushed⟩ := Option.bind_eq_some_iff.mp reused
      unfold push at pushed
      dsimp only at pushed
      split at pushed
      · cases pushed
      · next c found =>
          split at pushed
          · cases pushed
          · next running =>
              obtain rfl := Option.some.inj pushed
              exact .reuse current found running
  · next nothing =>
      have gone : s.Gone address := by
        intro number current c found
        by_contra running
        have pushed := Option.bind_eq_none_iff.mp nothing number current
        simp [push, found, running] at pushed
      cases fails with
      | true =>
          simp only [spawnConnection, push, List.getElem?_concat_length]
          exact .refuse gone
      | false =>
          have placed : (s.spawned ++ [({ address := address } : Connection)]).set s.spawned.length
              (({ address := address } : Connection).accept ⟨s.submitted.length, data⟩) =
              s.spawned ++
                [({ address := address } : Connection).accept ⟨s.submitted.length, data⟩] := by
            simp
          simp only [spawnConnection, push, List.getElem?_concat_length, Bool.false_eq_true, if_false,
            reduceCtorEq]
          rw [placed]
          exact .spawn gone

/-- Sending submits the message. -/
theorem submitted_send (s : State) (address : SocketAddr) (data : List UInt8) (fails : Bool) :
    (s.send address data fails).submitted =
      s.submitted ++ [(address, ⟨s.submitted.length, data⟩)] := by
  have sends := s.sends address data fails
  generalize s.send address data fails = t at sends ⊢
  cases sends <;> rfl

/-- Nothing else does. -/
theorem submitted_advance (s : State) {event : Event}
    (unsent : ∀ address data fails, event ≠ .send address data fails) :
    (s.advance event).submitted = s.submitted := by
  cases event with
  | send address data fails => exact absurd rfl (unsent address data fails)
  | task number event =>
      rw [State.advance]
      split <;> rfl
  | frame number succeeds =>
      rw [State.advance]
      split
      · rfl
      · split <;> rfl

/-- **The history has what was sent**, in this order and numbered. -/
theorem submitted_run (events : List Event) :
    (run events).submitted =
      (submissions events).mapIdx fun id entry => (entry.1, ⟨id, entry.2⟩) := by
  refine history_foldl rfl (fun s event none => ?_) (fun s event entry brought => ?_) events
  · refine s.submitted_advance ?_
    rintro address data fails rfl
    cases none
  · cases event with
    | send address data fails =>
        cases brought
        exact s.submitted_send address data fails
    | _ => cases brought

/-! ## What the sender keeps -/

/-- What is known of the sender. Only the connection that it would use for an address may still be running,
and a connection takes the messages for its address in order. -/
structure Sound (s : State) : Prop where
  numbered : s.submitted.map (fun entry => entry.2.id) = List.range s.submitted.length
  connections : ∀ c ∈ s.spawned, c.Sound
  accepted : ∀ c ∈ s.spawned, c.accepted.Sublist (messagesTo c.address s.submitted)
  apart : ∀ (i j : ℕ) (c d : Connection) (message : Message), s.spawned[i]? = some c →
    s.spawned[j]? = some d → message ∈ c.accepted → message ∈ d.accepted → i = j
  heard : ∀ c ∈ s.spawned, c.heardFrames.Sublist (messagesTo c.address s.dispatched)
  dispatched : ∀ entry ∈ s.dispatched, ∃ c ∈ s.spawned, c.address = entry.1 ∧ entry.2 ∈ c.heardFrames
  once : s.dispatched.Nodup
  current : ∀ (number : ℕ) (c : Connection), s.spawned[number]? = some c → c.point ≠ .returned →
    HashMap.get s.connections c.address = some number
  known : ∀ address number, HashMap.get s.connections address = some number →
    ∃ c, s.spawned[number]? = some c ∧ c.address = address
  served : ∀ entry ∈ s.submitted, ∃ c ∈ s.spawned, c.address = entry.1
  intact : ∀ c ∈ s.spawned, s.Intact c.address → c.accepted = messagesTo c.address s.submitted

theorem sound_start : Sound {} where
  numbered := rfl
  connections _ member := absurd member List.not_mem_nil
  accepted _ member := absurd member List.not_mem_nil
  apart _ _ _ _ _ found := by simp at found
  heard _ member := absurd member List.not_mem_nil
  dispatched _ member := absurd member List.not_mem_nil
  once := List.nodup_nil
  current _ _ found := by simp at found
  known _ _ found := nomatch (HashMap.get_empty _).symm.trans found
  served _ member := absurd member List.not_mem_nil
  intact _ member := absurd member List.not_mem_nil

/-- The messages that were submitted are distinct. -/
theorem Sound.submitted_nodup (sound : s.Sound) : s.submitted.Nodup :=
  List.Nodup.of_map (fun entry => entry.2.id) (sound.numbered ▸ List.nodup_range)

/-- A message that is submitted now is not among those that were. -/
theorem Sound.fresh (sound : s.Sound) (address : SocketAddr) (data : List UInt8) :
    (address, (⟨s.submitted.length, data⟩ : Message)) ∉ s.submitted := by
  intro member
  have listed := List.mem_map_of_mem (f := fun entry => entry.2.id) member
  rw [sound.numbered] at listed
  exact absurd (List.mem_range.mp listed) (lt_irrefl _)

/-- A connection of the list after one of them has changed. -/
theorem getElem?_set_cases {number k : ℕ} {t d : Connection}
    (found : (s.spawned.set number t)[k]? = some d) :
    k = number ∧ d = t ∨ k ≠ number ∧ s.spawned[k]? = some d := by
  rw [List.getElem?_set] at found
  split at found
  · next same =>
      split at found
      · exact .inl ⟨same.symm, (Option.some.inj found).symm⟩
      · cases found
  · next different => exact .inr ⟨fun same => different same.symm, found⟩

theorem getElem?_set_same {number : ℕ} {c : Connection} (found : s.spawned[number]? = some c)
    (t : Connection) : (s.spawned.set number t)[number]? = some t := by
  rw [List.getElem?_set_self (List.getElem?_eq_some_iff.mp found).1]

theorem mem_set {number : ℕ} {t d : Connection} (member : d ∈ s.spawned.set number t) :
    d = t ∨ d ∈ s.spawned := by
  obtain ⟨k, found⟩ := List.mem_iff_getElem?.mp member
  rcases getElem?_set_cases found with ⟨-, same⟩ | ⟨-, other⟩
  · exact .inl same
  · exact .inr (List.mem_of_getElem? other)

/-- Where a connection of the list is after one of them has changed. -/
theorem set_cases {number k : ℕ} {c d : Connection} (found : s.spawned[number]? = some c)
    (t : Connection) (place : s.spawned[k]? = some d) :
    d = c ∧ (s.spawned.set number t)[k]? = some t ∨ (s.spawned.set number t)[k]? = some d := by
  by_cases here : k = number
  · subst here
    exact .inl ⟨Option.some.inj (place.symm.trans found), getElem?_set_same found t⟩
  · refine .inr ?_
    rw [List.getElem?_set_ne (Ne.symm here)]
    exact place

/-- What holds of a connection at its place holds there afterwards, if the change keeps it. -/
theorem exists_set {number k : ℕ} {c t : Connection} {holds : Connection → Prop}
    (found : s.spawned[number]? = some c) (keeps : holds c → holds t)
    (before : ∃ d, s.spawned[k]? = some d ∧ holds d) :
    ∃ d, (s.spawned.set number t)[k]? = some d ∧ holds d := by
  obtain ⟨d, place, held⟩ := before
  rcases set_cases found t place with ⟨rfl, changed⟩ | kept
  · exact ⟨t, changed, keeps held⟩
  · exact ⟨d, kept, held⟩

/-- What holds of some connection holds of one afterwards. -/
theorem exists_mem_set {number : ℕ} {c t : Connection} {holds : Connection → Prop}
    (found : s.spawned[number]? = some c) (keeps : holds c → holds t)
    (before : ∃ d ∈ s.spawned, holds d) : ∃ d ∈ s.spawned.set number t, holds d := by
  obtain ⟨d, member, held⟩ := before
  obtain ⟨k, place⟩ := List.mem_iff_getElem?.mp member
  obtain ⟨e, place', held'⟩ := exists_set found keeps ⟨d, place, held⟩
  exact ⟨e, List.mem_of_getElem? place', held'⟩

/-- An address that is intact afterwards was so before. -/
theorem intact_of_set {number : ℕ} {c t : Connection} (found : s.spawned[number]? = some c)
    (address : t.address = c.address) (running : t.point ≠ .returned → c.point ≠ .returned)
    {other : SocketAddr} {u : State} (spawned : u.spawned = s.spawned.set number t)
    (intact : u.Intact other) : s.Intact other := by
  intro d member same
  obtain ⟨k, place⟩ := List.mem_iff_getElem?.mp member
  rcases set_cases found t place with ⟨rfl, changed⟩ | kept
  · exact running (intact t (spawned ▸ List.mem_of_getElem? changed) (address.trans same))
  · exact intact d (spawned ▸ List.mem_of_getElem? kept) same

/-- **A connection takes a step**, and its runner may dispatch some messages. -/
theorem Sound.step (sound : s.Sound) {number : ℕ} {c t : Connection}
    (found : s.spawned[number]? = some c) (keeps : t.Sound) (address : t.address = c.address)
    (accepted : t.accepted = c.accepted) (running : t.point ≠ .returned → c.point ≠ .returned)
    {more : List Message} (heard : t.heardFrames = c.heardFrames ++ more) :
    Sound { s with
      spawned := s.spawned.set number t
      dispatched := s.dispatched ++ more.map fun message => (c.address, message) } := by
  have member := List.mem_of_getElem? found
  have inside : t ∈ s.spawned.set number t := List.mem_of_getElem? (getElem?_set_same found t)
  refine ⟨sound.numbered, fun d among => ?_, fun d among => ?_, fun i j d d' message here there => ?_,
    fun d among => ?_, fun entry heardOf => ?_, ?_, fun k d place live => ?_, fun other k here => ?_,
    fun entry submitted => ?_, fun d among intact => ?_⟩
  · rcases mem_set among with rfl | old
    · exact keeps
    · exact sound.connections d old
  · rcases mem_set among with rfl | old
    · rw [accepted, address]
      exact sound.accepted c member
    · exact sound.accepted d old
  · -- what a connection has accepted is the same as before
    have before : ∀ (k : ℕ) (e : Connection), (s.spawned.set number t)[k]? = some e →
        ∃ e', s.spawned[k]? = some e' ∧ e.accepted = e'.accepted := by
      intro k e place
      rcases getElem?_set_cases place with ⟨rfl, rfl⟩ | ⟨-, old⟩
      · exact ⟨c, found, accepted⟩
      · exact ⟨e, old, rfl⟩
    obtain ⟨e, here, same⟩ := before i d here
    obtain ⟨e', there, same'⟩ := before j d' there
    rw [same, same']
    exact sound.apart i j e e' message here there
  · dsimp only
    rw [messagesTo_append]
    rcases mem_set among with rfl | old
    · rw [heard, address, messagesTo_pairs]
      exact (sound.heard c member).append_right more
    · exact (sound.heard d old).trans (List.sublist_append_left _ _)
  · rcases List.mem_append.mp heardOf with old | new
    · refine exists_mem_set found (fun ⟨same, dispatched⟩ => ⟨address.trans same, ?_⟩)
        (sound.dispatched entry old)
      rw [heard]
      exact List.mem_append_left _ dispatched
    · obtain ⟨message, among, rfl⟩ := List.mem_map.mp new
      refine ⟨t, inside, address, ?_⟩
      rw [heard]
      exact List.mem_append_right _ among
  · -- a connection dispatches no message twice, and no other connection has accepted it
    have distinct : (c.heardFrames ++ more).Nodup := by
      rw [← heard]
      exact (keeps.heardFrames_sublist.trans (accepted ▸ sound.accepted c member)).nodup
        (nodup_messagesTo c.address sound.submitted_nodup)
    obtain ⟨-, new, disjoint⟩ := List.nodup_append.mp distinct
    refine List.nodup_append.mpr ⟨sound.once, new.map fun _ _ same => (Prod.mk.inj same).2, ?_⟩
    rintro entry old _ again rfl
    obtain ⟨message, among, rfl⟩ := List.mem_map.mp again
    obtain ⟨d, there, -, dispatched⟩ := sound.dispatched _ old
    obtain ⟨k, place⟩ := List.mem_iff_getElem?.mp there
    have taken : message ∈ c.accepted := by
      rw [← accepted]
      refine keeps.heardFrames_sublist.subset ?_
      rw [heard]
      exact List.mem_append_right _ among
    obtain rfl := sound.apart k number d c message place found
      ((sound.connections d there).heardFrames_sublist.subset dispatched) taken
    obtain rfl := Option.some.inj (found.symm.trans place)
    exact disjoint message dispatched message among rfl
  · rcases getElem?_set_cases place with ⟨rfl, rfl⟩ | ⟨-, old⟩
    · rw [address]
      exact sound.current k c found (running live)
    · exact sound.current k d old live
  · exact exists_set found (fun same => address.trans same) (sound.known other k here)
  · exact exists_mem_set found (fun same => address.trans same) (sound.served entry submitted)
  · have before := intact_of_set found address running rfl intact
    rcases mem_set among with rfl | old
    · rw [accepted, address]
      exact sound.intact c member (address ▸ before)
    · exact sound.intact d old before

/-- A message that is submitted has a new number. -/
theorem Sound.numbered_submit (sound : s.Sound) (address : SocketAddr) (data : List UInt8) :
    (s.submitted ++ [(address, (⟨s.submitted.length, data⟩ : Message))]).map (fun entry => entry.2.id) =
      List.range (s.submitted ++ [(address, (⟨s.submitted.length, data⟩ : Message))]).length := by
  rw [List.map_append, sound.numbered, List.length_append, List.length_singleton, List.range_succ]
  rfl

theorem Sound.not_accepted (sound : s.Sound) {c : Connection} (member : c ∈ s.spawned)
    (data : List UInt8) : (⟨s.submitted.length, data⟩ : Message) ∉ c.accepted := fun accepted =>
  sound.fresh c.address data (mem_messagesTo.mp ((sound.accepted c member).subset accepted))

/-- The messages for an address after one was submitted. -/
theorem messagesTo_submit (address other : SocketAddr) (message : Message) :
    messagesTo other (s.submitted ++ [(address, message)]) =
      if address = other then messagesTo other s.submitted ++ [message]
      else messagesTo other s.submitted := by
  have pair := messagesTo_append other s.submitted [(address, message)]
  split
  · next same =>
      subst same
      rw [pair]
      exact congrArg _ (messagesTo_pairs address [message])
  · next different =>
      rw [pair]
      exact (congrArg _ (messagesTo_pairs_other different [message])).trans (List.append_nil _)

/-- **A message is put into the channel** of the connection for its address. -/
theorem Sound.reuse (sound : s.Sound) {address : SocketAddr} {number : ℕ} {c : Connection}
    (current : HashMap.get s.connections address = some number) (found : s.spawned[number]? = some c)
    (running : c.point ≠ .returned) (data : List UInt8) :
    Sound { s with
      spawned := s.spawned.set number (c.accept ⟨s.submitted.length, data⟩)
      submitted := s.submitted ++ [(address, ⟨s.submitted.length, data⟩)] } := by
  have member := List.mem_of_getElem? found
  obtain ⟨_, place, rfl⟩ := sound.known address number current
  obtain rfl := Option.some.inj (found.symm.trans place)
  generalize new : (⟨s.submitted.length, data⟩ : Message) = message
  have inside : c.accept message ∈ s.spawned.set number (c.accept message) :=
    List.mem_of_getElem? (getElem?_set_same found _)
  refine ⟨new ▸ sound.numbered_submit c.address data, fun d among => ?_, fun d among => ?_,
    fun i j d d' other here there taken taken' => ?_, fun d among => ?_, fun entry dispatched => ?_,
    sound.once, fun k d place live => ?_, fun other k here => ?_, fun entry submitted => ?_,
    fun d among intact => ?_⟩
  · rcases mem_set among with rfl | old
    · exact (sound.connections c member).accept running message
    · exact sound.connections d old
  · dsimp only
    rw [messagesTo_submit]
    rcases mem_set among with rfl | old
    · rw [if_pos (show c.address = (c.accept message).address from rfl)]
      exact (sound.accepted c member).append_right [message]
    · split
      · exact (sound.accepted d old).trans (List.sublist_append_left _ _)
      · exact sound.accepted d old
  · -- the new message is in this connection only
    rcases getElem?_set_cases here with ⟨rfl, rfl⟩ | ⟨-, old⟩ <;>
      rcases getElem?_set_cases there with ⟨rfl, rfl⟩ | ⟨-, old'⟩
    · rfl
    · rcases List.mem_append.mp taken with before | now
      · exact sound.apart i j c d' other found old' before taken'
      · rw [List.mem_singleton.mp now, ← new] at taken'
        exact absurd taken' (sound.not_accepted (List.mem_of_getElem? old') data)
    · rcases List.mem_append.mp taken' with before | now
      · exact sound.apart i j d c other old found taken before
      · rw [List.mem_singleton.mp now, ← new] at taken
        exact absurd taken (sound.not_accepted (List.mem_of_getElem? old) data)
    · exact sound.apart i j d d' other old old' taken taken'
  · rcases mem_set among with rfl | old
    · exact sound.heard c member
    · exact sound.heard d old
  · exact exists_mem_set found (fun held => held) (sound.dispatched entry dispatched)
  · rcases getElem?_set_cases place with ⟨rfl, rfl⟩ | ⟨-, old⟩
    · exact current
    · exact sound.current k d old live
  · exact exists_set found (fun same => same) (sound.known other k here)
  · rcases List.mem_append.mp submitted with old | now
    · exact exists_mem_set found (fun same => same) (sound.served entry old)
    · exact ⟨_, inside, by rw [List.mem_singleton.mp now]; rfl⟩
  · have before := intact_of_set (t := c.accept message) found rfl (fun _ => running) rfl intact
    dsimp only
    rw [messagesTo_submit]
    rcases getElem?_set_cases (List.mem_iff_getElem?.mp among).choose_spec with ⟨-, rfl⟩ | ⟨away, old⟩
    · rw [if_pos (show c.address = (c.accept message).address from rfl)]
      exact congrArg (· ++ [message]) (sound.intact c member (before : s.Intact c.address))
    · have among := List.mem_of_getElem? old
      rw [if_neg, sound.intact d among before]
      intro same
      -- two connections for one address are not both running
      have live := sound.current _ d old (before d among rfl)
      rw [← same, current] at live
      exact away (Option.some.inj live).symm

/-- Where there is no running connection that could be used, there is none at all. -/
theorem Sound.returned_of_gone (sound : s.Sound) {address : SocketAddr} (gone : s.Gone address)
    {d : Connection} (member : d ∈ s.spawned) (same : d.address = address) : d.point = .returned := by
  by_contra running
  obtain ⟨k, place⟩ := List.mem_iff_getElem?.mp member
  exact running (gone k (same ▸ sound.current k d place running) d place)

/-- What is known of a new connection: it takes the message, unless it fails at once. -/
def Opens (s : State) (address : SocketAddr) (message : Message) (t : Connection)
    (connections : HashMap SocketAddr ℕ) : Prop :=
  t.point ≠ .returned ∧ t.accepted = [message] ∧
      connections = HashMap.insert s.connections address s.spawned.length ∨
    t.point = .returned ∧ t.accepted = [] ∧ connections = s.connections

/-- **A new connection is made** where no other one is running. -/
theorem Sound.spawn (sound : s.Sound) {address : SocketAddr} (gone : s.Gone address)
    {data : List UInt8} {t : Connection} {connections : HashMap SocketAddr ℕ} (keeps : t.Sound)
    (same : t.address = address) (unheard : t.heardFrames = [])
    (opens : s.Opens address ⟨s.submitted.length, data⟩ t connections) :
    Sound { s with
      connections := connections
      spawned := s.spawned ++ [t]
      submitted := s.submitted ++ [(address, ⟨s.submitted.length, data⟩)] } := by
  have numbered := sound.numbered_submit address data
  have unknown : ∀ d ∈ s.spawned, (⟨s.submitted.length, data⟩ : Message) ∉ d.accepted :=
    fun d member => sound.not_accepted member data
  generalize (⟨s.submitted.length, data⟩ : Message) = message at opens numbered unknown
  have own : t.accepted ⊆ [message] := by
    rcases opens with ⟨-, accepted, -⟩ | ⟨-, accepted, -⟩ <;> simp [accepted]
  have cases : ∀ {k : ℕ} {d : Connection}, (s.spawned ++ [t])[k]? = some d →
      s.spawned[k]? = some d ∨ k = s.spawned.length ∧ d = t := by
    intro k d place
    rcases Nat.lt_trichotomy k s.spawned.length with old | new | beyond
    · rw [List.getElem?_append_left old] at place
      exact .inl place
    · subst new
      rw [List.getElem?_concat_length] at place
      exact .inr ⟨rfl, (Option.some.inj place).symm⟩
    · rw [List.getElem?_eq_none (by simpa using Nat.succ_le_of_lt beyond)] at place
      cases place
  have stays : ∀ {k : ℕ} {d : Connection}, s.spawned[k]? = some d →
      (s.spawned ++ [t])[k]? = some d := fun place => by
    rw [List.getElem?_append_left (List.getElem?_eq_some_iff.mp place).1]
    exact place
  refine ⟨numbered, fun d among => ?_, fun d among => ?_,
    fun i j d d' other here there taken taken' => ?_, fun d among => ?_, fun entry dispatched => ?_,
    sound.once, fun k d place live => ?_, fun other k here => ?_, fun entry submitted => ?_,
    fun d among intact => ?_⟩
  · rcases List.mem_append.mp among with old | new
    · exact sound.connections d old
    · exact List.mem_singleton.mp new ▸ keeps
  · dsimp only
    rw [messagesTo_submit]
    rcases List.mem_append.mp among with old | new
    · split
      · exact (sound.accepted d old).trans (List.sublist_append_left _ _)
      · exact sound.accepted d old
    · rw [List.mem_singleton.mp new, if_pos same.symm]
      rcases opens with ⟨-, accepted, -⟩ | ⟨-, accepted, -⟩
      · rw [accepted]
        exact List.sublist_append_right _ _
      · rw [accepted]
        exact List.nil_sublist _
  · rcases cases here with old | ⟨rfl, rfl⟩ <;> rcases cases there with old' | ⟨rfl, rfl⟩
    · exact sound.apart i j d d' other old old' taken taken'
    · rw [List.mem_singleton.mp (own taken')] at taken
      exact absurd taken (unknown d (List.mem_of_getElem? old))
    · rw [List.mem_singleton.mp (own taken)] at taken'
      exact absurd taken' (unknown d' (List.mem_of_getElem? old'))
    · rfl
  · rcases List.mem_append.mp among with old | new
    · exact sound.heard d old
    · rw [List.mem_singleton.mp new, unheard]
      exact List.nil_sublist _
  · obtain ⟨d, among, for_, listed⟩ := sound.dispatched entry dispatched
    exact ⟨d, List.mem_append_left _ among, for_, listed⟩
  · rcases cases place with old | ⟨rfl, rfl⟩
    · have before := sound.current k d old live
      rcases opens with ⟨-, -, rfl⟩ | ⟨-, -, rfl⟩
      · rw [HashMap.get_insert, if_neg]
        · exact before
        · exact fun here => live (sound.returned_of_gone gone (List.mem_of_getElem? old) here)
      · exact before
    · rcases opens with ⟨-, -, rfl⟩ | ⟨returned, -, -⟩
      · rw [same]
        exact HashMap.get_insert_self _ _ _
      · exact absurd returned live
  · have old : HashMap.get s.connections other = some k →
        ∃ d, (s.spawned ++ [t])[k]? = some d ∧ d.address = other := fun found => by
      obtain ⟨d, place, served⟩ := sound.known other k found
      exact ⟨d, stays place, served⟩
    rcases opens with ⟨-, -, rfl⟩ | ⟨-, -, rfl⟩
    · rw [HashMap.get_insert] at here
      split at here
      · next this =>
          obtain rfl := Option.some.inj here
          exact ⟨t, List.getElem?_concat_length, same.trans this.symm⟩
      · exact old here
    · exact old here
  · rcases List.mem_append.mp submitted with old | now
    · obtain ⟨d, among, served⟩ := sound.served entry old
      exact ⟨d, List.mem_append_left _ among, served⟩
    · exact ⟨t, List.mem_append_right _ (List.mem_singleton_self t), by
        rw [List.mem_singleton.mp now, same]⟩
  · have before : s.Intact d.address := fun e inside => intact e (List.mem_append_left _ inside)
    have alone : ∀ e ∈ s.spawned, e.address = address → d.address ≠ address := fun e inside served this =>
      before e inside (served.trans this.symm) (sound.returned_of_gone gone inside served)
    dsimp only
    rw [messagesTo_submit]
    rcases List.mem_append.mp among with old | new
    · rw [if_neg fun this => alone d old this.symm this.symm, sound.intact d old before]
    · obtain rfl := List.mem_singleton.mp new
      -- nothing was submitted to the address before, since no connection was made for it
      have nothing : messagesTo d.address s.submitted = [] := by
        refine List.eq_nil_iff_forall_not_mem.mpr fun message listed => ?_
        obtain ⟨e, inside, served⟩ := sound.served _ (mem_messagesTo.mp listed)
        exact alone e inside (served.trans same) same
      rw [if_pos same.symm, nothing]
      rcases opens with ⟨-, accepted, -⟩ | ⟨returned, -, -⟩
      · rw [accepted]
        rfl
      · exact absurd returned (intact d among rfl)

/-- **An event keeps what is known of the sender.** -/
theorem Sound.advance (sound : s.Sound) (event : Event) : (s.advance event).Sound := by
  cases event with
  | send address data fails =>
      have sends := s.sends address data fails
      show (s.send address data fails).Sound
      generalize s.send address data fails = t at sends ⊢
      cases sends with
      | reuse current found running => exact sound.reuse current found running data
      | spawn gone =>
          exact sound.spawn gone ⟨rfl, fun _ => rfl, Nat.le_refl 0⟩ rfl rfl
            (.inl ⟨by simp, rfl, rfl⟩)
      | refuse gone =>
          exact sound.spawn gone ⟨rfl, fun _ => rfl, Nat.le_refl 0⟩ rfl rfl (.inr ⟨rfl, rfl, rfl⟩)
  | task number event =>
      rw [State.advance]
      split
      · exact sound
      · next c found =>
          have advances := (sound.connections c (List.mem_of_getElem? found)).advance event
          have heard : (c.advance event).heardFrames = c.heardFrames ++ [] := by
            rw [advances.heardFrames, List.append_nil]
          have stepped := sound.step found advances.sound advances.address advances.accepted
            advances.running heard
          rwa [List.map_nil, List.append_nil] at stepped
  | frame number succeeds =>
      rw [State.advance]
      split
      · exact sound
      · next c found =>
          split
          · exact sound
          · next message next =>
              obtain ⟨keeps, heard⟩ :=
                (sound.connections c (List.mem_of_getElem? found)).dispatch next succeeds
              exact sound.step found keeps rfl rfl (fun running => running) heard

theorem sound_run (events : List Event) : (run events).Sound := by
  induction events using List.reverseRecOn with
  | nil => exact sound_start
  | append_singleton events event ih =>
      rw [run_snoc]
      exact ih.advance event

/-! ## What arrives -/

/-- The messages that are underway on the connection that the sender uses for an address. -/
def underway (s : State) (address : SocketAddr) : List Message :=
  match (HashMap.get s.connections address).bind fun number => s.spawned[number]? with
  | some c => c.underway
  | none => []

/-- Only one connection for an address is running. -/
theorem Sound.running_unique (sound : s.Sound) {c d : Connection} (member : c ∈ s.spawned)
    (member' : d ∈ s.spawned) (same : d.address = c.address) (running : c.point ≠ .returned)
    (running' : d.point ≠ .returned) : d = c := by
  obtain ⟨k, place⟩ := List.mem_iff_getElem?.mp member
  obtain ⟨j, place'⟩ := List.mem_iff_getElem?.mp member'
  have current := sound.current k c place running
  rw [← same, sound.current j d place' running'] at current
  obtain rfl := Option.some.inj current
  exact Option.some.inj (place'.symm.trans place)

/-- **Where no task has returned, one connection has dispatched everything.** -/
theorem Sound.dispatched_of_intact (sound : s.Sound) {c : Connection} (member : c ∈ s.spawned)
    (intact : s.Intact c.address) : messagesTo c.address s.dispatched = c.heardFrames := by
  have sublist := sound.heard c member
  have distinct := nodup_messagesTo c.address sound.once
  have subset : messagesTo c.address s.dispatched ⊆ c.heardFrames := by
    intro message listed
    obtain ⟨d, among, same, heard⟩ := sound.dispatched _ (mem_messagesTo.mp listed)
    obtain rfl := sound.running_unique member among same (intact c member rfl) (intact d among same)
    exact heard
  exact (sublist.eq_of_length_le (distinct.subperm subset).length_le).symm

/-- What is underway to an address is so on its one connection. -/
theorem Sound.underway_of_running (sound : s.Sound) {c : Connection} (member : c ∈ s.spawned)
    (running : c.point ≠ .returned) : s.underway c.address = c.underway := by
  obtain ⟨k, place⟩ := List.mem_iff_getElem?.mp member
  simp [underway, sound.current k c place running, place]

/-- Without a connection for an address, nothing was submitted to it. -/
theorem Sound.nothing_of_unserved (sound : s.Sound) {address : SocketAddr}
    (unserved : ∀ c ∈ s.spawned, c.address ≠ address) : messagesTo address s.submitted = [] ∧
      messagesTo address s.dispatched = [] ∧ s.underway address = [] := by
  refine ⟨List.eq_nil_iff_forall_not_mem.mpr fun message listed => ?_,
    List.eq_nil_iff_forall_not_mem.mpr fun message listed => ?_, ?_⟩
  · obtain ⟨c, member, same⟩ := sound.served _ (mem_messagesTo.mp listed)
    exact unserved c member same
  · obtain ⟨c, member, same, -⟩ := sound.dispatched _ (mem_messagesTo.mp listed)
    exact unserved c member same
  · have unknown : HashMap.get s.connections address = none := by
      refine Option.eq_none_iff_forall_ne_some.mpr fun number known => ?_
      obtain ⟨c, place, same⟩ := sound.known address number known
      exact unserved c (List.mem_of_getElem? place) same
    simp [underway, unknown]

/-- What is dispatched was submitted. -/
theorem Sound.dispatched_subset (sound : s.Sound) : s.dispatched ⊆ s.submitted := by
  intro entry dispatched
  obtain ⟨c, member, same, heard⟩ := sound.dispatched entry dispatched
  have accepted := (sound.connections c member).heardFrames_sublist.subset heard
  have submitted := mem_messagesTo.mp ((sound.accepted c member).subset accepted)
  rwa [same] at submitted

/-- **Where no task has returned, nothing was lost.** -/
theorem Sound.submitted_of_intact (sound : s.Sound) {address : SocketAddr} (intact : s.Intact address) :
    messagesTo address s.submitted = messagesTo address s.dispatched ++ s.underway address := by
  by_cases served : ∃ c ∈ s.spawned, c.address = address
  · obtain ⟨c, member, rfl⟩ := served
    have keeps := sound.connections c member
    have running := intact c member rfl
    rw [sound.dispatched_of_intact member intact, sound.underway_of_running member running,
      ← sound.intact c member intact, keeps.whole, keeps.kept running]
    simp [Connection.heardFrames, Connection.underway, ← List.append_assoc]
  · obtain ⟨submitted, dispatched, underway⟩ :=
      sound.nothing_of_unserved fun c member same => served ⟨c, member, same⟩
    rw [submitted, dispatched, underway]
    rfl

/-- **A message is dispatched at most once, at its own address, and where nothing fails in order.** In every
run, with any failures of connections, no message is dispatched twice, and only messages that were submitted
to an address are dispatched there. Each connection takes messages in the order of their submission and
dispatches them in this order. If no task for an address has returned, the messages that were submitted to it
are those that were dispatched, and then those that are underway. -/
theorem best_effort (events : List Event) :
    (run events).submitted =
        ((submissions events).mapIdx fun id entry => (entry.1, ⟨id, entry.2⟩)) ∧
      (run events).dispatched.Nodup ∧ (run events).dispatched ⊆ (run events).submitted ∧
      (∀ c ∈ (run events).spawned, c.accepted.Sublist (messagesTo c.address (run events).submitted) ∧
        c.heardFrames.Sublist c.accepted ∧
        c.heardFrames.Sublist (messagesTo c.address (run events).dispatched)) ∧
      ∀ address, (run events).Intact address → messagesTo address (run events).submitted =
        messagesTo address (run events).dispatched ++ (run events).underway address := by
  have sound := sound_run events
  exact ⟨submitted_run events, sound.once, sound.dispatched_subset,
    fun c member => ⟨sound.accepted c member, (sound.connections c member).heardFrames_sublist,
      sound.heard c member⟩,
    fun _ intact => sound.submitted_of_intact intact⟩

/-- Two messages to one address. The first connection fails after it has sent the first one, and the
runner of the second connection is faster. -/
def overtaken : List Event :=
  [.send ⟨1, 1⟩ [1] false, .task 0 (.connect true), .task 0 .receive, .task 0 (.send true),
    .task 0 (.reply false), .send ⟨1, 1⟩ [2] false, .task 1 (.connect true), .task 1 .receive,
    .task 1 (.send true), .frame 1 true, .frame 0 true]

/-- After a failure the order is not kept. -/
example : messagesTo ⟨1, 1⟩ (run overtaken).submitted = [⟨0, [1]⟩, ⟨1, [2]⟩] ∧
    messagesTo ⟨1, 1⟩ (run overtaken).dispatched = [⟨1, [2]⟩, ⟨0, [1]⟩] := by decide +kernel

/-! ## What can still arrive -/

/-- The network carries what is there, and nothing fails. -/
def Carries : Event → Prop
  | .task _ event => event = .connect true ∨ event = .receive ∨ event = .send true
  | .frame _ succeeds => succeeds = true
  | .send .. => False

end State

namespace Connection

/-- How many steps a connection needs until all it has accepted is dispatched. -/
def remaining (c : Connection) : ℕ :=
  (if c.point = .connecting then 1 else 0) + 3 * c.receiver.length + 2 * c.inHand.length +
    (c.frames.length - c.heard)

/-- A connection that works. -/
structure Works (c : Connection) : Prop where
  sound : c.Sound
  running : c.point ≠ .returned
  reading : c.ended = false

variable {c : Connection}

/-- When nothing remains to be done, everything is dispatched. -/
theorem Works.heardFrames_of_done (works : c.Works) (done : c.remaining = 0) :
    c.heardFrames = c.accepted := by
  have parts : 3 * c.receiver.length = 0 ∧ 2 * c.inHand.length = 0 ∧ c.frames.length - c.heard = 0 := by
    unfold remaining at done
    omega
  have receiver : c.receiver = [] := List.length_eq_zero_iff.mp (by omega)
  have inHand : c.inHand = [] := List.length_eq_zero_iff.mp (by omega)
  have all : c.frames.take c.heard = c.frames := List.take_of_length_le (by omega)
  rw [works.sound.whole, works.sound.kept works.running, waiting, receiver, inHand, heardFrames, all]
  simp

/-- The next step of a connection. -/
inductive Progresses (c : Connection) : Prop where
  | task {event : Event} (carries : State.Carries (.task 0 event)) (works : (c.advance event).Works)
      (fewer : (c.advance event).remaining < c.remaining)
  | frame {message : Message} (next : c.next = some message) (works : (c.dispatch true).Works)
      (fewer : (c.dispatch true).remaining < c.remaining)

/-- **A connection that works can go on** as long as something remains to be done. -/
theorem Works.progresses (works : c.Works) (more : 0 < c.remaining) : c.Progresses := by
  have reading := works.reading
  cases point : c.point with
  | connecting =>
      refine .task (.inl rfl) ⟨(works.sound.advance (.connect true)).sound, ?_, ?_⟩ ?_
      · simp [advance, point]
      · simp [advance, point, reading]
      · simp [advance, point, remaining, inHand]
  | selecting =>
      cases queued : c.receiver with
      | cons message rest =>
          refine .task (.inr (.inl rfl)) ⟨(works.sound.advance .receive).sound, ?_, ?_⟩ ?_
          · simp [advance, point, queued]
          · simp [advance, point, queued, reading]
          · simp [advance, point, queued, remaining, inHand]
            omega
      | nil =>
          have unread : c.heard < c.frames.length := by
            simpa [remaining, point, queued, inHand] using more
          have next : c.next = some c.frames[c.heard] := by
            simp [Connection.next, reading, unread]
          refine .frame next ⟨(works.sound.dispatch next true).1, works.running, rfl⟩ ?_
          simp [dispatch, remaining, point, queued, inHand]
          omega
  | sending message =>
      refine .task (.inr (.inr rfl)) ⟨(works.sound.advance (.send true)).sound, ?_, ?_⟩ ?_
      · simp [advance, point]
      · simp [advance, point, reading]
      · have read := works.sound.read
        simp [advance, point, remaining, inHand]
        omega
  | returned => exact absurd point works.running

end Connection

namespace State

variable {s : State}

/-- One connection works, and no task for its address has returned. -/
structure Serves (submitted : List (SocketAddr × Message)) (number : ℕ) (address : SocketAddr)
    (s : State) : Prop where
  sound : s.Sound
  submitted : s.submitted = submitted
  intact : s.Intact address
  works : ∃ c, s.spawned[number]? = some c ∧ c.address = address ∧ c.Works

/-- What remains to be done on a connection. -/
def remaining (number : ℕ) (s : State) : ℕ :=
  ((s.spawned[number]?).map Connection.remaining).getD 0

variable {submitted : List (SocketAddr × Message)} {number : ℕ} {address : SocketAddr}

/-- **One step of the connection** brings it closer to the end. -/
theorem Serves.descends (serves : Serves submitted number address s) (more : 0 < s.remaining number) :
    ∃ t, Leads advance Carries s t ∧ Serves submitted number address t ∧
      t.remaining number < s.remaining number := by
  obtain ⟨c, found, same, works⟩ := serves.works
  have remains : s.remaining number = c.remaining := by simp [remaining, found]
  -- what changes is this connection only
  have steps : ∀ (event : Event) (t : Connection) (dispatched : List (SocketAddr × Message)),
      Carries event → t.address = c.address → t.Works → t.remaining < c.remaining →
      s.advance event = { s with spawned := s.spawned.set number t, dispatched := dispatched } →
      ∃ u, Leads advance Carries s u ∧ Serves submitted number address u ∧
        u.remaining number < s.remaining number := by
    intro event t dispatched carries kept working fewer stepped
    have place := getElem?_set_same found t
    have sound := serves.sound.advance event
    refine ⟨s.advance event, .single carries, ⟨sound, ?_, ?_, ?_⟩, ?_⟩
    · rw [stepped]
      exact serves.submitted
    · rw [stepped]
      intro d member here
      rcases mem_set member with rfl | old
      · exact working.running
      · exact serves.intact d old here
    · rw [stepped]
      exact ⟨t, place, kept.trans same, working⟩
    · rw [remains, stepped]
      simpa [remaining, place] using fewer
  cases works.progresses (remains ▸ more) with
  | @task event carries working fewer =>
      have kept := (works.sound.advance event).address
      exact steps (.task number event) (c.advance event) s.dispatched carries kept working fewer
        (by simp [State.advance, found])
  | @frame message next working fewer =>
      exact steps (.frame number true) (c.dispatch true) (s.dispatched ++ [(c.address, message)]) rfl
        rfl working fewer (by simp [State.advance, found, next])

/-- Two messages to one address and one to another one, of which the connection fails. The first one is
dispatched. -/
def halfway : List Event :=
  [.send ⟨1, 1⟩ [1] false, .send ⟨2, 1⟩ [3] false, .task 0 (.connect true), .task 1 (.connect false),
    .task 0 .receive, .task 0 (.send true), .frame 0 true, .send ⟨1, 1⟩ [2] false]

end State

end SimpleSender

end Tusk
