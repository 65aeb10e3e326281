import Tusk.Lib.Runs
import Tusk.Primary.HeaderWaiter
import Tusk.Thresholds

/-!
# No suspended header is forgotten

A header that the `HeaderWaiter` was told of is waiting, or was returned, or was cancelled because it
is too old. The pending map and the waiters may drift apart: a waiter whose entry was cleaned up may
still return its header, and then removes the entry of a newer waiter for the same header. But every
entry of the map has a waiter of its own, with the number in the entry (`Attended`), so a command that
is dropped because its header is pending leaves a waiter behind that returns the header
(`header_remembered`).

The HeaderWaiter is taken with the store and the consensus round, both of which others write. Nothing
is assumed of the commands.
-/

set_option autoImplicit false

namespace Tusk

open Lib

namespace HeaderWaiter

/-! ## Steps before the cleanup -/

section Steps

variable (waiter : HeaderWaiter)

/-- The state after an event, before the cleanup. It is `none` if the event is passed over. -/
def handle (s : State) (event : Event) : Option State :=
  if s.panicked then
    none
  else
    match event with
    | .synchronizer message now =>
        if s.waits message.deliver then none else some (waiter.synchronize s now message)
    | .delivered number =>
        (s.waiting.find? fun other => decide (other.number = number)).map fun ended =>
          deliver { s with waiting := s.waiting.filter fun other => decide (other.number ≠ number) }
            ended.deliver
    | .cancelled number =>
        some { s with waiting := s.waiting.filter fun other => decide (other.number ≠ number) }
    | .timer now shuffled => some (waiter.retry s now shuffled)

/-- An event is handled and then cleaned up after. -/
theorem advance_eq (s : State) (consensusRound : ℕ) (event : Event) :
    waiter.advance s consensusRound event =
      match waiter.handle s event with
      | none => s
      | some t => if t.panicked then t else waiter.cleanup t consensusRound := by
  unfold advance handle
  cases stopped : s.panicked with
  | true => rfl
  | false =>
      cases event with
      | synchronizer message now =>
          dsimp only
          cases waits : s.waits message.deliver <;> rfl
      | delivered number =>
          dsimp only
          cases s.waiting.find? fun other => decide (other.number = number) with
          | none => rfl
          | some ended => simp [deliver]
      | cancelled number => simp
      | timer now shuffled => simp [retry, stopped]

/-- What a synchronization does to the pending headers and their waiters. -/
theorem synchronize_spec (s : State) (now : ℕ) (message : WaiterMessage) :
    (waiter.synchronize s now message).pending = (s.await message).pending ∧
      (waiter.synchronize s now message).waiting = (s.await message).waiting ∧
      (waiter.synchronize s now message).waiters = (s.await message).waiters ∧
      (waiter.synchronize s now message).txCore = s.txCore := by
  cases message with
  | syncBatches missing h => exact ⟨rfl, rfl, rfl, rfl⟩
  | syncParents missing h =>
      unfold synchronize syncParents
      dsimp only
      split
      · exact ⟨rfl, rfl, rfl, rfl⟩
      · split <;> exact ⟨rfl, rfl, rfl, rfl⟩

/-- The cleanup collects what is of a round. -/
def Collects (consensusRound round : ℕ) : Prop :=
  waiter.gcDepth < consensusRound ∧ round ≤ consensusRound - waiter.gcDepth

instance (consensusRound round : ℕ) : Decidable (waiter.Collects consensusRound round) :=
  inferInstanceAs (Decidable (_ ∧ _))

/-- The cleanup leaves the pending headers that it does not collect. -/
theorem get_pending_cleanup {s : State} {consensusRound : ℕ} {id : Digest} {entry : ℕ × ℕ} :
    HashMap.get (waiter.cleanup s consensusRound).pending id = some entry ↔
      HashMap.get s.pending id = some entry ∧ ¬ waiter.Collects consensusRound entry.1 := by
  unfold cleanup Collects
  split_ifs with late
  · simp only [HashMap.get_retain_eq_some_iff, late, true_and, not_le]
  · simp [late]

/-- It leaves the requests that were made for headers that it does not collect. -/
theorem get_batchRequests_cleanup {s : State} {consensusRound : ℕ} {digest : Digest} {round : ℕ} :
    HashMap.get (waiter.cleanup s consensusRound).batchRequests digest = some round ↔
      HashMap.get s.batchRequests digest = some round ∧ ¬ waiter.Collects consensusRound round := by
  unfold cleanup Collects
  split_ifs with late
  · simp only [HashMap.get_retain_eq_some_iff, late, true_and, not_le]
  · simp [late]

theorem get_parentRequests_cleanup {s : State} {consensusRound : ℕ} {digest : Digest}
    {entry : ℕ × ℕ} :
    HashMap.get (waiter.cleanup s consensusRound).parentRequests digest = some entry ↔
      HashMap.get s.parentRequests digest = some entry ∧
        ¬ waiter.Collects consensusRound entry.1 := by
  unfold cleanup Collects
  split_ifs with late
  · simp only [HashMap.get_retain_eq_some_iff, late, true_and, not_le]
  · simp [late]

theorem cleanup_other (s : State) (consensusRound : ℕ) :
    (waiter.cleanup s consensusRound).waiting = s.waiting ∧
      (waiter.cleanup s consensusRound).waiters = s.waiters ∧
      (waiter.cleanup s consensusRound).txCore = s.txCore ∧
      (waiter.cleanup s consensusRound).panicked = s.panicked := by
  unfold cleanup
  split <;> exact ⟨rfl, rfl, rfl, rfl⟩

end Steps

/-! ## Every pending header has a waiter -/

section Attended

variable {waiter : HeaderWaiter} {s t : State} {event : Event} {id : Digest} {w : Waiter}

/-- A waiter has a header of this id and its number is in the entry of the id, so that the entry keeps
its channel open. -/
structure Holding (s : State) (id : Digest) (w : Waiter) : Prop where
  waiting : w ∈ s.waiting
  deliver : w.deliver.id = id
  pending : HashMap.get s.pending id = some (w.deliver.round, w.number)

/-- The waiters have numbers of their own, and every pending header has its waiter. -/
structure Attended (s : State) : Prop where
  distinct : (s.waiting.map Waiter.number).Nodup
  numbers : ∀ w ∈ s.waiting, w.number < s.waiters
  holding : ∀ id round number, HashMap.get s.pending id = some (round, number) →
    ∃ w, Holding s id w ∧ w.number = number

/-- A waiter is cancelled only after its entry is gone. -/
def MayHappen (s : State) : Event → Prop
  | .cancelled number => ∀ id round, HashMap.get s.pending id ≠ some (round, number)
  | _ => True

theorem mayHappen_cancelled_iff {number : ℕ} :
    MayHappen s (.cancelled number) ↔ ∀ entry ∈ HashMap.items s.pending, entry.2.2 ≠ number := by
  constructor
  · rintro may ⟨id, round, _⟩ member rfl
    exact may id round (HashMap.mem_items.mp member)
  · intro others id round found
    exact others (id, round, number) (HashMap.mem_items.mpr found) rfl

theorem Attended.eq_of_number (attended : Attended s) {v : Waiter} (member : v ∈ s.waiting)
    (member' : w ∈ s.waiting) (same : v.number = w.number) : v = w :=
  List.inj_on_of_nodup_map attended.distinct member member' same

/-- A command adds a waiter for its header. -/
theorem holding_synchronize (s : State) (now : ℕ) (message : WaiterMessage) :
    Holding (waiter.synchronize s now message) message.deliver.id
      ⟨s.waiters, message.waitFor, message.deliver⟩ := by
  obtain ⟨pending, waiting, -, -⟩ := waiter.synchronize_spec s now message
  refine ⟨?_, rfl, ?_⟩
  · rw [waiting]
    exact List.mem_append_right _ List.mem_cons_self
  · rw [pending, State.await, HashMap.get_insert_self]

theorem Attended.synchronize (attended : Attended s) (now : ℕ) {message : WaiterMessage} :
    Attended (waiter.synchronize s now message) := by
  obtain ⟨pending, waiting, waiters, -⟩ := waiter.synchronize_spec s now message
  refine ⟨?_, ?_, ?_⟩
  · rw [waiting, State.await, List.map_append, List.nodup_append]
    refine ⟨attended.distinct, List.nodup_singleton _, fun n old m new same => ?_⟩
    obtain ⟨w, member, rfl⟩ := List.mem_map.mp old
    have fresh := attended.numbers w member
    obtain rfl := List.mem_singleton.mp new
    exact absurd same (Nat.ne_of_lt fresh)
  · rw [waiting, waiters]
    refine List.forall_mem_append.mpr ⟨fun w member => ?_, List.forall_mem_singleton.mpr ?_⟩
    · exact (attended.numbers w member).trans (Nat.lt_succ_self _)
    · exact Nat.lt_succ_self _
  · intro id round number found
    rw [pending, State.await, HashMap.get_insert] at found
    split_ifs at found with here
    · cases found
      exact ⟨_, here ▸ holding_synchronize s now message, rfl⟩
    · obtain ⟨w, holding, rfl⟩ := attended.holding id round number found
      refine ⟨w, ⟨?_, holding.deliver, ?_⟩, rfl⟩
      · rw [waiting]
        exact List.mem_append_left _ holding.waiting
      · rw [pending, State.await, HashMap.get_insert, if_neg here]
        exact holding.pending

/-- Ending a waiter leaves the others with their entries. -/
theorem Holding.of_ended (holding : Holding s id w) {number : ℕ} (other : w.number ≠ number)
    (waiting : t.waiting = s.waiting.filter fun v => decide (v.number ≠ number))
    (kept : HashMap.get t.pending id = HashMap.get s.pending id) : Holding t id w := by
  refine ⟨?_, holding.deliver, kept.trans holding.pending⟩
  rw [waiting]
  exact List.mem_filter.mpr ⟨holding.waiting, decide_eq_true other⟩

theorem Attended.of_ended (attended : Attended s) {number : ℕ}
    (waiting : t.waiting = s.waiting.filter fun v => decide (v.number ≠ number))
    (waiters : t.waiters = s.waiters)
    (pending : ∀ id round n, HashMap.get t.pending id = some (round, n) →
      HashMap.get s.pending id = some (round, n) ∧ n ≠ number) : Attended t := by
  refine ⟨?_, fun w member => ?_, fun id round n found => ?_⟩
  · rw [waiting]
    exact attended.distinct.sublist (List.filter_sublist.map _)
  · rw [waiting] at member
    rw [waiters]
    exact attended.numbers w (List.mem_of_mem_filter member)
  · obtain ⟨found', other⟩ := pending id round n found
    obtain ⟨w, holding, rfl⟩ := attended.holding id round n found'
    exact ⟨w, holding.of_ended other waiting (found.trans found'.symm), rfl⟩

/-- A command for a header that is not pending is handled. -/
theorem handle_synchronizer {message : WaiterMessage} {now : ℕ}
    (handled : waiter.handle s (.synchronizer message now) = some t) :
    s.waits message.deliver = false ∧ t = waiter.synchronize s now message := by
  simp only [handle] at handled
  split_ifs at handled with stopped waits
  cases handled
  exact ⟨Bool.eq_false_of_not_eq_true waits, rfl⟩

/-- What is handled when a waiter has all its keys. -/
theorem handle_delivered {number : ℕ} (handled : waiter.handle s (.delivered number) = some t) :
    ∃ ended ∈ s.waiting, ended.number = number ∧
      t.pending = HashMap.remove s.pending ended.deliver.id ∧
      t.waiting = (s.waiting.filter fun v => decide (v.number ≠ number)) ∧
      t.waiters = s.waiters ∧ t.txCore = s.txCore ++ [ended.deliver] := by
  unfold handle at handled
  split_ifs at handled
  obtain ⟨ended, found, rfl⟩ := Option.map_eq_some_iff.mp handled
  have number := List.find?_some found
  exact ⟨ended, List.mem_of_find?_eq_some found, by simpa using number, rfl, rfl, rfl, rfl⟩

theorem handle_cancelled {number : ℕ} (handled : waiter.handle s (.cancelled number) = some t) :
    t = { s with waiting := s.waiting.filter fun v => decide (v.number ≠ number) } := by
  unfold handle at handled
  split_ifs at handled
  cases handled
  rfl

theorem handle_timer {now : ℕ} {shuffled : List SocketAddr}
    (handled : waiter.handle s (.timer now shuffled) = some t) :
    t = waiter.retry s now shuffled := by
  unfold handle at handled
  split_ifs at handled
  cases handled
  rfl

/-- Handling an event keeps the waiters of the pending headers. -/
theorem Attended.handle (attended : Attended s) (may : MayHappen s event)
    (handled : waiter.handle s event = some t) : Attended t := by
  cases event with
  | synchronizer message now =>
      obtain ⟨-, rfl⟩ := handle_synchronizer handled
      exact attended.synchronize now
  | delivered number =>
      obtain ⟨ended, member, rfl, pending, waiting, waiters, -⟩ := handle_delivered handled
      refine attended.of_ended waiting waiters fun id round n found => ?_
      rw [pending, HashMap.get_remove] at found
      split_ifs at found with other
      refine ⟨found, ?_⟩
      rintro rfl
      obtain ⟨w, holding, same⟩ := attended.holding id round _ found
      obtain rfl := attended.eq_of_number holding.waiting member same
      exact other holding.deliver.symm
  | cancelled number =>
      obtain rfl := handle_cancelled handled
      refine attended.of_ended rfl rfl fun id round n found => ⟨found, ?_⟩
      rintro rfl
      exact may id round found
  | timer now shuffled =>
      obtain rfl := handle_timer handled
      refine ⟨attended.distinct, attended.numbers, fun id round number found => ?_⟩
      obtain ⟨w, holding, same⟩ := attended.holding id round number found
      exact ⟨w, ⟨holding.waiting, holding.deliver, holding.pending⟩, same⟩

/-- Handling an event leaves a pending header that it does not return with its waiter. -/
theorem Holding.handle_of_stays (holding : Holding s id w) (attended : Attended s)
    (may : MayHappen s event) (handled : waiter.handle s event = some t)
    (stays : ∀ v ∈ s.waiting, event = .delivered v.number → v.deliver.id ≠ id) :
    Holding t id w := by
  cases event with
  | synchronizer message now =>
      obtain ⟨asks, rfl⟩ := handle_synchronizer handled
      obtain ⟨pending, waiting, -, -⟩ := waiter.synchronize_spec s now message
      have other : id ≠ message.deliver.id := by
        rintro rfl
        rw [State.waits, holding.pending] at asks
        cases asks
      refine ⟨?_, holding.deliver, ?_⟩
      · rw [waiting]
        exact List.mem_append_left _ holding.waiting
      · rw [pending, State.await, HashMap.get_insert, if_neg other]
        exact holding.pending
  | delivered number =>
      obtain ⟨ended, member, rfl, pending, waiting, -, -⟩ := handle_delivered handled
      have different := stays ended member rfl
      have other : w.number ≠ ended.number := fun equal =>
        different (attended.eq_of_number holding.waiting member equal ▸ holding.deliver)
      refine holding.of_ended other waiting ?_
      rw [pending, HashMap.get_remove, if_neg (Ne.symm different)]
  | cancelled number =>
      obtain rfl := handle_cancelled handled
      refine holding.of_ended ?_ rfl rfl
      rintro rfl
      exact may id w.deliver.round holding.pending
  | timer now shuffled =>
      obtain rfl := handle_timer handled
      exact ⟨holding.waiting, holding.deliver, holding.pending⟩

/-- Handling an event leaves a pending header with its waiter, or returns it. -/
theorem Holding.handle (holding : Holding s id w) (attended : Attended s) (may : MayHappen s event)
    (handled : waiter.handle s event = some t) :
    Holding t id w ∨ ∃ h, t.txCore = s.txCore ++ [h] ∧ h.id = id := by
  by_cases stays : ∀ v ∈ s.waiting, event = .delivered v.number → v.deliver.id ≠ id
  · exact .inl (holding.handle_of_stays attended may handled stays)
  · push Not at stays
    obtain ⟨v, member, rfl, same⟩ := stays
    obtain ⟨ended, member', equal, -, -, -, txCore⟩ := handle_delivered handled
    obtain rfl := attended.eq_of_number member' member equal
    exact .inr ⟨ended.deliver, txCore, same⟩

/-- Handling an event returns headers and takes none back. -/
theorem txCore_handle (handled : waiter.handle s event = some t) :
    ∃ more, t.txCore = s.txCore ++ more := by
  cases event with
  | synchronizer message now =>
      obtain ⟨-, rfl⟩ := handle_synchronizer handled
      exact ⟨[], by rw [(waiter.synchronize_spec s now message).2.2.2, List.append_nil]⟩
  | delivered number =>
      obtain ⟨ended, -, -, -, -, -, txCore⟩ := handle_delivered handled
      exact ⟨_, txCore⟩
  | cancelled number =>
      obtain rfl := handle_cancelled handled
      exact ⟨[], (List.append_nil _).symm⟩
  | timer now shuffled =>
      obtain rfl := handle_timer handled
      exact ⟨[], (List.append_nil _).symm⟩

theorem Attended.cleanup (attended : Attended s) (consensusRound : ℕ) :
    Attended (waiter.cleanup s consensusRound) := by
  obtain ⟨waiting, waiters, -, -⟩ := waiter.cleanup_other s consensusRound
  refine ⟨waiting ▸ attended.distinct, ?_, fun id round number found => ?_⟩
  · rw [waiting, waiters]
    exact attended.numbers
  · obtain ⟨w, holding, same⟩ :=
      attended.holding id round number (waiter.get_pending_cleanup.mp found).1
    refine ⟨w, ⟨waiting.symm ▸ holding.waiting, holding.deliver, ?_⟩, same⟩
    rw [found, ← (waiter.get_pending_cleanup.mp found).1, holding.pending]

theorem Attended.advance (attended : Attended s) (may : MayHappen s event) (consensusRound : ℕ) :
    Attended (waiter.advance s consensusRound event) := by
  rw [waiter.advance_eq]
  cases handled : waiter.handle s event with
  | none => exact attended
  | some t =>
      dsimp only
      split_ifs
      · exact attended.handle may handled
      · exact (attended.handle may handled).cleanup consensusRound

/-- The cleanup after an event cancels the waiter of a header that it collects. -/
def Cancels (waiter : HeaderWaiter) (s : State) (consensusRound : ℕ) (event : Event) (id : Digest) :
    Prop :=
  ∃ t w, waiter.handle s event = some t ∧ t.panicked = false ∧ Holding t id w ∧
    waiter.Collects consensusRound w.deliver.round ∧
    HashMap.get (waiter.advance s consensusRound event).pending id = none

/-- Unless the cleanup collects its header, a waiter stays. -/
theorem Holding.of_handled (handled : waiter.handle s event = some t) (holding : Holding t id w)
    (consensusRound : ℕ) :
    Holding (waiter.advance s consensusRound event) id w ∨
      Cancels waiter s consensusRound event id := by
  have advanced := waiter.advance_eq s consensusRound event
  simp only [handled] at advanced
  split_ifs at advanced with stopped
  · exact .inl (advanced ▸ holding)
  · obtain ⟨waiting, -, -, -⟩ := waiter.cleanup_other t consensusRound
    by_cases collects : waiter.Collects consensusRound w.deliver.round
    · refine .inr ⟨t, w, handled, Bool.eq_false_of_not_eq_true stopped, holding, collects, ?_⟩
      rw [advanced]
      refine Option.eq_none_iff_forall_ne_some.mpr fun entry found => ?_
      obtain ⟨found, kept⟩ := waiter.get_pending_cleanup.mp found
      rw [holding.pending] at found
      cases found
      exact kept collects
    · refine .inl ⟨?_, holding.deliver, ?_⟩
      · rw [advanced, waiting]
        exact holding.waiting
      · rw [advanced]
        exact waiter.get_pending_cleanup.mpr ⟨holding.pending, collects⟩

/-- **After an event a pending header is pending still, or was returned, or was collected.** -/
theorem Holding.advance (holding : Holding s id w) (attended : Attended s)
    (may : MayHappen s event) (consensusRound : ℕ) :
    Holding (waiter.advance s consensusRound event) id w ∨
      (∃ h, (waiter.advance s consensusRound event).txCore = s.txCore ++ [h] ∧ h.id = id) ∨
      Cancels waiter s consensusRound event id := by
  cases handled : waiter.handle s event with
  | none =>
      refine .inl ?_
      rw [waiter.advance_eq, handled]
      exact holding
  | some t =>
      rcases holding.handle attended may handled with stays | ⟨h, txCore, same⟩
      · exact (stays.of_handled handled consensusRound).imp_right .inr
      · refine .inr (.inl ⟨h, ?_, same⟩)
        rw [waiter.advance_eq, handled]
        dsimp only
        split_ifs
        · exact txCore
        · rw [(waiter.cleanup_other t consensusRound).2.2.1, txCore]

/-- **After a command its header is pending, or was collected at once.** -/
theorem Attended.command (attended : Attended s) (running : s.panicked = false)
    (message : WaiterMessage) (now consensusRound : ℕ) :
    (∃ w, Holding (waiter.advance s consensusRound (.synchronizer message now))
        message.deliver.id w) ∨
      Cancels waiter s consensusRound (.synchronizer message now) message.deliver.id := by
  cases waits : s.waits message.deliver with
  | true =>
      -- the command is dropped, and the waiter of an earlier one is there
      obtain ⟨entry, found⟩ := Option.isSome_iff_exists.mp waits
      obtain ⟨w, holding, -⟩ := attended.holding _ entry.1 entry.2 found
      refine .inl ⟨w, ?_⟩
      have passed : waiter.handle s (.synchronizer message now) = none := by
        simp [HeaderWaiter.handle, running, waits]
      rw [waiter.advance_eq, passed]
      exact holding
  | false =>
      have handled : waiter.handle s (.synchronizer message now) =
          some (waiter.synchronize s now message) := by
        simp [HeaderWaiter.handle, running, waits]
      exact ((holding_synchronize s now message).of_handled handled consensusRound).imp_left
        fun stays => ⟨_, stays⟩

end Attended

/-! ## The HeaderWaiter among others -/

/-- The HeaderWaiter with the store and the consensus round, which it reads. -/
structure Station where
  waiter : State := {}
  store : Store := ∅
  consensusRound : ℕ := 0

namespace Station

/-- What happens at the HeaderWaiter and around it. -/
inductive Event where
  | waiter (event : HeaderWaiter.Event)
  /-- Something is written to the store. -/
  | write (key : List UInt8) (value : StoreValue)
  /-- The consensus round advances. -/
  | consensus (round : ℕ)

variable (waiter : HeaderWaiter)

/-- The state after an event. -/
def advance (s : Station) : Event → Station
  | .waiter event => { s with waiter := waiter.advance s.waiter s.consensusRound event }
  | .write key value => { s with store := s.store.write key value }
  | .consensus round => { s with consensusRound := round }

/-- A waiter returns its header when its keys are in the store, and is cancelled when its entry is
gone. The consensus round does not go back. -/
def Admissible (s : Station) : Event → Prop
  | .waiter (.delivered number) => ∃ w ∈ s.waiter.waiting, w.number = number ∧
      ∀ key ∈ w.waitFor, (s.store.read key).isSome = true
  | .waiter event => MayHappen s.waiter event
  | .write _ _ => True
  | .consensus round => s.consensusRound ≤ round

instance (s : Station) : ∀ event, Decidable (s.Admissible event)
  | .waiter (.synchronizer _ _) => inferInstanceAs (Decidable True)
  | .waiter (.delivered _) => inferInstanceAs (Decidable (∃ _ ∈ _, _ = _ ∧ ∀ _ ∈ _, _ = _))
  | .waiter (.cancelled _) => decidable_of_iff _ mayHappen_cancelled_iff.symm
  | .waiter (.timer _ _) => inferInstanceAs (Decidable True)
  | .write _ _ => inferInstanceAs (Decidable True)
  | .consensus _ => inferInstanceAs (Decidable (_ ≤ _))

/-- The state after a run. -/
def run (events : List Event) : Station := events.foldl (advance waiter) {}

/-- A waiter will return the header of an id: it cannot be cancelled, and as soon as the keys it waits
for are in the store it may end and then sends the header to the Core. -/
def Returns (s : Station) (id : Digest) : Prop :=
  ∃ w ∈ s.waiter.waiting, w.deliver.id = id ∧
    ¬ s.Admissible (.waiter (.cancelled w.number)) ∧
    ∀ store : Store, (∀ key ∈ w.waitFor, (store.read key).isSome = true) →
      Admissible { s with store := store } (.waiter (.delivered w.number)) ∧
      (advance waiter { s with store := store } (.waiter (.delivered w.number))).waiter.txCore =
        s.waiter.txCore ++ [w.deliver]

variable {waiter} {s : Station} {event : Event} {id : Digest} {w : Waiter}

theorem mayHappen_of_admissible {event : HeaderWaiter.Event}
    (admissible : s.Admissible (.waiter event)) : MayHappen s.waiter event := by
  cases event with
  | delivered number => trivial
  | _ => exact admissible

/-- A waiter whose number is in the entry of its header returns it. -/
theorem returns_of_holding (attended : Attended s.waiter) (running : s.waiter.panicked = false)
    (holding : Holding s.waiter id w) : s.Returns waiter id := by
  refine ⟨w, holding.waiting, holding.deliver, fun may => may id w.deliver.round holding.pending,
    fun store present => ⟨⟨w, holding.waiting, rfl, present⟩, ?_⟩⟩
  have found : s.waiter.waiting.find? (fun other => decide (other.number = w.number)) = some w := by
    have present : ∃ v ∈ s.waiter.waiting, decide (v.number = w.number) = true :=
      ⟨w, holding.waiting, by simp⟩
    obtain ⟨v, isFirst⟩ := Option.isSome_iff_exists.mp (List.find?_isSome.mpr present)
    have same : v.number = w.number := by simpa using List.find?_some isFirst
    rw [isFirst, attended.eq_of_number (List.mem_of_find?_eq_some isFirst) holding.waiting same]
  simp only [advance, HeaderWaiter.advance, running, found, Bool.false_eq_true, if_false]
  rw [(waiter.cleanup_other _ s.consensusRound).2.2.1]
  rfl

/-! ## Runs -/

theorem attended_advance (attended : Attended s.waiter) (admissible : s.Admissible event) :
    Attended (s.advance waiter event).waiter := by
  cases event with
  | waiter event => exact attended.advance (mayHappen_of_admissible admissible) _
  | _ => exact attended

theorem attended_run {events : List Event}
    (admissible : Throughout (advance waiter) Admissible {} events) :
    Attended (run waiter events).waiter := by
  refine admissible.invariant (fun s => Attended s.waiter) ⟨.nil, fun w member => ?_, ?_⟩
    fun s event => attended_advance
  · cases member
  · intro id round number found
    cases found

theorem run_append (events more : List Event) :
    run waiter (events ++ more) = more.foldl (advance waiter) (run waiter events) :=
  List.foldl_append

/-- A task that has stopped does not go on. -/
theorem running_of_advance (running : (s.advance waiter event).waiter.panicked = false) :
    s.waiter.panicked = false := by
  cases event with
  | waiter event =>
      by_contra stopped
      rw [Bool.not_eq_false] at stopped
      simp [advance, HeaderWaiter.advance, stopped] at running
  | _ => exact running

/-- Since a point of the run, the cleanup has cancelled the waiter of a header that it collects. -/
def CancelledSince (waiter : HeaderWaiter) (before since : List Event) (id : Digest) : Prop :=
  ∃ front event back, since = front ++ .waiter event :: back ∧
    Cancels waiter (run waiter (before ++ front)).waiter
      (run waiter (before ++ front)).consensusRound event id

/-- Since a point of the run, a header was returned to the Core. -/
def ReturnedSince (waiter : HeaderWaiter) (before since : List Event) (id : Digest) : Prop :=
  ∃ more, (run waiter (before ++ since)).waiter.txCore = (run waiter before).waiter.txCore ++ more ∧
    ∃ h ∈ more, h.id = id

variable (waiter) in
/-- The headers returned stay returned. -/
theorem txCore_advance (s : Station) (event : Event) :
    ∃ more, (s.advance waiter event).waiter.txCore = s.waiter.txCore ++ more := by
  cases event with
  | waiter event =>
      simp only [advance]
      rw [waiter.advance_eq]
      cases handled : waiter.handle s.waiter event with
      | none => exact ⟨[], (List.append_nil _).symm⟩
      | some t =>
          obtain ⟨more, txCore⟩ := txCore_handle handled
          refine ⟨more, ?_⟩
          dsimp only
          split_ifs
          · exact txCore
          · rw [(waiter.cleanup_other t s.consensusRound).2.2.1, txCore]
  | _ => exact ⟨[], (List.append_nil _).symm⟩

variable (waiter) in
theorem txCore_run (before since : List Event) :
    ∃ more, (run waiter (before ++ since)).waiter.txCore =
      (run waiter before).waiter.txCore ++ more := by
  induction since using List.reverseRecOn with
  | nil => exact ⟨[], by simp⟩
  | append_singleton since event ih =>
      obtain ⟨more, txCore⟩ := ih
      obtain ⟨last, advanced⟩ := txCore_advance waiter (run waiter (before ++ since)) event
      refine ⟨more ++ last, ?_⟩
      rw [← List.append_assoc, run_append, List.foldl_cons, List.foldl_nil, advanced, txCore,
        List.append_assoc]

/-- Where a header is after its command: it waits, or was returned, or was collected. -/
def Remembered (waiter : HeaderWaiter) (before since : List Event) (id : Digest) : Prop :=
  (∃ w, Holding (run waiter (before ++ since)).waiter id w) ∨
    ReturnedSince waiter before since id ∨ CancelledSince waiter before since id

theorem Remembered.append_singleton {before since : List Event}
    (remembered : Remembered waiter before since id)
    (attended : Attended (run waiter (before ++ since)).waiter)
    (admissible : (run waiter (before ++ since)).Admissible event) :
    Remembered waiter before (since ++ [event]) id := by
  have next : run waiter (before ++ (since ++ [event])) =
      advance waiter (run waiter (before ++ since)) event := by
    rw [← List.append_assoc, run_append]
    rfl
  rcases remembered with ⟨w, holding⟩ | ⟨more, txCore, returned⟩ | ⟨front, e, back, parts, cancels⟩
  · cases event with
    | waiter e =>
        rcases holding.advance attended (mayHappen_of_admissible admissible)
          (run waiter (before ++ since)).consensusRound with stays | ⟨h, sent, same⟩ | cancels
        · exact .inl ⟨w, next.symm ▸ stays⟩
        · obtain ⟨earlier, txCore⟩ := txCore_run waiter before since
          refine .inr (.inl ⟨earlier ++ [h], ?_, h, by simp, same⟩)
          rw [next, ← List.append_assoc, ← txCore]
          exact sent
        · exact .inr (.inr ⟨since, e, [], rfl, cancels⟩)
    | _ => exact .inl ⟨w, next.symm ▸ holding⟩
  · obtain ⟨last, advanced⟩ := txCore_advance waiter (run waiter (before ++ since)) event
    obtain ⟨h, member, same⟩ := returned
    refine .inr (.inl ⟨more ++ last, ?_, h, List.mem_append_left _ member, same⟩)
    rw [next, advanced, txCore, List.append_assoc]
  · exact .inr (.inr ⟨front, e, back ++ [event], by rw [parts]; simp, cancels⟩)

/-- Throughout the run after its command a header is remembered. -/
theorem remembered_run {before : List Event} {message : WaiterMessage} {now : ℕ}
    {after : List Event}
    (admissible : Throughout (advance waiter) Admissible {}
      (before ++ .waiter (.synchronizer message now) :: after))
    (running : (run waiter
      (before ++ .waiter (.synchronizer message now) :: after)).waiter.panicked = false) :
    Remembered waiter before (.waiter (.synchronizer message now) :: after) message.deliver.id := by
  induction after using List.reverseRecOn with
  | nil =>
      have next : run waiter (before ++ [.waiter (.synchronizer message now)]) =
          advance waiter (run waiter before) (.waiter (.synchronizer message now)) := by
        rw [run_append]
        rfl
      rw [next] at running
      have attended := attended_run (Throughout.append_iff.mp admissible).1
      rcases attended.command (running_of_advance running) message now
        (run waiter before).consensusRound with ⟨w, holding⟩ | cancels
      · exact .inl ⟨w, next.symm ▸ holding⟩
      · refine .inr (.inr ⟨[], .synchronizer message now, [], rfl, ?_⟩)
        rwa [List.append_nil]
  | append_singleton after event ih =>
      have parts : before ++ .waiter (.synchronizer message now) :: (after ++ [event]) =
          (before ++ .waiter (.synchronizer message now) :: after) ++ [event] := by simp
      rw [parts] at admissible running
      obtain ⟨first, last⟩ := Throughout.append_iff.mp admissible
      rw [run_append] at running
      exact (ih first (running_of_advance running)).append_singleton (attended_run first) last.1

/-- **No suspended header is forgotten.** In every state of a run each header id that was received in a
command has a waiter that returns it once its keys are in the store, or was returned after the command,
or was cancelled when its round was at or below the consensus round less the depth. -/
theorem header_remembered (before : List Event) (message : WaiterMessage) (now : ℕ)
    (after : List Event)
    (admissible : Throughout (advance waiter) Admissible {}
      (before ++ .waiter (.synchronizer message now) :: after))
    (running : (run waiter
      (before ++ .waiter (.synchronizer message now) :: after)).waiter.panicked = false) :
    (run waiter (before ++ .waiter (.synchronizer message now) :: after)).Returns waiter
        message.deliver.id ∨
      ReturnedSince waiter before (.waiter (.synchronizer message now) :: after)
        message.deliver.id ∨
      CancelledSince waiter before (.waiter (.synchronizer message now) :: after)
        message.deliver.id := by
  rcases remembered_run admissible running with ⟨w, holding⟩ | since
  · exact .inl (returns_of_holding (attended_run admissible) running holding)
  · exact .inr since

/-! ## A waiter that returns its header after its entry is gone -/

/-- The HeaderWaiter of one of two authorities. -/
def ofTwo : HeaderWaiter where
  name := ⟨0⟩
  committee := Committee.evenCommittee
  gcDepth := 50
  syncRetryDelay := 5000
  syncRetryNodes := 3

/-- A header of the other authority. -/
def ofOther : Header where
  author := ⟨1⟩
  round := 1
  payload := ∅
  parents := ∅
  id := ⟨7⟩
  signature := default
  round_lt := Header.round_one_lt

/-- Two headers wait, the first of them for a parent. -/
def suspending : List Event :=
  [.waiter (.synchronizer (.syncParents [⟨9⟩] ofOther) 0),
    .waiter (.synchronizer (.syncParents [⟨9⟩] { ofOther with id := ⟨8⟩ }) 1)]

/-- Both entries are cleaned up. The waiter of the second ends so, while that of the first has its
parent in time and returns the header. Then the header is suspended again and collected at once, and a
newer one waits on. -/
def overtaking : List Event :=
  [.consensus 51, .waiter (.timer 10 [⟨1, 1⟩]), .waiter (.cancelled 1),
    .write (Digest.asRef ⟨9⟩) (.header ofOther), .waiter (.delivered 0),
    .waiter (.synchronizer (.syncParents [⟨9⟩, ⟨10⟩] ofOther) 11),
    .waiter (.synchronizer (.syncParents [⟨9⟩]
      { ofOther with id := ⟨11⟩, round := 2, round_lt := Header.round_two_lt }) 12)]

/-- The command asks for a batch of the first header, and is dropped. -/
theorem header_remembered_overtaking :
    (run ofTwo (suspending ++ .waiter (.synchronizer
        (.syncBatches (HashMap.insert ∅ ⟨5⟩ 0) ofOther) 2) :: overtaking)).Returns ofTwo ⟨7⟩ ∨
      ReturnedSince ofTwo suspending (.waiter (.synchronizer
        (.syncBatches (HashMap.insert ∅ ⟨5⟩ 0) ofOther) 2) :: overtaking) ⟨7⟩ ∨
      CancelledSince ofTwo suspending (.waiter (.synchronizer
        (.syncBatches (HashMap.insert ∅ ⟨5⟩ 0) ofOther) 2) :: overtaking) ⟨7⟩ :=
  header_remembered suspending (.syncBatches (HashMap.insert ∅ ⟨5⟩ 0) ofOther) 2 overtaking
    (by decide +kernel) (by decide +kernel)

end Station

end HeaderWaiter

end Tusk
