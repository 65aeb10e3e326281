import Tusk.Primary.CollectionWindows
import Tusk.Primary.SuspendedCertificates

/-!
# The requests for parents

The `HeaderWaiter` asks once for the certificates that a header lacks, and the timer repeats the
requests that are recorded. A request is shared by all headers that wait for the same certificate, and
it is recorded with the round of the header that asked first. A header that is returned takes no
request away that others need, because its parents are there by then (`get_parentRequests_handle`). But
the cleanup goes by the recorded round, so it may drop a request that a header of a later round still
waits for. In every run, each certificate that a pending header waits for stays under retry if and only
if no cleanup meets such a request (`awaited_requested_iff`), and a header that lists a parent of a
later header brings one about (`request_collected`).

The commands are those of the `Core`: what it suspends for batches has all its parents (`Core.Covered.advance`).
-/

set_option autoImplicit false

namespace Tusk

open Lib

/-! ## What the Core suspends -/

namespace Core

variable [Primitives]

/-- A header that waits for some keys has its other parents, and it waits for no genesis
certificate. -/
structure Covers (node : Core) (store : Store) (waitFor : List (List UInt8)) (h : Header) : Prop where
  parents : ∀ digest ∈ h.parents.toList, node.HasParent store digest ∨ digest.asRef ∈ waitFor
  awaited : ∀ digest : Digest, digest.asRef ∈ waitFor → ¬ node.IsGenesis digest

variable {node : Core} {store store' : Store} {h : Header}

theorem Covers.mono {waitFor : List (List UInt8)} (covers : node.Covers store waitFor h)
    (keys : ∀ key, (store.read key).isSome = true → (store'.read key).isSome = true) :
    node.Covers store' waitFor h :=
  ⟨fun digest member => (covers.parents digest member).imp_left
    fun present => present.imp_right (keys digest.asRef), covers.awaited⟩

/-- A missing parent is no genesis certificate. -/
theorem not_isGenesis_of_readParents {digests missing : List Digest} {parents : List Certificate}
    (read : node.readParents store digests = .ok (parents, missing)) {digest : Digest}
    (absent : digest ∈ missing) : ¬ node.IsGenesis digest := by
  induction digests generalizing parents missing with
  | nil =>
      cases read
      exact absurd absent List.not_mem_nil
  | cons first digests ih =>
      unfold readParents at read
      split at read
      · obtain ⟨⟨parents', missing'⟩, rest, same⟩ := bind_eq_ok_iff.mp read
        cases same
        exact ih rest absent
      · next none =>
          split at read
          · obtain ⟨c, -, read⟩ := bind_eq_ok_iff.mp read
            obtain ⟨⟨parents', missing'⟩, rest, same⟩ := bind_eq_ok_iff.mp read
            cases same
            exact ih rest absent
          · obtain ⟨⟨parents', missing'⟩, rest, same⟩ := bind_eq_ok_iff.mp read
            cases same
            rcases List.mem_cons.mp absent with rfl | later
            · intro isGenesis
              obtain ⟨entry, member, same⟩ := List.mem_map.mp isGenesis
              exact absurd (decide_eq_true same) (List.find?_eq_none.mp none entry member)
            · exact ih rest later

/-- What is read of the parents is what a header waits for. -/
theorem covers_of_readParents {parents : List Certificate} {missing : List Digest}
    (read : node.readParents store h.parents.toList = .ok (parents, missing)) :
    node.Covers store (missing.map Digest.asRef) h := by
  refine ⟨fun digest member => ?_, fun digest awaited => ?_⟩
  · rcases parent_of_readParents read member with isGenesis | ⟨c, found⟩ | absent
    · exact .inl (.inl isGenesis)
    · exact .inl (.inr (by rw [found]; rfl))
    · exact .inr (List.mem_map_of_mem absent)
  · obtain ⟨other, absent, same⟩ := List.mem_map.mp awaited
    exact Digest.asRef_injective same ▸ not_isGenesis_of_readParents read absent

omit [Primitives] in
/-- A header that lacks batches waits for no certificate. -/
theorem asRef_notMem_waitFor (missing : HashMap Digest WorkerId) (h : Header) (digest : Digest) :
    digest.asRef ∉ (WaiterMessage.syncBatches missing h).waitFor := by
  intro awaited
  obtain ⟨entry, -, same⟩ := List.mem_map.mp awaited
  exact Store.payloadKey_ne_asRef _ _ _ same

theorem covers_syncBatches {missing : HashMap Digest WorkerId} {parents : List Certificate}
    (read : node.readParents store h.parents.toList = .ok (parents, [])) :
    node.Covers store (WaiterMessage.syncBatches missing h).waitFor h := by
  refine ⟨fun digest member => ?_, fun digest awaited => ?_⟩
  · exact .inl (((covers_of_readParents read).parents digest member).resolve_right List.not_mem_nil)
  · exact absurd awaited (asRef_notMem_waitFor missing h digest)

/-- The headers sent to the HeaderWaiter are covered. -/
def Covered (node : Core) (s : State) : Prop :=
  ∀ message ∈ s.txHeaderWaiter, node.Covers s.store message.waitFor message.deliver

theorem Covered.mono {s t : State} (covered : node.Covered s)
    (same : t.txHeaderWaiter = s.txHeaderWaiter)
    (keys : ∀ key, (s.store.read key).isSome = true → (t.store.read key).isSome = true) :
    node.Covered t := by
  intro message member
  rw [same] at member
  exact (covered message member).mono keys

theorem Covered.acts {s t t' : State} {input : Input} (covered : node.Covered t)
    (acts : node.Acts s input t t') : node.Covered t' := by
  have keys : ∀ key, (t.store.read key).isSome = true → (t'.store.read key).isSome = true :=
    fun _ => acts.isSome_read
  cases acts with
  | inspect _ inspects =>
      cases inspects with
      | start => exact covered.mono rfl keys
      | syncParents read =>
          exact List.forall_mem_append.mpr
            ⟨covered, List.forall_mem_singleton.mpr (covers_of_readParents read)⟩
      | syncBatches _ _ read =>
          obtain ⟨parents, read⟩ := read
          exact List.forall_mem_append.mpr
            ⟨covered, List.forall_mem_singleton.mpr (covers_syncBatches read)⟩
  | _ => exact covered.mono rfl keys

theorem isSome_advance (s : State) (event : Event) {key : List UInt8}
    (present : (s.store.read key).isSome = true) :
    ((node.advance s event).store.read key).isSome = true := by
  cases event with
  | batch => exact Store.isSome_write present
  | consensus => exact present
  | core input =>
      refine advance_kept_moves (fun t => (t.store.read key).isSome = true) present ?_
        (fun t t' moves present => moves.isSome_read present) ?_
      · cases input <;> exact present
      · rintro t _ ⟨⟩ present
        exact present

/-- **The Core covers the headers that it suspends.** -/
theorem Covered.advance {s : State} (covered : node.Covered s) (event : Event) :
    node.Covered (node.advance s event) := by
  cases event with
  | batch => exact covered.mono rfl fun _ => Store.isSome_write
  | consensus => exact covered
  | core input =>
      refine advance_kept node.Covered covered ?_ (fun t t' acts covered => covered.acts acts) ?_
      · cases input <;> exact covered
      · rintro t _ ⟨⟩ covered
        exact covered

end Core

namespace HeaderWaiter

/-! ## What is requested -/

/-- The request that an event records for a certificate, unless there is one. -/
def Event.request : Event → Digest → Option (ℕ × ℕ)
  | .synchronizer message now, digest =>
      if digest.asRef ∈ message.waitFor then some (message.deliver.round, now) else none
  | _, _ => none

theorem get_foldl_requestParent (round now : ℕ) (missing : List Digest)
    (requests : HashMap Digest (ℕ × ℕ)) (asked : List Digest) (digest : Digest) :
    HashMap.get (missing.foldl (requestParent round now) (requests, asked)).1 digest =
      (HashMap.get requests digest).or (if digest ∈ missing then some (round, now) else none) := by
  induction missing generalizing requests asked with
  | nil => simp
  | cons first missing ih =>
      rw [List.foldl_cons, requestParent]
      cases found : HashMap.get requests first with
      | some entry =>
          rw [ih]
          by_cases same : digest = first
          · simp [same, found]
          · simp [same]
      | none =>
          rw [ih, HashMap.get_insert]
          by_cases same : digest = first
          · simp [same, found]
          · simp [same]

section Requests

variable {waiter : HeaderWaiter} {s t : State} {event : Event} {digest : Digest}

theorem get_parentRequests_synchronize (now : ℕ) (message : WaiterMessage) :
    HashMap.get (waiter.synchronize s now message).parentRequests digest =
      (HashMap.get s.parentRequests digest).or
        (Event.request (.synchronizer message now) digest) := by
  cases message with
  | syncBatches missing h =>
      rw [Event.request, if_neg (Core.asRef_notMem_waitFor missing h digest), Option.or_none]
      rfl
  | syncParents missing h =>
      have requests : (waiter.synchronize s now (.syncParents missing h)).parentRequests =
          (missing.foldl (requestParent h.round now) (s.parentRequests, [])).1 := by
        unfold synchronize syncParents
        dsimp only
        split
        · rfl
        · split <;> rfl
      have awaited : digest.asRef ∈ (WaiterMessage.syncParents missing h).waitFor ↔
          digest ∈ missing := List.mem_map_of_injective Digest.asRef_injective
      rw [requests, get_foldl_requestParent, Event.request]
      simp only [awaited]
      rfl

end Requests

/-! ## What is awaited -/

/-- At the cleanup after an event a header waits for a certificate: it was pending and is not returned,
or the event suspends it. -/
inductive Awaits (s : State) (event : Event) (digest : Digest) : Header → Prop where
  | pending {id : Digest} {w : Waiter} (holding : Holding s id w)
      (stays : ∀ v ∈ s.waiting, event = .delivered v.number → v.deliver.id ≠ id)
      (awaited : digest.asRef ∈ w.waitFor) : Awaits s event digest w.deliver
  | suspended {message : WaiterMessage} {now : ℕ} (command : event = .synchronizer message now)
      (awaited : digest.asRef ∈ message.waitFor) : Awaits s event digest message.deliver

section Awaits

variable {waiter : HeaderWaiter} {s t : State} {event : Event} {digest id : Digest} {w : Waiter}

/-- A header that is pending after an event was pending and is not returned, or the event suspends
it. -/
theorem Holding.of_handle (holding : Holding t id w) (attended : Attended s)
    (handled : waiter.handle s event = some t) :
    (Holding s id w ∧ ∀ v ∈ s.waiting, event = .delivered v.number → v.deliver.id ≠ id) ∨
      ∃ message now, event = .synchronizer message now ∧
        w = ⟨s.waiters, message.waitFor, message.deliver⟩ := by
  obtain ⟨inside, deliver, found⟩ := holding
  cases event with
  | synchronizer message now =>
      obtain ⟨-, rfl⟩ := handle_synchronizer handled
      obtain ⟨pending, waiting, -, -⟩ := waiter.synchronize_spec s now message
      rw [waiting] at inside
      rcases List.mem_append.mp inside with old | new
      · rw [pending, State.await, HashMap.get_insert] at found
        split_ifs at found
        · -- the entry has the number of the new waiter
          have fresh := attended.numbers w old
          simp only [Option.some.injEq, Prod.mk.injEq] at found
          exact absurd found.2 (Nat.ne_of_gt fresh)
        · exact .inl ⟨⟨old, deliver, found⟩, fun _ _ impossible => by cases impossible⟩
      · exact .inr ⟨message, now, rfl, List.mem_singleton.mp new⟩
  | delivered number =>
      obtain ⟨ended, member, rfl, pending, waiting, -, -⟩ := handle_delivered handled
      rw [waiting] at inside
      rw [pending, HashMap.get_remove] at found
      split_ifs at found with other
      refine .inl ⟨⟨List.mem_of_mem_filter inside, deliver, found⟩, fun v member' same => ?_⟩
      simp only [Event.delivered.injEq] at same
      rw [attended.eq_of_number member' member same.symm]
      exact Ne.symm other
  | cancelled number =>
      obtain rfl := handle_cancelled handled
      exact .inl ⟨⟨List.mem_of_mem_filter inside, deliver, found⟩,
        fun _ _ impossible => by cases impossible⟩
  | timer now shuffled =>
      obtain rfl := handle_timer handled
      exact .inl ⟨⟨inside, deliver, found⟩, fun _ _ impossible => by cases impossible⟩

/-- A waiter was there before an event, or the event is its command. -/
theorem mem_waiting_handle (handled : waiter.handle s event = some t) (inside : w ∈ t.waiting) :
    w ∈ s.waiting ∨ ∃ message now, event = .synchronizer message now ∧
      w = ⟨s.waiters, message.waitFor, message.deliver⟩ := by
  cases event with
  | synchronizer message now =>
      obtain ⟨-, rfl⟩ := handle_synchronizer handled
      rw [(waiter.synchronize_spec s now message).2.1] at inside
      exact (List.mem_append.mp inside).imp_right
        fun new => ⟨message, now, rfl, List.mem_singleton.mp new⟩
  | delivered number =>
      obtain ⟨ended, -, -, -, waiting, -, -⟩ := handle_delivered handled
      rw [waiting] at inside
      exact .inl (List.mem_of_mem_filter inside)
  | cancelled number =>
      obtain rfl := handle_cancelled handled
      exact .inl (List.mem_of_mem_filter inside)
  | timer now shuffled =>
      obtain rfl := handle_timer handled
      exact .inl inside

theorem mem_waiting_advance {consensusRound : ℕ}
    (inside : w ∈ (waiter.advance s consensusRound event).waiting) :
    w ∈ s.waiting ∨ ∃ message now, event = .synchronizer message now ∧
      w = ⟨s.waiters, message.waitFor, message.deliver⟩ := by
  rw [waiter.advance_eq] at inside
  cases handled : waiter.handle s event with
  | none =>
      rw [handled] at inside
      exact .inl inside
  | some t =>
      rw [handled] at inside
      dsimp only at inside
      split_ifs at inside
      · exact mem_waiting_handle handled inside
      · rw [(waiter.cleanup_other t consensusRound).1] at inside
        exact mem_waiting_handle handled inside

/-- The headers that wait at the cleanup are pending with waiters for the certificate. -/
theorem awaits_iff (attended : Attended s) (may : MayHappen s event)
    (handled : waiter.handle s event = some t) {h : Header} :
    Awaits s event digest h ↔
      ∃ id w, Holding t id w ∧ w.deliver = h ∧ digest.asRef ∈ w.waitFor := by
  constructor
  · intro awaits
    cases awaits with
    | pending holding stays awaited =>
        exact ⟨_, _, holding.handle_of_stays attended may handled stays, rfl, awaited⟩
    | @suspended message now command awaited =>
        subst command
        obtain ⟨-, rfl⟩ := handle_synchronizer handled
        exact ⟨_, _, holding_synchronize s now message, rfl, awaited⟩
  · rintro ⟨id, w, holding, rfl, awaited⟩
    rcases holding.of_handle attended handled with ⟨before, stays⟩ | ⟨message, now, rfl, rfl⟩
    · exact .pending before stays awaited
    · exact .suspended rfl awaited

end Awaits

/-! ## What the completions and the cleanup leave -/

section Steps

variable [Primitives] {node : Core} {waiter : HeaderWaiter} {store : Store} {s t : State}
  {event : Event} {digest : Digest}

/-- Each certificate that a pending header waits for and that is not in the store has a request. -/
def Requested (store : Store) (s : State) : Prop :=
  ∀ id w (digest : Digest), Holding s id w → digest.asRef ∈ w.waitFor →
    store.read digest.asRef = none → HashMap.get s.parentRequests digest ≠ none

/-- A waiter ends when it has all its keys. -/
def MayEnd (store : Store) (s : State) (event : Event) : Prop :=
  ∀ w ∈ s.waiting, event = .delivered w.number →
    ∀ key ∈ w.waitFor, (store.read key).isSome = true

/-- **A header that is returned takes no request away that is needed.** The requests for certificates
that are not there and not genesis certificates stay, and a command adds those for what it lacks. -/
theorem get_parentRequests_handle
    (covers : ∀ w ∈ s.waiting, node.Covers store w.waitFor w.deliver)
    (mayEnd : MayEnd store s event) (handled : waiter.handle s event = some t)
    (absent : store.read digest.asRef = none) (other : ¬ node.IsGenesis digest) :
    HashMap.get t.parentRequests digest =
      (HashMap.get s.parentRequests digest).or (event.request digest) := by
  cases event with
  | synchronizer message now =>
      obtain ⟨-, rfl⟩ := handle_synchronizer handled
      exact get_parentRequests_synchronize now message
  | delivered number =>
      unfold HeaderWaiter.handle at handled
      split_ifs at handled
      obtain ⟨ended, found, rfl⟩ := Option.map_eq_some_iff.mp handled
      have member := List.mem_of_find?_eq_some found
      have number : ended.number = number := by simpa using List.find?_some found
      have missing : digest ∉ ended.deliver.parents.toList := by
        intro inside
        rcases (covers ended member).parents digest inside with (isGenesis | present) | awaited
        · exact other isGenesis
        · rw [absent] at present
          cases present
        · have present := mayEnd ended member (by rw [number]) _ awaited
          rw [absent] at present
          cases present
      refine ((HashMap.get_foldl_remove _ _ _).trans (if_neg missing)).trans ?_
      exact (Option.or_none).symm
  | cancelled number =>
      obtain rfl := handle_cancelled handled
      exact (Option.or_none).symm
  | timer now shuffled =>
      obtain rfl := handle_timer handled
      exact (Option.or_none).symm

/-- The headers that wait and the one that an event suspends are covered. -/
structure Covered (node : Core) (store : Store) (s : State) (event : Event) : Prop where
  waiting : ∀ w ∈ s.waiting, node.Covers store w.waitFor w.deliver
  command : ∀ message now, event = .synchronizer message now →
    node.Covers store message.waitFor message.deliver

theorem Covered.of_holding {id : Digest} {w : Waiter} (covered : Covered node store s event)
    (attended : Attended s) (handled : waiter.handle s event = some t) (holding : Holding t id w) :
    node.Covers store w.waitFor w.deliver := by
  rcases holding.of_handle attended handled with ⟨before, -⟩ | ⟨message, now, same, rfl⟩
  · exact covered.waiting w before.waiting
  · exact covered.command message now same

/-- Before the cleanup every certificate that is needed has a request. -/
theorem Requested.handle (requested : Requested store s) (attended : Attended s)
    (covered : Covered node store s event) (mayEnd : MayEnd store s event)
    (handled : waiter.handle s event = some t) : Requested store t := by
  intro id w digest holding awaited absent
  have other := (covered.of_holding attended handled holding).awaited digest awaited
  rw [get_parentRequests_handle covered.waiting mayEnd handled absent other]
  rcases holding.of_handle attended handled with ⟨before, -⟩ | ⟨message, now, rfl, rfl⟩
  · have found := requested id w digest before awaited absent
    simp [Option.or_eq_none_iff, found]
  · simp [Event.request, show digest.asRef ∈ message.waitFor from awaited]

omit [Primitives] in
theorem holding_cleanup_iff {consensusRound : ℕ} {id : Digest} {w : Waiter} :
    Holding (waiter.cleanup s consensusRound) id w ↔
      Holding s id w ∧ ¬ waiter.Collects consensusRound w.deliver.round := by
  obtain ⟨waiting, -, -, -⟩ := waiter.cleanup_other s consensusRound
  constructor
  · rintro ⟨inside, deliver, found⟩
    obtain ⟨found, kept⟩ := waiter.get_pending_cleanup.mp found
    exact ⟨⟨waiting ▸ inside, deliver, found⟩, kept⟩
  · rintro ⟨⟨inside, deliver, found⟩, kept⟩
    exact ⟨waiting.symm ▸ inside, deliver, waiter.get_pending_cleanup.mpr ⟨found, kept⟩⟩

/-- **The cleanup leaves every request that is needed if and only if no request that it drops is for a
certificate that a header it keeps waits for.** -/
theorem Requested.cleanup_iff (requested : Requested store s) (attended : Attended s)
    (may : MayHappen s event) (covered : Covered node store s event) (mayEnd : MayEnd store s event)
    (handled : waiter.handle s event = some t) (consensusRound : ℕ) :
    Requested store (waiter.cleanup t consensusRound) ↔
      ∀ (digest : Digest) entry, store.read digest.asRef = none →
        HashMap.get s.parentRequests digest = some entry →
        waiter.Collects consensusRound entry.1 →
        ∀ h, Awaits s event digest h → waiter.Collects consensusRound h.round := by
  constructor
  · intro after digest entry absent found outdated h awaits
    by_contra kept
    obtain ⟨id, w, holding, rfl, awaited⟩ := (awaits_iff attended may handled).mp awaits
    have other := (covered.of_holding attended handled holding).awaited digest awaited
    have stays := after id w digest (holding_cleanup_iff.mpr ⟨holding, kept⟩) awaited absent
    obtain ⟨entry', found'⟩ := Option.ne_none_iff_exists'.mp stays
    obtain ⟨found', recent⟩ := waiter.get_parentRequests_cleanup.mp found'
    rw [get_parentRequests_handle covered.waiting mayEnd handled absent other, found] at found'
    cases found'
    exact recent outdated
  · intro spares id w digest holding awaited absent
    obtain ⟨holding, kept⟩ := holding_cleanup_iff.mp holding
    have other := (covered.of_holding attended handled holding).awaited digest awaited
    have request := get_parentRequests_handle covered.waiting mayEnd handled absent other
    suffices ∃ entry, HashMap.get t.parentRequests digest = some entry ∧
        ¬ waiter.Collects consensusRound entry.1 by
      obtain ⟨entry, found, recent⟩ := this
      rw [waiter.get_parentRequests_cleanup.mpr ⟨found, recent⟩]
      exact Option.some_ne_none _
    have awaits := (awaits_iff attended may handled).mpr ⟨id, w, holding, rfl, awaited⟩
    cases found : HashMap.get s.parentRequests digest with
    | some entry =>
        rw [found] at request
        exact ⟨entry, request, fun outdated => kept (spares digest entry absent found outdated _ awaits)⟩
    | none =>
        -- without an earlier request the event suspends the header and asks for it
        rcases holding.of_handle attended handled with ⟨before, -⟩ | ⟨message, now, rfl, rfl⟩
        · exact absurd found (requested id w digest before awaited absent)
        · refine ⟨(message.deliver.round, now), ?_, kept⟩
          rw [request, found, Option.none_or, Event.request, if_pos awaited]

end Steps

end HeaderWaiter

namespace Primary

open HeaderWaiter (Holding Attended MayHappen MayEnd Requested Awaits)

/-! ## The requests of a primary -/

section Model

variable [Primitives] (primary : Primary)

/-- The timer asks other primaries for a certificate, as soon as its request is late. -/
def Retries (s : State) (digest : Digest) : Prop :=
  ∃ entry, HashMap.get s.waiter.parentRequests digest = some entry ∧
    ∀ now shuffled, entry.2 + primary.syncRetryDelay < now → ∃ digests, digest ∈ digests ∧
      (primary.headerWaiter.retry s.waiter now shuffled).toPrimaries = s.waiter.toPrimaries ++
        [(shuffled.take primary.syncRetryNodes, .certificatesRequest digests primary.name)]

/-- **Every awaited parent is under retry.** Each pending header has a waiter, and the timer asks for
every certificate that the waiter waits for and that is not in the store. -/
def Retried (s : State) : Prop :=
  ∀ id round number, HashMap.get s.waiter.pending id = some (round, number) →
    ∃ w, Holding s.waiter id w ∧ w.number = number ∧
      ∀ digest : Digest, digest.asRef ∈ w.waitFor → s.core.store.read digest.asRef = none →
        primary.Retries s digest

/-- A waiter returns its header when its keys are in the store, and is cancelled when its entry is
gone. -/
def Admissible (s : State) : Event → Prop
  | .delivered number => ∃ w ∈ s.waiter.waiting, w.number = number ∧
      ∀ key ∈ w.waitFor, (s.core.store.read key).isSome = true
  | .cancelled number => MayHappen s.waiter (.cancelled number)
  | _ => True

/-- The HeaderWaiter cleans up after an event: it does not pass the event over, and the event does not
stop it. -/
def Cleans (s : State) (e : HeaderWaiter.Event) : Prop :=
  ∃ t, primary.headerWaiter.handle s.waiter e = some t ∧ t.panicked = false

/-- A cleanup spares the requests that are needed: where a request for a certificate that is not in the
store was made for a header that the cleanup collects, it collects all headers that wait for the
certificate. -/
def Spares (s : State) (event : Event) : Prop :=
  ∀ e, s.waiterEvent event = some e → primary.Cleans s e →
    ∀ (digest : Digest) entry, s.core.store.read digest.asRef = none →
      HashMap.get s.waiter.parentRequests digest = some entry →
      primary.headerWaiter.Collects s.core.consensusRound entry.1 →
      ∀ h, Awaits s.waiter e digest h → primary.headerWaiter.Collects s.core.consensusRound h.round

section Steps

variable {primary} {s : State} {event : Event} {e : HeaderWaiter.Event}

omit [Primitives] in
/-- A request that is recorded is repeated. -/
theorem retries_of_ne_none {digest : Digest}
    (found : HashMap.get s.waiter.parentRequests digest ≠ none) : primary.Retries s digest := by
  obtain ⟨entry, found⟩ := Option.ne_none_iff_exists'.mp found
  refine ⟨entry, found, fun now shuffled late => ⟨_, ?_, rfl⟩⟩
  exact List.mem_map.mpr ⟨(digest, entry),
    List.mem_filter.mpr ⟨HashMap.mem_items.mpr found, decide_eq_true late⟩, rfl⟩

omit [Primitives] in
theorem retried_iff (attended : Attended s.waiter) :
    primary.Retried s ↔ Requested s.core.store s.waiter := by
  constructor
  · intro retried id w digest holding awaited absent
    obtain ⟨v, held, same, retries⟩ := retried id _ _ holding.pending
    obtain rfl := attended.eq_of_number held.waiting holding.waiting same
    obtain ⟨entry, found, -⟩ := retries digest awaited absent
    rw [found]
    exact Option.some_ne_none _
  · intro requested id round number found
    obtain ⟨w, holding, same⟩ := attended.holding id round number found
    exact ⟨w, holding, same, fun digest awaited absent =>
      retries_of_ne_none (requested id w digest holding awaited absent)⟩

omit [Primitives] in
theorem mayHappen_of_admissible (admissible : Admissible s event)
    (arrives : s.waiterEvent event = some e) : MayHappen s.waiter e := by
  cases event with
  | core => cases arrives
  | suspend now =>
      obtain ⟨message, -, rfl⟩ := Option.map_eq_some_iff.mp arrives
      trivial
  | cancelled number =>
      cases arrives
      exact admissible
  | _ =>
      cases arrives
      trivial

omit [Primitives] in
theorem mayEnd_of_admissible (attended : Attended s.waiter) (admissible : Admissible s event)
    (arrives : s.waiterEvent event = some e) : MayEnd s.core.store s.waiter e := by
  rintro w member rfl
  cases event with
  | core => cases arrives
  | suspend now =>
      obtain ⟨message, -, impossible⟩ := Option.map_eq_some_iff.mp arrives
      cases impossible
  | delivered number =>
      cases arrives
      obtain ⟨v, member', same, present⟩ := admissible
      obtain rfl := attended.eq_of_number member' member same
      exact present
  | _ => cases arrives

omit [Primitives] in
theorem mem_of_command {message : WaiterMessage} {now : ℕ}
    (arrives : s.waiterEvent event = some (.synchronizer message now)) :
    message ∈ s.core.txHeaderWaiter := by
  cases event with
  | suspend now =>
      obtain ⟨other, found, same⟩ := Option.map_eq_some_iff.mp arrives
      cases same
      exact List.mem_of_getElem? found
  | _ => cases arrives

/-- An event of the HeaderWaiter leaves the Core alone. -/
theorem core_advance_of_waiterEvent (arrives : s.waiterEvent event = some e) :
    (primary.advance s event).core = s.core := by
  rw [core_advance]
  cases event with
  | core => cases arrives
  | _ => rfl

variable (primary) in
/-- The keys of the store stay. -/
theorem isSome_advance (s : State) (event : Event) {key : List UInt8}
    (present : (s.core.store.read key).isSome = true) :
    ((primary.advance s event).core.store.read key).isSome = true := by
  rw [core_advance]
  cases event with
  | core event => exact Core.isSome_advance s.core event present
  | _ => exact present

/-! ## Runs -/

variable (primary) in
/-- What is known of the HeaderWaiter: its pending headers have waiters, and the headers that wait or
will be suspended have what they do not wait for. -/
structure Attentive (s : State) : Prop where
  attended : Attended s.waiter
  waiting : ∀ w ∈ s.waiter.waiting, primary.toCore.Covers s.core.store w.waitFor w.deliver
  commands : primary.toCore.Covered s.core

theorem Attentive.covered (attentive : primary.Attentive s)
    (arrives : s.waiterEvent event = some e) :
    HeaderWaiter.Covered primary.toCore s.core.store s.waiter e := by
  refine ⟨attentive.waiting, ?_⟩
  rintro message now rfl
  exact attentive.commands message (mem_of_command arrives)

theorem Attentive.advance (attentive : primary.Attentive s) (admissible : Admissible s event) :
    primary.Attentive (primary.advance s event) := by
  have commands : primary.toCore.Covered (primary.advance s event).core := by
    rw [core_advance]
    cases event with
    | core event => exact attentive.commands.advance event
    | _ => exact attentive.commands
  have grown : ∀ waitFor h, primary.toCore.Covers s.core.store waitFor h →
      primary.toCore.Covers (primary.advance s event).core.store waitFor h :=
    fun _ _ covers => covers.mono fun _ => primary.isSome_advance s event
  cases arrives : s.waiterEvent event with
  | none =>
      have same : (primary.advance s event).waiter = s.waiter := by rw [waiter_advance, arrives]
      refine ⟨same ▸ attentive.attended, fun w inside => ?_, commands⟩
      rw [same] at inside
      exact grown _ _ (attentive.waiting w inside)
  | some e =>
      have stepped := primary.waiter_advance_some arrives
      refine ⟨?_, fun w inside => grown _ _ ?_, commands⟩
      · rw [stepped]
        exact attentive.attended.advance (mayHappen_of_admissible admissible arrives) _
      · rw [stepped] at inside
        rcases HeaderWaiter.mem_waiting_advance inside with old | ⟨message, now, rfl, rfl⟩
        · exact attentive.waiting w old
        · exact attentive.commands message (mem_of_command arrives)

/-- **A step keeps the certificates that are waited for under retry if and only if its cleanup spares
their requests.** -/
theorem Attentive.requested_advance_iff (attentive : primary.Attentive s)
    (requested : Requested s.core.store s.waiter) (admissible : Admissible s event) :
    Requested (primary.advance s event).core.store (primary.advance s event).waiter ↔
      primary.Spares s event := by
  cases arrives : s.waiterEvent event with
  | none =>
      refine iff_of_true ?_ fun e other => ?_
      · rw [waiter_advance, arrives]
        intro id w digest holding awaited absent
        refine requested id w digest holding awaited (Option.not_isSome_iff_eq_none.mp ?_)
        intro present
        have stays := primary.isSome_advance s event present
        rw [absent] at stays
        cases stays
      · rw [arrives] at other
        cases other
  | some e =>
      have attended := attentive.attended
      have may := mayHappen_of_admissible admissible arrives
      have mayEnd := mayEnd_of_admissible attended admissible arrives
      have covered := attentive.covered arrives
      have spares_iff : primary.Spares s event ↔ (primary.Cleans s e →
          ∀ (digest : Digest) entry, s.core.store.read digest.asRef = none →
            HashMap.get s.waiter.parentRequests digest = some entry →
            primary.headerWaiter.Collects s.core.consensusRound entry.1 →
            ∀ h, Awaits s.waiter e digest h →
              primary.headerWaiter.Collects s.core.consensusRound h.round) := by
        simp only [Spares, arrives, Option.some.injEq, forall_eq']
      rw [core_advance_of_waiterEvent arrives, waiter_advance_some arrives,
        HeaderWaiter.advance_eq, spares_iff]
      cases handled : primary.headerWaiter.handle s.waiter e with
      | none =>
          refine iff_of_true requested ?_
          rintro ⟨t, handled', -⟩
          rw [handled] at handled'
          cases handled'
      | some t =>
          dsimp only
          split_ifs with stopped
          · refine iff_of_true (requested.handle attended covered mayEnd handled) ?_
            rintro ⟨t', handled', running⟩
            rw [handled] at handled'
            cases handled'
            rw [stopped] at running
            cases running
          · rw [requested.cleanup_iff attended may covered mayEnd handled]
            have cleans : primary.Cleans s e :=
              ⟨t, handled, Bool.eq_false_of_not_eq_true stopped⟩
            exact ⟨fun spares _ => spares, fun spares => spares cleans⟩

variable (primary) in
theorem attentive_run {events : List Event}
    (admissible : Throughout primary.advance Admissible {} events) :
    primary.Attentive (primary.run events) := by
  refine admissible.invariant primary.Attentive ⟨⟨.nil, fun w member => ?_, ?_⟩, ?_, ?_⟩
    fun s event => Attentive.advance
  · cases member
  · intro id round number found
    cases found
  · exact fun w member => absurd member List.not_mem_nil
  · exact fun message member => absurd member List.not_mem_nil

end Steps

/-- **When every awaited parent stays under retry.** In every run, in every state that it reaches, each
certificate that a pending header waits for and that is not in the store has a request that the timer
repeats, if and only if the cleanups of the run spare the requests that are needed. -/
theorem awaited_requested_iff (events : List Event)
    (admissible : Throughout primary.advance Admissible {} events) :
    (∀ front, front <+: events → primary.Retried (primary.run front)) ↔
      Throughout primary.advance primary.Spares {} events := by
  induction events using List.reverseRecOn with
  | nil =>
      refine iff_of_true (fun front isPrefix => ?_) trivial
      rw [List.prefix_nil.mp isPrefix]
      intro id round number found
      cases found
  | append_singleton events event ih =>
      obtain ⟨before, last⟩ := Throughout.append_iff.mp admissible
      have attentive := primary.attentive_run before
      have step : primary.Retried (primary.run events) →
          (primary.Retried (primary.run (events ++ [event])) ↔
            primary.Spares (primary.run events) event) := by
        intro retried
        have requested := (retried_iff attentive.attended).mp retried
        rw [retried_iff (primary.attentive_run admissible).attended, run_snoc]
        exact attentive.requested_advance_iff requested last.1
      rw [Throughout.append_iff, ← ih before]
      constructor
      · intro all
        have earlier := fun front (isPrefix : front <+: events) =>
          all front (isPrefix.trans (List.prefix_append events [event]))
        exact ⟨earlier, (step (earlier events List.prefix_rfl)).mp (all _ List.prefix_rfl), trivial⟩
      · rintro ⟨earlier, spares, -⟩ front isPrefix
        rcases List.prefix_concat_iff.mp isPrefix with rfl | isPrefix
        · exact (step (earlier events List.prefix_rfl)).mpr spares
        · exact earlier front isPrefix

end Model

/-! ## Two headers with the same parent -/

section FourAuthorities

local instance requestSign : Primitives := executable fun _ _ => true

/-- A header of the third authority, without the same parent. -/
def alsoWithout : Header :=
  .new ⟨3⟩ 3 ∅ (.ofList [⟨9⟩]) (nameSignature ⟨3⟩) Header.round_three_lt

/-- The header of the lower round is suspended first. Then the consensus passes its round, and the
timer expires. -/
def shared : List Event :=
  [.core (.core (.primaries (.header withoutParent))), .suspend 0,
    .core (.core (.primaries (.header alsoWithout))), .suspend 0,
    .core (.consensus 52), .timer 1000 []]

theorem admissible_shared : Throughout firstPrimary.advance Admissible {} shared :=
  ⟨trivial, trivial, trivial, trivial, trivial, trivial, trivial⟩

theorem awaited_requested_iff_shared :
    (∀ front, front <+: shared → firstPrimary.Retried (firstPrimary.run front)) ↔
      Throughout firstPrimary.advance firstPrimary.Spares {} shared :=
  firstPrimary.awaited_requested_iff shared admissible_shared

/-- **The request of a pending header is dropped.** The header of round three waits for a certificate
that is not in the store, and no request for it is left. -/
theorem request_collected : ¬ ∀ (primary : Primary) (events : List Event),
    Throughout primary.toCore.advance primary.toCore.Admissible {}
      (events.filterMap Event.ofCore) →
    Throughout primary.advance Admissible {} events →
    primary.Retried (primary.run events) := by
  intro retried
  obtain ⟨w, holding, same, retries⟩ := retried firstPrimary shared (by decide +kernel)
    admissible_shared alsoWithout.id 3 1 (by decide +kernel)
  have waits : ∀ w ∈ (firstPrimary.run shared).waiter.waiting, w.number = 1 →
      Digest.asRef ⟨9⟩ ∈ w.waitFor := by decide +kernel
  obtain ⟨entry, found, -⟩ := retries ⟨9⟩ (waits w holding.waiting same) (by decide +kernel)
  have none : HashMap.get (firstPrimary.run shared).waiter.parentRequests ⟨9⟩ = none := by
    decide +kernel
  rw [none] at found
  cases found

end FourAuthorities

end Primary

end Tusk
