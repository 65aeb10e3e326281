import Tusk.Primary.CausalHandover
import Tusk.Primary.HeaderEncoding
import Tusk.Primary.JustifiedVotes
import Tusk.Primary.OwnRounds
import Tusk.Primary.PrimaryNode

/-!
# The own headers of a primary

The Core receives the headers of the Proposer in the order in which they were made (`attuned_run`). Their
rounds increase, because the Proposer enters a later round with every parents it takes, and their batches were
reported by workers of this authority. What another primary sends as a header of this one is one of these.

With this, the Core finds what the results on it assume of the other tasks (`core_environment`).
-/

set_option autoImplicit false

namespace Tusk

open Lib

namespace PrimaryNode

section Model

variable [Primitives] {node : PrimaryNode} {s : State} {event : Event}

/-! ## The own headers -/

theorem coreRun_append (events more : List Event) :
    node.coreRun (events ++ more) =
      node.coreRun events ++ shown node.advance coreEvents (node.run events) more :=
  shown_append node.start events more

/-- What the Core has sent and stored stays. -/
theorem extends_run (events more : List Event) :
    Core.Extends (node.run events).core (node.run (events ++ more)).core := by
  rw [node.core_run (events ++ more), coreRun_append, Core.run, List.foldl_append, ← Core.run,
    ← node.core_run]
  exact Core.extends_foldl _ _

/-- The parents that the Proposer receives were sent by the Core. -/
theorem sent_of_proposerRun {events : List Event} {timerExpired : Bool} {digests : List Digest}
    {round : ℕ} (receives : (timerExpired, .parents digests round) ∈ node.proposerRun events) :
    (digests, round) ∈ (node.run events).core.txProposer := by
  obtain ⟨before, event, after, rfl, shows⟩ := mem_shown.mp receives
  refine (extends_run before (event :: after)).proposer.subset ?_
  change (timerExpired, .parents digests round) ∈ proposerEvents (node.run before) event at shows
  cases event with
  | primary => cases shows
  | worker => cases shows
  | step step =>
      unfold proposerEvents at shows
      dsimp only at shows
      cases takes : (node.run before).input step with
      | none => simp [takes] at shows
      | some input =>
          cases brings_of_input takes with
          | parents _ next =>
              simp only [takes, List.mem_singleton, Prod.mk.injEq, Proposer.Event.parents.injEq]
                at shows
              obtain ⟨-, rfl, rfl⟩ := shows
              exact mem_of_next next
          | _ => simp [takes] at shows

/-- **The Proposer makes headers of increasing rounds**, with parents that the Core has handed over. -/
theorem proposing_run {events : List Event}
    (admissible : Throughout node.advance Admissible node.start events)
    (noOverflow : ∀ message ∈ (node.run events).core.txProposer, message.2 + 1 < 2 ^ 64) :
    node.proposer.Proposing (node.run events).core.txConsensus (node.run events).proposer := by
  have proposable := Core.proposable_of_run (admissible_core admissible)
  rw [← node.core_run] at proposable
  rw [node.proposer_run]
  refine Proposer.proposing_of_run ?_ ?_
  · rintro ⟨timerExpired, event⟩ receives
    cases event with
    | parents digests round => exact proposable.proposed _ (sent_of_proposerRun receives)
    | _ => trivial
  · rintro ⟨timerExpired, event⟩ receives
    cases event with
    | parents digests round => exact noOverflow _ (sent_of_proposerRun receives)
    | _ => trivial

/-- The headers that the Core has received from the Proposer. -/
def State.ownHeaders (s : State) : List Header := s.proposer.txCore.take (s.received .headers)

/-- The headers that the Proposer has sent stay. -/
theorem prefix_pass (proposer : Proposer) (t : Proposer.State) (input : Bool × Proposer.Event) :
    t.txCore <+: (proposer.pass t input).txCore := by
  have checked : t.txCore <+: (proposer.checkProposal t input.1).txCore := by
    unfold Proposer.checkProposal
    split_ifs
    · exact List.prefix_rfl
    · exact List.prefix_append ..
    · exact List.prefix_rfl
  obtain ⟨timerExpired, event⟩ := input
  cases event with
  | parents digests round =>
      unfold Proposer.pass Proposer.receive
      dsimp only
      split_ifs <;> exact checked
  | _ => exact checked

/-- What an event does to the own headers. -/
inductive Owns (s : State) (event : Event) (t : State) : Prop where
  /-- The Core receives the next one. -/
  | receives {h : Header} (next : s.next .headers s.proposer.txCore = some h)
      (shows : coreEvents s event = [.core (.proposer h)]) (sent : t.proposer.txCore = s.proposer.txCore)
      (received : t.received .headers = s.received .headers + 1) (current : t.core.currentHeader = h)
  /-- Something else happens. -/
  | other (shows : ∀ h, .core (.proposer h) ∉ coreEvents s event)
      (sent : s.proposer.txCore <+: t.proposer.txCore)
      (received : t.received .headers = s.received .headers)
      (current : t.core.currentHeader = s.core.currentHeader)

/-- A step that does not receive an own header. -/
theorem owns_of_step {step : Step} {input : Input} (takes : s.input step = some input)
    (other : step ≠ .headers) (sent : s.proposer.txCore <+: (node.perform s input).proposer.txCore)
    (shows : ∀ h, input ≠ .core (.core (.proposer h)))
    (current : (node.perform s input).core.currentHeader = s.core.currentHeader) :
    Owns s (.step step) (node.advance s (.step step)) := by
  rw [advance_step takes]
  refine .other (fun h member => ?_) ?_ ?_ ?_
  · unfold coreEvents at member
    simp only [takes] at member
    cases input with
    | core event => exact shows h (congrArg Input.core (List.mem_singleton.mp member).symm)
    | garbageCollector certificate =>
        obtain ⟨_, -, impossible⟩ := List.mem_map.mp member
        cases impossible
    | _ => cases member
  · cases step.channel <;> exact sent
  · have kept : (node.perform s input).received = s.received := by cases input <;> rfl
    cases channel : step.channel with
    | none => exact congrFun kept _
    | some channel' =>
        have different : .headers ≠ channel' := by
          rintro rfl
          cases step <;> cases channel
          exact other rfl
        show Function.update _ _ _ _ = _
        rw [Function.update_of_ne different, kept]
  · cases step.channel <;> exact current

theorem owns_advance (s : State) (event : Event) : Owns s event (node.advance s event) := by
  cases event with
  | primary message =>
      cases message <;> exact .other (fun _ => List.not_mem_nil) List.prefix_rfl rfl rfl
  | worker message =>
      cases message <;> exact .other (fun _ => List.not_mem_nil) List.prefix_rfl rfl rfl
  | step step =>
      cases takes : s.input step with
      | none =>
          rw [advance_idle takes]
          refine .other (fun h member => ?_) List.prefix_rfl rfl rfl
          simp [coreEvents, takes] at member
      | some input =>
          cases brings_of_input takes with
          | @headers h running next =>
              have performs : node.advance s (.step .headers) =
                  (node.perform s (.core (.core (.proposer h)))).receives (some .headers) :=
                advance_step takes
              rw [performs]
              refine .receives next (by simp [coreEvents, takes]) rfl ?_ ?_
              · show Function.update s.received .headers (s.received .headers + 1) .headers = _
                exact Function.update_self ..
              · exact Core.currentHeader_advance running _
          | primaries running =>
              exact owns_of_step takes nofun List.prefix_rfl nofun (Core.currentHeader_advance running _)
          | headerLoopback running =>
              exact owns_of_step takes nofun List.prefix_rfl nofun (Core.currentHeader_advance running _)
          | certificateLoopback running =>
              exact owns_of_step takes nofun List.prefix_rfl nofun (Core.currentHeader_advance running _)
          | parents => exact owns_of_step takes nofun (prefix_pass _ _ _) nofun rfl
          | ourDigests => exact owns_of_step takes nofun (prefix_pass _ _ _) nofun rfl
          | proposerTimer => exact owns_of_step takes nofun (prefix_pass _ _ _) nofun rfl
          | @feedback c =>
              refine owns_of_step takes nofun List.prefix_rfl nofun ?_
              unfold perform
              dsimp only
              cases GarbageCollector.stores s.garbageCollector c <;> rfl
          | _ => exact owns_of_step takes nofun List.prefix_rfl nofun rfl

/-- The Core has received the own headers in order, and the current one is the last. -/
structure Attuned (events : List Core.Event) (s : State) : Prop where
  received : s.received .headers ≤ s.proposer.txCore.length
  current : s.core.currentHeader = s.ownHeaders.getLast?.getD default
  mem_iff : ∀ h, .core (.proposer h) ∈ events ↔ h ∈ s.ownHeaders

theorem attuned_run (events : List Event) : Attuned (node.coreRun events) (node.run events) := by
  induction events using List.reverseRecOn with
  | nil =>
      exact ⟨Nat.le_refl 0, rfl, fun h => iff_of_false List.not_mem_nil List.not_mem_nil⟩
  | append_singleton events event ih =>
      have next := node.run_snoc events event
      have shows : node.coreRun (events ++ [event]) =
          node.coreRun events ++ coreEvents (node.run events) event := by
        rw [coreRun_append, shown, shown, List.append_nil]
      rw [next, shows]
      obtain ⟨bound, current, mem_iff⟩ := ih
      generalize node.run events = s at bound current mem_iff
      cases owns_advance s event with
      | @receives h next shows sent received current' =>
          obtain ⟨inside, found⟩ := List.getElem?_eq_some_iff.mp next
          have own : (node.advance s event).ownHeaders = s.ownHeaders ++ [h] := by
            rw [State.ownHeaders, sent, received, List.take_succ_eq_append_getElem inside, found]
            rfl
          refine ⟨?_, ?_, fun h' => ?_⟩
          · rw [received, sent]
            exact inside
          · rw [current', own, List.getLast?_concat]
            rfl
          · rw [shows, own, List.mem_append, List.mem_append, mem_iff, List.mem_singleton,
              List.mem_singleton]
            simp
      | other shows sent received current' =>
          have own : (node.advance s event).ownHeaders = s.ownHeaders := by
            rw [State.ownHeaders, received]
            obtain ⟨more, appended⟩ := sent
            rw [← appended, List.take_append_of_le_length bound]
            rfl
          refine ⟨?_, ?_, fun h => ?_⟩
          · rw [received]
            exact bound.trans sent.length_le
          · rw [current', own, current]
          · rw [List.mem_append, or_iff_left (shows h), own, mem_iff]

omit [Primitives] in
/-- The message of another primary that the Core receives. -/
def State.arrives (s : State) : Event → Option PrimaryMessage
  | .step .primaries => s.next .primaries s.primaryMessages
  | _ => none

variable (node) in
/-- What another primary sends as a header of this one, the Core has received from the Proposer. -/
def Unforged (s : State) (event : Event) : Prop :=
  ∀ message ∈ s.arrives event, ∀ h ∈ Core.Event.header (.core (.primaries message)),
    h.author = node.core.name → h.verify node.core.committee = .ok () →
      ∃ own ∈ s.ownHeaders, own.id = h.id

instance (s : State) (event : Event) : Decidable (node.Unforged s event) :=
  inferInstanceAs (Decidable (∀ message ∈ _, ∀ h ∈ _, _ → _ → _))

omit [Primitives] in
/-- The current header has the highest round of the own headers. -/
theorem Attuned.round_le {events : List Core.Event} (attuned : Attuned events s)
    (increasing : (s.proposer.txCore.map Header.round).Pairwise (· < ·)) {own : Header}
    (inside : own ∈ s.ownHeaders) : own.round ≤ s.core.currentHeader.round := by
  have ascending : (s.ownHeaders.map Header.round).Pairwise (· < ·) := by
    rw [State.ownHeaders, List.map_take]
    exact increasing.sublist (List.take_sublist ..)
  rw [attuned.current]
  rcases List.eq_nil_or_concat s.ownHeaders with none | ⟨front, last, parts⟩
  · rw [none] at inside
    exact absurd inside List.not_mem_nil
  · rw [List.concat_eq_append] at parts
    rw [parts] at inside ascending ⊢
    rw [List.getLast?_concat, Option.getD_some]
    rcases List.mem_append.mp inside with earlier | same
    · rw [List.map_append, List.pairwise_append] at ascending
      exact (ascending.2.2 _ (List.mem_map_of_mem earlier) _ (List.mem_singleton_self _)).le
    · rw [List.mem_singleton.mp same]

/-- The next own header is of a later round. -/
theorem Attuned.lt_round {events : List Core.Event} {sent : List Certificate}
    (attuned : Attuned events s) (proposing : node.proposer.Proposing sent s.proposer) {h : Header}
    (next : s.next .headers s.proposer.txCore = some h) :
    s.core.currentHeader.round < h.round := by
  obtain ⟨inside, found⟩ := List.getElem?_eq_some_iff.mp next
  have ascending : ((s.ownHeaders ++ [h]).map Header.round).Pairwise (· < ·) := by
    rw [State.ownHeaders, ← found, ← List.take_succ_eq_append_getElem inside, List.map_take]
    exact proposing.increasing.sublist (List.take_sublist ..)
  rw [attuned.current]
  rcases List.eq_nil_or_concat s.ownHeaders with none | ⟨front, last, parts⟩
  · rw [none, List.getLast?_nil, Option.getD_none]
    obtain ⟨-, digests, -, ready⟩ := proposing.headers h (mem_of_next next)
    show 0 < h.round
    generalize h.round = round at ready
    cases ready with
    | genesis => exact Nat.one_pos
    | gathered => exact Nat.succ_pos _
  · rw [List.concat_eq_append] at parts
    rw [parts, List.map_append, List.pairwise_append] at ascending
    rw [parts, List.getLast?_concat, Option.getD_some]
    refine ascending.2.2 _ (List.mem_map_of_mem ?_) _ (List.mem_singleton_self _)
    exact List.mem_append_right _ (List.mem_singleton_self _)

/-- **The own headers are of increasing rounds**, and what others send of them is not ahead. -/
theorem own_rounds {events : List Event} {known : Set Header}
    (admissible : Throughout node.advance Admissible node.start events)
    (noOverflow : ∀ message ∈ (node.run events).core.txProposer, message.2 + 1 < 2 ^ 64)
    (unforged : Throughout node.advance node.Unforged node.start events)
    (collisionFree : CollisionFree (hashedFor known))
    (heard : ∀ event ∈ node.coreRun events, ∀ h, event.header = some h → h ∈ known) :
    Throughout node.core.advance node.core.OwnRounds {} (node.coreRun events) := by
  have steps : Throughout node.advance
      (fun s event => Throughout node.core.advance node.core.OwnRounds s.core (coreEvents s event))
      node.start events := by
    apply Throughout.of_prefixes
    rintro before event after rfl
    have soFar := Throughout.append_iff.mp admissible
    have genuine := (Throughout.append_iff.mp unforged).2.1
    have proposing := proposing_run soFar.1 fun message sent =>
      noOverflow message ((extends_run before (event :: after)).proposer.subset sent)
    have attuned : Attuned (node.coreRun before) (node.run before) := attuned_run before
    have sourced := (wired_run soFar.1).sourced
    have listed : ∀ e ∈ node.coreRun before ++ coreEvents (node.run before) event,
        e ∈ node.coreRun (before ++ event :: after) := by
      intro e inside
      rw [coreRun_append, shown, ← List.append_assoc]
      exact List.mem_append_left _ inside
    change Throughout node.core.advance node.core.OwnRounds (node.run before).core
      (coreEvents (node.run before) event)
    change node.Unforged (node.run before) event at genuine
    generalize node.run before = s at proposing attuned sourced genuine listed
    -- the own headers that come back are those that were sent
    have returned : ∀ h, h.author = node.core.name → h.verify node.core.committee = .ok () →
        h ∈ known → (∃ own ∈ s.ownHeaders, own.id = h.id) → h.round ≤ s.core.currentHeader.round := by
      rintro h - verified isKnown ⟨own, inside, same⟩
      have sent : own ∈ s.proposer.txCore := List.mem_of_mem_take inside
      have ownKnown : own ∈ known := heard _ (listed _ (List.mem_append_left _
        ((attuned.mem_iff own).mpr inside))) own rfl
      have inputs : own.hashInput = h.hashInput := by
        refine collisionFree ⟨own, .inr ownKnown, .inl rfl⟩ ⟨h, .inr isKnown, .inl rfl⟩ ?_
        show own.digest = h.digest
        rw [(Header.verify_ok_iff.mp verified).1, ← same, (sourced.headers own sent).2.1]
      have round : own.round = h.round := by
        rcases Header.hashInput_eq_iff.mp inputs with content | resplit | resplit
        · exact content.2.1
        · exact resplit.2.1
        · exact resplit.2.1.symm
      exact round ▸ attuned.round_le proposing.increasing inside
    cases event with
    | primary => trivial
    | worker => trivial
    | step step =>
        cases takes : s.input step with
        | none => simp [coreEvents, takes, Throughout]
        | some input =>
            cases brings_of_input takes with
            | @headers h _ next =>
                simp only [coreEvents, takes]
                exact ⟨attuned.lt_round proposing next, trivial⟩
            | @primaries message _ next =>
                have inside : .core (.primaries message) ∈ coreEvents s (.step .primaries) := by
                  simp [coreEvents, takes]
                have later := listed _ (List.mem_append_right _ inside)
                simp only [coreEvents, takes]
                refine ⟨?_, trivial⟩
                cases message with
                | header h =>
                    intro sane own
                    obtain ⟨_, -, verified⟩ := bind_eq_ok_iff.mp sane
                    exact returned h own verified (heard _ later h rfl)
                      (genuine _ next h rfl own verified)
                | certificate c =>
                    intro sane own
                    obtain ⟨_, -, verified⟩ := bind_eq_ok_iff.mp sane
                    rcases Certificate.verify_ok_iff.mp verified with claims | certified
                    · have round : c.header.round = 0 := claims.2.1
                      exact round.le.trans (Nat.zero_le _)
                    · exact returned c.header own certified.header (heard _ later c.header rfl)
                        (genuine _ next c.header rfl own certified.header)
                | _ => trivial
            | @feedback c =>
                simp only [coreEvents, takes]
                unfold GarbageCollector.stores
                split_ifs <;> simp [Throughout, Core.OwnRounds]
            | _ => simp [coreEvents, takes, Throughout, Core.OwnRounds]
  exact steps.shown core_advance fun _ _ allowed => allowed

/-! ## The batches of the own headers -/

/-- The batches that the Proposer has queued and listed were reported by our workers. -/
structure Reported (events : List Event) (s : State) : Prop where
  ours : ∀ entry ∈ s.ourDigests, .worker (.ourBatch entry.1 entry.2) ∈ events
  others : ∀ entry ∈ s.othersDigests, .worker (.othersBatch entry.1 entry.2) ∈ events
  queued : ∀ entry ∈ s.proposer.digests, entry ∈ s.ourDigests
  listed : ∀ h ∈ s.proposer.txCore, ∀ entry ∈ h.payload.entries, entry ∈ s.ourDigests

/-- The Proposer lists what it has queued. -/
theorem listed_pass {proposer : Proposer} {t : Proposer.State} {reports : List (Digest × WorkerId)}
    (queued : ∀ entry ∈ t.digests, entry ∈ reports)
    (listed : ∀ h ∈ t.txCore, ∀ entry ∈ h.payload.entries, entry ∈ reports) {timerExpired : Bool}
    {event : Proposer.Event}
    (reported : ∀ digest workerId, event = .report digest workerId → (digest, workerId) ∈ reports) :
    (∀ entry ∈ (proposer.pass t (timerExpired, event)).digests, entry ∈ reports) ∧
      ∀ h ∈ (proposer.pass t (timerExpired, event)).txCore, ∀ entry ∈ h.payload.entries,
        entry ∈ reports := by
  have checked : (∀ entry ∈ (proposer.checkProposal t timerExpired).digests, entry ∈ reports) ∧
      ∀ h ∈ (proposer.checkProposal t timerExpired).txCore, ∀ entry ∈ h.payload.entries,
        entry ∈ reports := by
    unfold Proposer.checkProposal
    split_ifs
    · exact ⟨queued, listed⟩
    · refine ⟨fun _ inside => absurd inside List.not_mem_nil, fun h sent => ?_⟩
      rcases List.mem_append.mp sent with old | new
      · exact listed h old
      · rw [List.mem_singleton.mp new]
        exact fun entry inside => queued entry (BTreeMap.entries_ofList_subset _ inside)
    · exact ⟨queued, listed⟩
  cases event with
  | parents digests round =>
      unfold Proposer.pass Proposer.receive
      dsimp only
      split_ifs <;> exact checked
  | report digest workerId =>
      exact ⟨List.forall_mem_append.mpr ⟨checked.1,
        List.forall_mem_singleton.mpr (reported digest workerId rfl)⟩, checked.2⟩
  | timer => exact checked

theorem Reported.advance {events : List Event} (reported : Reported events s) (event : Event) :
    Reported (events ++ [event]) (node.advance s event) := by
  obtain ⟨ours, others, queued, listed⟩ := reported
  have ours := fun entry inside => List.mem_append_left [event] (ours entry inside)
  have others := fun entry inside => List.mem_append_left [event] (others entry inside)
  have now : event ∈ events ++ [event] := List.mem_append_right _ (List.mem_singleton_self _)
  cases event with
  | primary message => cases message <;> exact ⟨ours, others, queued, listed⟩
  | worker message =>
      cases message with
      | ourBatch =>
          refine ⟨List.forall_mem_append.mpr ⟨ours, List.forall_mem_singleton.mpr now⟩, others,
            fun entry inside => List.mem_append_left _ (queued entry inside),
            fun h sent entry inside => List.mem_append_left _ (listed h sent entry inside)⟩
      | othersBatch =>
          exact ⟨ours, List.forall_mem_append.mpr ⟨others, List.forall_mem_singleton.mpr now⟩, queued,
            listed⟩
  | step step =>
      have same : (node.advance s (.step step)).ourDigests = s.ourDigests ∧
          (node.advance s (.step step)).othersDigests = s.othersDigests := by
        unfold PrimaryNode.advance
        dsimp only
        cases s.input step with
        | none => exact ⟨rfl, rfl⟩
        | some input => cases step.channel <;> cases input <;> exact ⟨rfl, rfl⟩
      have passed : (∀ entry ∈ (node.advance s (.step step)).proposer.digests, entry ∈ s.ourDigests) ∧
          ∀ h ∈ (node.advance s (.step step)).proposer.txCore, ∀ entry ∈ h.payload.entries,
            entry ∈ s.ourDigests := by
        rw [proposer_advance]
        unfold proposerEvents
        dsimp only
        cases takes : s.input step with
        | none => exact ⟨queued, listed⟩
        | some input =>
            cases brings_of_input takes with
            | parents =>
                dsimp only [List.foldl_cons, List.foldl_nil]
                exact listed_pass queued listed fun _ _ same => by cases same
            | proposerTimer =>
                dsimp only [List.foldl_cons, List.foldl_nil]
                exact listed_pass queued listed fun _ _ same => by cases same
            | ourDigests _ next =>
                dsimp only [List.foldl_cons, List.foldl_nil]
                refine listed_pass queued listed fun _ _ same => ?_
                cases same
                exact mem_of_next next
            | _ => exact ⟨queued, listed⟩
      exact ⟨same.1 ▸ ours, same.2 ▸ others, same.1 ▸ passed.1, same.1 ▸ passed.2⟩

theorem reported_run (events : List Event) : Reported events (node.run events) := by
  induction events using List.reverseRecOn with
  | nil =>
      exact ⟨fun _ inside => absurd inside List.not_mem_nil, fun _ inside => absurd inside List.not_mem_nil,
        fun _ inside => absurd inside List.not_mem_nil, fun _ inside => absurd inside List.not_mem_nil⟩
  | append_singleton events event ih =>
      rw [run_snoc]
      exact ih.advance event

/-- **The Core is told of batches that our workers have received.** -/
theorem batch_reported {events : List Event} {digest : Digest} {workerId : WorkerId}
    (told : .batch digest workerId ∈ node.coreRun events) :
    .worker (.othersBatch digest workerId) ∈ events := by
  obtain ⟨before, event, after, rfl, shows⟩ := mem_shown.mp told
  change .batch digest workerId ∈ coreEvents (node.run before) event at shows
  have reported : Reported before (node.run before) := reported_run before
  refine List.mem_append_left _ ?_
  cases event with
  | primary => cases shows
  | worker => cases shows
  | step step =>
      cases takes : (node.run before).input step with
      | none => simp [coreEvents, takes] at shows
      | some input =>
          cases brings_of_input takes with
          | othersDigests next =>
              simp only [coreEvents, takes, List.mem_singleton, Core.Event.batch.injEq] at shows
              obtain ⟨rfl, rfl⟩ := shows
              exact reported.others _ (mem_of_next next)
          | _ => simp [coreEvents, takes] at shows

/-- **The store has payload entries of reported batches only.** -/
theorem payload_reported {events : List Event} {digest : Digest} {workerId : WorkerId}
    (found : ((node.run events).core.store.read (Store.payloadKey digest workerId)).isSome = true) :
    .worker (.othersBatch digest workerId) ∈ events := by
  rw [node.core_run] at found
  exact batch_reported (Core.reported_run node.core (node.coreRun events) (digest, workerId) found)

/-- **The own headers list batches that our workers have sealed.** -/
theorem header_reported {events : List Event} {h : Header}
    (own : .core (.proposer h) ∈ node.coreRun events) :
    ∀ entry ∈ h.payload.entries, .worker (.ourBatch entry.1 entry.2) ∈ events := by
  have attuned : Attuned (node.coreRun events) (node.run events) := attuned_run events
  have reported : Reported events (node.run events) := reported_run events
  have sent : h ∈ (node.run events).proposer.txCore :=
    List.mem_of_mem_take ((attuned.mem_iff h).mp own)
  exact fun entry inside => reported.ours entry (reported.listed h sent entry inside)

variable (node) in
/-- What the results on the Core assume of the other tasks. -/
structure Environment (events : List Event) : Prop where
  run : (node.run events).core = node.core.run (node.coreRun events)
  admissible : Throughout node.core.advance node.core.Admissible {} (node.coreRun events)
  ownRounds : Throughout node.core.advance node.core.OwnRounds {} (node.coreRun events)
  batches : ∀ digest workerId, .batch digest workerId ∈ node.coreRun events →
    .worker (.othersBatch digest workerId) ∈ events
  stored : ∀ digest workerId,
    ((node.run events).core.store.read (Store.payloadKey digest workerId)).isSome = true →
      .worker (.othersBatch digest workerId) ∈ events
  payload : ∀ h, .core (.proposer h) ∈ node.coreRun events →
    ∀ entry ∈ h.payload.entries, .worker (.ourBatch entry.1 entry.2) ∈ events

/-- **The Core finds what is assumed of the other tasks.** In every run of a primary in which no round
overflows and nobody forges its headers, the Core takes events that may come: loopbacks of what it has
suspended once the store has what was missing, own headers of increasing rounds with parents that it has
proposed, consensus rounds that do not go back, and batches that the own workers have reported, which are
also all that it finds in the store. -/
theorem core_environment {events : List Event} {known : Set Header}
    (admissible : Throughout node.advance Admissible node.start events)
    (noOverflow : ∀ message ∈ (node.run events).core.txProposer, message.2 + 1 < 2 ^ 64)
    (unforged : Throughout node.advance node.Unforged node.start events)
    (collisionFree : CollisionFree (hashedFor known))
    (heard : ∀ event ∈ node.coreRun events, ∀ h, event.header = some h → h ∈ known) :
    node.Environment events where
  run := node.core_run events
  admissible := admissible_core admissible
  ownRounds := own_rounds admissible noOverflow unforged collisionFree heard
  batches _ _ told := batch_reported told
  stored _ _ found := payload_reported found
  payload _ own := header_reported own

end Model

/-! ## A chain of the first authority -/

section TwoAuthorities

open CorrectPrimary

local instance nodeSign : Primitives := executable fun _ _ => true

/-- A primary of the two authorities. -/
def ofTwo (name : PublicKey) (member : name ∈ twoAuthorities.authorities.keys) : PrimaryNode where
  core := primaryOf name
  member := member
  headerSize := 1000
  syncRetryDelay := 0
  syncRetryNodes := 1
  faults := 0
  adversarySeed := 0
  pauseBatchesDuringSilence := false

/-- The first authority makes five headers, each after the certificate of the one before, and commits. -/
def leadingRun : List Event :=
  let makes : List Step := [.proposerTimer true, .headers, .parents false]
  let commits : List Step := List.replicate 5 .newCertificates ++ [.feedback, .feedback]
  ((List.replicate 5 makes).flatten ++ commits).map .step

/-- The second authority is told of two batches. It receives the certificate of round 2 before that of
round 1, is looped back the header and the certificate that wait, and makes a header of round 3. -/
def followingRun : List Event :=
  let arrivals (c : Certificate) : List Event := [.primary (.certificate c), .step .primaries]
  [.worker (.othersBatch ⟨5⟩ 0), .step .othersDigests, .worker (.ourBatch ⟨6⟩ 0),
      .step (.ourDigests false)] ++ arrivals (leading 2).2 ++
    [.step (.syncHeaders 0), .step .syncCertificates] ++ arrivals (leading 1).2 ++
    ([.headerDelivered 0, .headerLoopback, .certificateDelivered 0, .certificateLoopback,
      .parents false, .parents false, .proposerTimer true, .headers].map .step)

theorem core_environment_following : (ofTwo ⟨2⟩ (by decide)).Environment followingRun := by
  let headers := ((ofTwo ⟨2⟩ (by decide)).coreRun followingRun).filterMap Core.Event.header
  have listed : ∀ h ∈ Core.headersOf ((ofTwo ⟨2⟩ (by decide)).coreRun followingRun), h ∈ headers :=
    fun h ⟨event, happened, brings⟩ => List.mem_filterMap.mpr ⟨event, happened, brings⟩
  exact core_environment (by decide +kernel) (by decide +kernel) (by decide +kernel)
    (collisionFree_of_list _ (fun _ => mem_inputsOf listed) (by decide +kernel))
    fun event happened h brings => ⟨event, happened, brings⟩

end TwoAuthorities

end PrimaryNode

end Tusk
