import Tusk.Primary.NodeHeaders
import Tusk.Primary.SuspendedCertificates

/-!
# What becomes of a certificate that a primary receives

A certificate that the Core processes is delivered, or it goes to the CertificateWaiter, or its header is
refused. The CertificateWaiter returns it once its parents are in the store, and then it is delivered. The
Core has no other way to lose a certificate while it is running, except that it drops those which it receives
below the garbage collected round.

So when the tasks have received what is on their channels, a certificate that was received is delivered, or
waits for a parent, or was below the collected round (`Idle.settled`).
-/

set_option autoImplicit false

namespace Tusk

open Lib

/-! ## A certificate that is processed -/

namespace Core

variable [Primitives] {node : Core} {s t : State} {c : Certificate} {input : Input} {event : Event}

variable (node) in
/-- The certificate was delivered, or it was suspended for a parent that is not of the genesis. -/
def Kept (s : State) (c : Certificate) : Prop :=
  node.Delivered s c ∨
    c ∈ s.txCertificateWaiter ∧ ∃ digest ∈ c.header.parents.toList, ¬ node.IsGenesis digest

theorem Delivered.extend (delivered : node.Delivered s c) (more : Extends s t) : node.Delivered t c :=
  delivered.imp_right (more.store _)

theorem Kept.extend (kept : node.Kept s c) (more : Extends s t) : node.Kept t c :=
  kept.imp (·.extend more) fun ⟨waits, lacks⟩ => ⟨more.certificateWaiter.subset waits, lacks⟩

/-- **A certificate that is processed to the end is kept.** -/
theorem processCertificate_keeps (c : Certificate) :
    Command.Follows (fun _ _ => True) (fun _ => True) (node.processCertificate c) fun _ t =>
      node.Kept t c := by
  have embedded : Command.Follows (fun _ _ => True) (fun _ => True)
      (processEmbedded node.processHeader c) fun _ _ => True :=
    fun _ _ => ⟨.single trivial, fun _ _ => trivial⟩
  have delivered : Command.Follows (fun _ _ => True) (fun _ => True) (node.deliverCertificate c)
      fun delivered t => delivered = true ∨ node.Kept t c := by
    apply Command.Follows.bind_get
    intro t
    split
    · exact .pure fun _ _ => .inl rfl
    · next absent =>
        push Not at absent
        obtain ⟨digest, isParent, missing⟩ := absent
        apply Command.Follows.bind_modify (fun t => node.Kept t c) fun _ _ => trivial
        · intro t' _
          exact .inr ⟨List.mem_append_right _ (List.mem_singleton_self c), digest, isParent,
            fun genesis => missing (.inl genesis)⟩
        · exact .pure fun _ kept => .inr kept
  refine embedded.bind fun _ => delivered.bind fun here => ?_
  split
  · refine .modify (fun _ _ => trivial) fun t _ => .inl (.inr ?_)
    show ((t.store.write c.digest.asRef (.certificate c)).read c.digest.asRef).isSome = true
    rw [Store.read_write, if_pos rfl]
    rfl
  · next absent => exact .pure fun _ before => before.resolve_left absent

/-- A certificate that is not refused is processed to the end, unless the node stops. -/
theorem returned_of_not_refused (accepted : ¬ node.Refuses s.store c.header)
    (running : ∀ p, ((node.processCertificate c).outcome s).1 ≠ .error (.panic p)) :
    ((node.processCertificate c).outcome s).1 = .ok () := by
  cases found : ((node.processCertificate c).outcome s).1 with
  | ok => rfl
  | error i =>
      cases i with
      | panic p => exact absurd found (running p)
      | error e => exact absurd (node.refuses_of_rejected found) accepted

/-- The end of a step leaves what was kept. -/
theorem kept_cleanup (kept : node.Kept t c) : node.Kept (t.cleanup node.gcDepth) c := by
  obtain ⟨_, _, _, _, same, -⟩ := cleanup_cases t node.gcDepth
  rw [same]
  exact kept

/-- **A certificate that comes and is not refused is kept.** -/
theorem kept_of_carries (carries : node.Carries s input c)
    (accepted : ¬ node.Refuses s.store c.header) (running : (node.step s input).halted = none) :
    node.Kept (node.step s input) c := by
  obtain ⟨calm, same⟩ := step_running running
  rw [same]
  refine kept_cleanup ?_
  obtain ⟨outcome, -⟩ := carries.receive
  rw [outcome] at calm ⊢
  exact (processCertificate_keeps c s trivial).2 () (returned_of_not_refused accepted calm)

/-- **A certificate that comes with its parents in the store is delivered.** -/
theorem delivered_of_carries (carries : node.Carries s input c)
    (accepted : ¬ node.Refuses s.store c.header)
    (parents : ∀ digest ∈ c.header.parents.toList, node.HasParent s.store digest)
    (running : (node.step s input).halted = none) : node.Delivered (node.step s input) c := by
  obtain ⟨calm, same⟩ := step_running running
  rw [same]
  have brings : node.Brings s input c := .carried carries rfl parents (.inr accepted)
  exact Delivered.cleanup (brings.delivered calm)

/-! ## The rest of the run -/

/-- A node that runs after an event was running before. -/
theorem running_of_advance (running : (node.advance s event).halted = none) : s.halted = none := by
  cases event with
  | batch => exact running
  | consensus => exact running
  | core input =>
      by_contra stopped
      unfold Core.advance at running
      simp only [Option.isSome_iff_ne_none.mpr stopped, if_true] at running
      exact stopped running

theorem running_of_foldl {events : List Event} (running : (events.foldl node.advance s).halted = none) :
    s.halted = none := by
  induction events generalizing s with
  | nil => exact running
  | cons event events ih => exact running_of_advance (ih running)

/-- **The garbage collected round does not go back.** -/
theorem gcRound_le_advance (lags : node.Lags s) : s.gcRound ≤ (node.advance s event).gcRound := by
  cases event with
  | batch => exact le_rfl
  | consensus => exact le_rfl
  | core input =>
      refine @advance_core _ node s input (fun t => s.gcRound ≤ t.gcRound) le_rfl fun _ => ?_
      have start : (s.opened input).gcRound = s.gcRound ∧
          (s.opened input).consensusRound = s.consensusRound := by
        cases input <;> exact ⟨rfl, rfl⟩
      let during := fun t : State => t.gcRound = s.gcRound ∧ t.consensusRound = s.consensusRound
      refine @step_acts _ node s input during (fun t => s.gcRound ≤ t.gcRound) start
        (fun t t' acts same => ⟨acts.rounds.1.trans same.1, acts.rounds.2.trans same.2⟩) ?_
        fun t p same => same.1.ge
      rintro t ⟨gcRound, consensusRound⟩
      rw [gcRound_cleanup, nextGcRound, gcRound, consensusRound]
      split_ifs
      · exact lags
      · exact le_rfl

theorem gcRound_le_foldl {events : List Event} (lags : node.Lags s)
    (admissible : Throughout node.advance node.Admissible s events) :
    s.gcRound ≤ (events.foldl node.advance s).gcRound := by
  induction events generalizing s with
  | nil => exact le_rfl
  | cons event events ih =>
      exact (gcRound_le_advance lags).trans (ih (lags.advance admissible.1) admissible.2)

variable (node) in
/-- In a state that it went through the node has processed a message, and it was running then. -/
structure Processed (events : List Event) (input : Input) (u : State) : Prop where
  reached : ∃ before, before <+: events ∧ node.run before = u
  running : (node.step u input).halted = none
  admissible : node.Admissible u (.core input)
  later : Extends (node.step u input) (node.run events)
  gcRound : u.gcRound ≤ (node.run events).gcRound

/-- **What comes in a run of a node that is running at the end is processed.** -/
theorem processed_of_run {before after : List Event}
    (admissible : Throughout node.advance node.Admissible {} (before ++ .core input :: after))
    (running : (node.run (before ++ .core input :: after)).halted = none) :
    node.Processed (before ++ .core input :: after) input (node.run before) := by
  obtain ⟨first, rest⟩ := Throughout.append_iff.mp admissible
  have start : node.Lags {} := Nat.zero_le _
  have lags := first.invariant node.Lags start fun _ _ lags may => lags.advance may
  rw [run, List.foldl_append] at running
  have before_running := running_of_foldl running
  have steps : node.advance (before.foldl node.advance {}) (.core input) =
      node.step (before.foldl node.advance {}) input := by
    simp [Core.advance, before_running]
  have after_running := running_of_foldl (List.foldl_cons .. ▸ running)
  have collected := gcRound_le_foldl lags rest
  refine ⟨⟨before, List.prefix_append .., rfl⟩, steps ▸ after_running, rest.1, ?_, ?_⟩
  · rw [run, run, List.foldl_append, List.foldl_cons, steps]
    exact extends_foldl _ after
  · rw [run, run, List.foldl_append]
    exact collected

/-- **A certificate that is processed and not refused is kept.** -/
theorem Processed.kept {events : List Event} (processed : node.Processed events input s)
    (carries : node.Carries s input c) (accepted : ¬ node.Refuses s.store c.header) :
    node.Kept (node.run events) c :=
  (kept_of_carries carries accepted processed.running).extend processed.later

theorem Processed.delivered {events : List Event} (processed : node.Processed events input s)
    (carries : node.Carries s input c) (accepted : ¬ node.Refuses s.store c.header)
    (parents : ∀ digest ∈ c.header.parents.toList, node.HasParent s.store digest) :
    node.Delivered (node.run events) c :=
  (delivered_of_carries carries accepted parents processed.running).extend processed.later

end Core

/-! ## What a task has received -/

namespace PrimaryNode

section Model

variable [Primitives] {node : PrimaryNode} {s : State} {c : Certificate}

variable (node) in
theorem received_perform (s : State) (input : Input) : (node.perform s input).received = s.received := by
  cases input <;> rfl

variable (node) in
/-- What an event does to the number of messages that were received from a channel. -/
theorem received_advance (s : State) (event : Event) (channel : Channel) :
    (node.advance s event).received channel = s.received channel ∨
      ∃ step input, event = .step step ∧ step.channel = some channel ∧ s.input step = some input ∧
        (node.advance s event).received channel = s.received channel + 1 := by
  cases event with
  | primary message => cases message <;> exact .inl rfl
  | worker message => cases message <;> exact .inl rfl
  | step step =>
      cases takes : s.input step with
      | none =>
          rw [advance_idle takes]
          exact .inl rfl
      | some input =>
          rw [advance_step takes]
          cases from_channel : step.channel with
          | none => exact .inl (congrFun (received_perform node s input) channel)
          | some other =>
              have bumped : ((node.perform s input).receives (some other)).received =
                  Function.update s.received other (s.received other + 1) := by
                rw [← received_perform node s input]
                rfl
              rw [bumped]
              by_cases same : channel = other
              · subst same
                exact .inr ⟨step, input, rfl, from_channel, takes, Function.update_self ..⟩
              · exact .inl (Function.update_of_ne same ..)

/-- **What was received from a channel was taken by one of the steps.** Here `brings` is what a step makes of
the next message of the channel. -/
theorem taken_run {α : Type} {channel : Channel} {sent : State → List α} {brings : α → Input}
    (grows : ∀ s event, sent s <+: sent (node.advance s event))
    (feeds : ∀ (s : State) (step : Step) input, s.input step = some input → step.channel = some channel →
      ∃ message, s.next channel (sent s) = some message ∧ input = brings message)
    (events : List Event) :
    (node.run events).received channel ≤ (sent (node.run events)).length ∧
      ∀ message ∈ (sent (node.run events)).take ((node.run events).received channel),
        ∃ before step after, events = before ++ .step step :: after ∧
          (node.run before).input step = some (brings message) := by
  induction events using List.reverseRecOn with
  | nil => exact ⟨Nat.zero_le _, fun message inside => absurd inside (by simp [run, start])⟩
  | append_singleton events event ih =>
      obtain ⟨bound, taken⟩ := ih
      have earlier : ∀ message ∈ (sent (node.run events)).take ((node.run events).received channel),
          ∃ before step after, events ++ [event] = before ++ .step step :: after ∧
            (node.run before).input step = some (brings message) := by
        intro message inside
        obtain ⟨before, step, after, rfl, takes⟩ := taken message inside
        exact ⟨before, step, after ++ [event], by simp, takes⟩
      obtain ⟨later, appended⟩ := grows (node.run events) event
      rw [run_snoc, ← appended]
      rcases received_advance node (node.run events) event channel with
        same | ⟨step, input, rfl, feeding, takes, next⟩
      · rw [same, List.take_append_of_le_length bound]
        exact ⟨bound.trans (by simp), earlier⟩
      · obtain ⟨message, found, rfl⟩ := feeds _ step input takes feeding
        obtain ⟨inside, get⟩ := List.getElem?_eq_some_iff.mp found
        rw [next, List.take_append_of_le_length inside, List.take_succ_eq_append_getElem inside, get]
        refine ⟨inside.trans_le (by simp), fun message' among => ?_⟩
        rcases List.mem_append.mp among with old | new
        · exact earlier message' old
        · rw [List.mem_singleton.mp new]
          exact ⟨events, step, [], rfl, takes⟩

/-! ## The certificates on the channels -/

theorem core_step {step : Step} {event : Core.Event} (takes : s.input step = some (.core event)) :
    (node.advance s (.step step)).core = node.core.advance s.core event := by
  rw [core_advance]
  simp [coreEvents, takes]

theorem primaryMessages_advance (s : State) (event : Event) :
    s.primaryMessages <+: (node.advance s event).primaryMessages := by
  cases event with
  | primary message =>
      cases message with
      | certificatesRequest => exact List.prefix_rfl
      | _ => exact List.prefix_append ..
  | worker message => cases message <;> exact List.prefix_rfl
  | step step =>
      cases takes : s.input step with
      | none =>
          rw [advance_idle takes]
      | some input =>
          rw [advance_step takes]
          cases input <;> cases step.channel <;> exact List.prefix_rfl

/-- What another primary sends is on the channel of the Core. -/
theorem mem_primaryMessages {events : List Event} (sent : .primary (.certificate c) ∈ events) :
    .certificate c ∈ (node.run events).primaryMessages := by
  induction events using List.reverseRecOn with
  | nil => exact absurd sent List.not_mem_nil
  | append_singleton events event ih =>
      rw [run_snoc]
      rcases List.mem_append.mp sent with earlier | last
      · exact (primaryMessages_advance _ _).subset (ih earlier)
      · rw [← List.mem_singleton.mp last]
        exact List.mem_append_right _ (List.mem_singleton_self _)

theorem certificateLoopback_advance (s : State) (event : Event) :
    s.certificateWaiter.txCore <+: (node.advance s event).certificateWaiter.txCore := by
  cases event with
  | primary message => cases message <;> exact List.prefix_rfl
  | worker message => cases message <;> exact List.prefix_rfl
  | step step =>
      cases takes : s.input step with
      | none => rw [advance_idle takes]
      | some input =>
          rw [advance_step takes]
          cases brings_of_input takes with
          | certificateDelivered position =>
              show s.certificateWaiter.txCore <+:
                (CertificateWaiter.advance s.certificateWaiter (.delivered position)).txCore
              unfold CertificateWaiter.advance
              dsimp only
              split
              · exact List.prefix_append ..
              · exact List.prefix_rfl
          | _ => exact List.prefix_rfl

/-- A certificate that the CertificateWaiter has received waits or was returned. -/
theorem waits_advance {event : Event}
    (held : c ∈ s.certificateWaiter.waiting ∨ c ∈ s.certificateWaiter.txCore) :
    c ∈ (node.advance s event).certificateWaiter.waiting ∨
      c ∈ (node.advance s event).certificateWaiter.txCore := by
  cases event with
  | primary message => cases message <;> exact held
  | worker message => cases message <;> exact held
  | step step =>
      cases takes : s.input step with
      | none =>
          rw [advance_idle takes]
          exact held
      | some input =>
          rw [advance_step takes]
          cases brings_of_input takes with
          | syncCertificates => exact held.imp_left (List.mem_append_left _)
          | certificateDelivered position =>
              show c ∈ (CertificateWaiter.advance s.certificateWaiter (.delivered position)).waiting ∨
                c ∈ (CertificateWaiter.advance s.certificateWaiter (.delivered position)).txCore
              unfold CertificateWaiter.advance
              dsimp only
              split
              · next ended found =>
                  rcases held with waits | returned
                  · by_cases same : c = ended
                    · exact .inr (List.mem_append_right _ (List.mem_singleton.mpr same))
                    · obtain ⟨i, here⟩ := List.mem_iff_getElem?.mp waits
                      refine .inl (List.mem_eraseIdx_iff_getElem?.mpr ⟨i, fun this => same ?_, here⟩)
                      exact Option.some.inj (here.symm.trans (this ▸ found))
                  · exact .inr (List.mem_append_left _ returned)
              · exact held
          | _ => exact held

/-- The Core and the CertificateWaiter have received what is on their channels, and no waiter can end. -/
structure Idle (s : State) : Prop where
  primaries : s.received .primaries = s.primaryMessages.length
  suspended : s.received .syncCertificates = s.core.txCertificateWaiter.length
  returned : s.received .certificateLoopback = s.certificateWaiter.txCore.length
  waiting : ∀ c ∈ s.certificateWaiter.waiting,
    ¬ ∀ digest ∈ c.header.parents.toList, (s.core.store.read digest.asRef).isSome = true

/-- **What a step of the Core takes is processed.** -/
theorem processed_of_step {before after : List Event} {step : Step} {input : Core.Input}
    (admissible : Throughout node.advance Admissible node.start (before ++ .step step :: after))
    (running : (node.run (before ++ .step step :: after)).core.halted = none)
    (takes : (node.run before).input step = some (.core (.core input))) :
    node.core.Processed (node.coreRun (before ++ .step step :: after)) input
      (node.run before).core := by
  have shows : node.coreRun (before ++ .step step :: after) = node.coreRun before ++
      .core input :: shown node.advance coreEvents (node.run (before ++ [.step step])) after := by
    rw [coreRun_append, shown, run_snoc]
    simp [coreEvents, takes]
  have may := admissible_core admissible
  rw [node.core_run] at running
  rw [shows] at running may ⊢
  rw [node.core_run]
  exact Core.processed_of_run may running

/-- The Core has taken every message of other primaries that it has received. -/
theorem primaries_taken (events : List Event) :
    ∀ message ∈ (node.run events).primaryMessages.take ((node.run events).received .primaries),
      ∃ before step after, events = before ++ .step step :: after ∧
        (node.run before).input step = some (.core (.core (.primaries message))) := by
  refine (taken_run primaryMessages_advance ?_ events).2
  intro s step input takes feeding
  cases brings_of_input takes with
  | primaries _ next => exact ⟨_, next, rfl⟩
  | _ => cases feeding

theorem syncCertificates_taken (events : List Event) :
    ∀ c ∈ (node.run events).core.txCertificateWaiter.take ((node.run events).received .syncCertificates),
      ∃ before step after, events = before ++ .step step :: after ∧
        (node.run before).input step = some (.certificateWaiter (.synchronizer c)) := by
  have grows : ∀ (s : State) event, s.core.txCertificateWaiter <+:
      (node.advance s event).core.txCertificateWaiter := by
    intro s event
    rw [core_advance]
    exact (Core.extends_foldl _ _).certificateWaiter
  refine (@taken_run _ node _ _ (fun s => s.core.txCertificateWaiter) _ grows ?_ events).2
  intro s step input takes feeding
  cases brings_of_input takes with
  | syncCertificates next => exact ⟨_, next, rfl⟩
  | _ => cases feeding

theorem certificateLoopback_taken (events : List Event) :
    ∀ c ∈ (node.run events).certificateWaiter.txCore.take
        ((node.run events).received .certificateLoopback),
      ∃ before step after, events = before ++ .step step :: after ∧
        (node.run before).input step = some (.core (.core (.certificateWaiter c))) := by
  refine (taken_run certificateLoopback_advance ?_ events).2
  intro s step input takes feeding
  cases brings_of_input takes with
  | certificateLoopback _ next => exact ⟨_, next, rfl⟩
  | _ => cases feeding

/-- **What the CertificateWaiter has received waits or was returned.** -/
theorem waits_run {events : List Event}
    (received : c ∈ (node.run events).core.txCertificateWaiter.take
      ((node.run events).received .syncCertificates)) :
    c ∈ (node.run events).certificateWaiter.waiting ∨
      c ∈ (node.run events).certificateWaiter.txCore := by
  obtain ⟨before, step, after, rfl, takes⟩ := syncCertificates_taken events c received
  rw [List.append_cons before (.step step) after, run, List.foldl_append, ← run, run_snoc]
  have start : c ∈ (node.advance (node.run before) (.step step)).certificateWaiter.waiting := by
    rw [advance_step takes]
    cases step.channel <;> exact List.mem_append_right _ (List.mem_singleton_self c)
  generalize node.advance (node.run before) (.step step) = s at start
  have held : c ∈ s.certificateWaiter.waiting ∨ c ∈ s.certificateWaiter.txCore := .inl start
  clear start takes received
  induction after generalizing s with
  | nil => exact held
  | cons event after ih => exact ih _ (waits_advance held)

/-- **A certificate that was received is not lost.** When the Core and the CertificateWaiter are idle and the
Core is running, a certificate that verifies and whose header was at no time refused has been delivered, or it
waits for a parent, or it is below the garbage collected round. -/
theorem Idle.settled {events : List Event} (idle : Idle (node.run events))
    (admissible : Throughout node.advance Admissible node.start events)
    (running : (node.run events).core.halted = none)
    (accepted : ∀ before, before <+: node.coreRun events →
      ¬ node.core.Refuses (node.core.run before).store c.header)
    (verified : c.verify node.core.committee = .ok ()) (sent : .primary (.certificate c) ∈ events)
    (recent : (node.run events).core.gcRound ≤ c.round) :
    node.core.Delivered (node.run events).core c ∨
      c ∈ (node.run events).certificateWaiter.waiting ∧
        ∃ digest ∈ c.header.parents.toList, ¬ node.core.IsGenesis digest := by
  -- a certificate that the Core takes is kept
  have taken : ∀ {before step after input}, events = before ++ .step step :: after →
      (node.run before).input step = some (.core (.core input)) →
      node.core.Processed (node.coreRun events) input (node.run before).core := by
    rintro before step after input rfl takes
    exact processed_of_step admissible running takes
  have unrefused : ∀ {u : Core.State} {input}, node.core.Processed (node.coreRun events) input u →
      ¬ node.core.Refuses u.store c.header := by
    intro u input processed
    obtain ⟨before, earlier, rfl⟩ := processed.reached
    exact accepted before earlier
  obtain ⟨before, step, after, parts, takes⟩ := primaries_taken events (.certificate c) (by
    rw [idle.primaries, List.take_length]
    exact mem_primaryMessages sent)
  have processed := taken parts takes
  have carries : node.core.Carries (node.run before).core (.primaries (.certificate c)) c := by
    refine .primaries (bind_eq_ok_iff.mpr ⟨(), ?_, verified⟩)
    exact ensure_eq_ok_iff.mpr (processed.gcRound.trans (node.core_run events ▸ recent))
  have kept := processed.kept carries (unrefused processed)
  rw [← node.core_run] at kept
  rcases kept with delivered | ⟨suspended, lacks⟩
  · exact .inl delivered
  rcases waits_run (by rwa [idle.suspended, List.take_length]) with waits | returned
  · exact .inr ⟨waits, lacks⟩
  -- what was returned has come again, with its parents
  obtain ⟨before, step, after, parts, takes⟩ := certificateLoopback_taken events c (by
    rwa [idle.returned, List.take_length])
  have processed := taken parts takes
  have delivered := processed.delivered (.certificateWaiter c) (unrefused processed)
    fun digest isParent => .inr (processed.admissible.2 digest isParent)
  rw [← node.core_run] at delivered
  exact .inl delivered

end Model

end PrimaryNode

end Tusk
