import Mathlib.Data.List.Induction

/-!
# Runs of a state machine

A machine takes one event after the other, and a run is a list of events. A condition on the
steps relates the state before a step to the event (`Throughout`). What such steps keep is kept
by the run (`Throughout.invariant`).

When a machine keeps a history of what some events bring, the history of a run can be read off the events
(`history_foldl`).

A machine may be made of parts. Each step shows a part some events of its own, and what a run shows it
(`shown`) is a run of the part (`part_foldl`).
-/

set_option autoImplicit false

namespace Tusk.Lib

universe u v w x

variable {σ : Type u} {ε : Type v} {step : σ → ε → σ} {allowed allowed' : σ → ε → Prop}

/-- Every step of the run is allowed in the state it is taken in. -/
def Throughout (step : σ → ε → σ) (allowed : σ → ε → Prop) : σ → List ε → Prop
  | _, [] => True
  | s, event :: events => allowed s event ∧ Throughout step allowed (step s event) events

instance decidableThroughout (step : σ → ε → σ) (allowed : σ → ε → Prop)
    [∀ s event, Decidable (allowed s event)] :
    ∀ s events, Decidable (Throughout step allowed s events)
  | _, [] => inferInstanceAs (Decidable True)
  | s, event :: events =>
      have := decidableThroughout step allowed (step s event) events
      inferInstanceAs (Decidable (_ ∧ _))

namespace Throughout

/-- A condition on the events alone. -/
theorem of_forall {condition : ε → Prop} {events : List ε} (holds : ∀ event ∈ events, condition event)
    (s : σ) : Throughout step (fun _ event => condition event) s events := by
  induction events generalizing s with
  | nil => trivial
  | cons event events ih =>
      obtain ⟨first, rest⟩ := List.forall_mem_cons.mp holds
      exact ⟨first, ih rest (step s event)⟩

protected theorem and {s : σ} {events : List ε} (first : Throughout step allowed s events)
    (second : Throughout step allowed' s events) :
    Throughout step (fun s event => allowed s event ∧ allowed' s event) s events := by
  induction events generalizing s with
  | nil => trivial
  | cons event events ih => exact ⟨⟨first.1, second.1⟩, ih first.2 second.2⟩

protected theorem mono {s : σ} {events : List ε} (throughout : Throughout step allowed s events)
    (weaker : ∀ s event, allowed s event → allowed' s event) :
    Throughout step allowed' s events := by
  induction events generalizing s with
  | nil => trivial
  | cons event events ih => exact ⟨weaker s event throughout.1, ih throughout.2⟩

/-- A run of two parts. -/
theorem append_iff {s : σ} {events more : List ε} :
    Throughout step allowed s (events ++ more) ↔
      Throughout step allowed s events ∧ Throughout step allowed (events.foldl step s) more := by
  induction events generalizing s with
  | nil => exact ⟨fun rest => ⟨trivial, rest⟩, And.right⟩
  | cons event events ih =>
      exact ⟨fun both => ⟨⟨both.1, (ih.mp both.2).1⟩, (ih.mp both.2).2⟩,
        fun parts => ⟨parts.1.1, ih.mpr ⟨parts.1.2, parts.2⟩⟩⟩

/-- A condition on each step and the state it is taken in. -/
theorem of_prefixes {s : σ} {events : List ε}
    (holds : ∀ before event after, events = before ++ event :: after →
      allowed (before.foldl step s) event) : Throughout step allowed s events := by
  induction events generalizing s with
  | nil => trivial
  | cons event events ih =>
      refine ⟨holds [] event events rfl, ih fun before event' after parts => ?_⟩
      exact holds (event :: before) event' after (by rw [parts, List.cons_append])

/-- **What every allowed step keeps is kept by the run.** -/
theorem invariant {s : σ} {events : List ε} (throughout : Throughout step allowed s events)
    (holds : σ → Prop) (start : holds s)
    (keeps : ∀ s event, holds s → allowed s event → holds (step s event)) :
    holds (events.foldl step s) := by
  induction events generalizing s with
  | nil => exact start
  | cons event events ih => exact ih throughout.2 (keeps s event start throughout.1)

/-- What is kept holds in every state a step is taken in. -/
theorem and_invariant {s : σ} {events : List ε} (throughout : Throughout step allowed s events)
    {holds : σ → Prop} (start : holds s)
    (keeps : ∀ s event, holds s → allowed s event → holds (step s event)) :
    Throughout step (fun s event => allowed s event ∧ holds s) s events := by
  induction events generalizing s with
  | nil => trivial
  | cons event events ih =>
      exact ⟨⟨throughout.1, start⟩, ih throughout.2 (keeps s event start throughout.1)⟩

end Throughout

/-! ## Histories -/

section Histories

variable {α : Type w} {β : Type x} {history : σ → List β} {brings : ε → Option α} {number : ℕ → α → β}

/-- **A history that grows by what the events bring** has this in order, each with its number. -/
theorem history_foldl {s : σ} (start : history s = [])
    (keeps : ∀ s event, brings event = none → history (step s event) = history s)
    (grows : ∀ s event a, brings event = some a →
      history (step s event) = history s ++ [number (history s).length a]) (events : List ε) :
    history (events.foldl step s) = (events.filterMap brings).mapIdx number := by
  induction events using List.reverseRecOn with
  | nil => exact start
  | append_singleton events event ih =>
      rw [List.foldl_append, List.foldl_cons, List.foldl_nil, List.filterMap_append]
      cases brought : brings event with
      | none =>
          rw [keeps _ event brought, ih, List.filterMap_cons_none brought, List.filterMap_nil,
            List.append_nil]
      | some a =>
          rw [grows _ event a brought, ih, List.length_mapIdx, List.filterMap_cons_some brought,
            List.filterMap_nil, List.mapIdx_concat]

end Histories

/-! ## Machines made of parts -/

section Parts

variable {τ : Type w} {β : Type x} {view : σ → ε → List β} {part : σ → τ} {sub : τ → β → τ}

/-- What the steps of a run show a part of the machine. -/
def shown (step : σ → ε → σ) (view : σ → ε → List β) : σ → List ε → List β
  | _, [] => []
  | s, event :: events => view s event ++ shown step view (step s event) events

theorem shown_append (s : σ) (events more : List ε) :
    shown step view s (events ++ more) =
      shown step view s events ++ shown step view (events.foldl step s) more := by
  induction events generalizing s with
  | nil => rfl
  | cons event events ih =>
      rw [List.cons_append, shown, shown, ih, List.append_assoc, List.foldl_cons]

/-- What is shown is shown by one of the steps. -/
theorem mem_shown {s : σ} {events : List ε} {b : β} :
    b ∈ shown step view s events ↔ ∃ before event after, events = before ++ event :: after ∧
      b ∈ view (before.foldl step s) event := by
  constructor
  · intro member
    induction events generalizing s with
    | nil => exact absurd member List.not_mem_nil
    | cons event events ih =>
        rcases List.mem_append.mp member with first | later
        · exact ⟨[], event, events, rfl, first⟩
        · obtain ⟨before, event', after, rfl, shows⟩ := ih later
          exact ⟨event :: before, event', after, rfl, shows⟩
  · rintro ⟨before, event, after, rfl, member⟩
    rw [shown_append, shown]
    exact List.mem_append_right _ (List.mem_append_left _ member)

/-- **A run of the machine is a run of the part** on what it is shown. -/
theorem part_foldl (steps : ∀ s event, part (step s event) = (view s event).foldl sub (part s))
    (s : σ) (events : List ε) :
    part (events.foldl step s) = (shown step view s events).foldl sub (part s) := by
  induction events generalizing s with
  | nil => rfl
  | cons event events ih => rw [List.foldl_cons, ih, shown, List.foldl_append, steps]

/-- **What is allowed of the machine allows what the part is shown.** -/
theorem Throughout.shown {allowed : σ → ε → Prop} {allowed' : τ → β → Prop} {s : σ}
    {events : List ε} (throughout : Throughout step allowed s events)
    (steps : ∀ s event, part (step s event) = (view s event).foldl sub (part s))
    (allows : ∀ s event, allowed s event → Throughout sub allowed' (part s) (view s event)) :
    Throughout sub allowed' (part s) (shown step view s events) := by
  induction events generalizing s with
  | nil => trivial
  | cons event events ih =>
      refine append_iff.mpr ⟨allows s event throughout.1, ?_⟩
      rw [← steps]
      exact ih throughout.2

end Parts

end Tusk.Lib
