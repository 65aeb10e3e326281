import Mathlib.Logic.Relation
import Tusk.Lib.Runs

/-!
# Progress of a state machine

A machine may be brought from one state to another when some events of a kind lead there (`Leads`). If
from every state that satisfies an invariant such events lead to one where a measure is smaller, as long
as it is positive, then they lead to a state where it is zero (`leads_to_zero`).
-/

set_option autoImplicit false

namespace Tusk.Lib

universe u v

variable {σ : Type u} {ε : Type v}

/-- Events of a kind lead from one state to another. -/
def Leads (step : σ → ε → σ) (allowed : ε → Prop) : σ → σ → Prop :=
  Relation.ReflTransGen fun s t => ∃ event, allowed event ∧ step s event = t

namespace Leads

variable {step : σ → ε → σ} {allowed : ε → Prop} {s t : σ}

/-- One event. -/
theorem single {event : ε} (allows : allowed event) : Leads step allowed s (step s event) :=
  Relation.ReflTransGen.single ⟨event, allows, rfl⟩

/-- The events that lead to a state. -/
theorem exists_events (leads : Leads step allowed s t) :
    ∃ events : List ε, (∀ event ∈ events, allowed event) ∧ events.foldl step s = t := by
  induction leads with
  | refl => exact ⟨[], fun _ member => absurd member List.not_mem_nil, rfl⟩
  | tail _ last ih =>
      obtain ⟨events, allows, rfl⟩ := ih
      obtain ⟨event, allow, rfl⟩ := last
      refine ⟨events ++ [event], fun other member => ?_, by simp⟩
      rcases List.mem_append.mp member with before | new
      · exact allows other before
      · rw [List.mem_singleton.mp new]
        exact allow

end Leads

/-- **A measure that can always be made smaller can be brought to zero.** -/
theorem leads_to_zero {step : σ → ε → σ} {allowed : ε → Prop} (holds : σ → Prop) (measure : σ → ℕ)
    (descends : ∀ s, holds s → 0 < measure s →
      ∃ t, Leads step allowed s t ∧ holds t ∧ measure t < measure s)
    (s : σ) (start : holds s) : ∃ t, Leads step allowed s t ∧ holds t ∧ measure t = 0 := by
  induction bound : measure s using Nat.strongRecOn generalizing s with
  | ind n ih =>
      rcases Nat.eq_zero_or_pos n with zero | positive
      · exact ⟨s, .refl, start, bound.trans zero⟩
      · obtain ⟨t, leads, keeps, smaller⟩ := descends s start (bound ▸ positive)
        obtain ⟨u, leads', keeps', zero⟩ := ih (measure t) (bound ▸ smaller) t keeps rfl
        exact ⟨u, leads.trans leads', keeps', zero⟩

end Tusk.Lib
