import Mathlib.Tactic.SplitIfs

/-!
# Computations that may fail

When a sequence of fallible steps succeeds, each step succeeded. The lemmas turn a successful
`do` block into the list of the conditions it checked.
-/

set_option autoImplicit false

namespace Tusk.Lib

universe u v

variable {ε : Type v} {α β : Type u}

theorem bind_eq_ok_iff {x : Except ε α} {f : α → Except ε β} {b : β} :
    x >>= f = .ok b ↔ ∃ a, x = .ok a ∧ f a = .ok b := by
  cases x with
  | error e => simp [bind, Except.bind]
  | ok a => simp [bind, Except.bind]

theorem mapError_eq_error_iff {ε' : Type*} {x : Except ε α} {f : ε → ε'} {e' : ε'} :
    x.mapError f = .error e' ↔ ∃ e, x = .error e ∧ f e = e' := by
  cases x <;> simp [Except.mapError]

@[simp] theorem mapError_eq_ok_iff {ε' : Type*} {x : Except ε α} {f : ε → ε'} {a : α} :
    x.mapError f = .ok a ↔ x = .ok a := by
  cases x <;> simp [Except.mapError]

/-- A loop of checks succeeds when every check does. -/
theorem forM_eq_ok_iff {γ : Type*} {l : List γ} {f : γ → Except ε PUnit.{u + 1}}
    {result : PUnit} : l.forM f = .ok result ↔ ∀ a ∈ l, f a = .ok ⟨⟩ := by
  induction l with
  | nil => simp [List.forM, pure, Except.pure]
  | cons a l ih =>
      rw [List.forM, bind_eq_ok_iff, List.forall_mem_cons, ← ih]
      exact ⟨fun ⟨_, first, rest⟩ => ⟨first, rest⟩, fun ⟨first, rest⟩ => ⟨_, first, rest⟩⟩

/-- A loop of which every step succeeds collects what the steps return. -/
theorem mapM_eq_ok {γ : Type*} {l : List γ} {f : γ → Except ε β} {g : γ → β}
    (each : ∀ a ∈ l, f a = .ok (g a)) : l.mapM f = .ok (l.map g) := by
  induction l with
  | nil => simp [pure, Except.pure]
  | cons a l ih =>
      obtain ⟨first, rest⟩ := List.forall_mem_cons.mp each
      rw [List.mapM_cons, first, ih rest]
      rfl

/-- A loop of which every step succeeds ends in the state that the steps lead to. -/
theorem foldlM_eq_ok {γ : Type*} {l : List γ} {f : β → γ → Except ε β} {g : β → γ → β}
    (each : ∀ a ∈ l, ∀ b, f b a = .ok (g b a)) (b : β) : l.foldlM f b = .ok (l.foldl g b) := by
  induction l generalizing b with
  | nil => rfl
  | cons a l ih =>
      obtain ⟨first, rest⟩ := List.forall_mem_cons.mp each
      rw [List.foldlM_cons, first, List.foldl_cons]
      exact ih rest (g b a)

end Tusk.Lib
