import Tusk.Lib.Commands

/-!
# Commands on a part of a state

A part of a state can be read and replaced. A command on the part is a command on the whole, which
changes nothing else (`Part.on`). A command on the whole projects to one on the part when it ends
like it and leaves the part as it does, whatever it does to the rest (`Part.Projects`).
-/

set_option autoImplicit false

namespace Tusk.Lib

universe u

/-- A part of a state `σ`. -/
structure Part (σ τ : Type u) where
  read : σ → τ
  replace : σ → τ → σ
  read_replace : ∀ s t, read (replace s t) = t

namespace Part

variable {ε ε' σ τ α β : Type u} (part : Part σ τ)

/-- The command that changes a part of the state. -/
def on (command : Command ε τ α) : Command ε σ α :=
  ExceptT.mk fun s =>
    let ended := Command.outcome command (part.read s)
    (ended.1, part.replace s ended.2)

@[simp] theorem outcome_on (command : Command ε τ α) (s : σ) :
    Command.outcome (part.on command) s =
      ((Command.outcome command (part.read s)).1,
        part.replace s (Command.outcome command (part.read s)).2) := rfl

variable {part}

/-- A command on a part makes one change. -/
theorem on_follows {R : σ → σ → Prop} {pre : σ → Prop} {command : Command ε τ α}
    (step : ∀ s t, R s (part.replace s t)) :
    Command.Follows R pre (part.on command) fun _ _ => True :=
  fun s _ => ⟨.single (step s _), fun _ _ => trivial⟩

variable (part) in
/-- The command does to the part what the other one does. -/
def Projects (command : Command ε σ α) (command' : Command ε τ α) : Prop :=
  ∀ s, (Command.outcome command s).map id part.read = Command.outcome command' (part.read s)

namespace Projects

variable {command : Command ε σ α} {command' : Command ε τ α}

protected theorem on (command : Command ε τ α) : part.Projects (part.on command) command := by
  intro s
  rw [outcome_on, Prod.map_apply, part.read_replace]
  rfl

protected theorem pure (a : α) :
    part.Projects (pure a : Command ε σ α) (pure a : Command ε τ α) :=
  fun _ => rfl

protected theorem ofExcept (result : Except ε α) :
    part.Projects (Command.ofExcept result) (Command.ofExcept result) :=
  fun _ => rfl

protected theorem modify {f : σ → σ} {g : τ → τ} (same : ∀ s, part.read (f s) = g (part.read s)) :
    part.Projects (modify f : Command ε σ PUnit) (modify g) := by
  intro s
  rw [Command.outcome_modify, Command.outcome_modify, Prod.map_apply, same]
  rfl

protected theorem bind {next : α → Command ε σ β} {next' : α → Command ε τ β}
    (first : part.Projects command command') (rest : ∀ a, part.Projects (next a) (next' a)) :
    part.Projects (command >>= next) (command' >>= next') := by
  intro s
  rw [Command.outcome_bind, Command.outcome_bind, ← first s]
  cases Command.outcome command s with
  | mk result s' =>
      cases result with
      | error e => rfl
      | ok a => exact rest a s'

/-- A command may read the whole where the other one reads the part. -/
theorem bind_get {next : σ → Command ε σ α} {next' : τ → Command ε τ α}
    (rest : ∀ s, part.Projects (next s) (next' (part.read s))) :
    part.Projects (get >>= next) (get >>= next') := by
  intro s
  rw [Command.outcome_bind, Command.outcome_bind]
  exact rest s s

protected theorem ite {p p' : Prop} [Decidable p] [Decidable p'] {other : Command ε σ α}
    {other' : Command ε τ α} (same : p ↔ p') (first : part.Projects command command')
    (second : part.Projects other other') :
    part.Projects (if p then command else other) (if p' then command' else other') := by
  by_cases holds : p
  · rw [if_pos holds, if_pos (same.mp holds)]
    exact first
  · rw [if_neg holds, if_neg fun holds' => holds (same.mpr holds')]
    exact second

/-- A change of the rest does not show. -/
theorem unseen {f : σ → σ} {next : PUnit → Command ε σ α}
    (same : ∀ s, part.read (f s) = part.read s) (rest : part.Projects (next ⟨⟩) command') :
    part.Projects (modify f >>= next) command' := by
  intro s
  rw [Command.outcome_bind, Command.outcome_modify, ← same]
  exact rest (f s)

/-- A change of the rest does not show at the end. -/
theorem unseen_last {f : σ → σ} {command : Command ε σ PUnit} {command' : Command ε τ PUnit}
    (projects : part.Projects command command') (same : ∀ s, part.read (f s) = part.read s) :
    part.Projects (command >>= fun _ => modify f) command' := by
  intro s
  rw [Command.outcome_bind, ← projects s]
  cases Command.outcome command s with
  | mk result s' =>
      cases result with
      | error e => rfl
      | ok u =>
          dsimp only
          rw [Command.outcome_modify, Prod.map_apply, Prod.map_apply, same]

protected theorem interruptWith {change : ε → ε'} (projects : part.Projects command command') :
    part.Projects (Command.interruptWith change command)
      (Command.interruptWith change command') := by
  intro s
  rw [Command.outcome_interruptWith, Command.outcome_interruptWith, ← projects s]
  rfl

end Projects

end Part

end Tusk.Lib
