import Mathlib.Logic.Relation
import Tusk.Lib.Results

/-!
# Commands

A command reads and changes a state, and it ends with a value or is interrupted. What it changed
before it was interrupted stays changed, as in a program whose errors are returned and whose
state is not rolled back.

`Follows R pre command post` says that, from a state with `pre`, the command moves through the
states by steps of the relation `R`, whether it is interrupted or not, and that a value it returns
satisfies `post` in the state it is returned in. The relation lists once what a program can do to
its state. An invariant of the relation is then an invariant of every command that follows it
(`Follows.keeps`), and no further proof about the invariant looks at the program.

`Raises pre command reason` says that, from a state with `pre`, the command is interrupted for no
other reason.
-/

set_option autoImplicit false

namespace Tusk.Lib

universe u

/-- A program on the state `σ` that may be interrupted with an `ε`. -/
abbrev Command (ε σ α : Type u) : Type u := ExceptT ε (StateM σ) α

namespace Command

variable {ε ε' σ α β : Type u}

/-- How the command ends, and the state it leaves. -/
def outcome (command : Command ε σ α) (s : σ) : Except ε α × σ := (ExceptT.run command).run s

/-- The command that ends like a computation without a state. -/
def ofExcept (result : Except ε α) : Command ε σ α := ExceptT.mk (pure result)

/-- The command with another reason for its interruption. -/
def interruptWith (change : ε → ε') (command : Command ε σ α) : Command ε' σ α :=
  ExceptT.adapt change command

/-! ## Outcomes -/

/-- Commands with the same outcomes are the same. -/
theorem ext {command command' : Command ε σ α}
    (alike : ∀ s, outcome command s = outcome command' s) : command = command' :=
  funext alike

@[simp] theorem outcome_get (s : σ) : outcome (get : Command ε σ σ) s = (.ok s, s) := rfl

@[simp] theorem outcome_modify (f : σ → σ) (s : σ) :
    outcome (modify f : Command ε σ PUnit) s = (.ok ⟨⟩, f s) := rfl

@[simp] theorem outcome_ofExcept (result : Except ε α) (s : σ) :
    outcome (ofExcept result : Command ε σ α) s = (result, s) := rfl

theorem outcome_bind (command : Command ε σ α) (next : α → Command ε σ β) (s : σ) :
    outcome (command >>= next) s =
      match outcome command s with
      | (.ok a, s') => outcome (next a) s'
      | (.error e, s') => (.error e, s') := by
  unfold outcome ExceptT.run StateT.run
  simp only [bind, ExceptT.bind, ExceptT.mk, StateT.bind, ExceptT.bindCont]
  cases command s with
  | mk result s' => cases result <;> rfl

theorem outcome_interruptWith (change : ε → ε') (command : Command ε σ α) (s : σ) :
    outcome (interruptWith change command) s =
      ((outcome command s).1.mapError change, (outcome command s).2) := by
  unfold outcome interruptWith ExceptT.adapt ExceptT.run StateT.run
  cases found : command s with
  | mk result s' =>
      cases result <;> simp [ExceptT.mk, Functor.map, StateT.map, found, Except.mapError]

theorem interruptWith_congr {change : ε → ε'} {command command' : Command ε σ α} {s : σ}
    (alike : outcome command s = outcome command' s) :
    outcome (interruptWith change command) s = outcome (interruptWith change command') s := by
  rw [outcome_interruptWith, outcome_interruptWith, alike]

/-- Two continuations that end alike wherever the first command returns. -/
theorem outcome_bind_congr {command : Command ε σ α} {next next' : α → Command ε σ β} {s : σ}
    (alike : ∀ a, (outcome command s).1 = .ok a →
      outcome (next a) (outcome command s).2 = outcome (next' a) (outcome command s).2) :
    outcome (command >>= next) s = outcome (command >>= next') s := by
  rw [outcome_bind, outcome_bind]
  cases found : outcome command s with
  | mk result s' =>
      rw [found] at alike
      cases result with
      | error e => rfl
      | ok a => exact alike a rfl

/-! ## Following a relation -/

/-- What a step keeps is kept by any number of steps. -/
theorem kept_of_steps {R : σ → σ → Prop} {invariant : σ → Prop}
    (step : ∀ s s', R s s' → invariant s → invariant s') {s s' : σ}
    (steps : Relation.ReflTransGen R s s') (holds : invariant s) : invariant s' := by
  induction steps with
  | refl => exact holds
  | tail _ next ih => exact step _ _ next ih

/-- Steps are steps of another relation that has them wherever an invariant holds. -/
theorem steps_mono {R R' : σ → σ → Prop} {invariant : σ → Prop}
    (step : ∀ s s', R s s' → invariant s → invariant s')
    (includes : ∀ s s', R s s' → invariant s → R' s s') {s s' : σ}
    (steps : Relation.ReflTransGen R s s') (holds : invariant s) :
    Relation.ReflTransGen R' s s' := by
  induction steps with
  | refl => exact .refl
  | tail front next ih => exact ih.tail (includes _ _ next (kept_of_steps step front holds))

/-- From a state with `pre` the command moves by steps of `R`, and a value it returns satisfies
`post`. -/
def Follows (R : σ → σ → Prop) (pre : σ → Prop) (command : Command ε σ α)
    (post : α → σ → Prop) : Prop :=
  ∀ s, pre s → Relation.ReflTransGen R s (outcome command s).2 ∧
    ∀ a, (outcome command s).1 = .ok a → post a (outcome command s).2

namespace Follows

variable {R : σ → σ → Prop} {pre pre' : σ → Prop} {post post' : α → σ → Prop}
  {command : Command ε σ α}

theorem weaken (follows : Follows R pre command post) (before : ∀ s, pre' s → pre s)
    (after : ∀ a s, post a s → post' a s) : Follows R pre' command post' := by
  intro s holds
  obtain ⟨steps, returns⟩ := follows s (before s holds)
  exact ⟨steps, fun a found => after a _ (returns a found)⟩

theorem mono {R' : σ → σ → Prop} (follows : Follows R pre command post)
    (includes : ∀ s s', R s s' → R' s s') : Follows R' pre command post := by
  intro s holds
  obtain ⟨steps, returns⟩ := follows s holds
  exact ⟨Relation.ReflTransGen.mono includes _ _ steps, returns⟩

protected theorem pure {a : α} (holds : ∀ s, pre s → post a s) :
    Follows R pre (pure a : Command ε σ α) post := by
  intro s before
  refine ⟨.refl, fun a' found => ?_⟩
  cases found
  exact holds s before

protected theorem ofExcept {result : Except ε α}
    (holds : ∀ a, result = .ok a → ∀ s, pre s → post a s) :
    Follows R pre (ofExcept result) post := by
  intro s before
  exact ⟨.refl, fun a found => holds a found s before⟩

protected theorem modify {f : σ → σ} {post : PUnit → σ → Prop} (step : ∀ s, pre s → R s (f s))
    (holds : ∀ s, pre s → post ⟨⟩ (f s)) :
    Follows R pre (modify f : Command ε σ PUnit) post := by
  intro s before
  exact ⟨.single (step s before), fun _ _ => holds s before⟩

protected theorem bind {next : α → Command ε σ β} {final : β → σ → Prop}
    (first : Follows R pre command post) (rest : ∀ a, Follows R (post a) (next a) final) :
    Follows R pre (command >>= next) final := by
  intro s before
  obtain ⟨steps, returns⟩ := first s before
  rw [outcome_bind]
  cases found : outcome command s with
  | mk result s' =>
      rw [found] at steps returns
      cases result with
      | error e => exact ⟨steps, fun _ impossible => nomatch impossible⟩
      | ok a =>
          obtain ⟨more, last⟩ := rest a s' (returns a rfl)
          exact ⟨steps.trans more, last⟩

/-- The rest of a command knows that the state it was given is the state it is in. -/
theorem bind_get {next : σ → Command ε σ α}
    (rest : ∀ s, Follows R (fun s' => s = s' ∧ pre s') (next s) post) :
    Follows R pre (get >>= next) post := by
  intro s before
  rw [outcome_bind]
  exact rest s s ⟨rfl, before⟩

/-- The rest of a command goes on in the changed state. -/
theorem bind_modify {f : σ → σ} {next : PUnit → Command ε σ α} (between : σ → Prop)
    (step : ∀ s, pre s → R s (f s)) (holds : ∀ s, pre s → between (f s))
    (rest : Follows R between (next ⟨⟩) post) : Follows R pre (modify f >>= next) post :=
  .bind (.modify step holds) fun _ => rest

/-- The rest of a command knows what a check found. -/
theorem bind_ofExcept {result : Except ε β} {next : β → Command ε σ α}
    (rest : ∀ b, result = .ok b → Follows R pre (next b) post) :
    Follows R pre (ofExcept result >>= next) post := by
  intro s before
  rw [outcome_bind]
  cases found : result with
  | error e => exact ⟨.refl, fun _ impossible => nomatch impossible⟩
  | ok b => exact rest b found s before

protected theorem interruptWith {change : ε → ε'} (follows : Follows R pre command post) :
    Follows R pre (interruptWith change command) post := by
  intro s before
  obtain ⟨steps, returns⟩ := follows s before
  rw [outcome_interruptWith]
  exact ⟨steps, fun a found => returns a (mapError_eq_ok_iff.mp found)⟩

/-- What every step keeps may be carried through a command. -/
theorem frame {invariant : σ → Prop} (follows : Follows R pre command post)
    (step : ∀ s s', R s s' → invariant s → invariant s') :
    Follows R (fun s => pre s ∧ invariant s) command (fun a s => post a s ∧ invariant s) := by
  intro s before
  obtain ⟨steps, returns⟩ := follows s before.1
  exact ⟨steps, fun a found => ⟨returns a found, kept_of_steps step steps before.2⟩⟩

/-- What every step keeps may be used to follow another relation. -/
theorem frame_mono {R' : σ → σ → Prop} {invariant : σ → Prop} (follows : Follows R pre command post)
    (step : ∀ s s', R s s' → invariant s → invariant s')
    (includes : ∀ s s', R s s' → invariant s → R' s s') :
    Follows R' (fun s => pre s ∧ invariant s) command (fun a s => post a s ∧ invariant s) := by
  intro s before
  obtain ⟨steps, returns⟩ := follows.frame step s before
  exact ⟨steps_mono step includes steps before.2, returns⟩

/-- **An invariant of the relation is kept by a command that follows it.** -/
theorem keeps {invariant : σ → Prop} (follows : Follows R pre command post)
    (step : ∀ s s', R s s' → invariant s → invariant s') {s : σ} (before : pre s)
    (holds : invariant s) : invariant (outcome command s).2 :=
  kept_of_steps step (follows s before).1 holds

end Follows

/-! ## Interruptions -/

/-- From a state with `pre` the command is interrupted for no other reason. -/
def Raises (pre : σ → Prop) (command : Command ε σ α) (reason : ε → Prop) : Prop :=
  ∀ s, pre s → ∀ e, (outcome command s).1 = .error e → reason e

namespace Raises

variable {pre pre' : σ → Prop} {command : Command ε σ α} {reason : ε → Prop}

theorem weaken {reason' : ε → Prop} (raises : Raises pre command reason)
    (before : ∀ s, pre' s → pre s) (after : ∀ e, reason e → reason' e) :
    Raises pre' command reason' :=
  fun s holds e found => after e (raises s (before s holds) e found)

protected theorem pure {a : α} : Raises pre (pure a : Command ε σ α) reason :=
  fun _ _ _ impossible => nomatch impossible

protected theorem modify {f : σ → σ} : Raises pre (modify f : Command ε σ PUnit) reason :=
  fun _ _ _ impossible => nomatch impossible

protected theorem ofExcept {result : Except ε α}
    (holds : ∀ e, result = .error e → ∀ s, pre s → reason e) :
    Raises pre (ofExcept result) reason :=
  fun s before e found => holds e found s before

/-- The rest of a command is interrupted from where the first part returns. -/
protected theorem bind {R : σ → σ → Prop} {post : α → σ → Prop} {next : α → Command ε σ β}
    (first : Raises pre command reason) (returns : Follows R pre command post)
    (rest : ∀ a, Raises (post a) (next a) reason) : Raises pre (command >>= next) reason := by
  intro s before e found
  rw [outcome_bind] at found
  obtain ⟨-, holds⟩ := returns s before
  have raised := first s before
  cases ended : outcome command s with
  | mk result s' =>
      rw [ended] at found holds raised
      cases result with
      | error e' =>
          cases found
          exact raised e rfl
      | ok a => exact rest a s' (holds a rfl) e found

/-- The rest of a command is interrupted from anywhere. -/
theorem andThen {next : α → Command ε σ β} (first : Raises pre command reason)
    (rest : ∀ a, Raises (fun _ => True) (next a) reason) : Raises pre (command >>= next) reason := by
  have anywhere : Follows (fun _ _ => True) pre command fun _ _ => True :=
    fun _ _ => ⟨.single trivial, fun _ _ => trivial⟩
  exact first.bind anywhere rest

theorem bind_get {next : σ → Command ε σ α}
    (rest : ∀ s, Raises (fun s' => s = s' ∧ pre s') (next s) reason) :
    Raises pre (get >>= next) reason := by
  intro s before e found
  rw [outcome_bind] at found
  exact rest s s ⟨rfl, before⟩ e found

theorem bind_modify {f : σ → σ} {next : PUnit → Command ε σ α} (between : σ → Prop)
    (holds : ∀ s, pre s → between (f s)) (rest : Raises between (next ⟨⟩) reason) :
    Raises pre (modify f >>= next) reason := by
  intro s before e found
  rw [outcome_bind] at found
  exact rest (f s) (holds s before) e found

theorem bind_ofExcept {result : Except ε β} {next : β → Command ε σ α}
    (fails : ∀ e, result = .error e → ∀ s, pre s → reason e)
    (rest : ∀ b, result = .ok b → Raises pre (next b) reason) :
    Raises pre (ofExcept result >>= next) reason := by
  intro s before e found
  rw [outcome_bind] at found
  cases ended : result with
  | error e' =>
      rw [ended] at found
      cases found
      exact fails e ended s before
  | ok b =>
      rw [ended] at found
      exact rest b ended s before e found

protected theorem interruptWith {change : ε → ε'} {reason' : ε' → Prop}
    (raises : Raises pre command reason) (changed : ∀ e, reason e → reason' (change e)) :
    Raises pre (interruptWith change command) reason' := by
  intro s before e found
  rw [outcome_interruptWith] at found
  have raised := raises s before
  cases ended : (outcome command s).1 with
  | error e' =>
      rw [ended] at found
      cases found
      exact changed e' (raised e' ended)
  | ok a =>
      rw [ended] at found
      cases found

end Raises

end Command

end Tusk.Lib
