import Tusk.Lib.HashMap

/-!
# The task of the store

One task owns the database and serves the commands of all clients, one after the other. A read that
waits for a key which is not there is registered among the obligations of the key, and the next write
of the key answers it.

The database is a map. A put may fail, and then it leaves the database unchanged. The task does not
look at the result of a put.
-/

set_option autoImplicit false

namespace Tusk

open Lib

universe u v

/-- The commands of the clients. -/
inductive StoreCommand (κ : Type u) (ν : Type v) where
  | write (key : κ) (value : ν)
  | read (key : κ)
  | notifyRead (key : κ)
deriving DecidableEq

/-- What a client is answered. -/
inductive StoreResponse (ν : Type v) where
  | read (value : Option ν)
  | notifyRead (value : ν)
deriving DecidableEq

/-- What the task keeps between two commands. -/
structure StoreTask (κ : Type u) (ν : Type v) where
  /-- The database. -/
  db : HashMap κ ν := ∅
  /-- The senders on which a write of a key is to be announced. -/
  obligations : HashMap κ (List ℕ) := ∅

namespace StoreTask

variable {κ : Type u} {ν : Type v} [DecidableEq κ]

/-- The senders registered under a key. -/
def waiters (task : StoreTask κ ν) (key : κ) : List ℕ :=
  (HashMap.get task.obligations key).getD []

/-- Serve a command whose answer goes to a sender. The result has the answers that are sent, each with
its sender. -/
def handle (task : StoreTask κ ν) (fails : Bool) (sender : ℕ) :
    StoreCommand κ ν → StoreTask κ ν × List (ℕ × StoreResponse ν)
  | .write key value =>
      let db := if fails then task.db else HashMap.insert task.db key value
      match HashMap.get task.obligations key with
      | some senders =>
          (⟨db, HashMap.remove task.obligations key⟩,
            senders.map fun waiter => (waiter, .notifyRead value))
      | none => (⟨db, task.obligations⟩, [])
  | .read key => (task, [(sender, .read (HashMap.get task.db key))])
  | .notifyRead key =>
      match HashMap.get task.db key with
      | none =>
          ({ task with obligations := HashMap.upsert task.obligations key fun senders =>
              senders.getD [] ++ [sender] }, [])
      | some value => (task, [(sender, .notifyRead value)])

/-! ## What a command does -/

section Handle

variable {task : StoreTask κ ν} {fails : Bool} {sender : ℕ} {key other : κ} {value : ν}

/-- A write answers the waiters of its key. -/
theorem handle_write_snd :
    (task.handle fails sender (.write key value)).2 =
      (task.waiters key).map fun waiter => (waiter, .notifyRead value) := by
  unfold handle waiters
  dsimp only
  cases HashMap.get task.obligations key <;> rfl

/-- Nobody waits for a key once it is written. -/
theorem waiters_handle_write :
    (task.handle fails sender (.write key value)).1.waiters other =
      if other = key then [] else task.waiters other := by
  unfold handle
  dsimp only
  cases found : HashMap.get task.obligations key with
  | none =>
      show (HashMap.get task.obligations other).getD [] = _
      split_ifs with same
      · rw [same, found, Option.getD_none]
      · rfl
  | some senders =>
      show (HashMap.get (HashMap.remove task.obligations key) other).getD [] = _
      rw [HashMap.get_remove]
      split_ifs <;> rfl

theorem db_handle_write :
    (task.handle fails sender (.write key value)).1.db =
      if fails then task.db else HashMap.insert task.db key value := by
  unfold handle
  dsimp only
  cases HashMap.get task.obligations key <;> rfl

/-- A read that waits for an absent key is registered. -/
theorem handle_notifyRead_absent (absent : HashMap.get task.db key = none) :
    task.handle fails sender (.notifyRead key) =
      (⟨task.db, HashMap.upsert task.obligations key fun senders =>
        senders.getD [] ++ [sender]⟩, []) := by
  unfold handle
  simp only [absent]

/-- A read that waits for a key that is there is answered. -/
theorem handle_notifyRead_present (present : HashMap.get task.db key = some value) :
    task.handle fails sender (.notifyRead key) = (task, [(sender, .notifyRead value)]) := by
  unfold handle
  simp only [present]

theorem waiters_register :
    waiters ⟨task.db, HashMap.upsert task.obligations key fun senders =>
      senders.getD [] ++ [sender]⟩ other =
      if other = key then task.waiters key ++ [sender] else task.waiters other := by
  unfold waiters
  rw [HashMap.get_upsert]
  split_ifs <;> rfl

end Handle

/-! ## Runs -/

/-- An answer, with the places of the command that sends it and of the command it answers. -/
structure Answer (ν : Type v) where
  command : ℕ
  sender : ℕ
  response : StoreResponse ν
deriving DecidableEq

/-- The task and everything it has answered. -/
structure History (κ : Type u) (ν : Type v) where
  task : StoreTask κ ν := {}
  handled : ℕ := 0
  answers : List (Answer ν) := []

/-- Serve the next command. Its sender is its place among the commands. -/
def History.serve (s : History κ ν) (command : StoreCommand κ ν) : History κ ν where
  task := (s.task.handle false s.handled command).1
  handled := s.handled + 1
  answers := s.answers ++ (s.task.handle false s.handled command).2.map fun sent =>
    ⟨s.handled, sent.1, sent.2⟩

/-- Serve the commands of all clients, in the order in which they arrive. No put fails. -/
def run (commands : List (StoreCommand κ ν)) : History κ ν := commands.foldl History.serve {}

theorem run_snoc (commands : List (StoreCommand κ ν)) (command : StoreCommand κ ν) :
    run (commands ++ [command]) = (run commands).serve command := by
  rw [run, List.foldl_append]
  rfl

end StoreTask

end Tusk
