import Tusk.Store.Task

/-!
# Blocking reads

What the task answers is determined by the writes that come before (`lastWritten`). A read is answered
at once with the value of its key. A read that waits is answered once: at once when its key has a
value, and otherwise by the first later write of the key (`Answered`, `blocking_reads_linearizable`).
So a read waits exactly as long as its key has no value, and a write answers those who wait for its key.
-/

set_option autoImplicit false

namespace Tusk.StoreTask

open Lib

universe u v

variable {κ : Type u} {ν : Type v} [DecidableEq κ] {commands : List (StoreCommand κ ν)} {key : κ}

/-- The value of a key after a command. -/
def valueAfter (key : κ) (last : Option ν) : StoreCommand κ ν → Option ν
  | .write other value => if other = key then some value else last
  | .read _ => last
  | .notifyRead _ => last

/-- The last value written to a key. -/
def lastWritten (commands : List (StoreCommand κ ν)) (key : κ) : Option ν :=
  commands.foldl (valueAfter key) none

theorem lastWritten_snoc (commands : List (StoreCommand κ ν)) (command : StoreCommand κ ν) (key : κ) :
    lastWritten (commands ++ [command]) key = valueAfter key (lastWritten commands key) command := by
  rw [lastWritten, List.foldl_append]
  rfl

/-- A key has no value as long as it is not written. -/
theorem lastWritten_eq_none_iff :
    lastWritten commands key = none ↔ ∀ value, .write key value ∉ commands := by
  induction commands using List.reverseRecOn with
  | nil => simp [lastWritten]
  | append_singleton commands command ih =>
      rw [lastWritten_snoc]
      cases command with
      | write other value =>
          by_cases same : other = key
          · subst same
            have written : ¬ ∀ value', .write other value' ∉ commands ++ [.write other value] :=
              fun absent => absent value (List.mem_append_right _ (List.mem_singleton_self _))
            simpa [valueAfter] using written
          · simp [valueAfter, ih, same, Ne.symm same]
      | read other => simp [valueAfter, ih]
      | notifyRead other => simp [valueAfter, ih]

/-- A key that has a value keeps one. -/
theorem lastWritten_take_eq_none (absent : lastWritten commands key = none) (n : ℕ) :
    lastWritten (commands.take n) key = none :=
  lastWritten_eq_none_iff.mpr fun value member =>
    lastWritten_eq_none_iff.mp absent value (List.mem_of_mem_take member)

/-- **What a command is answered**, and by which command: a read by itself, and a read that waits by
itself or by the first later write of its key. -/
inductive Answered (commands : List (StoreCommand κ ν)) : Answer ν → Prop where
  | read {i : ℕ} {key : κ} (asked : commands[i]? = some (.read key)) :
      Answered commands ⟨i, i, .read (lastWritten (commands.take i) key)⟩
  | present {i : ℕ} {key : κ} {value : ν} (asked : commands[i]? = some (.notifyRead key))
      (found : lastWritten (commands.take i) key = some value) :
      Answered commands ⟨i, i, .notifyRead value⟩
  | later {i j : ℕ} {key : κ} {value : ν} (asked : commands[i]? = some (.notifyRead key))
      (after : i < j) (written : commands[j]? = some (.write key value))
      (first : lastWritten (commands.take j) key = none) :
      Answered commands ⟨j, i, .notifyRead value⟩

/-- What is known after a sequence of commands. -/
structure Serves (commands : List (StoreCommand κ ν)) (s : History κ ν) : Prop where
  handled : s.handled = commands.length
  db : ∀ key, HashMap.get s.task.db key = lastWritten commands key
  waiters : ∀ key i, i ∈ s.task.waiters key ↔
    commands[i]? = some (.notifyRead key) ∧ lastWritten commands key = none
  once : ∀ key, (s.task.waiters key).Nodup
  answers : ∀ answer, answer ∈ s.answers ↔ Answered commands answer
  distinct : (s.answers.map Answer.sender).Nodup

/-! ## The last command -/

/-- What the last command answers to whom. -/
inductive Sends (commands : List (StoreCommand κ ν)) :
    StoreCommand κ ν → ℕ → StoreResponse ν → Prop where
  | read (key : κ) :
      Sends commands (.read key) commands.length (.read (lastWritten commands key))
  | present {key : κ} {value : ν} (found : lastWritten commands key = some value) :
      Sends commands (.notifyRead key) commands.length (.notifyRead value)
  | later {i : ℕ} {key : κ} {value : ν} (asked : commands[i]? = some (.notifyRead key))
      (first : lastWritten commands key = none) :
      Sends commands (.write key value) i (.notifyRead value)

omit [DecidableEq κ] in
/-- The places of a longer sequence. -/
theorem getElem?_snoc_iff {i : ℕ} {command last : StoreCommand κ ν} :
    (commands ++ [last])[i]? = some command ↔
      commands[i]? = some command ∨ (i = commands.length ∧ last = command) := by
  rcases lt_trichotomy i commands.length with inside | rfl | outside
  · rw [List.getElem?_append_left inside]
    simp [inside.ne]
  · simp
  · have short : (commands ++ [last]).length ≤ i := by
      rw [List.length_append, List.length_singleton]
      exact outside
    simp [List.getElem?_eq_none short, List.getElem?_eq_none outside.le, outside.ne']

omit [DecidableEq κ] in
theorem take_snoc {i : ℕ} {command last : StoreCommand κ ν} (found : commands[i]? = some command) :
    (commands ++ [last]).take i = commands.take i :=
  List.take_append_of_le_length (List.getElem?_eq_some_iff.mp found).1.le

/-- What was answered before is still answered. -/
theorem Answered.snoc {answer : Answer ν} (answered : Answered commands answer)
    (last : StoreCommand κ ν) : Answered (commands ++ [last]) answer := by
  cases answered with
  | read asked =>
      have earlier : (commands ++ [last]).take _ = commands.take _ := take_snoc asked
      rw [← earlier]
      exact .read (getElem?_snoc_iff.mpr (.inl asked))
  | present asked found =>
      have earlier : (commands ++ [last]).take _ = commands.take _ := take_snoc asked
      rw [← earlier] at found
      exact .present (getElem?_snoc_iff.mpr (.inl asked)) found
  | later asked after written first =>
      have earlier : (commands ++ [last]).take _ = commands.take _ := take_snoc written
      rw [← earlier] at first
      exact .later (getElem?_snoc_iff.mpr (.inl asked)) after
        (getElem?_snoc_iff.mpr (.inl written)) first

/-- What the last command answers is answered. -/
theorem Sends.answered {last : StoreCommand κ ν} {i : ℕ} {response : StoreResponse ν}
    (sends : Sends commands last i response) :
    Answered (commands ++ [last]) ⟨commands.length, i, response⟩ := by
  have own : ∀ last : StoreCommand κ ν, (commands ++ [last])[commands.length]? = some last :=
    fun last => getElem?_snoc_iff.mpr (.inr ⟨rfl, rfl⟩)
  cases sends with
  | read key =>
      have answered := Answered.read (own (.read key))
      rwa [List.take_left] at answered
  | present found => exact .present (own _) (by rwa [List.take_left])
  | later asked first =>
      exact .later (getElem?_snoc_iff.mpr (.inl asked)) (List.getElem?_eq_some_iff.mp asked).1 (own _)
        (by rwa [List.take_left])

/-- The last command answers beside what was answered before. -/
theorem answered_snoc_iff {last : StoreCommand κ ν} {answer : Answer ν} :
    Answered (commands ++ [last]) answer ↔ Answered commands answer ∨
      (answer.command = commands.length ∧ Sends commands last answer.sender answer.response) := by
  constructor
  · rintro (@⟨i, key, asked⟩ | @⟨i, key, value, asked, found⟩ |
      @⟨i, j, key, value, asked, after, written, first⟩)
    · rcases getElem?_snoc_iff.mp asked with before | ⟨rfl, rfl⟩
      · rw [take_snoc before]
        exact .inl (.read before)
      · rw [List.take_left]
        exact .inr ⟨rfl, .read key⟩
    · rcases getElem?_snoc_iff.mp asked with before | ⟨rfl, rfl⟩
      · rw [take_snoc before] at found
        exact .inl (.present before found)
      · rw [List.take_left] at found
        exact .inr ⟨rfl, .present found⟩
    · have early : commands[i]? = some (.notifyRead key) := by
        refine (getElem?_snoc_iff.mp asked).resolve_right fun last => ?_
        have inside := (List.getElem?_eq_some_iff.mp written).1
        rw [List.length_append, List.length_singleton] at inside
        omega
      rcases getElem?_snoc_iff.mp written with before | ⟨rfl, rfl⟩
      · rw [take_snoc before] at first
        exact .inl (.later early after before first)
      · rw [List.take_left] at first
        exact .inr ⟨rfl, .later early first⟩
  · rintro (before | ⟨place, sends⟩)
    · exact before.snoc last
    · obtain ⟨command, sender, response⟩ := answer
      obtain rfl : command = commands.length := place
      exact sends.answered

/-- The sender of an answer is a command that came before. -/
theorem Answered.sender_lt {answer : Answer ν} (answered : Answered commands answer) :
    answer.sender < commands.length := by
  cases answered with
  | read asked => exact (List.getElem?_eq_some_iff.mp asked).1
  | present asked => exact (List.getElem?_eq_some_iff.mp asked).1
  | later asked => exact (List.getElem?_eq_some_iff.mp asked).1

/-- A read that waited is answered because its key has a value. -/
theorem Answered.written {answer : Answer ν} (answered : Answered commands answer)
    (asked : commands[answer.sender]? = some (.notifyRead key)) :
    lastWritten commands key ≠ none := by
  intro absent
  cases answered with
  | read read =>
      cases read.symm.trans asked
  | @present i key' _ waited found =>
      cases waited.symm.trans asked
      rw [lastWritten_take_eq_none absent] at found
      cases found
  | @later i j key' value waited _ written =>
      cases waited.symm.trans asked
      exact lastWritten_eq_none_iff.mp absent value (List.mem_of_getElem? written)

/-- A read that waits is answered once its key has a value. -/
theorem exists_answered {i : ℕ} (asked : commands[i]? = some (.notifyRead key))
    (written : lastWritten commands key ≠ none) :
    ∃ answer, Answered commands answer ∧ answer.sender = i := by
  induction commands using List.reverseRecOn with
  | nil => exact absurd rfl written
  | append_singleton commands last ih =>
      rcases getElem?_snoc_iff.mp asked with before | ⟨rfl, rfl⟩
      · by_cases absent : lastWritten commands key = none
        · rw [lastWritten_snoc] at written
          cases last with
          | write other value =>
              obtain rfl : other = key := by_contra fun different =>
                written (by rw [valueAfter, if_neg different, absent])
              exact ⟨⟨_, i, _⟩, answered_snoc_iff.mpr (.inr ⟨rfl, .later before absent⟩), rfl⟩
          | read other => exact absurd absent written
          | notifyRead other => exact absurd absent written
        · obtain ⟨answer, answered, same⟩ := ih before absent
          exact ⟨answer, answered_snoc_iff.mpr (.inl answered), same⟩
      · rw [lastWritten_snoc] at written
        obtain ⟨value, found⟩ := Option.ne_none_iff_exists'.mp written
        exact ⟨⟨_, _, _⟩, answered_snoc_iff.mpr (.inr ⟨rfl, .present found⟩), rfl⟩

/-! ## Serving -/

section Serving

variable {s : History κ ν}

/-- **The task answers what it should.** -/
theorem Serves.sent_iff (serves : Serves commands s) {last : StoreCommand κ ν} {i : ℕ}
    {response : StoreResponse ν} :
    (i, response) ∈ (s.task.handle false s.handled last).2 ↔ Sends commands last i response := by
  cases last with
  | write key value =>
      rw [handle_write_snd, List.mem_map]
      constructor
      · rintro ⟨waiter, waits, same⟩
        cases same
        obtain ⟨asked, absent⟩ := (serves.waiters key _).mp waits
        exact .later asked absent
      · intro sends
        cases sends with
        | later asked absent => exact ⟨i, (serves.waiters key i).mpr ⟨asked, absent⟩, rfl⟩
  | read key =>
      show (i, response) ∈ [(s.handled, StoreResponse.read (HashMap.get s.task.db key))] ↔ _
      rw [List.mem_singleton, serves.handled, serves.db, Prod.mk.injEq]
      constructor
      · rintro ⟨rfl, rfl⟩
        exact .read key
      · intro sends
        cases sends with
        | read => exact ⟨rfl, rfl⟩
  | notifyRead key =>
      cases found : HashMap.get s.task.db key with
      | none =>
          rw [handle_notifyRead_absent found]
          refine iff_of_false List.not_mem_nil fun sends => ?_
          cases sends with
          | present written =>
              rw [← serves.db, found] at written
              cases written
      | some value =>
          rw [handle_notifyRead_present found, List.mem_singleton, serves.handled, Prod.mk.injEq]
          constructor
          · rintro ⟨rfl, rfl⟩
            exact .present (by rw [← serves.db, found])
          · intro sends
            cases sends with
            | present written =>
                rw [← serves.db, found] at written
                cases written
                exact ⟨rfl, rfl⟩

/-- The database has the last values. -/
theorem Serves.db_serve (serves : Serves commands s) (last : StoreCommand κ ν) (key : κ) :
    HashMap.get (s.task.handle false s.handled last).1.db key =
      lastWritten (commands ++ [last]) key := by
  rw [lastWritten_snoc, ← serves.db]
  cases last with
  | write other value =>
      rw [db_handle_write, if_neg Bool.false_ne_true, HashMap.get_insert]
      simp only [valueAfter, eq_comm]
  | read other => rfl
  | notifyRead other =>
      cases found : HashMap.get s.task.db other with
      | none =>
          rw [handle_notifyRead_absent found]
          rfl
      | some value =>
          rw [handle_notifyRead_present found]
          rfl

/-- Who waits for a key after a command. -/
theorem Serves.waiters_serve (serves : Serves commands s) (last : StoreCommand κ ν) (key : κ) :
    (s.task.handle false s.handled last).1.waiters key =
      match last with
      | .write other _ => if key = other then [] else s.task.waiters key
      | .read _ => s.task.waiters key
      | .notifyRead other =>
          if key = other ∧ lastWritten commands key = none then
            s.task.waiters key ++ [commands.length]
          else s.task.waiters key := by
  cases last with
  | write other value => exact waiters_handle_write
  | read other => rfl
  | notifyRead other =>
      dsimp only
      cases found : HashMap.get s.task.db other with
      | none =>
          rw [handle_notifyRead_absent found, serves.handled]
          rw [serves.db] at found
          refine waiters_register.trans ?_
          by_cases same : key = other
          · subst same
            simp [found]
          · simp [same]
      | some value =>
          rw [handle_notifyRead_present found]
          rw [serves.db] at found
          refine (if_neg ?_).symm
          rintro ⟨rfl, absent⟩
          rw [absent] at found
          cases found

theorem Serves.mem_waiters_serve (serves : Serves commands s) (last : StoreCommand κ ν) (key : κ)
    (i : ℕ) : i ∈ (s.task.handle false s.handled last).1.waiters key ↔
      (commands ++ [last])[i]? = some (.notifyRead key) ∧
        lastWritten (commands ++ [last]) key = none := by
  rw [serves.waiters_serve, lastWritten_snoc, getElem?_snoc_iff]
  cases last with
  | write other value =>
      dsimp only [valueAfter]
      by_cases same : key = other
      · simp [same]
      · simp [same, Ne.symm same, serves.waiters]
  | read other => simp [valueAfter, serves.waiters]
  | notifyRead other =>
      dsimp only [valueAfter]
      by_cases added : key = other ∧ lastWritten commands key = none
      · obtain ⟨rfl, absent⟩ := added
        simp [absent, serves.waiters]
      · rw [if_neg added, serves.waiters]
        constructor
        · exact fun waits => ⟨.inl waits.1, waits.2⟩
        · rintro ⟨before | ⟨_, same⟩, absent⟩
          · exact ⟨before, absent⟩
          · cases same
            exact absurd ⟨rfl, absent⟩ added

theorem Serves.waiters_nodup (serves : Serves commands s) (last : StoreCommand κ ν) (key : κ) :
    ((s.task.handle false s.handled last).1.waiters key).Nodup := by
  rw [serves.waiters_serve]
  cases last with
  | write other value =>
      dsimp only
      split
      · exact List.nodup_nil
      · exact serves.once key
  | read other => exact serves.once key
  | notifyRead other =>
      dsimp only
      split
      · refine (serves.once key).append (List.nodup_singleton _) ?_
        intro i waits last
        obtain rfl := List.mem_singleton.mp last
        have inside := List.getElem?_eq_some_iff.mp ((serves.waiters key _).mp waits).1
        exact lt_irrefl _ inside.1
      · exact serves.once key

/-- The last command answers nobody twice, and nobody who was answered before. -/
theorem Serves.senders_nodup (serves : Serves commands s) (last : StoreCommand κ ν) :
    ((s.task.handle false s.handled last).2.map Prod.fst).Nodup := by
  cases last with
  | write key value =>
      rw [handle_write_snd, List.map_map]
      exact (List.map_id (s.task.waiters key)).symm ▸ serves.once key
  | read key => exact List.nodup_singleton _
  | notifyRead key =>
      cases found : HashMap.get s.task.db key with
      | none =>
          rw [handle_notifyRead_absent found]
          exact List.nodup_nil
      | some value =>
          rw [handle_notifyRead_present found]
          exact List.nodup_singleton _

theorem Sends.unanswered {last : StoreCommand κ ν} {answer : Answer ν} {response : StoreResponse ν}
    (sends : Sends commands last answer.sender response) : ¬ Answered commands answer := by
  intro answered
  generalize same : answer.sender = i at sends
  cases sends with
  | read => exact absurd answered.sender_lt (same ▸ lt_irrefl _)
  | present => exact absurd answered.sender_lt (same ▸ lt_irrefl _)
  | later asked absent => exact answered.written (same ▸ asked) absent

/-- **A command keeps what is known.** -/
theorem Serves.serve (serves : Serves commands s) (last : StoreCommand κ ν) :
    Serves (commands ++ [last]) (s.serve last) where
  handled := by
    rw [List.length_append, ← serves.handled]
    rfl
  db := serves.db_serve last
  waiters := serves.mem_waiters_serve last
  once := serves.waiters_nodup last
  answers := by
    intro answer
    rw [answered_snoc_iff, ← serves.answers, History.serve, List.mem_append, List.mem_map]
    refine or_congr Iff.rfl ⟨?_, ?_⟩
    · rintro ⟨⟨i, response⟩, sent, rfl⟩
      exact ⟨serves.handled, serves.sent_iff.mp sent⟩
    · rintro ⟨place, sends⟩
      refine ⟨(answer.sender, answer.response), serves.sent_iff.mpr sends, ?_⟩
      rw [serves.handled, ← place]
  distinct := by
    rw [History.serve, List.map_append, List.map_map]
    refine serves.distinct.append (serves.senders_nodup last) ?_
    intro i old new
    obtain ⟨answer, answered, rfl⟩ := List.mem_map.mp old
    obtain ⟨⟨i, response⟩, sent, rfl⟩ := List.mem_map.mp new
    exact (serves.sent_iff.mp sent).unanswered ((serves.answers _).mp answered)

end Serving

theorem serves_run (commands : List (StoreCommand κ ν)) : Serves commands (run commands) := by
  induction commands using List.reverseRecOn with
  | nil =>
      refine ⟨rfl, fun key => HashMap.get_empty key, fun key i => ?_, fun key => ?_, fun answer => ?_,
        List.nodup_nil⟩
      · simp [run, waiters]
      · simp [run, waiters]
      · refine iff_of_false List.not_mem_nil fun answered => ?_
        exact absurd answered.sender_lt (Nat.not_lt_zero _)
  | append_singleton commands last ih =>
      rw [run_snoc]
      exact ih.serve last

/-- **Blocking reads are linearizable.** The commands are answered once, and as they should be. Nobody
waits for a key that has a value, and a write answers all who wait for its key, in the order in which
they asked, and nobody else. -/
theorem blocking_reads_linearizable (commands : List (StoreCommand κ ν)) :
    (∀ answer, answer ∈ (run commands).answers ↔ Answered commands answer) ∧
      ((run commands).answers.map Answer.sender).Nodup ∧
      (∀ key, (run commands).task.waiters key ≠ [] →
        HashMap.get (run commands).task.db key = none) ∧
      ∀ key value,
        (run (commands ++ [.write key value])).answers = (run commands).answers ++
          ((run commands).task.waiters key).map
            (fun i => ⟨commands.length, i, .notifyRead value⟩) ∧
        ∀ i, i ∈ (run commands).task.waiters key ↔
          commands[i]? = some (.notifyRead key) ∧
            ∀ answer ∈ (run commands).answers, answer.sender ≠ i := by
  have serves := serves_run commands
  refine ⟨serves.answers, serves.distinct, fun key waits => ?_, fun key value => ⟨?_, fun i => ?_⟩⟩
  · obtain ⟨i, waiter⟩ := List.exists_mem_of_ne_nil _ waits
    rw [serves.db]
    exact ((serves.waiters key i).mp waiter).2
  · rw [run_snoc, History.serve, handle_write_snd, serves.handled, List.map_map]
    rfl
  · rw [serves.waiters]
    constructor
    · rintro ⟨asked, absent⟩
      refine ⟨asked, fun answer answered same => ?_⟩
      exact ((serves.answers answer).mp answered).written (same ▸ asked) absent
    · rintro ⟨asked, unanswered⟩
      refine ⟨asked, by_contra fun written => ?_⟩
      obtain ⟨answer, answered, same⟩ := exists_answered asked written
      exact unanswered answer ((serves.answers answer).mpr answered) same

end Tusk.StoreTask
