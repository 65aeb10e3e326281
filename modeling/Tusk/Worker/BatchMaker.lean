import Tusk.Config
import Tusk.Lib.Runs

/-!
# The batch maker

The `BatchMaker` of a worker assembles the transactions of the clients into batches. It waits for three
things: a change of the flag that pauses it, a transaction, and its timer, and looks for them in this
order. While it is paused it waits for a change only. A batch is sealed when it has the preferred size,
or when the timer fires.

In the build with the `benchmark` feature the first byte of every transaction is looked at when a batch
is sealed. A transaction may be empty, and then sealing panics (`batch_of_empty_transaction`).
`batching_exact_iff` says which runs do what they should.
-/

set_option autoImplicit false

namespace Tusk

open Lib

abbrev Transaction := List UInt8

abbrev Batch := List Transaction

/-- What the `QuorumWaiter` is sent: a batch, and the authorities whose acknowledgements are awaited. -/
structure QuorumWaiterMessage where
  batch : Batch
  handlers : List PublicKey

/-- Assemble clients transactions into batches. -/
structure BatchMaker where
  /-- The preferred batch size (in bytes). -/
  batchSize : ℕ
  /-- The network addresses of the other workers that share our worker id. -/
  workersAddresses : List (PublicKey × SocketAddr)
  /-- Whether this is the build with the `benchmark` feature. -/
  benchmark : Bool

namespace BatchMaker

/-- Where the loop waits. -/
inductive Point where
  /-- At the top of the loop. -/
  | top
  /-- For a change, while it is paused. -/
  | silent
  /-- In the `select`. -/
  | select
deriving DecidableEq

inductive Status where
  | running
  | returned
  | panicked
deriving DecidableEq

/-- The state of the task, and of what it shares with others. The channels are histories. -/
structure State where
  /-- The transactions that were put on the channel, and how many of them were received. -/
  rxTransaction : List Transaction := []
  received : ℕ := 0
  /-- Current proposer round and whether local batch production is paused. -/
  rxBatchSilent : ℕ × Bool
  /-- The value was changed and not looked at since. -/
  changed : Bool := false
  /-- The other end of the watch is dropped. -/
  closed : Bool := false
  timerExpired : Bool := false
  /-- Holds the current batch. -/
  currentBatch : Batch := []
  /-- Holds the size of the current batch (in bytes). -/
  currentBatchSize : ℕ := 0
  /-- The batches that were broadcast. -/
  network : List (List SocketAddr × Batch) := []
  txMessage : List QuorumWaiterMessage := []
  point : Point := .top
  status : Status := .running

variable (maker : BatchMaker)

/-- The ids of the sample transactions (they all start with 0 and have the id in the next 8 bytes), or
none when a transaction has no first byte. -/
def txIds : Batch → Option (List (List UInt8))
  | [] => some []
  | [] :: _ => none
  | (first :: bytes) :: batch => do
      let ids ← txIds batch
      if first = 0 ∧ 8 < (first :: bytes).length then
        return bytes.take 8 :: ids
      else
        return ids

/-- `BatchMaker::seal`: seal and broadcast the current batch. -/
def sealBatch (s : State) : State :=
  if maker.benchmark = true ∧ (txIds s.currentBatch).isNone = true then
    { s with status := .panicked }
  else
    { s with
      currentBatchSize := 0
      currentBatch := []
      network := s.network ++ [(maker.workersAddresses.map Prod.snd, s.currentBatch)]
      txMessage := s.txMessage ++ [⟨s.currentBatch, maker.workersAddresses.map Prod.fst⟩] }

def State.resetTimer (s : State) : State := { s with timerExpired := false }

/-- Assemble a transaction into the current batch. -/
def assemble (s : State) (transaction : Transaction) : State :=
  let s := { s with
    currentBatchSize := s.currentBatchSize + transaction.length
    currentBatch := s.currentBatch ++ [transaction] }
  if maker.batchSize ≤ s.currentBatchSize then
    (maker.sealBatch s).resetTimer
  else
    s

/-- The pause flag has changed. -/
def State.seeChange (s : State) : State :=
  let s := { s with changed := false, point := .top }
  if s.rxBatchSilent.2 then s else s.resetTimer

/-- Wait for a change. -/
def pollSilent (s : State) : State :=
  if s.changed then s.seeChange
  else if s.closed then { s with status := .returned }
  else { s with point := .silent }

/-- Wait in the `select`, whose branches are tried in order. -/
def pollSelect (s : State) : State :=
  if s.changed then s.seeChange
  else if s.closed then { s with status := .returned }
  else
    match s.rxTransaction[s.received]? with
    | some transaction =>
        maker.assemble { s with received := s.received + 1, point := .top } transaction
    | none =>
        if s.timerExpired then
          -- If the timer triggers, seal the batch even if it contains few transactions.
          if s.currentBatch.isEmpty then
            State.resetTimer { s with point := .top }
          else
            (maker.sealBatch { s with point := .top }).resetTimer
        else
          { s with point := .select }

/-- Whether the loop waits for a change only. -/
def State.paused (s : State) : Bool :=
  match s.point with
  | .top => s.rxBatchSilent.2
  | .silent => true
  | .select => false

/-- Run the task until it waits again or has done one pass of the loop. -/
def poll (s : State) : State := if s.paused then pollSilent s else maker.pollSelect s

/-- What happens at the task. -/
inductive Event where
  /-- A client sends a transaction. -/
  | transaction (bytes : Transaction)
  /-- The primary pauses or resumes the worker. -/
  | batchSilent (round : ℕ) (silent : Bool)
  /-- The other end of the watch is dropped. -/
  | close
  /-- The timer fires. -/
  | timer
  /-- The task runs. -/
  | poll

/-- The state after an event. -/
def advance (s : State) (event : Event) : State :=
  match s.status with
  | .running =>
      match event with
      | .transaction bytes => { s with rxTransaction := s.rxTransaction ++ [bytes] }
      | .batchSilent round silent => { s with rxBatchSilent := (round, silent), changed := true }
      | .close => { s with closed := true }
      | .timer => { s with timerExpired := true }
      | .poll => maker.poll s
  | .returned => s
  | .panicked => s

/-- The state after a run, from the value the watch has when the task starts. -/
def run (batchSilent : ℕ × Bool) (events : List Event) : State :=
  events.foldl maker.advance { rxBatchSilent := batchSilent }

/-! ## What batching is to preserve -/

/-- The length of all transactions of a batch. -/
def size (batch : Batch) : ℕ := (batch.map List.length).sum

/-- The sealed batches. -/
def State.sealed (s : State) : List Batch := s.txMessage.map QuorumWaiterMessage.batch

/-- What is known of the batches whether or not sealing has panicked. -/
structure Accounts (s : State) : Prop where
  sent : s.received ≤ s.rxTransaction.length
  conserved : s.sealed.flatten ++ s.currentBatch = s.rxTransaction.take s.received
  nonempty : ∀ batch ∈ s.sealed, batch ≠ []
  currentSize : s.currentBatchSize = size s.currentBatch

/-- **Batching preserves the transaction stream.** -/
structure Exact (s : State) : Prop extends Accounts s where
  alive : s.status ≠ .panicked
  short : ∀ batch ∈ s.sealed, size batch.dropLast < maker.batchSize

/-- The batch that is sealed when the task runs. -/
def sealing (s : State) : Option Batch :=
  if s.paused = true ∨ s.changed = true ∨ s.closed = true then
    none
  else
    match s.rxTransaction[s.received]? with
    | some transaction =>
        if maker.batchSize ≤ s.currentBatchSize + transaction.length then
          some (s.currentBatch ++ [transaction])
        else none
    | none => if s.timerExpired = true ∧ s.currentBatch ≠ [] then some s.currentBatch else none

/-- The preferred size is positive when a batch is sealed, and in the build with the `benchmark` feature
no transaction of the batch is empty. -/
def SealsRightly (s : State) (event : Event) : Prop :=
  s.status = .running → event = .poll → ∀ batch, maker.sealing s = some batch →
    0 < maker.batchSize ∧ (maker.benchmark = true → [] ∉ batch)

/-! ## Sealing -/

variable {maker} {s t : State}

theorem txIds_isNone_iff (batch : Batch) : (txIds batch).isNone = true ↔ [] ∈ batch := by
  induction batch with
  | nil => simp [txIds]
  | cons transaction batch ih =>
      cases transaction with
      | nil => simp [txIds]
      | cons first bytes =>
          have same : (txIds ((first :: bytes) :: batch)).isNone = (txIds batch).isNone := by
            rw [txIds]
            cases txIds batch with
            | none => rfl
            | some ids =>
                show Option.isNone (if _ then _ else _) = _
                split_ifs <;> rfl
          rw [same, ih]
          simp

/-- Sealing panics at an empty transaction in the build with the feature. -/
theorem sealBatch_of_empty (benchmark : maker.benchmark = true) (empty : [] ∈ s.currentBatch) :
    maker.sealBatch s = { s with status := .panicked } :=
  if_pos ⟨benchmark, (txIds_isNone_iff _).mpr empty⟩

/-- The current batch becomes a sealed one. -/
structure Seals (s t : State) : Prop where
  batches : t.sealed = s.sealed ++ [s.currentBatch]
  currentBatch : t.currentBatch = []
  currentBatchSize : t.currentBatchSize = 0
  rxTransaction : t.rxTransaction = s.rxTransaction
  received : t.received = s.received
  status : t.status = s.status

/-- Otherwise it succeeds. -/
theorem seals_sealBatch (sound : maker.benchmark = true → [] ∉ s.currentBatch) :
    Seals s (maker.sealBatch s).resetTimer := by
  have succeeds : ¬ (maker.benchmark = true ∧ (txIds s.currentBatch).isNone = true) := fun both =>
    sound both.1 ((txIds_isNone_iff _).mp both.2)
  rw [sealBatch, if_neg succeeds]
  exact ⟨List.map_append, rfl, rfl, rfl, rfl, rfl⟩

theorem size_append (batch : Batch) (transaction : Transaction) :
    size (batch ++ [transaction]) = size batch + transaction.length := by simp [size]

theorem size_dropLast_le (batch : Batch) : size batch.dropLast ≤ size batch :=
  (batch.dropLast_sublist.map List.length).sum_le_sum fun _ _ => Nat.zero_le _

/-! ## What a pass of the loop can do -/

/-- A transaction joins the current batch. -/
def State.push (s : State) (transaction : Transaction) : State :=
  { s with
    received := s.received + 1
    point := .top
    currentBatchSize := s.currentBatchSize + transaction.length
    currentBatch := s.currentBatch ++ [transaction] }

/-- The batches and the received transactions are the same. -/
structure SameBatches (s t : State) : Prop where
  rxTransaction : t.rxTransaction = s.rxTransaction
  received : t.received = s.received
  currentBatch : t.currentBatch = s.currentBatch
  currentBatchSize : t.currentBatchSize = s.currentBatchSize
  txMessage : t.txMessage = s.txMessage

/-- What the task can do when it runs. -/
inductive Polls (maker : BatchMaker) (s : State) : State → Prop where
  | idle {t : State} (none : maker.sealing s = none) (same : SameBatches s t)
      (alive : t.status ≠ .panicked) : Polls maker s t
  | push {transaction : Transaction} (none : maker.sealing s = none)
      (next : s.rxTransaction[s.received]? = some transaction)
      (small : s.currentBatchSize + transaction.length < maker.batchSize) :
      Polls maker s (s.push transaction)
  | full {transaction : Transaction}
      (seals : maker.sealing s = some (s.currentBatch ++ [transaction]))
      (next : s.rxTransaction[s.received]? = some transaction) :
      Polls maker s (maker.sealBatch (s.push transaction)).resetTimer
  | timer (seals : maker.sealing s = some s.currentBatch) (some : s.currentBatch ≠ []) :
      Polls maker s (maker.sealBatch { s with point := .top }).resetTimer

/-- The flag is looked at and nothing else happens. -/
theorem sameBatches_seeChange (s : State) :
    SameBatches s s.seeChange ∧ s.seeChange.status = s.status := by
  unfold State.seeChange
  dsimp only
  split <;> exact ⟨⟨rfl, rfl, rfl, rfl, rfl⟩, rfl⟩

/-- Looking at the flag seals nothing. -/
theorem polls_seeChange (none : maker.sealing s = none) (alive : s.status ≠ .panicked) :
    Polls maker s s.seeChange :=
  .idle none (sameBatches_seeChange s).1 ((sameBatches_seeChange s).2 ▸ alive)

theorem polls_silent (paused : s.paused = true) (alive : s.status ≠ .panicked) :
    Polls maker s (pollSilent s) := by
  have none : maker.sealing s = none := if_pos (.inl paused)
  unfold pollSilent
  split
  · exact polls_seeChange none alive
  · split
    · exact .idle none ⟨rfl, rfl, rfl, rfl, rfl⟩ (by simp)
    · exact .idle none ⟨rfl, rfl, rfl, rfl, rfl⟩ alive

/-- The next transaction is taken. -/
theorem polls_assemble (ready : ¬ (s.paused = true ∨ s.changed = true ∨ s.closed = true))
    {transaction : Transaction} (found : s.rxTransaction[s.received]? = some transaction) :
    Polls maker s
      (maker.assemble { s with received := s.received + 1, point := .top } transaction) := by
  unfold assemble
  dsimp only
  split
  · next enough =>
      refine .full ?_ found
      rw [sealing, if_neg ready, found]
      exact if_pos enough
  · next few =>
      refine .push ?_ found (not_le.mp few)
      rw [sealing, if_neg ready, found]
      exact if_neg few

theorem polls_select (active : ¬ s.paused = true) (alive : s.status ≠ .panicked) :
    Polls maker s (maker.pollSelect s) := by
  unfold pollSelect
  split
  · next seen => exact polls_seeChange (if_pos (.inr (.inl seen))) alive
  · next unchanged =>
      split
      · next closed =>
          exact .idle (if_pos (.inr (.inr closed))) ⟨rfl, rfl, rfl, rfl, rfl⟩ (by simp)
      · next opened =>
          have ready : ¬ (s.paused = true ∨ s.changed = true ∨ s.closed = true) := by
            simp [active, unchanged, opened]
          cases found : s.rxTransaction[s.received]? with
          | some transaction => exact polls_assemble ready found
          | none =>
              dsimp only
              split
              · next expired =>
                  split
                  · next empty =>
                      refine .idle ?_ ⟨rfl, rfl, rfl, rfl, rfl⟩ alive
                      rw [sealing, if_neg ready, found]
                      exact if_neg fun both => both.2 (List.isEmpty_iff.mp empty)
                  · next some =>
                      have nonempty : s.currentBatch ≠ [] := fun empty =>
                        some (List.isEmpty_iff.mpr empty)
                      refine .timer ?_ nonempty
                      rw [sealing, if_neg ready, found]
                      exact if_pos ⟨expired, nonempty⟩
              · next running =>
                  refine .idle ?_ ⟨rfl, rfl, rfl, rfl, rfl⟩ alive
                  rw [sealing, if_neg ready, found]
                  exact if_neg fun both => running both.1

theorem polls (running : s.status = .running) : Polls maker s (maker.poll s) := by
  have alive : s.status ≠ .panicked := by simp [running]
  unfold poll
  split
  · next paused => exact polls_silent paused alive
  · next active => exact polls_select active alive

/-! ## Runs -/

theorem Accounts.same (accounts : Accounts s) (same : SameBatches s t) : Accounts t := by
  obtain ⟨sent, conserved, nonempty, currentSize⟩ := accounts
  have sealedSame : t.sealed = s.sealed := congrArg (List.map _) same.txMessage
  refine ⟨?_, ?_, sealedSame ▸ nonempty, ?_⟩
  · rw [same.rxTransaction, same.received]
    exact sent
  · rw [sealedSame, same.currentBatch, same.rxTransaction, same.received]
    exact conserved
  · rw [same.currentBatchSize, same.currentBatch]
    exact currentSize

theorem Accounts.push (accounts : Accounts s) {transaction : Transaction}
    (next : s.rxTransaction[s.received]? = some transaction) : Accounts (s.push transaction) := by
  obtain ⟨_, conserved, nonempty, currentSize⟩ := accounts
  refine ⟨(List.getElem?_eq_some_iff.mp next).1, ?_, nonempty, ?_⟩
  · show s.sealed.flatten ++ (s.currentBatch ++ [transaction]) =
      s.rxTransaction.take (s.received + 1)
    rw [← List.append_assoc, conserved, List.take_add_one, next]
    rfl
  · show s.currentBatchSize + transaction.length = size (s.currentBatch ++ [transaction])
    rw [size_append, currentSize]

/-- **Sealing** moves the current batch to the sealed ones, or panics. -/
theorem Accounts.sealBatch (accounts : Accounts s) (some : s.currentBatch ≠ []) :
    Accounts (maker.sealBatch s).resetTimer := by
  obtain ⟨sent, conserved, nonempty, currentSize⟩ := accounts
  by_cases sound : maker.benchmark = true → [] ∉ s.currentBatch
  · have seals := seals_sealBatch sound
    refine ⟨?_, ?_, ?_, ?_⟩
    · rw [seals.rxTransaction, seals.received]
      exact sent
    · rw [seals.batches, seals.currentBatch, seals.rxTransaction, seals.received,
        List.flatten_append, List.flatten_singleton, List.append_nil]
      exact conserved
    · rw [seals.batches]
      intro batch member
      rcases List.mem_append.mp member with old | new
      · exact nonempty batch old
      · exact List.mem_singleton.mp new ▸ some
    · rw [seals.currentBatchSize, seals.currentBatch]
      rfl
  · rw [Classical.not_imp, not_not] at sound
    rw [sealBatch_of_empty sound.1 sound.2]
    exact ⟨sent, conserved, nonempty, currentSize⟩

/-- The task loses no transaction, whether or not it panics. -/
theorem Accounts.advance (accounts : Accounts s) (event : Event) :
    Accounts (maker.advance s event) := by
  unfold BatchMaker.advance
  split
  · next running =>
      cases event with
      | transaction bytes =>
          refine ⟨?_, ?_, accounts.nonempty, accounts.currentSize⟩
          · exact accounts.sent.trans (List.length_append ▸ Nat.le_add_right _ _)
          · rw [List.take_append_of_le_length accounts.sent]
            exact accounts.conserved
      | batchSilent round silent => exact accounts.same ⟨rfl, rfl, rfl, rfl, rfl⟩
      | close => exact accounts.same ⟨rfl, rfl, rfl, rfl, rfl⟩
      | timer => exact accounts.same ⟨rfl, rfl, rfl, rfl, rfl⟩
      | poll =>
          show Accounts (maker.poll s)
          generalize made : maker.poll s = t
          cases made ▸ polls running with
          | idle _ same _ => exact accounts.same same
          | push _ next _ => exact accounts.push next
          | full _ next => exact (accounts.push next).sealBatch (by simp [State.push])
          | timer _ some =>
              have woken : Accounts { s with point := .top } :=
                accounts.same ⟨rfl, rfl, rfl, rfl, rfl⟩
              exact woken.sealBatch some
  · exact accounts
  · exact accounts

/-- The current batch is below the preferred size whenever the task waits. -/
def Below (maker : BatchMaker) (s : State) : Prop :=
  s.status = .running → 0 < maker.batchSize → s.currentBatchSize < maker.batchSize

theorem Below.sealBatch : Below maker (maker.sealBatch s).resetTimer := by
  by_cases sound : maker.benchmark = true → [] ∉ s.currentBatch
  · intro _ positive
    rw [(seals_sealBatch sound).currentBatchSize]
    exact positive
  · rw [Classical.not_imp, not_not] at sound
    rw [sealBatch_of_empty sound.1 sound.2]
    exact fun running => nomatch running

theorem Below.advance (below : Below maker s) (event : Event) :
    Below maker (maker.advance s event) := by
  unfold BatchMaker.advance
  split
  · next running =>
      cases event with
      | transaction => exact below
      | batchSilent => exact below
      | close => exact below
      | timer => exact below
      | poll =>
          show Below maker (maker.poll s)
          generalize made : maker.poll s = t
          cases made ▸ polls running with
          | idle _ same _ => exact fun _ positive => same.currentBatchSize ▸ below running positive
          | push _ _ small => exact fun _ _ => small
          | full => exact .sealBatch
          | timer => exact .sealBatch
  · exact below
  · exact below

/-- **A batch is sealed rightly** exactly when sealing succeeds and the batch without its last
transaction is below the preferred size. -/
theorem exact_sealBatch_iff (accounts : Accounts s) (running : s.status = .running)
    (some : s.currentBatch ≠ [])
    (below : 0 < maker.batchSize → size s.currentBatch.dropLast < maker.batchSize) :
    Exact maker (maker.sealBatch s).resetTimer ↔ Exact maker s ∧
      (0 < maker.batchSize ∧ (maker.benchmark = true → [] ∉ s.currentBatch)) := by
  by_cases sound : maker.benchmark = true → [] ∉ s.currentBatch
  · have seals := seals_sealBatch sound
    constructor
    · intro exact
      have short := exact.short
      rw [seals.batches] at short
      have last := short _ (List.mem_append_right _ (List.mem_singleton_self _))
      refine ⟨⟨accounts, by simp [running], fun batch member => ?_⟩, by omega, sound⟩
      exact short batch (List.mem_append_left _ member)
    · rintro ⟨exact, positive, -⟩
      refine ⟨accounts.sealBatch some, by simp [seals.status, running], ?_⟩
      rw [seals.batches]
      intro batch member
      rcases List.mem_append.mp member with old | new
      · exact exact.short batch old
      · exact List.mem_singleton.mp new ▸ below positive
  · refine iff_of_false (fun exact => ?_) fun both => sound both.2.2
    rw [Classical.not_imp, not_not] at sound
    rw [sealBatch_of_empty sound.1 sound.2] at exact
    exact exact.alive rfl

/-- What does not touch the sealed batches does not matter. -/
theorem exact_iff_of_sealed (accounts : Accounts s) (accounts' : Accounts t)
    (same : t.sealed = s.sealed) (alike : t.status = .panicked ↔ s.status = .panicked) :
    Exact maker t ↔ Exact maker s :=
  ⟨fun exact => ⟨accounts, fun panicked => exact.alive (alike.mpr panicked), same ▸ exact.short⟩,
    fun exact => ⟨accounts', fun panicked => exact.alive (alike.mp panicked), same ▸ exact.short⟩⟩

/-- **Running the task keeps batching exact** if and only if it seals rightly. -/
theorem exact_poll_iff (accounts : Accounts s) (below : Below maker s)
    (running : s.status = .running) :
    Exact maker (maker.poll s) ↔ Exact maker s ∧ ∀ batch, maker.sealing s = some batch →
      0 < maker.batchSize ∧ (maker.benchmark = true → [] ∉ batch) := by
  have accounts' : Accounts (maker.poll s) := by
    have advanced : Accounts (maker.advance s .poll) := accounts.advance .poll
    rwa [BatchMaker.advance, running] at advanced
  generalize made : maker.poll s = t at accounts' ⊢
  cases made ▸ polls running with
  | idle none same alive =>
      have alike : t.status = .panicked ↔ s.status = .panicked :=
        iff_of_false alive (by simp [running])
      rw [exact_iff_of_sealed accounts accounts' (congrArg (List.map _) same.txMessage) alike]
      exact (and_iff_left fun batch seals => nomatch none.symm.trans seals).symm
  | push none next small =>
      rw [exact_iff_of_sealed accounts accounts' rfl Iff.rfl]
      exact (and_iff_left fun batch seals => nomatch none.symm.trans seals).symm
  | @full transaction seals next =>
      have pushed := accounts.push next
      have last : 0 < maker.batchSize →
          size (s.push transaction).currentBatch.dropLast < maker.batchSize := by
        intro positive
        show size (s.currentBatch ++ [transaction]).dropLast < maker.batchSize
        rw [List.dropLast_concat, ← accounts.currentSize]
        exact below running positive
      have before : Exact maker (s.push transaction) ↔ Exact maker s :=
        exact_iff_of_sealed accounts pushed rfl Iff.rfl
      rw [exact_sealBatch_iff pushed running (by simp [State.push]) last, before, seals]
      simp [State.push]
  | timer seals some =>
      have woken : Accounts { s with point := .top } := accounts.same ⟨rfl, rfl, rfl, rfl, rfl⟩
      have last : 0 < maker.batchSize → size s.currentBatch.dropLast < maker.batchSize := by
        intro positive
        refine lt_of_le_of_lt (size_dropLast_le s.currentBatch) ?_
        rw [← accounts.currentSize]
        exact below running positive
      have before : Exact maker { s with point := .top } ↔ Exact maker s :=
        exact_iff_of_sealed accounts woken rfl Iff.rfl
      rw [exact_sealBatch_iff woken running some last, before, seals]
      simp

/-- **An event keeps batching exact** if and only if it seals rightly. -/
theorem exact_advance_iff (accounts : Accounts s) (below : Below maker s) (event : Event) :
    Exact maker (maker.advance s event) ↔ Exact maker s ∧ maker.SealsRightly s event := by
  by_cases runs : s.status = .running ∧ event = .poll
  · obtain ⟨running, rfl⟩ := runs
    have step : maker.advance s .poll = maker.poll s := by rw [BatchMaker.advance, running]
    rw [step, exact_poll_iff accounts below running]
    exact and_congr_right fun _ => ⟨fun seals _ _ => seals, fun seals => seals running rfl⟩
  · -- the batches are not touched
    have untouched : (maker.advance s event).sealed = s.sealed ∧
        (maker.advance s event).status = s.status := by
      unfold BatchMaker.advance
      split
      · next running =>
          cases event with
          | poll => exact absurd ⟨running, rfl⟩ runs
          | _ => exact ⟨rfl, rfl⟩
      · exact ⟨rfl, rfl⟩
      · exact ⟨rfl, rfl⟩
    rw [exact_iff_of_sealed accounts (accounts.advance event) untouched.1 (by rw [untouched.2])]
    exact (and_iff_left fun running polls => absurd ⟨running, polls⟩ runs).symm

variable (maker) in
theorem run_snoc (batchSilent : ℕ × Bool) (events : List Event) (event : Event) :
    maker.run batchSilent (events ++ [event]) = maker.advance (maker.run batchSilent events) event := by
  rw [run, List.foldl_append]
  rfl

/-- What is known of the batches in every run. -/
theorem accounts_run (maker : BatchMaker) (batchSilent : ℕ × Bool) (events : List Event) :
    Accounts (maker.run batchSilent events) ∧ Below maker (maker.run batchSilent events) := by
  induction events using List.reverseRecOn with
  | nil =>
      refine ⟨⟨le_rfl, rfl, fun _ member => absurd member List.not_mem_nil, rfl⟩, ?_⟩
      exact fun _ positive => positive
  | append_singleton events event ih =>
      rw [run_snoc]
      exact ⟨ih.1.advance event, ih.2.advance event⟩

/-- **When batching preserves the transaction stream.** In every run batching is exact in all states that
are reached if and only if all batches are sealed rightly. -/
theorem batching_exact_iff (maker : BatchMaker) (batchSilent : ℕ × Bool) (events : List Event) :
    (∀ p, p <+: events → Exact maker (maker.run batchSilent p)) ↔
      Throughout maker.advance maker.SealsRightly { rxBatchSilent := batchSilent } events := by
  induction events using List.reverseRecOn with
  | nil =>
      refine iff_of_true (fun p sub => ?_) trivial
      rw [List.prefix_nil.mp sub]
      exact ⟨(accounts_run maker batchSilent []).1, by simp [run],
        fun _ member => absurd member List.not_mem_nil⟩
  | append_singleton events event ih =>
      obtain ⟨accounts, below⟩ := accounts_run maker batchSilent events
      have last := exact_advance_iff accounts below event
      rw [← run_snoc] at last
      rw [Throughout.append_iff, ← ih]
      constructor
      · intro exact
        refine ⟨fun p sub => exact p (sub.trans (List.prefix_append events [event])), ?_, trivial⟩
        exact (last.mp (exact _ List.prefix_rfl)).2
      · rintro ⟨before, rightly, -⟩ p sub
        rcases List.prefix_concat_iff.mp sub with rfl | sub
        · exact last.mpr ⟨before _ List.prefix_rfl, rightly⟩
        · exact before p sub

/-! ## An empty transaction -/

/-- A batch maker of the build with the `benchmark` feature. -/
def benchmarkMaker : BatchMaker where
  batchSize := 200
  workersAddresses := []
  benchmark := true

/-- **An empty transaction stops the batch maker.** -/
theorem batch_of_empty_transaction : ¬ ∀ (maker : BatchMaker) (batchSilent : ℕ × Bool)
    (events : List Event), Exact maker (maker.run batchSilent events) := by
  intro exact
  have alive := (exact benchmarkMaker (1, false) [.transaction [], .poll, .timer, .poll]).alive
  exact absurd alive (by decide +kernel)

end BatchMaker

end Tusk
