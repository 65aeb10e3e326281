import Tusk.Primary.Messages

/-!
# The state of the consensus

The dag holds the certificates by round and author. A commit updates the last committed round of
an author and of the whole node, and then cleans up the dag: below an author's last committed
round its certificates are dropped, and so is every round that is `gc_depth` or more rounds older
than the last committed round of the node.

The cleanup is a pass over the dag for each author. `State.entry_update` says what is left after
all passes, and `State.committed_update` and `State.lastCommittedRound_update` say how the
committed rounds move. Later proofs use these descriptions and not the passes.

The sum of a round and `gc_depth` wraps as in a release build (`horizon`). A debug build panics there.
-/

set_option autoImplicit false

namespace Tusk.Consensus

open Lib

/-- The sum of a round and `gc_depth`: up to this last committed round the round is kept. -/
def horizon (gcDepth round : ℕ) : ℕ := (round + gcDepth) % 2 ^ 64

theorem horizon_le (gcDepth round : ℕ) : horizon gcDepth round ≤ round + gcDepth := Nat.mod_le _ _

theorem horizon_eq {gcDepth round : ℕ} (fits : round + gcDepth < 2 ^ 64) :
    horizon gcDepth round = round + gcDepth := Nat.mod_eq_of_lt fits

/-- The representation of the dag in memory. -/
abbrev Dag := HashMap ℕ (HashMap PublicKey (Digest × Certificate))

namespace Dag

/-- The certificate of an author at a round, with its digest. -/
def entry (dag : Dag) (round : ℕ) (name : PublicKey) : Option (Digest × Certificate) :=
  (HashMap.get dag round).bind fun authorities => HashMap.get authorities name

/-- Drop the certificates of an author below a round, and the rounds out of the depth. -/
def cleanup (gcDepth lastCommittedRound : ℕ) (dag : Dag) (name : PublicKey) (round : ℕ) :
    Dag :=
  dag.retain fun r authorities =>
    let authorities : HashMap PublicKey (Digest × Certificate) :=
      authorities.retain fun n entry => if n ≠ name ∨ round ≤ r then some entry else none
    if authorities.items ≠ [] ∧ lastCommittedRound ≤ horizon gcDepth r then some authorities else none

theorem entry_cleanup {gcDepth lastCommittedRound : ℕ} {dag : Dag} {name : PublicKey}
    {round r : ℕ} {n : PublicKey} {e : Digest × Certificate} :
    (cleanup gcDepth lastCommittedRound dag name round).entry r n = some e ↔
      dag.entry r n = some e ∧ (n ≠ name ∨ round ≤ r) ∧ lastCommittedRound ≤ horizon gcDepth r := by
  unfold entry cleanup
  rw [HashMap.get_retain, Option.bind_assoc]
  cases HashMap.get dag r with
  | none => simp
  | some authorities =>
      simp only [Option.bind_some]
      have kept : ∀ e, HashMap.get (HashMap.retain (fun n entry =>
          if n ≠ name ∨ round ≤ r then some entry else none) authorities) n = some e ↔
          HashMap.get authorities n = some e ∧ (n ≠ name ∨ round ≤ r) :=
        fun e => HashMap.get_retain_eq_some_iff
      split_ifs with live
      · rw [Option.bind_some, kept]
        constructor
        · rintro ⟨found, stays⟩
          exact ⟨found, stays, live.2⟩
        · rintro ⟨found, stays, -⟩
          exact ⟨found, stays⟩
      · constructor
        · intro none
          cases none
        · rintro ⟨found, stays, recent⟩
          -- an entry that stays keeps its round
          have member := HashMap.mem_items.mpr ((kept e).mpr ⟨found, stays⟩)
          exact absurd ⟨List.ne_nil_of_mem member, recent⟩ live

variable [Primitives]

/-- Add a certificate to its round. -/
def insert (dag : Dag) (certificate : Certificate) : Dag :=
  HashMap.upsert dag certificate.round fun authorities =>
    HashMap.insert (authorities.getD ∅) certificate.origin (certificate.digest, certificate)

theorem entry_insert {dag : Dag} {certificate : Certificate} {r : ℕ} {n : PublicKey} :
    (dag.insert certificate).entry r n =
      if r = certificate.round ∧ n = certificate.origin then some (certificate.digest, certificate)
      else dag.entry r n := by
  unfold entry insert
  rw [HashMap.get_upsert]
  by_cases here : r = certificate.round
  · subst here
    rw [if_pos rfl, Option.bind_some, HashMap.get_insert]
    cases HashMap.get dag certificate.round <;> simp
  · rw [if_neg here, if_neg fun both => here both.1]

end Dag

/-- The state that needs to be persisted for crash-recovery. -/
structure State where
  /-- The last committed round. -/
  lastCommittedRound : ℕ
  /-- The last committed round of each authority. -/
  lastCommitted : HashMap PublicKey ℕ
  /-- The certificates that were not cleaned up. -/
  dag : Dag

namespace State

/-- The highest of some rounds. -/
def highest (rounds : List ℕ) : ℕ := rounds.foldr max 0

/-- Record a committed certificate and clean up. -/
def update (state : State) (certificate : Certificate) (gcDepth : ℕ) : State :=
  let lastCommitted := HashMap.upsert state.lastCommitted certificate.origin fun r =>
    match r with
    | some r => max r certificate.round
    | none => certificate.round
  let lastCommittedRound := highest lastCommitted.values
  { lastCommittedRound := lastCommittedRound
    lastCommitted := lastCommitted
    dag := lastCommitted.items.foldl
      (fun dag entry => Dag.cleanup gcDepth lastCommittedRound dag entry.1 entry.2) state.dag }

/-- The state before the first certificate. -/
def new [Primitives] (genesis : List Certificate) : State :=
  let genesis : HashMap PublicKey (Digest × Certificate) :=
    .ofList (genesis.map fun x => (x.origin, (x.digest, x)))
  { lastCommittedRound := 0
    lastCommitted := .ofList (genesis.items.map fun entry => (entry.1, entry.2.2.round))
    dag := .ofList [(0, genesis)] }

/-- The last committed round of an author, zero before the first commit. -/
def committed (state : State) (name : PublicKey) : ℕ :=
  (HashMap.get state.lastCommitted name).getD 0

/-! ## The committed rounds -/

theorem highest_le_iff {rounds : List ℕ} {bound : ℕ} :
    highest rounds ≤ bound ↔ ∀ round ∈ rounds, round ≤ bound := by
  unfold highest
  induction rounds with
  | nil => simp
  | cons round rounds ih => simp [ih]

theorem highest_values_le_iff {m : HashMap PublicKey ℕ} {bound : ℕ} :
    highest m.values ≤ bound ↔ ∀ name round, HashMap.get m name = some round → round ≤ bound := by
  rw [highest_le_iff]
  simp only [HashMap.mem_values, forall_exists_index]
  exact ⟨fun below name round found => below round name found,
    fun below round name found => below name round found⟩

variable {state : State} {certificate : Certificate} {gcDepth : ℕ}

theorem get_lastCommitted_update {name : PublicKey} :
    HashMap.get (state.update certificate gcDepth).lastCommitted name =
      if name = certificate.origin then some (max (state.committed name) certificate.round)
      else HashMap.get state.lastCommitted name := by
  unfold update committed
  rw [HashMap.get_upsert]
  split_ifs with same
  · subst same
    cases HashMap.get state.lastCommitted certificate.origin <;> simp
  · rfl

theorem committed_update {name : PublicKey} :
    (state.update certificate gcDepth).committed name =
      if name = certificate.origin then max (state.committed name) certificate.round
      else state.committed name := by
  rw [committed, get_lastCommitted_update]
  split_ifs <;> rfl

/-- The node's last committed round is the highest of its authorities' rounds. -/
def Consistent (state : State) : Prop :=
  state.lastCommittedRound = highest (HashMap.values state.lastCommitted)

theorem consistent_update : (state.update certificate gcDepth).Consistent := rfl

theorem Consistent.committed_le (consistent : state.Consistent) (name : PublicKey) :
    state.committed name ≤ state.lastCommittedRound := by
  unfold committed
  cases found : HashMap.get state.lastCommitted name with
  | none => simp
  | some round => exact highest_values_le_iff.mp consistent.ge name round found

theorem lastCommittedRound_update (consistent : state.Consistent) :
    (state.update certificate gcDepth).lastCommittedRound =
      max state.lastCommittedRound certificate.round := by
  rw [consistent_update, consistent]
  refine eq_of_forall_ge_iff fun bound => ?_
  simp only [highest_values_le_iff, get_lastCommitted_update, max_le_iff]
  constructor
  · intro below
    have own := below certificate.origin _ (if_pos rfl)
    refine ⟨fun name round found => ?_, (max_le_iff.mp own).2⟩
    by_cases same : name = certificate.origin
    · subst same
      refine le_trans ?_ (max_le_iff.mp own).1
      simp [committed, found]
    · exact below name round (by rw [if_neg same, found])
  · rintro ⟨old, new⟩ name round found
    split_ifs at found with same
    · cases found
      refine max_le ?_ new
      unfold committed
      cases stored : HashMap.get state.lastCommitted name with
      | none => simp
      | some round => exact old name round stored
    · exact old name round found

/-! ## What the cleanup leaves -/

theorem entry_foldl_cleanup {lastCommittedRound : ℕ} (passes : List (PublicKey × ℕ))
    (nonempty : passes ≠ []) {dag : Dag} {r : ℕ} {n : PublicKey} {e : Digest × Certificate} :
    (passes.foldl (fun dag entry => Dag.cleanup gcDepth lastCommittedRound dag entry.1 entry.2)
        dag).entry r n = some e ↔
      dag.entry r n = some e ∧ (∀ pass ∈ passes, n = pass.1 → pass.2 ≤ r) ∧
        lastCommittedRound ≤ horizon gcDepth r := by
  have step : ∀ pass : PublicKey × ℕ, (n ≠ pass.1 ∨ pass.2 ≤ r) ↔ (n = pass.1 → pass.2 ≤ r) :=
    fun pass => by tauto
  induction passes generalizing dag with
  | nil => exact absurd rfl nonempty
  | cons pass passes ih =>
      rw [List.foldl_cons]
      cases passes with
      | nil => simp [Dag.entry_cleanup, step]
      | cons next passes =>
          refine (ih (by simp)).trans ?_
          rw [Dag.entry_cleanup, step]
          simp only [List.mem_cons, forall_eq_or_imp]
          tauto

/-- **What the cleanup leaves**: the certificates not below the last committed round of their
author, in the rounds within the depth. -/
theorem entry_update {r : ℕ} {n : PublicKey} {e : Digest × Certificate} :
    (state.update certificate gcDepth).dag.entry r n = some e ↔
      state.dag.entry r n = some e ∧ (state.update certificate gcDepth).committed n ≤ r ∧
        (state.update certificate gcDepth).lastCommittedRound ≤ horizon gcDepth r := by
  have nonempty : (state.update certificate gcDepth).lastCommitted.items ≠ [] := by
    have found : HashMap.get (state.update certificate gcDepth).lastCommitted certificate.origin =
        some (max (state.committed certificate.origin) certificate.round) := by
      rw [get_lastCommitted_update, if_pos rfl]
    exact List.ne_nil_of_mem (HashMap.mem_items.mpr found)
  refine (entry_foldl_cleanup _ nonempty).trans ?_
  have rounds : (∀ pass ∈ (state.update certificate gcDepth).lastCommitted.items,
      n = pass.1 → pass.2 ≤ r) ↔ (state.update certificate gcDepth).committed n ≤ r := by
    unfold committed
    cases found : HashMap.get (state.update certificate gcDepth).lastCommitted n with
    | none =>
        refine ⟨fun _ => Nat.zero_le _, fun _ pass member same => ?_⟩
        subst same
        rw [HashMap.mem_items.mp member] at found
        cases found
    | some round =>
        refine ⟨fun below => below (n, round) (HashMap.mem_items.mpr found) rfl, ?_⟩
        intro below pass member same
        subst same
        rw [HashMap.mem_items.mp member] at found
        cases found
        exact below
  exact and_congr_right fun _ => and_congr_left fun _ => rounds

end State

end Tusk.Consensus
