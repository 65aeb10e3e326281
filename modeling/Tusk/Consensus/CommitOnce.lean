import Tusk.Consensus.Execution
import Tusk.Consensus.FinitePool

/-!
# Committing a certificate once

A certificate that was output is either the last committed one of its author, and then `orderDag`
skips it, or the cleanup removed it from the dag. It comes back into the dag only when it is received
again after the removal (`Redelivered`), and even then it does no harm unless a later leader gets to
it: through a certificate that was not output yet and has it as a parent (`ReachedAgain`). A run
outputs no certificate twice exactly when this does not happen (`outputs_nodup_iff`). It can happen
with a descendant that was not committed yet (`committed_twice`).
-/

set_option autoImplicit false

namespace Tusk.Consensus

open Lib

section Once

variable [Primitives] {node : Consensus} {pool : Pool node.committee}
  {delivered output : List Certificate} {state : State}

/-- The cleanup removes the certificate although it is within the depth. -/
def Removed (node : Consensus) (state : State) (c : Certificate) : Prop :=
  c.round < state.committed c.origin ∧ state.lastCommittedRound ≤ c.round + node.gcDepth

/-- The certificate is delivered again after it was output and removed. -/
def Redelivered (node : Consensus) (delivered : List Certificate) (c : Certificate) : Prop :=
  ∃ before after state subDags, delivered = before ++ c :: after ∧
    node.run before = some (state, subDags) ∧ c ∈ outputs subDags ∧ Removed node state c

/-- A leader that is ordered reaches, by a certificate that was not output, a parent that was. -/
def ReachedAgain (node : Consensus) (state : State) (leader : Certificate)
    (output : List Certificate) (c : Certificate) : Prop :=
  c ∈ output ∧ state.lastCommittedRound ≤ c.round + node.gcDepth ∧
    ∃ y, Visits state leader y ∧ y ∉ output ∧ Follows state y c

/-- A certificate that was output and is in the dag is the last committed one of its author, or out
of the depth, or was delivered again. -/
def OutputSkipped (node : Consensus) (delivered : List Certificate) (state : State)
    (output : List Certificate) : Prop :=
  ∀ c ∈ output, state.dag.entry c.round c.origin = some (c.digest, c) →
    state.committed c.origin = c.round ∨ c.round + node.gcDepth < state.lastCommittedRound ∨
      Redelivered node delivered c

theorem Redelivered.append {c : Certificate} (again : Redelivered node delivered c)
    (more : List Certificate) : Redelivered node (delivered ++ more) c := by
  obtain ⟨before, after, state, subDags, rfl, rest⟩ := again
  exact ⟨before, after ++ more, state, subDags, by simp, rest⟩

/-- What was output stays out of reach until it is delivered again. -/
theorem Execution.outputSkipped {subDags : List SubDag}
    (execution : Execution node pool delivered state subDags) :
    OutputSkipped node delivered state (outputs subDags) := by
  induction execution with
  | start =>
      intro c isOutput
      cases isOutput
  | @receive delivered state subDags c before computed delivery fits ih =>
      intro x isOutput found
      rw [Dag.entry_insert] at found
      split_ifs at found with here
      · -- the certificate just received was output before
        have isReceived : x = c := pool.unique x (before.delivery.mem x
          (before.tracks.output_delivered x isOutput)) c (delivery.mem c (by simp)) here.2 here.1
        have bound := before.tracks.output_committed x isOutput
        by_contra neither
        push Not at neither
        obtain ⟨notLast, recent, fresh⟩ := neither
        refine fresh ⟨delivered, [], state, subDags, by rw [isReceived], computed, isOutput, ?_, recent⟩
        exact lt_of_le_of_ne bound (Ne.symm notLast)
      · exact (ih x isOutput found).imp_right (Or.imp_right fun again => again.append [c])
  | @commit delivered state subDags leader final subDag before member above computed ih =>
      have flattened := before.tracks.flattened before.delivery member computed
      have after := (Execution.commit before member above computed).tracks
      exact fun x isOutput found => .inl
        (le_antisymm (flattened.entry above found).2.1 (after.output_committed x isOutput))

omit [Primitives] in
/-- A path into a set that starts outside of it has a step into the set. -/
theorem exists_step_into {α : Type*} {r : α → α → Prop} {a c : α} {inside : α → Prop}
    (path : Relation.ReflTransGen r a c) (outside : ¬ inside a) (ends : inside c) :
    ∃ x y, Relation.ReflTransGen r a x ∧ ¬ inside x ∧ r x y ∧ inside y ∧
      Relation.ReflTransGen r y c := by
  induction path with
  | refl => exact absurd ends outside
  | @tail b c before step ih =>
      by_cases isInside : inside b
      · obtain ⟨x, y, toX, notX, toY, isY, toB⟩ := ih isInside
        exact ⟨x, y, toX, notX, toY, isY, toB.tail step⟩
      · exact ⟨b, c, before, isInside, step, ends, .refl⟩

theorem Visits.round_le {x y : Certificate} (visits : Visits state x y) : y.round ≤ x.round := by
  induction visits with
  | refl => exact le_rfl
  | tail _ follows ih =>
      have below := follows.2.1
      omega

/-- What a leader reaches of the certificates output, it reaches again by one that was not output. -/
theorem Tracks.reachedAgain (tracks : Tracks node delivered state output) {leader : Certificate}
    (above : state.lastCommittedRound < leader.round) {c : Certificate} (isOutput : c ∈ output)
    (visits : Visits state leader c) (recent : state.lastCommittedRound ≤ c.round + node.gcDepth) :
    ∃ x, ReachedAgain node state leader output x := by
  have unseen : leader ∉ output := fun old => absurd (tracks.output_le old) (not_le.mpr above)
  obtain ⟨y, x, toY, notOutput, follows, isOutput', toC⟩ := exists_step_into visits unseen isOutput
  have low : c.round ≤ x.round := Visits.round_le toC
  exact ⟨x, isOutput', by omega, y, toY, notOutput, follows⟩

/-- A certificate that a leader reaches again was delivered again. -/
theorem ReachedAgain.redelivered {leader c : Certificate}
    (again : ReachedAgain node state leader output c)
    (skipped : OutputSkipped node delivered state output) : Redelivered node delivered c := by
  obtain ⟨isOutput, recent, y, -, -, -, -, found, notLast⟩ := again
  exact ((skipped c isOutput found).resolve_left notLast).resolve_left (not_lt.mpr recent)

/-- Without certificates reached again, what is output has no repetition. -/
theorem Execution.nodup {subDags : List SubDag}
    (execution : Execution node pool delivered state subDags)
    (clear : ∀ before o after, subDags = before ++ o :: after → ∀ c,
      ¬ ReachedAgain node o.before o.leader (outputs before) c) : (outputs subDags).Nodup := by
  induction execution with
  | start => exact List.nodup_nil
  | receive _ _ _ _ ih => exact ih clear
  | @commit delivered state subDags leader final subDag before member above computed ih =>
      have flattened := before.tracks.flattened before.delivery member computed
      have earlier := ih fun front o back split => clear front o (back ++ [subDag]) (by simp [split])
      rw [outputs_append, outputs_singleton]
      refine List.nodup_append.mpr ⟨earlier, flattened.nodup, fun x old y new same => ?_⟩
      subst same
      obtain ⟨visits, recent⟩ := (flattened.mem_iff x).mp new
      obtain ⟨c, again⟩ := before.tracks.reachedAgain above old visits recent
      rw [← flattened.before_eq, ← flattened.leader_eq] at again
      exact clear subDags subDag [] rfl c again

/-- **No digest is output twice exactly when no certificate that is delivered again is reached
again**: after it was output and removed, no later leader reaches, within the depth, a certificate that
was not output and has it as a parent. -/
theorem outputs_nodup_iff {subDags : List SubDag} (delivery : pool.Delivery delivered)
    (fits : node.NoOverflow delivered) (computed : node.run delivered = some (state, subDags)) :
    ((outputs subDags).map Certificate.digest).Nodup ↔
      ∀ c, Redelivered node delivered c → ∀ before o after, subDags = before ++ o :: after →
        ¬ ReachedAgain node o.before o.leader (outputs before) c := by
  have execution := Execution.of_run delivery fits computed
  constructor
  · rintro nodup c - before o after rfl ⟨isOutput, recent, y, visits, -, follows⟩
    obtain ⟨_, _, -, -, -, -, flattened⟩ := execution.split
    have isOutput' := (flattened.mem_iff c).mpr ⟨visits.tail follows, recent⟩
    have once := List.Nodup.of_map _ nodup
    rw [outputs_split] at once
    exact List.disjoint_of_nodup_append once isOutput (List.mem_append_left _ isOutput')
  · intro clear
    have known := fun c isOutput => delivery.mem c (execution.tracks.output_delivered c isOutput)
    refine (execution.nodup fun before o after split c again => ?_).map_on
      fun x isOutput y isOutput' same =>
        Pool.Known.eq_of_digest (.inl (known x isOutput)) (.inl (known y isOutput')) same
    obtain ⟨received, _, ⟨rest, rfl⟩, earlier, -⟩ := (split ▸ execution).split
    exact clear c ((again.redelivered earlier.outputSkipped).append rest) before o after split again

/-- Certificates delivered once each are not delivered again. -/
theorem not_redelivered_of_nodup (delivery : pool.Delivery delivered)
    (fits : node.NoOverflow delivered) (once : delivered.Nodup) {c : Certificate} :
    ¬ Redelivered node delivered c := by
  rintro ⟨before, after, state, subDags, rfl, computed, isOutput, -⟩
  have earlier := Execution.of_run delivery.of_prefix
    fits.of_prefix computed
  exact List.disjoint_of_nodup_append once (earlier.tracks.output_delivered c isOutput)
    List.mem_cons_self

theorem Execution.nodup_of_once {subDags : List SubDag}
    (execution : Execution node pool delivered state subDags) (once : delivered.Nodup) :
    (outputs subDags).Nodup := by
  refine execution.nodup fun before o after split c again => ?_
  obtain ⟨received, _, ⟨rest, rfl⟩, earlier, -⟩ := (split ▸ execution).split
  exact not_redelivered_of_nodup earlier.delivery earlier.tracks.fits once.of_append_left
    (again.redelivered earlier.outputSkipped)

end Once

/-! ## A certificate that is output twice -/

section Redelivery

local instance redeliveryPrimitives : Primitives := executable fun _ _ => true

/-- A certificate of round 2 comes again after the leader of round 4 was committed, and the leader of
round 8 does not get to it. -/
def harmless : List Certificate := untilFork ++ spine 2 :: untilTrunk

theorem redelivered_harmless : Redelivered heavyNode harmless (spine 2) := by
  have removed : (heavyNode.run untilFork).any (fun r => decide (spine 2 ∈ outputs r.2 ∧
      (spine 2).round < r.1.committed (spine 2).origin ∧
      r.1.lastCommittedRound ≤ (spine 2).round + heavyNode.gcDepth)) = true := by decide +kernel
  obtain ⟨⟨state, subDags⟩, computed, removed⟩ := (Option.any_eq_true _ _).mp removed
  obtain ⟨isOutput, isRemoved⟩ := of_decide_eq_true removed
  exact ⟨untilFork, untilTrunk, state, subDags, rfl, computed, isOutput, isRemoved⟩

theorem outputs_nodup_iff_harmless :
    Redelivered heavyNode harmless (spine 2) ∧ ∃ state subDags,
      heavyNode.run harmless = some (state, subDags) ∧ leaders subDags = [fork, trunk 2] ∧
      ((outputs subDags).map Certificate.digest).Nodup := by
  have lists : Pool.Lists heavyNode.committee harmless.eraseDups := by decide +kernel
  have delivery := Pool.delivery_ofList lists (show Pool.Arrive _ _ [] harmless by decide +kernel)
  have stops : (heavyNode.run harmless).any (fun r => decide (leaders r.2 = [fork, trunk 2] ∧
      ∀ i < r.2.length, ∀ o ∈ r.2[i]?, ∀ c ∈ outputs (r.2.take i), ∀ y ∈ harmless,
        y ∉ outputs (r.2.take i) → c.digest ∈ y.header.parents →
          o.before.committed c.origin = c.round)) = true := by decide +kernel
  obtain ⟨⟨state, subDags⟩, computed, stops⟩ := (Option.any_eq_true _ _).mp stops
  obtain ⟨twoLeaders, stops⟩ := of_decide_eq_true stops
  have stopped : ∀ before o after, subDags = before ++ o :: after → ∀ c ∈ outputs before,
      ∀ y ∈ harmless, y ∉ outputs before → c.digest ∈ y.header.parents →
        o.before.committed c.origin = c.round := forall_splits stops
  have fits : heavyNode.NoOverflow harmless := by decide +kernel
  refine ⟨redelivered_harmless, state, subDags, computed, twoLeaders,
    (outputs_nodup_iff delivery fits computed).mpr fun c _ before o after split again => ?_⟩
  -- what has a certificate that was output as a parent and was not output is above the last leader
  obtain ⟨isOutput, -, y, visits, notOutput, isParent, -, -, notLast⟩ := again
  obtain ⟨_, _, ⟨_, earlier⟩, execution, member, -⟩ :=
    (split ▸ Execution.of_run delivery fits computed).split
  have received := (execution.tracks.visits_spec _ execution.delivery member visits).1
  exact notLast (stopped before o after split c isOutput y
    (earlier ▸ List.mem_append_left _ received) notOutput isParent)

/-- A certificate of round 4 beside the spine. -/
def beside : Certificate := .sample 1 4 [spine 3]

/-- The spine, with `beside` as a second parent at round 5. -/
def joined : ℕ → Certificate
  | 0 => .sample 0 5 [spine 4, beside]
  | n + 1 => .sample 0 (n + 6) [joined n]

/-- The certificate of round 3 comes again after the leader of round 4 was committed. -/
def redelivered : List Certificate :=
  [spine 1, spine 2, spine 3, spine 4, beside, joined 0, joined 1, joined 2, spine 3, joined 3,
    joined 4, joined 5, joined 6]

/-- **A certificate that is delivered again can be output again.** -/
theorem committed_twice :
    ∃ (pool : Pool heavyNode.committee) (delivered : List Certificate) (state : State)
      (subDags : List SubDag), pool.Delivery delivered ∧
      heavyNode.run delivered = some (state, subDags) ∧
      ¬ ((outputs subDags).map Certificate.digest).Nodup := by
  have lists : Pool.Lists heavyNode.committee redelivered.eraseDups := by decide +kernel
  have twice : (heavyNode.run redelivered).any (fun r =>
      decide (¬ ((outputs r.2).map Certificate.digest).Nodup)) = true := by decide +kernel
  obtain ⟨⟨state, subDags⟩, computed, twice⟩ := (Option.any_eq_true _ _).mp twice
  exact ⟨_, redelivered, state, subDags, Pool.delivery_ofList lists (by decide +kernel), computed,
    of_decide_eq_true twice⟩

end Redelivery

end Tusk.Consensus
