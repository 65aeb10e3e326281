import Tusk.Consensus.Feedback
import Tusk.Primary.NodeHeaders

/-!
# How far a primary collects garbage

The consensus of a primary processes the certificates of its Core in order, and returns the ordered ones to
the GarbageCollector, which shares the highest round with the other tasks and tells it to the workers. The
tasks take their time, so the round that the Core reads may be behind. It is never ahead of the consensus, and
it is the round of a certificate that the Core has handed over itself (`rounds_follow`).
-/

set_option autoImplicit false

namespace Tusk

open Lib

namespace PrimaryNode

section Model

variable [Primitives] {node : PrimaryNode} {s : State} {event : Event}

/-! ## The consensus and the garbage collector -/

theorem extends_advance (s : State) (event : Event) :
    Core.Extends s.core (node.advance s event).core := by
  rw [core_advance]
  exact Core.extends_foldl _ _

variable (node) in
/-- The consensus has processed what the Core has handed over, in order. -/
structure Ordered (s : State) : Prop where
  received : s.received .newCertificates ≤ s.core.txConsensus.length
  run : ∃ delivered, delivered <+: s.core.txConsensus ∧
    node.consensus.run delivered = some (s.ordering.state, s.ordering.subDags) ∧
    (s.ordering.panicked = false → delivered = s.core.txConsensus.take (s.received .newCertificates))

/-- Other tasks leave the consensus alone. -/
theorem Ordered.frame {t : State} (ordered : node.Ordered s) (more : Core.Extends s.core t.core)
    (ordering : t.ordering = s.ordering)
    (received : t.received .newCertificates = s.received .newCertificates) : node.Ordered t := by
  obtain ⟨bound, delivered, isPrefix, run, all⟩ := ordered
  refine ⟨received ▸ bound.trans more.consensus.length_le, delivered, isPrefix.trans more.consensus,
    ordering ▸ run, fun running => ?_⟩
  obtain ⟨later, appended⟩ := more.consensus
  rw [received, ← appended, List.take_append_of_le_length bound]
  exact all (ordering ▸ running)

theorem Ordered.advance (ordered : node.Ordered s) (event : Event) :
    node.Ordered (node.advance s event) := by
  have more : Core.Extends s.core (node.advance s event).core := extends_advance s event
  cases event with
  | primary message => cases message <;> exact ordered.frame more rfl rfl
  | worker message => cases message <;> exact ordered.frame more rfl rfl
  | step step =>
      cases takes : s.input step with
      | none =>
          rw [advance_idle takes]
          exact ordered
      | some input =>
          rw [advance_step takes] at more ⊢
          cases brings_of_input takes with
          | @newCertificates c running waits =>
              obtain ⟨bound, delivered, isPrefix, run, all⟩ := ordered
              obtain ⟨inside, found⟩ := List.getElem?_eq_some_iff.mp waits
              have received : ((node.perform s (.consensus c)).receives
                  Step.newCertificates.channel).received .newCertificates =
                    s.received .newCertificates + 1 := by
                exact Function.update_self Channel.newCertificates _ s.received
              obtain rfl := all running
              have taken := List.take_succ_eq_append_getElem inside
              rw [found] at taken
              obtain ⟨now, grown, run, complete⟩ := Ordering.run_receive run c
              refine ⟨received.le.trans inside, now, ?_, run, fun still => ?_⟩
              · rcases grown with rfl | rfl
                · exact isPrefix
                · exact taken ▸ List.take_prefix ..
              · rw [received, complete still]
                exact taken.symm
          | _ => exact ordered.frame more rfl rfl

theorem ordered_run (events : List Event) : node.Ordered (node.run events) := by
  induction events using List.reverseRecOn with
  | nil => exact ⟨Nat.le_refl 0, [], List.prefix_rfl, rfl, fun _ => rfl⟩
  | append_singleton events event ih =>
      rw [run_snoc]
      exact ih.advance event

/-- **The consensus does not panic** when it is total on what the Core hands over. -/
theorem not_panicked {events : List Event}
    (total : ∀ received, received <+: (node.run events).core.txConsensus →
      (node.consensus.run received).isSome = true) :
    (node.run events).ordering.panicked = false := by
  induction events using List.reverseRecOn with
  | nil => rfl
  | append_singleton events event ih =>
      have more : Core.Extends (node.run events).core (node.run (events ++ [event])).core :=
        extends_run events [event]
      have before := ih fun received order => total received (order.trans more.consensus)
      have ordered : node.Ordered (node.run events) := ordered_run events
      rw [run_snoc] at total more ⊢
      generalize node.run events = s at total more before ordered
      cases event with
      | primary message => cases message <;> exact before
      | worker message => cases message <;> exact before
      | step step =>
          cases takes : s.input step with
          | none =>
              rw [advance_idle takes]
              exact before
          | some input =>
              rw [advance_step takes] at total more ⊢
              cases brings_of_input takes with
              | @newCertificates c running waits =>
                  obtain ⟨inside, found⟩ := List.getElem?_eq_some_iff.mp waits
                  obtain ⟨-, delivered, -, run, all⟩ := ordered
                  obtain rfl := all running
                  have taken := List.take_succ_eq_append_getElem inside
                  rw [found] at taken
                  -- the run goes on with this certificate
                  obtain ⟨result, computed⟩ := Option.isSome_iff_exists.mp
                    (total _ ((taken ▸ List.take_prefix ..).trans more.consensus))
                  obtain ⟨_, _, _, first, stepped, -⟩ := Consensus.run_snoc_eq_some.mp computed
                  obtain ⟨rfl, -⟩ := Prod.mk.inj (Option.some.inj (run.symm.trans first))
                  show (s.ordering.receive node.consensus c).panicked = false
                  unfold Ordering.receive
                  rw [stepped]
                  exact running
              | _ => exact before

variable (node) in
/-- The GarbageCollector has the highest round of what it has received, and has told the workers of each
higher one. -/
structure Collects (s : State) : Prop where
  received : s.received .feedback ≤ (Consensus.outputs s.ordering.subDags).length
  round : s.garbageCollector.lastCommittedRound =
    Consensus.raised 0 ((Consensus.outputs s.ordering.subDags).take (s.received .feedback))
  cleanups : ∃ rounds : List ℕ, s.garbageCollector.network =
      rounds.map (fun round => (node.garbageCollector.addresses, .cleanup round)) ∧
    rounds.Pairwise (· < ·) ∧ rounds.getLast?.getD 0 = s.garbageCollector.lastCommittedRound

omit [Primitives] in
/-- Other tasks leave the GarbageCollector alone. -/
theorem Collects.frame {t : State} (collects : node.Collects s)
    (more : Consensus.outputs s.ordering.subDags <+: Consensus.outputs t.ordering.subDags)
    (collector : t.garbageCollector = s.garbageCollector)
    (received : t.received .feedback = s.received .feedback) : node.Collects t := by
  obtain ⟨bound, round, cleanups⟩ := collects
  refine ⟨received ▸ bound.trans more.length_le, ?_, collector ▸ cleanups⟩
  obtain ⟨later, appended⟩ := more
  rw [collector, received, ← appended, List.take_append_of_le_length bound]
  exact round

omit [Primitives] in
/-- Later rounds keep the list of rounds increasing. -/
theorem pairwise_concat {rounds : List ℕ} {last round : ℕ} (increasing : rounds.Pairwise (· < ·))
    (ends : rounds.getLast?.getD 0 = last) (later : last < round) :
    (rounds ++ [round]).Pairwise (· < ·) := by
  refine List.pairwise_append.mpr ⟨increasing, List.pairwise_singleton _ _, fun r inside q same => ?_⟩
  rw [List.mem_singleton.mp same]
  rcases List.eq_nil_or_concat rounds with rfl | ⟨front, top, rfl⟩
  · exact absurd inside List.not_mem_nil
  · rw [List.concat_eq_append] at inside increasing ends
    rw [List.getLast?_concat, Option.getD_some] at ends
    rcases List.mem_append.mp inside with earlier | same
    · exact ((List.pairwise_append.mp increasing).2.2 r earlier top (List.mem_singleton_self _)).trans
        (ends ▸ later)
    · rw [List.mem_singleton.mp same]
      exact ends ▸ later

theorem outputs_prefix_receive (t : Ordering) (consensus : Consensus) (c : Certificate) :
    Consensus.outputs t.subDags <+: Consensus.outputs (t.receive consensus c).subDags := by
  unfold Ordering.receive
  cases consensus.step t.state c with
  | none => exact List.prefix_rfl
  | some result =>
      dsimp only
      rw [Consensus.outputs_append]
      exact List.prefix_append ..

theorem Collects.advance (collects : node.Collects s) (event : Event) :
    node.Collects (node.advance s event) := by
  cases event with
  | primary message => cases message <;> exact collects.frame List.prefix_rfl rfl rfl
  | worker message => cases message <;> exact collects.frame List.prefix_rfl rfl rfl
  | step step =>
      cases takes : s.input step with
      | none =>
          rw [advance_idle takes]
          exact collects
      | some input =>
          rw [advance_step takes]
          cases brings_of_input takes with
          | @feedback c waits =>
              obtain ⟨bound, round, rounds, network, increasing, ends⟩ := collects
              obtain ⟨inside, found⟩ := List.getElem?_eq_some_iff.mp waits
              have received : ((node.perform s (.garbageCollector c)).receives
                  Step.feedback.channel).received .feedback = s.received .feedback + 1 := by
                exact Function.update_self Channel.feedback _ s.received
              have taken := List.take_succ_eq_append_getElem inside
              rw [found] at taken
              have raises : Consensus.raised 0 ((Consensus.outputs s.ordering.subDags).take
                  (s.received .feedback + 1)) = max s.garbageCollector.lastCommittedRound c.round := by
                rw [taken, Consensus.raised_append, ← round]
                rfl
              have collector : ((node.perform s (.garbageCollector c)).receives
                  Step.feedback.channel).garbageCollector =
                    node.garbageCollector.receive s.garbageCollector c := rfl
              refine ⟨received.le.trans inside, ?_, ?_⟩
              · rw [collector, received]
                refine Eq.trans ?_ raises.symm
                unfold GarbageCollector.receive GarbageCollector.stores
                split_ifs with later
                · exact (max_eq_right later.le).symm
                · exact (max_eq_left (not_lt.mp later)).symm
              · rw [collector]
                unfold GarbageCollector.receive GarbageCollector.stores
                split_ifs with later
                · refine ⟨rounds ++ [c.round], ?_, pairwise_concat increasing ends later, ?_⟩
                  · rw [List.map_append, ← network]
                    rfl
                  · rw [List.getLast?_concat]
                    rfl
                · exact ⟨rounds, network, increasing, ends⟩
          | newCertificates => exact collects.frame (outputs_prefix_receive _ _ _) rfl rfl
          | _ => exact collects.frame List.prefix_rfl rfl rfl

theorem collects_run (events : List Event) : node.Collects (node.run events) := by
  induction events using List.reverseRecOn with
  | nil => exact ⟨Nat.le_refl 0, rfl, [], rfl, .nil, rfl⟩
  | append_singleton events event ih =>
      rw [run_snoc]
      exact ih.advance event

omit [Primitives] in
/-- The highest round is the round of a certificate. -/
theorem raised_eq_zero_or (xs : List Certificate) :
    Consensus.raised 0 xs = 0 ∨ ∃ x ∈ xs, x.round = Consensus.raised 0 xs := by
  induction xs using List.reverseRecOn with
  | nil => exact .inl rfl
  | append_singleton xs x ih =>
      rw [Consensus.raised_append]
      show max (Consensus.raised 0 xs) x.round = 0 ∨ _
      rcases le_total (Consensus.raised 0 xs) x.round with higher | lower
      · exact .inr ⟨x, List.mem_append_right _ (List.mem_singleton_self _), (max_eq_right higher).symm⟩
      · have same : max (Consensus.raised 0 xs) x.round = Consensus.raised 0 xs := max_eq_left lower
        show max (Consensus.raised 0 xs) x.round = 0 ∨
          ∃ y ∈ xs ++ [x], y.round = max (Consensus.raised 0 xs) x.round
        rw [same]
        exact ih.imp_right fun ⟨y, inside, round⟩ => ⟨y, List.mem_append_left _ inside, round⟩

variable (node) in
/-- The Core collects garbage behind what the consensus has committed. -/
structure Follows (s : State) : Prop where
  /-- The round the Core has read is of a certificate that it has handed over itself. -/
  own : s.core.consensusRound = 0 ∨ ∃ c ∈ s.core.txConsensus, c.round = s.core.consensusRound
  gcRound : s.core.gcRound ≤ s.core.consensusRound - node.core.gcDepth
  committed : s.core.consensusRound ≤ s.ordering.state.lastCommittedRound
  /-- When the GarbageCollector has received everything, the Core is up to date. -/
  upToDate : s.received .feedback = (Consensus.outputs s.ordering.subDags).length →
    s.core.consensusRound = s.ordering.state.lastCommittedRound
  /-- The workers are told of increasing rounds, up to this one. -/
  cleanups : ∃ rounds : List ℕ, s.garbageCollector.network =
      rounds.map (fun round => (node.garbageCollector.addresses, .cleanup round)) ∧
    rounds.Pairwise (· < ·) ∧ rounds.getLast?.getD 0 = s.core.consensusRound

/-- **Garbage is collected behind the consensus.** In every run of a primary, the round by which the Core
collects garbage is that of a certificate which the primary has handed over itself, is not ahead of the last
committed round, and is that round when the GarbageCollector has caught up. The workers are told of every
such round once, in order. -/
theorem rounds_follow {events : List Event}
    (admissible : Throughout node.advance Admissible node.start events) :
    node.Follows (node.run events) := by
  have wired := wired_run admissible
  have ordered : node.Ordered (node.run events) := ordered_run events
  obtain ⟨-, delivered, isPrefix, run, -⟩ := ordered
  have collects : node.Collects (node.run events) := collects_run events
  obtain ⟨bound, round, cleanups⟩ := collects
  have lags : node.core.Lags (node.run events).core := by
    rw [node.core_run]
    exact (admissible_core admissible).invariant node.core.Lags (Nat.zero_le _)
      fun _ _ lags may => lags.advance may
  generalize node.run events = s at wired isPrefix run bound round cleanups lags
  obtain ⟨returned, last⟩ := Consensus.returned_run run
  rw [← wired.collected] at round cleanups
  refine ⟨?_, lags, ?_, fun all => ?_, cleanups⟩
  · rw [round]
    rcases raised_eq_zero_or ((Consensus.outputs s.ordering.subDags).take (s.received .feedback)) with
      zero | ⟨c, inside, same⟩
    · exact .inl zero
    · rcases returned c (List.mem_of_mem_take inside) with own | genesis
      · exact .inr ⟨c, isPrefix.subset own, same⟩
      · exact .inl (same.symm.trans (Certificate.round_of_mem_genesis genesis).1)
  · rw [round, last, ← List.take_append_drop (s.received .feedback)
      (Consensus.outputs s.ordering.subDags), Consensus.raised_append, List.take_append_drop]
    exact Consensus.le_raised _ _
  · rw [round, last, all, List.take_length]

end Model

section TwoAuthorities

local instance cleanupSign : Primitives := executable fun _ _ => true

theorem rounds_follow_leading :
    (ofTwo ⟨1⟩ (by decide)).Follows ((ofTwo ⟨1⟩ (by decide)).run leadingRun) :=
  rounds_follow (by decide +kernel)

end TwoAuthorities

end PrimaryNode

end Tusk
