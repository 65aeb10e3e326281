import Tusk.Primary.NodeHeaders
import Tusk.Primary.OwnCertificates

/-!
# A primary votes for its own headers

A header that the Core receives from its Proposer is checked like any other: its parents have to be stored
and of the round before, and the primary must not have voted for another header of its own in this round. A
header that fails a check is dropped or waits, and the primary that made it would not vote for it. This does
not happen. The Proposer only lists parents that the Core has handed over itself, and enters a later round
with each header. So every own header has the vote of its author before the Core takes another message
(`own_headers_voted`).
-/

set_option autoImplicit false

namespace Tusk

open Lib

/-! ## The vote at the proposal -/

namespace Core

variable [Primitives] {node : Core} {s : State} {h : Header}

/-- The Core is running when it receives a message. -/
def Running (s : State) : Event → Prop
  | .core _ => s.halted = none
  | .batch _ _ => True
  | .consensus _ => True

/-- Acts only add. -/
theorem extends_of_acts {s₀ t t' : State} {input : Input}
    (acts : Relation.ReflTransGen (node.Acts s₀ input) t t') : Extends t t' := by
  have grows : ∀ u u', node.Acts s₀ input u u' → Extends t u → Extends t u' :=
    fun _ _ acts => Command.kept_of_steps (fun _ _ moves => Extends.moves moves) acts.moves
  exact Command.kept_of_steps grows acts (Extends.refl t)

/-- **At the proposal the own vote is made.** -/
theorem voted_of_proposal (behind : node.Behind s) (ours : h.author = node.name)
    (next : s.currentHeader.round < h.round) (passes : node.Passes s.store h)
    (nonempty : h.parents.toList ≠ []) :
    (h, node.voteFor h) ∈ (node.step s (.proposer h)).votesCreated := by
  have first : h.author ∉ HashMap.bucket (node.entered s h).lastVoted h.round :=
    (behind.unheard next ours).2
  let u : State := (node.entered s h).createVote h (node.voteFor h)
  have outcome : ((node.receive (.proposer h)).outcome s).2 =
      ((node.processVote (node.voteFor h)).outcome u).2 := by
    rw [receive_proposer ours passes nonempty, castVote_of_first ours first,
      Command.outcome_interruptWith]
  have atHand : node.VoteAtHand s (.proposer h) u (node.voteFor h) :=
    .own (.inl (.proposer h)) ours ⟨s, accepts_of_passes ours passes nonempty⟩
  have grows : Extends u ((node.receive (.proposer h)).outcome s).2 := by
    rw [outcome]
    exact extends_of_acts (processVote_acts (node.voteFor h) u ⟨rfl, atHand⟩).1
  have voted : (h, node.voteFor h) ∈ ((node.receive (.proposer h)).outcome s).2.votesCreated :=
    grows.votes.subset (List.mem_append_right _ (List.mem_singleton_self _))
  let isVoted := fun t : State => (h, node.voteFor h) ∈ t.votesCreated
  refine @after_step_settles _ node s (.proposer h) isVoted isVoted voted ?_
  rintro t - ⟨⟩ voted
  exact voted

/-- **Every own header is voted for.** -/
theorem own_voted_run {events : List Event} {known : Set Header}
    (collisionFree : CollisionFree (hashedFor known))
    (avoids : Primitives.Avoids (hashedFor known) node.committee.fixedDigests)
    (genesisKnown : genesisHeaders node.committee ⊆ known) (noWrap : node.committee.NoWrap)
    (stake : 0 < node.committee.stake node.name)
    (admissible : Throughout node.advance node.Admissible {} events)
    (ownRounds : Throughout node.advance node.OwnRounds {} events)
    (running : Throughout node.advance Running {} events)
    (heard : ∀ event ∈ events, ∀ h, event.header = some h → h ∈ known)
    (own : .core (.proposer h) ∈ events) :
    (h, node.voteFor h) ∈ (node.run events).votesCreated := by
  obtain ⟨before, after, rfl⟩ := List.append_of_mem own
  have member := node.committee.mem_keys_of_stake_pos stake
  have allowed := ((Throughout.append_iff.mp admissible).1.and
    (Throughout.append_iff.mp ownRounds).1).and
      (.of_forall (fun event happened => heard event (List.mem_append_left _ happened)) _)
  obtain ⟨filed, handed, proposable, behind⟩ := allowed.invariant
    (fun s => Filed node.committee known s ∧ Handed node.committee known s ∧ node.Proposable s ∧
      node.Behind s)
    ⟨filed_start _, fun _ inside => absurd inside List.not_mem_nil, proposable_start, behind_start⟩
    fun s event ⟨filed, handed, proposable, behind⟩ both =>
      ⟨filed.advance member both.1.1 both.2, handed.advance filed member both.1.1 both.2,
        proposable.advance both.1.1, behind.advance both.1.1 both.1.2⟩
  have proposes := (Throughout.append_iff.mp admissible).2.1
  have next := (Throughout.append_iff.mp ownRounds).2.1
  have runs := (Throughout.append_iff.mp running).2.1
  rw [run, List.foldl_append, List.foldl_cons]
  refine (extends_foldl _ after).votes.subset ?_
  change node.Proposes (before.foldl node.advance {}) h at proposes
  change (before.foldl node.advance {}).currentHeader.round < h.round at next
  change (before.foldl node.advance {}).halted = none at runs
  generalize before.foldl node.advance {} = s at filed handed proposable behind proposes next runs
  obtain ⟨passes, nonempty⟩ := passes_of_proposes filed handed proposable collisionFree avoids
    genesisKnown (quorumThreshold_le_totalVotes noWrap stake) proposes
  have steps : node.advance s (.core (.proposer h)) = node.step s (.proposer h) := by
    simp [Core.advance, runs]
  rw [steps]
  exact voted_of_proposal behind proposes.author next passes nonempty

end Core

/-! ## All tasks together -/

namespace PrimaryNode

section Model

variable [Primitives] {node : PrimaryNode}

/-- The Core receives nothing after an assertion has stopped it. -/
theorem running_core (events : List Event) :
    Throughout node.core.advance Core.Running {} (node.coreRun events) := by
  have steps : Throughout node.advance
      (fun s event => Throughout node.core.advance Core.Running s.core (coreEvents s event))
      node.start events := by
    refine .of_prefixes fun before event after _ => ?_
    generalize before.foldl node.advance node.start = s
    cases event with
    | primary => trivial
    | worker => trivial
    | step step =>
        cases takes : s.input step with
        | none => simp [coreEvents, takes, Throughout]
        | some input =>
            cases brings_of_input takes with
            | primaries running => simpa [coreEvents, takes, Throughout, Core.Running] using running
            | headerLoopback running =>
                simpa [coreEvents, takes, Throughout, Core.Running] using running
            | certificateLoopback running =>
                simpa [coreEvents, takes, Throughout, Core.Running] using running
            | headers running => simpa [coreEvents, takes, Throughout, Core.Running] using running
            | @feedback c =>
                simp only [coreEvents, takes]
                unfold GarbageCollector.stores
                split_ifs <;> simp [Throughout, Core.Running]
            | _ => simp [coreEvents, takes, Throughout, Core.Running]
  exact steps.shown core_advance fun _ _ allowed => allowed

/-- **A primary votes for each of its own headers.** In every run of a primary in which no round overflows
and nobody forges its headers, each header that its Core has received from its Proposer has got the vote of
the primary itself. None is dropped or left to wait for its parents. -/
theorem own_headers_voted {events : List Event} {known : Set Header}
    (admissible : Throughout node.advance Admissible node.start events)
    (noOverflow : ∀ message ∈ (node.run events).core.txProposer, message.2 + 1 < 2 ^ 64)
    (unforged : Throughout node.advance node.Unforged node.start events)
    (collisionFree : CollisionFree (hashedFor known))
    (avoids : Primitives.Avoids (hashedFor known) node.core.committee.fixedDigests)
    (genesisKnown : Core.genesisHeaders node.core.committee ⊆ known)
    (noWrap : node.core.committee.NoWrap) (stake : 0 < node.core.committee.stake node.core.name)
    (heard : ∀ event ∈ node.coreRun events, ∀ h, event.header = some h → h ∈ known) :
    ∀ h ∈ (node.run events).ownHeaders,
      (h, node.core.voteFor h) ∈ (node.run events).core.votesCreated := by
  intro h received
  have attuned : Attuned (node.coreRun events) (node.run events) := attuned_run events
  rw [node.core_run]
  exact Core.own_voted_run collisionFree avoids genesisKnown noWrap stake (admissible_core admissible)
    (own_rounds admissible noOverflow unforged collisionFree heard) (running_core events) heard
    ((attuned.mem_iff h).mpr received)

end Model

/-! ## The chain of the first authority -/

section TwoAuthorities

open CorrectPrimary

local instance ownSign : Primitives := executable fun _ _ => true

/-- The primary has received five headers of its own and voted for all. -/
theorem own_headers_voted_leading :
    ((ofTwo ⟨1⟩ (by decide)).run leadingRun).ownHeaders.length = 5 ∧
      ∀ h ∈ ((ofTwo ⟨1⟩ (by decide)).run leadingRun).ownHeaders,
        (h, (primaryOf ⟨1⟩).voteFor h) ∈
          ((ofTwo ⟨1⟩ (by decide)).run leadingRun).core.votesCreated := by
  let headers : List Header := (List.range' 1 5).map (fun r => (leading r).1) ++
    (Certificate.genesis twoAuthorities).map Certificate.header
  let known : Set Header := {h | h ∈ headers}
  have heard : ∀ event ∈ (ofTwo ⟨1⟩ (by decide)).coreRun leadingRun, ∀ h ∈ event.header,
      h ∈ headers := by
    decide +kernel
  obtain ⟨collisionFree, avoids⟩ : CollisionFree (hashedFor known) ∧
      Primitives.Avoids (hashedFor known) twoAuthorities.fixedDigests :=
    hashed_of_headers headers (fun _ => id) (by decide +kernel) (by decide +kernel)
  refine ⟨by decide +kernel, @own_headers_voted _ (ofTwo ⟨1⟩ (by decide)) leadingRun known
    (by decide +kernel) (by decide +kernel) (by decide +kernel) collisionFree avoids ?_
    (by decide +kernel) (by decide +kernel) heard⟩
  rintro _ ⟨c, genesis, rfl⟩
  exact List.mem_append_right _ (List.mem_map_of_mem genesis)

end TwoAuthorities

end PrimaryNode

end Tusk
