import Tusk.Primary.ParentChecks

/-!
# The parents of what was voted for

A primary votes for a header after it has found all parents and has checked them: they are of the round
before, and their authors hold a quorum. What it finds under the digest of a parent is a genesis certificate,
or a certificate that it has handed to the consensus before. So with each vote it has handed over a quorum of
parents (`ballots_run`), and this does not depend on who sends the header or on how often it had to wait.
-/

set_option autoImplicit false

namespace Tusk.Core

open Lib

section Votes

variable [Primitives] (node : Core)

/-- The parents of the header are certificates that were sent or are of the genesis, and they pass the
checks. -/
def Founded (sent : List Certificate) (h : Header) : Prop :=
  ∃ parents : List Certificate, parents.map Certificate.digest = h.parents.toList ∧
    (∀ p ∈ parents, p ∈ sent ∨ p ∈ Certificate.genesis node.committee) ∧
    node.checkParents h parents = .ok ()

/-- What is known of a vote and its header. -/
structure Ballot (known : Set Header) (s : State) (a : Header × Vote) : Prop where
  cast : a.2 = node.voteFor a.1
  vetted : a.1.Vetted node.committee known
  founded : node.Founded s.txConsensus a.1

/-- The headers that are stored and those that were voted for have parents that were sent. -/
structure Ballots (known : Set Header) (s : State) : Prop where
  stored : ∀ key h, s.store.read key = some (.header h) → node.Founded s.txConsensus h
  votes : ∀ a ∈ s.votesCreated, node.Ballot known s a

variable {node} {known : Set Header} {s t t' : State} {input : Input} {event : Event}

theorem Founded.mono {sent sent' : List Certificate} {h : Header} (founded : node.Founded sent h)
    (more : sent ⊆ sent') : node.Founded sent' h := by
  obtain ⟨parents, digests, found, checked⟩ := founded
  exact ⟨parents, digests, fun p member => (found p member).imp_left fun old => more old, checked⟩

theorem Ballot.mono {a : Header × Vote} (ballot : node.Ballot known s a)
    (more : s.txConsensus ⊆ t.txConsensus) : node.Ballot known t a :=
  ⟨ballot.cast, ballot.vetted, ballot.founded.mono more⟩

/-- What is found of a parent has its digest, and was sent or is of the genesis. -/
theorem Filed.found (filed : Filed node.committee known s) {digest : Digest} {p : Certificate}
    (found : node.parentValue s.store digest = some (.certificate p)) :
    p.digest = digest ∧ (p ∈ s.txConsensus ∨ p ∈ Certificate.genesis node.committee) := by
  by_cases isGenesis : node.IsGenesis digest
  · obtain ⟨c, genesis, same, found'⟩ := parentValue_of_isGenesis isGenesis s.store
    rw [found] at found'
    cases found'
    exact ⟨same, .inr genesis⟩
  · rw [parentValue_of_not_isGenesis isGenesis] at found
    cases filed.store _ _ found with
    | certificate key _ delivered => exact ⟨(Digest.asRef_injective key).symm, .inl delivered⟩

/-- **The parents of an accepted header were sent.** -/
theorem Filed.founded (filed : Filed node.committee known s) {h : Header}
    (accepts : node.Accepts s h) : node.Founded s.txConsensus h := by
  obtain ⟨parents, read, -, checked⟩ := accepts.parents
  rw [readParents_eq_ok_iff] at read
  suffices both : parents.map Certificate.digest = h.parents.toList ∧
      ∀ p ∈ parents, p ∈ s.txConsensus ∨ p ∈ Certificate.genesis node.committee from
    ⟨parents, both.1, both.2, checked⟩
  generalize h.parents.toList = digests at read ⊢
  clear checked
  induction read with
  | nil => exact ⟨rfl, fun _ member => absurd member List.not_mem_nil⟩
  | @cons digest p digests parents found _ ih =>
      obtain ⟨same, source⟩ := filed.found found
      refine ⟨by rw [List.map_cons, same, ih.1], fun p' member => ?_⟩
      rcases List.mem_cons.mp member with rfl | later
      · exact source
      · exact ih.2 p' later

/-- **A move keeps the parents sent.** -/
theorem Ballots.moves (vetted : ∀ h, node.Handled s input h → h.Vetted node.committee known)
    (moves : node.Moves (node.Handled s input) (node.Carried s input) t t')
    (filed : Filed node.committee known t) (ballots : node.Ballots known t) :
    node.Ballots known t' := by
  obtain ⟨stored, votes⟩ := ballots
  cases moves with
  | check _ checks =>
      cases checks <;> exact ⟨stored, fun a member => (votes a member).mono fun _ => id⟩
  | @store _ h subject accepts =>
      refine ⟨fun key h' found => ?_, fun a member => (votes a member).mono fun _ => id⟩
      rcases Store.written_or_before found with ⟨-, same⟩ | old
      · cases same
        exact filed.founded accepts
      · exact stored key h' old
  | @vote u h subject =>
      refine ⟨stored, fun a member => ?_⟩
      rcases List.mem_append.mp member with old | new
      · exact (votes a old).mono fun _ => id
      · -- the header was stored just before
        obtain rfl := List.mem_singleton.mp new
        have found : (u.storeHeader h).store.read h.id.asRef = some (.header h) := by
          change (u.store.write h.id.asRef (.header h)).read h.id.asRef = _
          rw [Store.read_write, if_pos rfl]
        exact ⟨rfl, vetted h subject, stored _ _ found⟩
  | send => exact ⟨stored, fun a member => (votes a member).mono fun _ => id⟩
  | count => exact ⟨stored, fun a member => (votes a member).mono fun _ => id⟩
  | suspend => exact ⟨stored, fun a member => (votes a member).mono fun _ => id⟩
  | @deliver _ c subject parents =>
      refine ⟨fun key h found => ?_, fun a member => (votes a member).mono (List.subset_append_left ..)⟩
      rcases Store.written_or_before found with ⟨-, same⟩ | old
      · cases same
      · exact (stored key h old).mono (List.subset_append_left ..)

/-- What is known during a step. -/
structure Polling (node : Core) (known : Set Header) (t : State) : Prop where
  filed : Filed node.committee known t
  ballots : node.Ballots known t

/-- **An event keeps the parents sent.** -/
theorem Ballots.advance (ballots : node.Ballots known s) (filed : Filed node.committee known s)
    (member : node.name ∈ node.committee.authorities.keys) (admissible : node.Admissible s event)
    (heard : ∀ h, event.header = some h → h ∈ known) : node.Ballots known (node.advance s event) := by
  obtain ⟨stored, votes⟩ := ballots
  cases event with
  | batch digest workerId =>
      refine ⟨fun key h found => ?_, fun a member => (votes a member).mono fun _ => id⟩
      rcases Store.written_or_before found with ⟨-, same⟩ | old
      · cases same
      · exact stored key h old
  | consensus => exact ⟨stored, fun a member => (votes a member).mono fun _ => id⟩
  | core input =>
      refine advance_core ⟨stored, votes⟩ fun _ => ?_
      have start : node.Polling known (s.opened input) := by
        refine ⟨filed.opened member admissible heard, ?_⟩
        cases input <;> exact ⟨stored, fun a member => (votes a member).mono fun _ => id⟩
      apply step_invariant_settles start
      · exact fun t t' moves polling =>
          ⟨filed.moves_of_step member admissible heard moves polling.filed,
            polling.ballots.moves (fun _ => filed.vetted_of_handled member admissible heard) moves
              polling.filed⟩
      · rintro t t' settles ⟨-, stored, votes⟩
        cases settles
        exact ⟨stored, fun a member => (votes a member).mono fun _ => id⟩

theorem ballots_start : node.Ballots known {} where
  stored key _ found := nomatch (Store.read_empty key).symm.trans found
  votes _ member := absurd member List.not_mem_nil

/-- **With each vote a primary has handed over a quorum of parents.** -/
theorem ballots_run {events : List Event} (member : node.name ∈ node.committee.authorities.keys)
    (admissible : Throughout node.advance node.Admissible {} events)
    (heard : ∀ event ∈ events, ∀ h, event.header = some h → h ∈ known) :
    node.Ballots known (node.run events) := by
  have kept := (admissible.and (.of_forall heard _)).invariant
    (fun s => Filed node.committee known s ∧ node.Ballots known s) ⟨filed_start _, ballots_start⟩
    fun s event both allowed => ⟨both.1.advance member allowed.1 allowed.2,
      both.2.advance both.1 member allowed.1 allowed.2⟩
  exact kept.2

end Votes

end Tusk.Core
