import Tusk.Primary.CoreRecursion
import Tusk.Primary.ProposedHeaders

/-!
# How a primary processes its own header

Most results about the Core only say what it may do with a message (`Acts`). Whether this primary
counts its own vote, and whether an assertion stops it there, is a question of what it does. When the
parents of a header of its own are stored and pass the checks, `process_header` stores the header and
comes to the vote (`processHeader_of_passes`), and `process_vote` goes on from the state that the
aggregator leaves (`processVote_leaves`).
-/

set_option autoImplicit false

namespace Tusk.Core

open Lib

variable [Primitives] {node : Core} {s t : State} {h : Header}

/-! ## The header -/

theorem getParents_of_read {parents : List Certificate}
    (read : node.readParents t.store h.parents.toList = .ok (parents, [])) :
    (node.getParents h).outcome t = (.ok parents, t) := by
  unfold getParents
  rw [Command.outcome_bind, Command.outcome_get]
  dsimp only
  rw [Command.outcome_bind, check, Command.outcome_ofExcept, read]
  rfl

/-- The parents that are read of a header with parents. -/
theorem read_ne_nil {store : Store} {digests : List Digest} {parents : List Certificate}
    (read : node.readParents store digests = .ok (parents, [])) (nonempty : digests ≠ []) :
    parents ≠ [] := by
  rintro rfl
  have none := (readParents_eq_ok_iff.mp read)
  cases none
  exact nonempty rfl

theorem accepts_of_passes (own : h.author = node.name) (passes : node.Passes t.store h)
    (nonempty : h.parents.toList ≠ []) : node.Accepts t h := by
  obtain ⟨parents, read, checked⟩ := passes_iff.mp passes
  have found := read_ne_nil read nonempty
  exact ⟨⟨parents, read, found, checked.resolve_left found⟩, .inl own⟩

/-- Checking an own header whose parents are stored and pass. -/
theorem checkHeader_of_passes (own : h.author = node.name) (passes : node.Passes t.store h)
    (nonempty : h.parents.toList ≠ []) :
    (node.checkHeader h).outcome t = (.ok true, t.startProcessing h) := by
  obtain ⟨⟨parents, read, found, checked⟩, -⟩ := accepts_of_passes own passes nonempty
  have present : parents.isEmpty = false := by simpa using found
  unfold checkHeader
  rw [Command.outcome_bind, Command.outcome_modify]
  dsimp only
  rw [Command.outcome_bind, getParents_of_read (t := t.startProcessing h) read]
  dsimp only
  rw [present]
  rw [if_neg Bool.false_ne_true, Command.outcome_bind, check, Command.outcome_ofExcept, checked]
  dsimp only [Except.mapError]
  unfold missingPayload
  rw [if_pos own]
  rfl

/-- A header without parents is neither stored nor voted for. -/
theorem processHeader_of_parentless (parentless : h.parents.toList = []) :
    (node.processHeader h).outcome t = (.ok (), t.startProcessing h) := by
  have read : node.readParents (t.startProcessing h).store h.parents.toList = .ok ([], []) := by
    rw [parentless]
    rfl
  have suspended : (node.checkHeader h).outcome t = (.ok false, t.startProcessing h) := by
    unfold checkHeader
    rw [Command.outcome_bind, Command.outcome_modify]
    dsimp only
    rw [Command.outcome_bind, getParents_of_read read]
    rfl
  rw [processHeader_eq]
  unfold processHeaderWith
  rw [Command.outcome_bind, suspended]
  rfl

/-! ## The vote -/

/-- Voting for an own header that was voted for already. -/
theorem castVote_of_voted {processVote : Vote → CoreM Unit}
    (voted : h.author ∈ HashMap.bucket t.lastVoted h.round) :
    (node.castVote processVote h).outcome t = (.ok (), t) := by
  unfold castVote
  rw [Command.outcome_bind, Command.outcome_get]
  dsimp only
  rw [if_pos voted]
  rfl

/-- Voting for an own header the first time. -/
theorem castVote_of_first {processVote : Vote → CoreM Unit} (own : h.author = node.name)
    (first : h.author ∉ HashMap.bucket t.lastVoted h.round) :
    (node.castVote processVote h).outcome t =
      ((processVote (node.voteFor h)).interruptWith (.expect .ownVote)).outcome
        (t.createVote h (node.voteFor h)) := by
  have origin : (node.voteFor h).origin = node.name := own
  unfold castVote
  rw [Command.outcome_bind, Command.outcome_get]
  dsimp only
  rw [if_neg first, Command.outcome_bind, Command.outcome_modify]
  dsimp only
  rw [if_pos origin]

/-- **An own header whose parents are stored and pass comes to the vote.** -/
theorem processHeader_of_passes (own : h.author = node.name) (passes : node.Passes t.store h)
    (nonempty : h.parents.toList ≠ []) :
    (node.processHeader h).outcome t =
      (node.castVote node.processVote h).outcome ((t.startProcessing h).storeHeader h) := by
  rw [processHeader_eq]
  unfold processHeaderWith
  rw [Command.outcome_bind, checkHeader_of_passes own passes nonempty]
  dsimp only
  rw [if_pos rfl, Command.outcome_bind, Command.outcome_modify]

variable (node) in
/-- The state in which a header of the `Proposer` comes to the vote. -/
def entered (s : State) (h : Header) : State :=
  (((s.propose h).send node.others (.header h)).startProcessing h).storeHeader h

/-- **A header of the `Proposer` comes to the vote.** -/
theorem receive_proposer (own : h.author = node.name) (passes : node.Passes s.store h)
    (nonempty : h.parents.toList ≠ []) :
    (node.receive (.proposer h)).outcome s =
      (node.castVote node.processVote h).outcome (node.entered s h) := by
  change (node.processOwnHeader h).outcome s = _
  unfold processOwnHeader
  rw [Command.outcome_bind, Command.outcome_modify]
  dsimp only
  rw [Command.outcome_bind, Command.outcome_modify]
  dsimp only
  have passes' : node.Passes ((s.propose h).send node.others (.header h)).store h := passes
  rw [processHeader_of_passes own passes' nonempty]
  rfl

/-- **How a vote is processed**: an error when its author was counted, nothing more when the quorum
is not reached, and the new certificate otherwise. -/
theorem processVote_outcome (v : Vote) :
    (node.processVote v).outcome t =
      match t.votesAggregator.append v node.committee t.currentHeader with
      | .error e => (.error (.error e), t)
      | .ok (aggregator, none) => (.ok (), { t with votesAggregator := aggregator })
      | .ok (aggregator, some c) =>
          ((node.processCertificate c).interruptWith (.expect .validCertificate)).outcome
            (State.send { t with votesAggregator := aggregator } node.others (.certificate c)) := by
  unfold processVote processVoteWith
  rw [Command.outcome_bind, Command.outcome_get]
  dsimp only
  rw [Command.outcome_bind, check, Command.outcome_ofExcept]
  cases t.votesAggregator.append v node.committee t.currentHeader with
  | error e => rfl
  | ok counted =>
      obtain ⟨aggregator, assembled⟩ := counted
      cases assembled with
      | none => rfl
      | some c => rfl

/-! ## The parents -/

/-- The certificates handed to the consensus have vetted headers. -/
def Handed (committee : Committee) (known : Set Header) (s : State) : Prop :=
  ∀ c ∈ s.txConsensus, c.header.Vetted committee known

variable {known : Set Header}

/-- **An event keeps what was handed over vetted.** -/
theorem Handed.advance {event : Event} (handed : Handed node.committee known s)
    (filed : Filed node.committee known s) (member : node.name ∈ node.committee.authorities.keys)
    (admissible : node.Admissible s event) (heard : ∀ h, event.header = some h → h ∈ known) :
    Handed node.committee known (node.advance s event) := by
  cases event with
  | batch => exact handed
  | consensus => exact handed
  | core input =>
      refine advance_kept (Handed node.committee known) handed ?_ ?_ ?_
      · cases input <;> exact handed
      · intro t t' acts handed c inside
        rcases acts.delivered inside with old | ⟨subject, -⟩
        · exact handed c old
        · exact filed.vetted_of_carried member admissible heard subject.carried
      · intro t t' settles handed
        cases settles
        exact handed

/-- The headers of the genesis certificates. -/
def genesisHeaders (committee : Committee) : Set Header :=
  {h | ∃ c ∈ Certificate.genesis committee, c.header = h}

/-- What is hashed for vetted certificates has no collision. -/
theorem collisionFree_vetted {committee : Committee}
    (collisionFree : CollisionFree (hashedFor known)) (genesis : genesisHeaders committee ⊆ known) :
    CollisionFree (Certificate.hashInput '' {c | c.header.Vetted committee known}) := by
  refine collisionFree.mono ?_
  rintro _ ⟨c, vetted, rfl⟩
  rcases hashInput_mem_hashedFor vetted with claims | hashed
  · obtain ⟨id, round, origin⟩ := claims
    have inside : (Certificate.genesisOf c.origin).header ∈ known :=
      genesis ⟨_, List.mem_map_of_mem origin, rfl⟩
    refine ⟨_, .inr inside, .inr ?_⟩
    rw [Certificate.hashInput, id, round]
    rfl
  · exact hashed

theorem vetted_genesis {committee : Committee} {c : Certificate}
    (member : c ∈ Certificate.genesis committee) : c.header.Vetted committee known := by
  obtain ⟨name, authority, rfl⟩ := List.mem_map.mp member
  exact .genesis rfl rfl authority

/-- The digest of a vetted certificate that has been handed over is found as such a certificate. -/
theorem Filed.found_certificate (filed : Filed node.committee known s)
    (handed : Handed node.committee known s) (collisionFree : CollisionFree (hashedFor known))
    (avoids : Primitives.Avoids (hashedFor known) node.committee.fixedDigests) {c : Certificate}
    (vetted : c.header.Vetted node.committee known)
    (present : node.HasParent s.store c.digest) :
    ∃ p ∈ {p : Certificate | p.header.Vetted node.committee known}, p.digest = c.digest ∧
      node.parentValue s.store c.digest = some (.certificate p) := by
  by_cases isGenesis : node.IsGenesis c.digest
  · obtain ⟨p, genesis, same, found⟩ := parentValue_of_isGenesis isGenesis s.store
    exact ⟨p, vetted_genesis genesis, same, found⟩
  · obtain ⟨value, found⟩ := Option.isSome_iff_exists.mp (present.resolve_left isGenesis)
    rw [parentValue_of_not_isGenesis isGenesis, found]
    cases filed.store _ _ found with
    | @header h' id vetted' =>
        have clash : c.digest = h'.id := Digest.asRef_injective id
        exact absurd (isGenesis_of_isGenesisDigest
          (isGenesisDigest_of_clash collisionFree avoids vetted' vetted clash)) isGenesis
    | @certificate p key _ delivered =>
        exact ⟨p, handed p delivered, (Digest.asRef_injective key).symm, rfl⟩
    | empty longer => exact absurd rfl (longer c.digest)

/-- **The parents of a header of the `Proposer` are stored and pass the checks.** -/
theorem passes_of_proposes (filed : Filed node.committee known s)
    (handed : Handed node.committee known s) (proposable : node.Proposable s)
    (collisionFree : CollisionFree (hashedFor known))
    (avoids : Primitives.Avoids (hashedFor known) node.committee.fixedDigests)
    (genesisKnown : genesisHeaders node.committee ⊆ known)
    (enough : node.committee.quorumThreshold ≤ node.committee.totalVotes)
    (proposes : node.Proposes s h) :
    node.Passes s.store h ∧ h.parents.toList ≠ [] := by
  obtain ⟨proposal, source, parents, next⟩ := proposes.parents
  -- the parents were gathered from vetted certificates
  have gathered : ∃ sent : List Certificate,
      (∀ c ∈ sent, c.header.Vetted node.committee known) ∧
        Gathered node.committee sent proposal.1 proposal.2 := by
    rcases List.mem_cons.mp source with rfl | earlier
    · refine ⟨Certificate.genesis node.committee, fun _ => vetted_genesis, _,
        ?_, node.committee.stakeOf_genesis ▸ enough⟩
      have digests : node.genesis.map Prod.fst =
          (Certificate.genesis node.committee).map Certificate.digest := by
        rw [genesis, List.map_map]
        rfl
      rw [digests]
      exact collected_genesis node.committee
    · exact ⟨s.txConsensus, handed, proposable.proposed proposal earlier⟩
  obtain ⟨sent, vetted, gathered⟩ := gathered
  have present : ∀ digest ∈ h.parents,
      ∃ p ∈ {p : Certificate | p.header.Vetted node.committee known}, p.digest = digest ∧
        node.parentValue s.store digest = some (.certificate p) := by
    intro digest member
    have stored := proposable.hasParent_of_proposes proposes digest member
    obtain ⟨certificates, collected, -⟩ := gathered
    rw [parents, BTreeSet.mem_ofList, collected.digests] at member
    obtain ⟨c, inside, rfl⟩ := List.mem_map.mp member
    exact filed.found_certificate handed collisionFree avoids (vetted c (collected.sent inside))
      stored
  refine ⟨passes_of_gathered (collisionFree_vetted collisionFree genesisKnown) vetted gathered parents
    next present, fun none => ?_⟩
  obtain ⟨digest, member⟩ := gathered.exists_mem
  rw [← BTreeSet.mem_ofList, ← parents, BTreeSet.mem_def, none] at member
  exact absurd member List.not_mem_nil

end Tusk.Core
