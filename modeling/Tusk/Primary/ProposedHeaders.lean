import Tusk.Lib.Runs
import Tusk.Primary.ParentChecks
import Tusk.Primary.Proposer
import Tusk.Primary.VoteConsistency

/-!
# The headers a primary proposes

A primary proposes at most one header in a round, none in a round in which the simulated adversary
silences it, and its headers have parents that every primary which has them accepts
(`proposed_acceptable`). It relies on the aggregators of the Core for the parents, which
`ProposedParents` says are certificates of one round and of different authorities with the stake of a
quorum.

The `Proposer` computes the round after that of the parents in `u64`. With parents of the last round
it starts again at round zero (`proposed_round_zero`). The parents of the first round are the genesis
certificates, which are a quorum unless the stakes add up to zero in `u32`.
-/

set_option autoImplicit false

namespace Tusk

open Lib

/-! ## Parents that other primaries accept -/

section Acceptance

variable [Primitives]

/-- The certificates that are found have the stamps of the certificates that were gathered. -/
theorem stampOf_of_collisionFree {certificates : Set Certificate}
    (collisionFree : CollisionFree (Certificate.hashInput '' certificates)) :
    ∃ stamp : Digest → ℕ × PublicKey, ∀ c ∈ certificates, Core.stampOf c = stamp c.digest := by
  classical
  refine ⟨fun digest => if found : ∃ c ∈ certificates, c.digest = digest
    then Core.stampOf found.choose else (0, default), fun c member => ?_⟩
  have found : ∃ c' ∈ certificates, c'.digest = c.digest := ⟨c, member, rfl⟩
  dsimp only
  rw [dif_pos found]
  obtain ⟨inside, same⟩ := found.choose_spec
  have bytes := collisionFree ⟨_, member, rfl⟩ ⟨_, inside, rfl⟩ same.symm
  obtain ⟨-, round, origin⟩ := Certificate.hashInput_inj bytes
  exact Prod.ext round origin

/-- The stakes of certificates are those of the authors their digests stand for. -/
theorem Committee.stakeOf_eq (committee : Committee) {certificates : List Certificate}
    {stamp : Digest → ℕ × PublicKey} (stamps : ∀ c ∈ certificates, Core.stampOf c = stamp c.digest) :
    committee.stakeOf certificates =
      ((certificates.map Certificate.digest).map fun digest =>
        committee.stake (stamp digest).2).sum := by
  rw [stakeOf, List.map_map]
  refine congrArg List.sum (List.map_congr_left fun c member => ?_)
  exact congrArg (fun stamp => committee.stake stamp.2) (stamps c member)

/-- Parents that are all found are read together. -/
theorem exists_parents {node : Core} {store : Store} {certificates : Set Certificate}
    {digests : List Digest} (present : ∀ digest ∈ digests, ∃ p ∈ certificates,
      p.digest = digest ∧ node.parentValue store digest = some (.certificate p)) :
    ∃ parents, node.readParents store digests = .ok (parents, []) ∧
      parents.map Certificate.digest = digests ∧ ∀ p ∈ parents, p ∈ certificates := by
  simp only [Core.readParents_eq_ok_iff]
  induction digests with
  | nil => exact ⟨[], .nil, rfl, fun _ member => absurd member List.not_mem_nil⟩
  | cons digest digests ih =>
      obtain ⟨p, inside, same, here⟩ := present digest List.mem_cons_self
      obtain ⟨parents, rest, digests', among⟩ := ih fun digest member =>
        present digest (.tail _ member)
      refine ⟨p :: parents, .cons here rest, ?_, List.forall_mem_cons.mpr ⟨inside, among⟩⟩
      rw [List.map_cons, same, digests']

/-- **Gathered certificates pass the checks** of every primary that has them. -/
theorem passes_of_gathered {node : Core} {store : Store} {header : Header} {sent : List Certificate}
    {digests : List Digest} {round : ℕ} {certificates : Set Certificate}
    (collisionFree : CollisionFree (Certificate.hashInput '' certificates))
    (among : ∀ c ∈ sent, c ∈ certificates)
    (gathered : Gathered node.committee sent digests round)
    (parents : header.parents = .ofList digests) (next : header.round = (round + 1) % 2 ^ 64)
    (present : ∀ digest ∈ header.parents, ∃ p ∈ certificates, p.digest = digest ∧
      node.parentValue store digest = some (.certificate p)) :
    node.Passes store header := by
  obtain ⟨stamp, stamps⟩ := stampOf_of_collisionFree collisionFree
  obtain ⟨collection, collected, quorum⟩ := gathered
  obtain ⟨found, read, digests', inside⟩ := exists_parents present
  have stampsCollected : ∀ c ∈ collection, Core.stampOf c = stamp c.digest := fun c member =>
    stamps c (among c (collected.sent member))
  have stampsFound : ∀ p ∈ found, Core.stampOf p = stamp p.digest := fun p member =>
    stamps p (inside p member)
  -- the digests are different because the authors are
  have distinct : digests.Nodup := by
    have origins : collection.map Certificate.origin = digests.map fun d => (stamp d).2 := by
      rw [collected.digests, List.map_map]
      exact List.map_congr_left fun c member => congrArg Prod.snd (stampsCollected c member)
    have nodup := collected.origins
    rw [origins] at nodup
    exact nodup.of_map
  refine Core.passes_iff.mpr ⟨found, read, .inr (Core.checkParents_eq_ok_iff.mpr ⟨fun p member => ?_,
    ?_⟩)⟩
  · have listed : p.digest ∈ digests := by
      have member' : p.digest ∈ header.parents := by
        rw [BTreeSet.mem_def, ← digests']
        exact List.mem_map_of_mem member
      rw [parents, BTreeSet.mem_ofList] at member'
      exact member'
    rw [collected.digests] at listed
    obtain ⟨c, gathered, same⟩ := List.mem_map.mp listed
    have stamps : Core.stampOf p = Core.stampOf c := by
      rw [stampsFound p member, stampsCollected c gathered, same]
    have round' : p.round = round := (congrArg Prod.fst stamps).trans (collected.round c gathered)
    rw [round', next]
  · have order : header.parents.toList.Perm digests :=
      parents ▸ BTreeSet.toList_ofList_perm distinct
    have stakes : node.committee.stakeOf found = node.committee.stakeOf collection := by
      rw [node.committee.stakeOf_eq stampsFound, node.committee.stakeOf_eq stampsCollected,
        digests', ← collected.digests]
      exact (order.map _).sum_eq
    rw [stakes]
    exact quorum

omit [Primitives] in
/-- The genesis certificates have the stake of the whole committee. -/
theorem Committee.stakeOf_genesis (committee : Committee) :
    committee.stakeOf (Certificate.genesis committee) = committee.totalVotes := by
  simp only [stakeOf, totalVotes, Certificate.genesis, BTreeMap.keys, BTreeMap.values,
    List.map_map]
  refine congrArg List.sum (List.map_congr_left fun entry member => ?_)
  have found := BTreeMap.get_of_mem (show (entry.1, entry.2) ∈ committee.authorities.entries
    from member)
  show committee.stake entry.1 = entry.2.stake
  rw [stake, found]
  rfl

/-- The genesis certificates are of one round and of different authorities. -/
theorem collected_genesis (committee : Committee) :
    Collected (Certificate.genesis committee) 0
      ((Certificate.genesis committee).map Certificate.digest) (Certificate.genesis committee) where
  digests := rfl
  sent := List.Subset.refl _
  round c member := by
    obtain ⟨name, -, rfl⟩ := List.mem_map.mp member
    rfl
  origins := by
    have origins : (Certificate.genesis committee).map Certificate.origin =
        committee.authorities.keys := by
      rw [Certificate.genesis, List.map_map]
      exact List.map_id' _
    rw [origins]
    exact committee.authorities.keys_nodup

/-- **A header that every primary accepts which has its parents.** The parents are certificates of
the round before, of different authorities, with the stake of a quorum. -/
structure Acceptable (committee : Committee) (sent : List Certificate)
    (certificates : Set Certificate) (h : Header) : Prop where
  parents : ∃ parents : List Certificate,
    (h.round = 1 → parents = Certificate.genesis committee) ∧ (1 < h.round → parents ⊆ sent) ∧
      (∀ digest, digest ∈ h.parents ↔ ∃ p ∈ parents, p.digest = digest) ∧
      (∀ p ∈ parents, p.round + 1 = h.round) ∧ (parents.map Certificate.origin).Nodup ∧
      committee.quorumThreshold.toNat ≤
        (parents.map fun p => (committee.stake p.origin).toNat).sum
  nonempty : h.parents.toList ≠ []
  passes : ∀ (node : Core) (store : Store), node.committee = committee →
    (∀ digest ∈ h.parents, ∃ p ∈ certificates, p.digest = digest ∧
      node.parentValue store digest = some (.certificate p)) → node.Passes store h

/-- A header with gathered parents of the round before is acceptable. -/
theorem acceptable_of_collected {committee : Committee} {sent pool collection : List Certificate}
    {certificates : Set Certificate} {h : Header} {digests : List Digest} {round : ℕ}
    (collisionFree : CollisionFree (Certificate.hashInput '' certificates))
    (among : ∀ c ∈ pool, c ∈ certificates) (collected : Collected pool round digests collection)
    (quorum : committee.quorumThreshold ≤ committee.stakeOf collection)
    (parents : h.parents = .ofList digests) (next : h.round = round + 1)
    (first : h.round = 1 → collection = Certificate.genesis committee)
    (later : 1 < h.round → collection ⊆ sent) :
    Acceptable committee sent certificates h := by
  have listed : ∀ digest, digest ∈ h.parents ↔ ∃ p ∈ collection, p.digest = digest := by
    intro digest
    rw [parents, BTreeSet.mem_ofList, collected.digests, List.mem_map]
  have stake := UInt32.le_iff_toNat_le.mp quorum
  refine
    { parents := ⟨collection, first, later, listed, fun p member => ?_, collected.origins,
        stake.trans (committee.toNat_stakeOf_le collection)⟩
      nonempty := fun none => ?_
      passes := ?_ }
  · rw [collected.round p member, next]
  · have gathered : Gathered committee pool digests round := ⟨collection, collected, quorum⟩
    obtain ⟨digest, member⟩ := gathered.exists_mem
    rw [← BTreeSet.mem_ofList, ← parents, BTreeSet.mem_def, none] at member
    exact absurd member List.not_mem_nil
  · rintro node store rfl present
    have bound := h.round_lt
    refine passes_of_gathered collisionFree among ⟨collection, collected, quorum⟩ parents ?_ present
    omega

end Acceptance

namespace Proposer

/-! ## Runs -/

section Runs

variable [Primitives] (proposer : Proposer)

/-- What the aggregators of the Core send: digests of certificates of one round, of different
authorities and with the stake of a quorum. -/
def Fed (sent : List Certificate) : Event → Prop
  | .parents digests round => Gathered proposer.committee sent digests round
  | .report _ _ => True
  | .timer => True

omit [Primitives] in
/-- The round after that of the parents is a `u64`. -/
def NoOverflow : Event → Prop
  | .parents _ round => round + 1 < 2 ^ 64
  | .report _ _ => True
  | .timer => True

instance : ∀ event, Decidable (NoOverflow event)
  | .parents _ _ => inferInstanceAs (Decidable (_ < _))
  | .report _ _ => inferInstanceAs (Decidable True)
  | .timer => inferInstanceAs (Decidable True)

/-- Parents for a header of a round: the genesis at round 1, and what was gathered later. -/
inductive Ready (sent : List Certificate) : List Digest → ℕ → Prop where
  | genesis : Ready sent proposer.genesis 1
  | gathered {digests : List Digest} {round : ℕ} (positive : 1 ≤ round)
      (gathered : Gathered proposer.committee sent digests round) :
      Ready sent digests (round + 1)

/-- What is known of the proposer between two steps. -/
structure Proposing (sent : List Certificate) (s : State) : Prop where
  positive : 1 ≤ s.round
  silent : s.silent = proposer.selected s.round
  waiting : s.lastParents ≠ [] → proposer.Ready sent s.lastParents s.round
  before : ∀ h ∈ s.txCore, h.round < s.round ∨ (h.round = s.round ∧ s.lastParents = [])
  increasing : (s.txCore.map Header.round).Pairwise (· < ·)
  headers : ∀ h ∈ s.txCore, proposer.selected h.round = false ∧
    ∃ digests, h.parents = .ofList digests ∧ proposer.Ready sent digests h.round

variable {proposer} {sent : List Certificate} {s : State}

/-- **The check** makes a header of the round only when there was none. -/
theorem Proposing.checkProposal (proposing : proposer.Proposing sent s) (timerExpired : Bool) :
    proposer.Proposing sent (proposer.checkProposal s timerExpired) := by
  obtain ⟨positive, silent, waiting, before, increasing, headers⟩ := proposing
  unfold Proposer.checkProposal
  split_ifs with enough isSilent
  · refine ⟨positive, silent, fun some => absurd rfl some, fun h member => ?_, increasing, headers⟩
    rcases before h member with earlier | ⟨same, -⟩
    · exact .inl earlier
    · exact .inr ⟨same, rfl⟩
  · have earlier : ∀ h ∈ s.txCore, h.round < s.round := fun h member =>
      (before h member).resolve_right fun both => enough.2 both.2
    refine ⟨positive, silent, fun some => absurd rfl some, fun h member => ?_, ?_,
      fun h member => ?_⟩
    · rcases List.mem_append.mp member with old | new
      · exact .inl (earlier h old)
      · rw [List.mem_singleton.mp new]
        exact .inr ⟨rfl, rfl⟩
    · show ((s.txCore ++ [_]).map Header.round).Pairwise (· < ·)
      rw [List.map_append, List.map_singleton]
      refine List.pairwise_append.mpr ⟨increasing, List.pairwise_singleton _ _, ?_⟩
      intro round old round' new
      obtain ⟨h, member', rfl⟩ := List.mem_map.mp old
      rw [List.mem_singleton.mp new]
      exact earlier h member'
    · rcases List.mem_append.mp member with old | new
      · exact headers h old
      · rw [List.mem_singleton.mp new]
        refine ⟨?_, s.lastParents, rfl, waiting enough.2⟩
        show proposer.selected s.round = false
        rw [← silent]
        exact Bool.eq_false_iff.mpr isSilent
  · exact ⟨positive, silent, waiting, before, increasing, headers⟩

/-- **Parents move the proposer to a later round.** -/
theorem Proposing.receive {event : Event} (proposing : proposer.Proposing sent s)
    (fed : proposer.Fed sent event) (noOverflow : NoOverflow event) :
    proposer.Proposing sent (proposer.receive s event) := by
  obtain ⟨positive, silent, waiting, before, increasing, headers⟩ := proposing
  cases event with
  | parents digests round =>
      unfold Proposer.receive
      dsimp only
      split_ifs with old
      · exact ⟨positive, silent, waiting, before, increasing, headers⟩
      · have next : (round + 1) % 2 ^ 64 = round + 1 := Nat.mod_eq_of_lt noOverflow
        have later : s.round ≤ round := not_lt.mp old
        refine ⟨?_, rfl, fun _ => ?_, fun h member => .inl ?_, increasing, headers⟩
        · show 1 ≤ (round + 1) % 2 ^ 64
          omega
        · show proposer.Ready sent digests ((round + 1) % 2 ^ 64)
          rw [next]
          exact .gathered (positive.trans later) fed
        · show h.round < (round + 1) % 2 ^ 64
          have earlier : h.round ≤ s.round := (before h member).elim le_of_lt fun both => both.1.le
          omega
  | report => exact ⟨positive, silent, waiting, before, increasing, headers⟩
  | timer => exact ⟨positive, silent, waiting, before, increasing, headers⟩

theorem proposing_start : proposer.Proposing sent proposer.start where
  positive := le_rfl
  silent := rfl
  waiting _ := .genesis
  before _ member := absurd member List.not_mem_nil
  increasing := .nil
  headers _ member := absurd member List.not_mem_nil

theorem proposing_of_run {inputs : List (Bool × Event)}
    (fed : ∀ input ∈ inputs, proposer.Fed sent input.2)
    (noOverflow : ∀ input ∈ inputs, NoOverflow input.2) :
    proposer.Proposing sent (proposer.run inputs) := by
  have feeding : Throughout proposer.pass (fun _ input => proposer.Fed sent input.2) proposer.start
      inputs := .of_forall fed _
  have bounded : Throughout proposer.pass (fun _ input => NoOverflow input.2) proposer.start
      inputs := .of_forall noOverflow _
  exact (feeding.and bounded).invariant (proposer.Proposing sent) proposing_start
    fun s input proposing both => (proposing.checkProposal input.1).receive both.1 both.2

/-- **A primary proposes acceptable headers of increasing rounds**, and none in a round in which it
is silenced, when no parents are of the last round and the genesis certificates are a quorum. -/
theorem proposed_acceptable {certificates : Set Certificate}
    (collisionFree : CollisionFree (Certificate.hashInput '' certificates))
    (among : ∀ c ∈ Certificate.genesis proposer.committee ++ sent, c ∈ certificates)
    (genesisQuorum : proposer.committee.quorumThreshold ≤ proposer.committee.totalVotes)
    {inputs : List (Bool × Event)} (fed : ∀ input ∈ inputs, proposer.Fed sent input.2)
    (noOverflow : ∀ input ∈ inputs, NoOverflow input.2) :
    ((proposer.run inputs).txCore.map Header.round).Pairwise (· < ·) ∧
      ∀ h ∈ (proposer.run inputs).txCore, proposer.selected h.round = false ∧
        Acceptable proposer.committee sent certificates h := by
  have proposing := proposing_of_run fed noOverflow
  refine ⟨proposing.increasing, fun h member => ?_⟩
  obtain ⟨awake, digests, parents, ready⟩ := proposing.headers h member
  refine ⟨awake, ?_⟩
  generalize round : h.round = r at ready
  cases ready with
  | genesis =>
      refine acceptable_of_collected collisionFree
        (fun c member => among c (List.mem_append_left _ member)) (collected_genesis _) ?_ parents
        round (fun _ => rfl) fun late => absurd late (by omega)
      rw [proposer.committee.stakeOf_genesis]
      exact genesisQuorum
  | gathered positive gathered =>
      obtain ⟨collection, collected, quorum⟩ := gathered
      exact acceptable_of_collected collisionFree
        (fun c member => among c (List.mem_append_right _ member)) collected quorum parents round
        (fun first => absurd first (by omega)) fun _ => collected.sent

/-! ## What the Core may expect -/

/-- What is known of the parents when all come from some messages. -/
structure Sourced (proposer : Proposer) (messages : List (List Digest × ℕ)) (s : State) :
    Prop where
  waiting : s.lastParents ≠ [] → ∃ message ∈ (proposer.genesis, 0) :: messages,
    s.lastParents = message.1 ∧ s.round = (message.2 + 1) % 2 ^ 64
  headers : ∀ h ∈ s.txCore, h.author = proposer.name ∧ h.id = h.digest ∧
    h.signature = proposer.requestSignature h.id ∧
    ∃ message ∈ (proposer.genesis, 0) :: messages,
      h.parents = .ofList message.1 ∧ h.round = (message.2 + 1) % 2 ^ 64

theorem Sourced.pass {messages : List (List Digest × ℕ)} {input : Bool × Event}
    (sourced : proposer.Sourced messages s)
    (sent : ∀ digests round, input.2 = .parents digests round → (digests, round) ∈ messages) :
    proposer.Sourced messages (proposer.pass s input) := by
  have checked : proposer.Sourced messages (proposer.checkProposal s input.1) := by
    unfold Proposer.checkProposal
    split_ifs with enough silent
    · exact ⟨fun some => absurd rfl some, sourced.headers⟩
    · refine ⟨fun some => absurd rfl some, fun h member => ?_⟩
      rcases List.mem_append.mp member with old | new
      · exact sourced.headers h old
      · obtain ⟨message, source, parents, round⟩ := sourced.waiting enough.2
        rw [List.mem_singleton.mp new]
        exact ⟨rfl, rfl, rfl, message, source, congrArg BTreeSet.ofList parents, round⟩
    · exact sourced
  unfold Proposer.pass
  obtain ⟨timerExpired, event⟩ := input
  cases event with
  | parents digests round =>
      unfold Proposer.receive
      dsimp only
      split_ifs
      · exact checked
      · exact ⟨fun _ => ⟨_, List.mem_cons_of_mem _ (sent digests round rfl), rfl, rfl⟩,
          checked.headers⟩
  | report => exact ⟨checked.waiting, checked.headers⟩
  | timer => exact checked

/-- **The headers of the proposer are those the Core may receive**, when it takes its parents from
what the Core has sent. -/
theorem proposes_of_run {node : Core} {t : Core.State} {inputs : List (Bool × Event)}
    (name : proposer.name = node.name) (committee : proposer.committee = node.committee)
    (signature : proposer.requestSignature = node.requestSignature)
    (sent : ∀ input ∈ inputs, ∀ digests round, input.2 = .parents digests round →
      (digests, round) ∈ t.txProposer) :
    ∀ h ∈ (proposer.run inputs).txCore, node.Proposes t h := by
  have sending : Throughout proposer.pass (fun _ input => ∀ digests round,
      input.2 = .parents digests round → (digests, round) ∈ t.txProposer) proposer.start inputs :=
    .of_forall sent _
  have start : proposer.Sourced t.txProposer proposer.start :=
    ⟨fun _ => ⟨_, List.mem_cons_self, rfl, rfl⟩, fun _ member => absurd member List.not_mem_nil⟩
  have sourced := sending.invariant (proposer.Sourced t.txProposer) start
    fun s input sourced sent => sourced.pass sent
  have genesis : node.genesis.map Prod.fst = proposer.genesis := by
    rw [Core.genesis, List.map_map, Proposer.genesis, committee]
    rfl
  intro h member
  obtain ⟨author, id, signed, parents⟩ := sourced.headers h member
  exact ⟨author.trans name, id, signature ▸ signed, genesis ▸ parents⟩

end Runs

/-! ## Parents of the last round -/

section FiveAuthorities

local instance proposerSign : Primitives := executable fun _ _ => true

/-- The proposer of the third of the five authorities. -/
def thirdProposer : Proposer where
  name := ⟨3⟩
  committee := Core.fiveAuthorities
  adversaryFaults := 0
  adversarySeed := 0
  pauseBatchesDuringSilence := true
  requestSignature := nameSignature ⟨3⟩
  headerSize := 1000

/-- Certificates of three authorities that together are a quorum. -/
def threeAt (header : PublicKey → Header) : List Certificate :=
  [⟨1⟩, ⟨2⟩, ⟨4⟩].map fun name => Core.certified (header name) ⟨4⟩

/-- A header without batches and parents. -/
def bareHeader (round : ℕ) (round_lt : round < 2 ^ 64) (name : PublicKey) : Header :=
  .new name round ∅ ∅ (nameSignature name) round_lt

/-- The messages of one round that an aggregator sends for these certificates. -/
def gatheredAt (round : ℕ) (round_lt : round < 2 ^ 64) : List (Bool × Event) :=
  [(true, .parents ((threeAt (bareHeader round round_lt)).map Certificate.digest) round),
    (true, .timer)]

theorem fed_gatheredAt (round : ℕ) (round_lt : round < 2 ^ 64) :
    ∀ input ∈ gatheredAt round round_lt,
      thirdProposer.Fed (threeAt (bareHeader round round_lt)) input.2 := by
  intro input member
  rcases List.mem_cons.mp member with rfl | last
  · refine ⟨_, ⟨rfl, List.Subset.refl _, fun c inside => ?_, ?_⟩, ?_⟩
    · obtain ⟨name, -, rfl⟩ := List.mem_map.mp inside
      rfl
    · show ([⟨1⟩, ⟨2⟩, ⟨4⟩] : List PublicKey).Nodup
      decide
    · show Core.fiveAuthorities.quorumThreshold ≤ ([⟨1⟩, ⟨2⟩, ⟨4⟩].map Core.fiveAuthorities.stake).sum
      decide
  · rw [List.mem_singleton.mp last]
    trivial

theorem proposed_acceptable_twice :
    ((thirdProposer.run (gatheredAt 1 (by decide))).txCore.map Header.round).Pairwise (· < ·) ∧
      ∀ h ∈ (thirdProposer.run (gatheredAt 1 (by decide))).txCore,
        thirdProposer.selected h.round = false ∧ Acceptable Core.fiveAuthorities
          (threeAt (bareHeader 1 (by decide)))
          {c | c ∈ Certificate.genesis Core.fiveAuthorities ++ threeAt (bareHeader 1 (by decide))}
          h := by
  refine proposed_acceptable ?_ (fun c member => member) (by decide +kernel)
    (fed_gatheredAt 1 (by decide)) (by decide +kernel)
  refine collisionFree_of_list ((Certificate.genesis Core.fiveAuthorities ++
    threeAt (bareHeader 1 (by decide))).map Certificate.hashInput) ?_ (by decide +kernel)
  rintro _ ⟨c, member, rfl⟩
  exact List.mem_map_of_mem member

/-- **A primary may propose at round zero** after it has proposed at round one. -/
theorem proposed_round_zero : ¬ ∀ (proposer : Proposer) (sent : List Certificate)
    (inputs : List (Bool × Event)), (∀ c ∈ sent, c.verify proposer.committee = .ok ()) →
      (∀ input ∈ inputs, proposer.Fed sent input.2) →
      ((proposer.run inputs).txCore.map Header.round).Pairwise (· < ·) := by
  intro increasing
  have fed := fed_gatheredAt (2 ^ 64 - 1) (by decide)
  have rounds := increasing thirdProposer _ _ (by decide +kernel) fed
  exact absurd rounds (by decide +kernel)

end FiveAuthorities

end Proposer

end Tusk
