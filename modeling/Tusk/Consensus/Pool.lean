import Tusk.Consensus.Run
import Tusk.Lib.RoundDag

/-!
# The certificates a committee produces

All certificates that the nodes of a committee may receive form a pool: one certificate an author
and round, with parents in the round just below by authors who hold a quorum of the stake. The
pool is a dag in rounds (`Pool.dag`). A node receives certificates of the pool, each after its
parents (`Pool.Delivery`), and with a certificate it has received all its ancestors
(`Delivery.mem_of_reaches`).
-/

set_option autoImplicit false

namespace Tusk

open Lib

namespace Certificate

/-- A genesis certificate has round 0 and no parents. -/
theorem round_of_mem_genesis {certificate : Certificate} {committee : Committee}
    (member : certificate ∈ genesis committee) :
    certificate.round = 0 ∧ certificate.header.parents.toList = [] := by
  obtain ⟨name, -, rfl⟩ := List.mem_map.mp member
  exact ⟨rfl, rfl⟩

/-- There is one genesis certificate an author. -/
theorem eq_of_mem_genesis {certificate other : Certificate} {committee : Committee}
    (member : certificate ∈ genesis committee) (member' : other ∈ genesis committee)
    (same : certificate.origin = other.origin) : certificate = other := by
  obtain ⟨name, -, rfl⟩ := List.mem_map.mp member
  obtain ⟨name', -, rfl⟩ := List.mem_map.mp member'
  exact congrArg genesisOf same

end Certificate

/-- The certificates of rounds from 1 on that nodes of a committee may receive. -/
structure Pool [Primitives] (committee : Committee) where
  certificates : Set Certificate
  round_pos : ∀ c ∈ certificates, 1 ≤ c.round
  unique : ∀ c ∈ certificates, ∀ c' ∈ certificates,
    c.origin = c'.origin → c.round = c'.round → c = c'
  /-- The digests of the certificates, the genesis included, have no collision. -/
  collisionFree : CollisionFree
    (Certificate.hashInput '' {c | c ∈ certificates ∨ c ∈ Certificate.genesis committee})
  parents : ∀ c ∈ certificates, ∀ digest ∈ c.header.parents,
    ∃ p, (p ∈ certificates ∨ p ∈ Certificate.genesis committee) ∧
      p.digest = digest ∧ p.round + 1 = c.round
  quorum : ∀ c ∈ certificates, ∃ authors : Finset PublicKey,
    committee.quorumThreshold.toNat ≤ committee.weights.of authors ∧
      ∀ a ∈ authors, ∃ p, (p ∈ certificates ∨ p ∈ Certificate.genesis committee) ∧
        p.origin = a ∧ p.digest ∈ c.header.parents

namespace Pool

variable [Primitives] {committee : Committee} (pool : Pool committee)

/-- A certificate of the pool or a genesis certificate. -/
def Known (c : Certificate) : Prop :=
  c ∈ pool.certificates ∨ c ∈ Certificate.genesis committee

variable {pool}

/-- An author and a round determine the certificate, the genesis included. -/
theorem Known.eq {c c' : Certificate} (known : pool.Known c) (known' : pool.Known c')
    (sameOrigin : c.origin = c'.origin) (sameRound : c.round = c'.round) : c = c' := by
  rcases known with member | member <;> rcases known' with member' | member'
  · exact pool.unique c member c' member' sameOrigin sameRound
  · have := pool.round_pos c member
    have := (Certificate.round_of_mem_genesis member').1
    omega
  · have := pool.round_pos c' member'
    have := (Certificate.round_of_mem_genesis member).1
    omega
  · exact Certificate.eq_of_mem_genesis member member' sameOrigin

/-- The digest determines the certificate. -/
theorem Known.eq_of_digest {c c' : Certificate} (known : pool.Known c) (known' : pool.Known c')
    (same : c.digest = c'.digest) : c = c' := by
  have inputs := pool.collisionFree ⟨c, known, rfl⟩ ⟨c', known', rfl⟩ same
  obtain ⟨-, sameRound, sameOrigin⟩ := Certificate.hashInput_inj inputs
  exact known.eq known' sameOrigin sameRound

/-- A known certificate whose digest is among the parents is one round below. -/
theorem round_of_mem_parents {c p : Certificate} (member : c ∈ pool.certificates)
    (known : pool.Known p) (isParent : p.digest ∈ c.header.parents) : p.round + 1 = c.round := by
  obtain ⟨p', known', same, round⟩ := pool.parents c member _ isParent
  rwa [known.eq_of_digest known' same.symm]

/-- A known certificate above round 0 belongs to the pool. -/
theorem Known.mem {c : Certificate} (known : pool.Known c) (positive : 1 ≤ c.round) :
    c ∈ pool.certificates := by
  refine known.resolve_right fun member => ?_
  have := (Certificate.round_of_mem_genesis member).1
  omega

variable (pool)

/-- The pool as a dag in rounds. -/
def dag : RoundDag Certificate PublicKey where
  nodes := pool.certificates
  round := Certificate.round
  author := Certificate.origin
  parents c := {p | p.digest ∈ c.header.parents}
  unique := pool.unique
  round_parent _ member _ parent isParent := round_of_mem_parents member (.inl parent) isParent

/-- Certificates in the order a node receives them, each after its parents. -/
structure Delivery (delivered : List Certificate) : Prop where
  mem : ∀ c ∈ delivered, c ∈ pool.certificates
  causal : ∀ before c after, delivered = before ++ c :: after →
    ∀ p, pool.dag.Parent c p → p ∈ before

variable {pool}

/-- Every certificate has a parent, and above the first round it is one of the pool. -/
theorem dag_grounded : pool.dag.Grounded := by
  intro c member high
  obtain ⟨authors, heavy, present⟩ := pool.quorum c member
  have positive := committee.quorumThreshold_pos
  obtain ⟨a, isAuthor, -⟩ := committee.weights.exists_weight_pos (s := authors) (by omega)
  obtain ⟨p, known, -, isParent⟩ := present a isAuthor
  have known : pool.Known p := known
  have below := round_of_mem_parents member known isParent
  have above : 1 < c.round := high
  exact ⟨p, member, known.mem (by omega), isParent⟩

theorem dag_quorate (noWrap : committee.NoWrap) : pool.dag.Quorate committee.weights := by
  intro c member high
  obtain ⟨authors, heavy, present⟩ := pool.quorum c member
  rw [committee.quorumThreshold_toNat noWrap] at heavy
  refine ⟨authors, heavy, fun a isAuthor => ?_⟩
  obtain ⟨p, known, origin, isParent⟩ := present a isAuthor
  have known : pool.Known p := known
  have below := round_of_mem_parents member known isParent
  have above : 1 < c.round := high
  exact ⟨p, known.mem (by omega), isParent, origin⟩

/-! ## Delivery -/

theorem delivery_nil : pool.Delivery [] := ⟨by simp, by simp⟩

theorem Delivery.of_prefix {before after : List Certificate}
    (delivery : pool.Delivery (before ++ after)) : pool.Delivery before where
  mem c member := delivery.mem c (List.mem_append_left _ member)
  causal front c back split := delivery.causal front c (back ++ after) (by simp [split])

/-- Everything a delivered certificate descends from was delivered. -/
theorem Delivery.mem_of_reaches {delivered : List Certificate}
    (delivery : pool.Delivery delivered) {c x : Certificate} (member : c ∈ delivered)
    (reaches : pool.dag.Reaches c x) : x ∈ delivered := by
  induction reaches with
  | refl => exact member
  | @tail y z _ parent ih =>
      obtain ⟨before, after, split⟩ := List.append_of_mem ih
      rw [split]
      exact List.mem_append_left _ (delivery.causal before y after split z parent)

end Pool

end Tusk
