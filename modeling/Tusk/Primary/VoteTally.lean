import Tusk.Primary.Aggregators

/-!
# What the votes aggregator has counted

A `VotesAggregator` makes a certificate at the vote with which the stake of its voters reaches the
quorum threshold, sets its count back to zero and goes on counting. The stake it counts afterwards is
that of voters beyond a quorum, so that without wrapping it never reaches the threshold a second time
(`Tally.append`). The certificate it makes has the votes of different authorities with stake, so that
every primary accepts it which accepts its header.
-/

set_option autoImplicit false

namespace Tusk

open Lib

variable [Primitives]

/-- Batch verification accepts exactly the signatures that verify one by one. -/
def BatchAgrees : Prop :=
  ∀ digest votes, Primitives.verifyBatch digest votes = true ↔
    ∀ vote ∈ votes, Primitives.verifyStrict vote.1 digest vote.2 = true

omit [Primitives] in
theorem executable_batchAgrees (mayVerify : PublicKey → Digest → Bool) :
    @BatchAgrees (executable mayVerify) := fun _ _ => List.all_eq_true

/-- The votes of some voters for a header. -/
structure Voted (committee : Committee) (header : Header) (voters : Finset PublicKey)
    (votes : List (PublicKey × Signature)) : Prop where
  distinct : (votes.map Prod.fst).Nodup
  voters : voters = (votes.map Prod.fst).toFinset
  stakes : ∀ vote ∈ votes, 0 < committee.stake vote.1
  signatures : ∀ vote ∈ votes,
    Primitives.verifyStrict vote.1 (Certificate.mk header votes).digest vote.2 = true

/-- **The certificates that the votes counted so far have made.** There is none before the voters
have the stake of a quorum, and one from then on; what is counted now is the stake of further
voters. -/
inductive Tallied (committee : Committee) (header : Header) (aggregator : VotesAggregator) :
    List Certificate → Prop where
  | collecting (counted : aggregator.weight.toNat = committee.weights.of aggregator.used)
      (below : committee.weights.of aggregator.used < committee.quorumThreshold.toNat) :
      Tallied committee header aggregator []
  | made {c : Certificate} (accepted : c.verify committee = .ok ())
      (beyond : aggregator.weight.toNat + committee.quorumThreshold.toNat ≤
        committee.weights.of aggregator.used) :
      Tallied committee header aggregator [c]

/-- The aggregator has counted valid votes for the header, and made these certificates. -/
structure Tally (committee : Committee) (header : Header) (aggregator : VotesAggregator)
    (certificates : List Certificate) : Prop where
  voted : Voted committee header aggregator.used aggregator.votes
  tallied : Tallied committee header aggregator certificates

variable {committee : Committee} {header : Header} {aggregator : VotesAggregator}
  {certificates : List Certificate}

/-- One certificate from the quorum on. -/
theorem Tallied.length (tallied : Tallied committee header aggregator certificates) :
    certificates.length =
      if committee.quorumThreshold.toNat ≤ committee.weights.of aggregator.used then 1 else 0 := by
  cases tallied with
  | collecting counted below => exact (if_neg (not_le.mpr below)).symm
  | made accepted beyond => exact (if_pos (le_of_add_le_right beyond)).symm

theorem Tallied.verified (tallied : Tallied committee header aggregator certificates) :
    ∀ c ∈ certificates, c.verify committee = .ok () := by
  intro c member
  cases tallied with
  | collecting => exact absurd member List.not_mem_nil
  | made accepted => rwa [List.mem_singleton.mp member]

/-- A new aggregator has counted nothing. -/
theorem tally_new : Tally committee header .new [] where
  voted := ⟨.nil, rfl, fun _ member => absurd member List.not_mem_nil,
    fun _ member => absurd member List.not_mem_nil⟩
  tallied := .collecting rfl committee.quorumThreshold_pos

/-- The stake of the voters, in `u32`, when it does not wrap. -/
theorem Voted.toNat_stakes {voters : Finset PublicKey} {votes : List (PublicKey × Signature)}
    (voted : Voted committee header voters votes) (noWrap : committee.NoWrap) :
    (votes.map fun vote => committee.stake vote.1).sum.toNat = committee.weights.of voters := by
  have bound := committee.weights.of_le_total voters
  unfold Committee.NoWrap at noWrap
  rw [voted.voters, ← committee.weights.sum_map_eq_of voted.distinct, List.map_map] at bound ⊢
  rw [toNat_sum_stakes, List.map_map, Nat.mod_eq_of_lt]
  · rfl
  · exact lt_of_le_of_lt bound (by omega)

/-- **A certificate with the votes of a quorum is accepted** by every primary that accepts its
header. -/
theorem Voted.verify {voters : Finset PublicKey} {votes : List (PublicKey × Signature)}
    (voted : Voted committee header voters votes) (noWrap : committee.NoWrap)
    (agrees : BatchAgrees) (accepted : header.verify committee = .ok ())
    (quorum : committee.quorumThreshold.toNat ≤ committee.weights.of voters) :
    (Certificate.mk header votes).verify committee = .ok () := by
  refine Certificate.verify_ok_iff.mpr (.inr
    { header := accepted
      voters := voted.distinct
      stakes := voted.stakes
      quorum := ?_
      signatures := (agrees _ _).mpr voted.signatures })
  rw [UInt32.le_iff_toNat_le, voted.toNat_stakes noWrap]
  exact quorum

/-- The vote of a further voter. -/
theorem Voted.append {vote : Vote} {voters : Finset PublicKey}
    {votes : List (PublicKey × Signature)} (voted : Voted committee header voters votes)
    (fresh : vote.author ∉ voters) (stake : 0 < committee.stake vote.author)
    (signature : Primitives.verifyStrict vote.author (Certificate.mk header []).digest
      vote.signature = true) :
    Voted committee header (insert vote.author voters)
      (votes ++ [(vote.author, vote.signature)]) where
  distinct := by
    rw [List.map_append, List.map_singleton]
    refine List.nodup_append.mpr ⟨voted.distinct, List.nodup_singleton _, ?_⟩
    intro name old name' new
    rw [List.mem_singleton.mp new]
    rintro rfl
    rw [voted.voters, List.mem_toFinset] at fresh
    exact fresh old
  voters := by
    rw [voted.voters, List.map_append, List.map_singleton, List.toFinset_append, Finset.union_comm]
    rfl
  stakes vote' member := by
    rcases List.mem_append.mp member with old | new
    · exact voted.stakes vote' old
    · rw [List.mem_singleton.mp new]
      exact stake
  signatures vote' member := by
    rcases List.mem_append.mp member with old | new
    · exact voted.signatures vote' old
    · rw [List.mem_singleton.mp new]
      exact signature

omit [Primitives] in
/-- The stake of a further voter adds up without wrapping. -/
theorem toNat_add_stake {weight : Stake} {author : PublicKey} {voters : Finset PublicKey}
    (noWrap : committee.NoWrap) (fresh : author ∉ voters)
    (counted : weight.toNat ≤ committee.weights.of voters) :
    committee.weights.of (insert author voters) =
        (committee.stake author).toNat + committee.weights.of voters ∧
      (weight + committee.stake author).toNat =
        weight.toNat + (committee.stake author).toNat := by
  have added : committee.weights.of (insert author voters) =
      (committee.stake author).toNat + committee.weights.of voters := Finset.sum_insert fresh
  have bound := committee.weights.of_le_total (insert author voters)
  unfold Committee.NoWrap at noWrap
  refine ⟨added, ?_⟩
  rw [UInt32.toNat_add, Nat.mod_eq_of_lt]
  omega

/-- **Counting a valid vote** keeps the tally, with the certificate that is returned added. -/
theorem Tally.append {next : VotesAggregator} {vote : Vote} {made : Option Certificate}
    (tally : Tally committee header aggregator certificates) (noWrap : committee.NoWrap)
    (agrees : BatchAgrees) (accepted : header.verify committee = .ok ())
    (stake : 0 < committee.stake vote.author)
    (signature : Primitives.verifyStrict vote.author (Certificate.mk header []).digest
      vote.signature = true)
    (counted : aggregator.append vote committee header = .ok (next, made)) :
    Tally committee header next (certificates ++ made.toList) := by
  obtain ⟨voted, tallied⟩ := tally
  have bound : aggregator.weight.toNat ≤ committee.weights.of aggregator.used := by
    cases tallied with
    | collecting counted => exact counted.le
    | made _ beyond => omega
  have total := committee.weights.of_le_total (insert vote.author aggregator.used)
  have twice : committee.weights.total < 2 * committee.quorumThreshold.toNat := by
    rw [committee.quorumThreshold_toNat noWrap, Weights.quorum]
    omega
  cases made with
  | none =>
      obtain ⟨fresh, below, rfl⟩ := VotesAggregator.append_none counted
      obtain ⟨added, sum⟩ := toNat_add_stake noWrap fresh bound
      rw [UInt32.le_iff_toNat_le, sum] at below
      refine ⟨voted.append fresh stake signature, ?_⟩
      rw [Option.toList_none, List.append_nil]
      cases tallied with
      | collecting counted =>
          refine .collecting ?_ ?_
          · dsimp only
            omega
          · dsimp only
            omega
      | made verified beyond =>
          refine .made verified ?_
          dsimp only
          omega
  | some c =>
      obtain ⟨fresh, reached, rfl, rfl⟩ := VotesAggregator.append_some counted
      obtain ⟨added, sum⟩ := toNat_add_stake noWrap fresh bound
      rw [UInt32.le_iff_toNat_le, sum] at reached
      have voted' := voted.append fresh stake signature
      refine ⟨voted', ?_⟩
      cases tallied with
      | collecting counted =>
          refine .made (voted'.verify noWrap agrees accepted ?_) ?_
          · omega
          · have zero : (0 : Stake).toNat = 0 := rfl
            dsimp only
            omega
      | made _ beyond => omega

end Tusk
