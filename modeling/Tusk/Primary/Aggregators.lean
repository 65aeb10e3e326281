import Tusk.Primary.Messages

/-!
# Aggregators

One aggregator collects the votes for the header of this primary until they make a certificate,
the other collects the certificates of one round until they are parents for a header of the next.
Both count the stake of distinct authorities, and both set the count back to zero when a quorum is
reached.
-/

set_option autoImplicit false

namespace Tusk

/-- Aggregates votes for a particular header into a certificate. -/
structure VotesAggregator where
  weight : Stake
  votes : List (PublicKey × Signature)
  used : Finset PublicKey

namespace VotesAggregator

/-- `VotesAggregator::new`. -/
def new : VotesAggregator where
  weight := 0
  votes := []
  used := ∅

/-- Count a vote, and return the certificate when the quorum is reached. -/
def append (aggregator : VotesAggregator) (vote : Vote) (committee : Committee)
    (header : Header) : Except DagError (VotesAggregator × Option Certificate) := do
  let author := vote.author
  -- Ensure it is the first time this authority votes.
  ensure (author ∉ aggregator.used) (.authorityReuse author)
  let used := insert author aggregator.used
  let votes := aggregator.votes ++ [(author, vote.signature)]
  let weight := aggregator.weight + committee.stake author
  if committee.quorumThreshold ≤ weight then
    -- Ensures quorum is only reached once.
    return (⟨0, votes, used⟩, some { header := header, votes := votes })
  else
    return (⟨weight, votes, used⟩, none)

theorem append_of_used {aggregator : VotesAggregator} {vote : Vote} {committee : Committee}
    {header : Header} (used : vote.author ∈ aggregator.used) :
    aggregator.append vote committee header = .error (.authorityReuse vote.author) := by
  simp [append, ensure, used, bind, Except.bind]

theorem used_of_append {aggregator : VotesAggregator} {vote : Vote} {committee : Committee}
    {header : Header} {e : DagError} (refused : aggregator.append vote committee header = .error e) :
    vote.author ∈ aggregator.used := by
  by_contra fresh
  simp only [append, ensure, fresh, not_false_eq_true, if_true, bind, Except.bind] at refused
  split_ifs at refused
  · cases refused
  · cases refused

/-- What counting a vote does when the quorum is not reached. -/
theorem append_none {aggregator next : VotesAggregator} {vote : Vote} {committee : Committee}
    {header : Header}
    (counted : aggregator.append vote committee header = .ok (next, none)) :
    vote.author ∉ aggregator.used ∧
      ¬ committee.quorumThreshold ≤ aggregator.weight + committee.stake vote.author ∧
      next = ⟨aggregator.weight + committee.stake vote.author,
        aggregator.votes ++ [(vote.author, vote.signature)],
        insert vote.author aggregator.used⟩ := by
  unfold append at counted
  obtain ⟨_, fresh, rest⟩ := Lib.bind_eq_ok_iff.mp counted
  dsimp only at rest
  split_ifs at rest with reached
  · cases rest
  · cases rest
    exact ⟨ensure_eq_ok_iff.mp fresh, reached, rfl⟩

/-- What counting a vote does when the quorum is reached. -/
theorem append_some {aggregator next : VotesAggregator} {vote : Vote} {committee : Committee}
    {header : Header} {certificate : Certificate}
    (counted : aggregator.append vote committee header = .ok (next, some certificate)) :
    vote.author ∉ aggregator.used ∧
      committee.quorumThreshold ≤ aggregator.weight + committee.stake vote.author ∧
      next = ⟨0, aggregator.votes ++ [(vote.author, vote.signature)],
        insert vote.author aggregator.used⟩ ∧
      certificate = ⟨header, aggregator.votes ++ [(vote.author, vote.signature)]⟩ := by
  unfold append at counted
  obtain ⟨_, fresh, rest⟩ := Lib.bind_eq_ok_iff.mp counted
  dsimp only at rest
  split_ifs at rest with reached
  · cases rest
    exact ⟨ensure_eq_ok_iff.mp fresh, reached, rfl, rfl⟩
  · cases rest

/-- A vote of a new author that reaches the quorum makes a certificate. -/
theorem append_of_quorum {aggregator : VotesAggregator} {vote : Vote} {committee : Committee}
    (header : Header) (fresh : vote.author ∉ aggregator.used)
    (reached : committee.quorumThreshold ≤ aggregator.weight + committee.stake vote.author) :
    ∃ next, aggregator.append vote committee header = .ok
      (next, some ⟨header, aggregator.votes ++ [(vote.author, vote.signature)]⟩) := by
  simp only [append, ensure, fresh, not_false_eq_true, if_true, bind, Except.bind, reached]
  exact ⟨_, rfl⟩

/-- A vote that is counted uses up its author, and a certificate is one of the header. -/
theorem append_ok {aggregator next : VotesAggregator} {vote : Vote} {committee : Committee}
    {header : Header} {certificate : Option Certificate}
    (counted : aggregator.append vote committee header = .ok (next, certificate)) :
    vote.author ∈ next.used ∧ ∀ c ∈ certificate, c.header = header := by
  cases certificate with
  | none =>
      obtain ⟨-, -, rfl⟩ := append_none counted
      exact ⟨Finset.mem_insert_self _ _, fun _ made => nomatch made⟩
  | some c =>
      obtain ⟨-, -, rfl, rfl⟩ := append_some counted
      refine ⟨Finset.mem_insert_self _ _, fun c' made => ?_⟩
      cases made
      rfl

end VotesAggregator

/-- Aggregate certificates and check if we reach a quorum. -/
structure CertificatesAggregator where
  weight : Stake
  certificates : List Digest
  used : Finset PublicKey

namespace CertificatesAggregator

/-- `CertificatesAggregator::new`. -/
def new : CertificatesAggregator where
  weight := 0
  certificates := []
  used := ∅

variable [Primitives]

/-- Count a certificate, and return the digests collected so far when the quorum is reached. A
second certificate of an author is not counted. -/
def append (aggregator : CertificatesAggregator) (certificate : Certificate)
    (committee : Committee) : CertificatesAggregator × Option (List Digest) :=
  let origin := certificate.origin
  if origin ∈ aggregator.used then
    (aggregator, none)
  else
    let used := insert origin aggregator.used
    let certificates := aggregator.certificates ++ [certificate.digest]
    let weight := aggregator.weight + committee.stake origin
    if committee.quorumThreshold ≤ weight then
      -- Ensures quorum is only reached once.
      (⟨0, [], used⟩, some certificates)
    else
      (⟨weight, certificates, used⟩, none)

/-- The digests that are kept or returned are the earlier ones and that of the certificate. -/
theorem mem_of_mem_append {aggregator : CertificatesAggregator} {certificate : Certificate}
    {committee : Committee} {digest : Digest}
    (member : digest ∈ (aggregator.append certificate committee).1.certificates ∨
      ∃ parents, (aggregator.append certificate committee).2 = some parents ∧ digest ∈ parents) :
    digest ∈ aggregator.certificates ∨ digest = certificate.digest := by
  unfold append at member
  dsimp only at member
  split_ifs at member with reused reached
  · exact .inl (by simpa using member)
  · simpa using member
  · simpa using member

end CertificatesAggregator

end Tusk
