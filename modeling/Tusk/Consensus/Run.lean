import Mathlib.Data.List.Sort
import Tusk.Consensus.State
import Tusk.Lib.Worklist

/-!
# Committing leaders

Every certificate is added to the dag. A certificate of an odd round `r + 1` with `r ≥ 4` may
commit the leader of round `r - 2`: when the certificates of round `r - 1` that have the leader
as parent reach the validity threshold, the leader is committed together with the earlier leaders
it is linked to (`orderLeaders`), oldest first. Committing a leader flattens the part of the dag
it references (`orderDag`), and the state is updated with each certificate of the result.

The functions return `none` where the source panics. The fuel of `orderDag` is one more than the
number of certificates in the dag.
-/

set_option autoImplicit false

namespace Tusk

open Lib

/-- The consensus task: what does not change during a run. Which leaders may be committed
directly is read from the environment. -/
structure Consensus where
  committee : Committee
  gcDepth : ℕ
  directCommitSelected : ℕ → Bool

namespace Consensus

/-- The round below, wrapping as in a release build. -/
def precedingRound (round : ℕ) : ℕ := if round = 0 then 2 ^ 64 - 1 else round - 1

/-- Every second item. -/
def stepByTwo {α : Type*} : List α → List α
  | [] => []
  | [a] => [a]
  | a :: _ :: items => a :: stepByTwo items

variable (self : Consensus)

/-! ## Leaders -/

/-- The authority that leads a round, by round-robin. With no authority there is none, and the
source panics. -/
def leaderName (round : ℕ) : Option PublicKey :=
  (self.committee.authorities.keys.insertionSort (· ≤ ·))[round % self.committee.size]?

/-- The certificate of the leader of a round, with its digest. -/
def leader (round : ℕ) (dag : Dag) : Option (Digest × Certificate) :=
  (self.leaderName round).bind (dag.entry round)

/-- The certificates of a round that are parents of one of `parents`. -/
def parentsAt (dag : Dag) (parents : List Certificate) (round : ℕ) :
    Option (List Certificate) := do
  let authorities ← HashMap.get dag round
  return (authorities.values.filter fun entry =>
    parents.any fun x => decide (entry.1 ∈ x.header.parents)).map Prod.snd

/-- Whether there is a path between two leaders. -/
def linked (leader prevLeader : Certificate) (dag : Dag) : Option Bool := do
  let rounds := (List.range' prevLeader.round (leader.round - prevLeader.round)).reverse
  let parents ← rounds.foldlM (parentsAt dag) [leader]
  return parents.any fun x => x.partialEq prevLeader

/-- The leaders of the rounds that are linked, each to the one before it in the result. -/
def orderLeadersFrom (dag : Dag) : List ℕ → Certificate → Option (List Certificate)
  | [], _ => some []
  | r :: rounds, leader =>
      match self.leader r dag with
      | none => orderLeadersFrom dag rounds leader
      | some (_, prevLeader) => do
          if ← linked leader prevLeader dag then
            let toCommit ← orderLeadersFrom dag rounds prevLeader
            return prevLeader :: toCommit
          else
            orderLeadersFrom dag rounds leader

/-- The rounds of the leaders between the last committed round and a leader. -/
def leaderRounds (lastCommittedRound round : ℕ) : List ℕ :=
  stepByTwo (List.range' (lastCommittedRound + 2) (round - 2 + 1 - (lastCommittedRound + 2))).reverse

/-- The leader and the past leaders that were not committed yet, newest first. -/
def orderLeaders (leader : Certificate) (state : State) : Option (List Certificate) := do
  let toCommit ← self.orderLeadersFrom state.dag
    (leaderRounds state.lastCommittedRound leader.round) leader
  return leader :: toCommit

/-! ## The sub-dag of a leader -/

/-- The certificates in the dag, with their digests. -/
def Dag.certificates (dag : Dag) : List (Digest × Certificate) :=
  (HashMap.values dag).flatMap HashMap.values

/-- The certificate with the digest of a parent, when it is in the dag and is not the last
committed one of its author. -/
def State.parentToOrder (state : State) (x : Certificate) (parent : Digest) :
    Option (Digest × Certificate) :=
  ((HashMap.get state.dag (precedingRound x.round)).bind fun authorities =>
      authorities.values.find? fun entry => decide (entry.1 = parent)).filter fun entry =>
    decide (HashMap.get state.lastCommitted entry.2.origin ≠ some entry.2.round)

/-- The parents of a certificate that `orderDag` goes on with. -/
def State.parentsToOrder (state : State) (x : Certificate) : List (Digest × Certificate) :=
  x.header.parents.toList.filterMap (state.parentToOrder x)

/-- Drop what is garbage collected and sort by round. -/
def arrange (state : State) (ordered : List Certificate) : List Certificate :=
  (ordered.filter fun x =>
    decide (state.lastCommittedRound ≤ horizon self.gcDepth x.round)).insertionSort
    fun x y => x.round ≤ y.round

variable [Primitives]

/-- Flatten the dag referenced by the certificate, depth first. -/
def orderDag (leader : Certificate) (state : State) : Option (List Certificate) := do
  let ordered ← Worklist.search Prod.fst (fun x => state.parentsToOrder x.2)
    (state.dag.certificates.length + 1) [(leader.digest, leader)] []
  return self.arrange state (ordered.map Prod.snd)

/-- A committed leader with the state it found and the sequence it added, each certificate with
whether it is the leader of its round. -/
structure SubDag where
  before : State
  leader : Certificate
  sequence : List (Certificate × Bool)

/-- The certificates of the sequence. -/
def SubDag.certificates (subDag : SubDag) : List Certificate := subDag.sequence.map Prod.fst

/-- Whether the dag has the certificate as the leader of its round. -/
def isLeader (x : Certificate) (dag : Dag) : Bool :=
  decide (x.round % 2 = 0) && ((self.leader x.round dag).any fun entry => entry.1 == x.digest)

/-- Update the state with the certificates of a sequence, in order. -/
def flattenFrom : List Certificate → State → State × List (Certificate × Bool)
  | [], state => (state, [])
  | x :: rest, state =>
      let (final, sequence) := flattenFrom rest (state.update x self.gcDepth)
      (final, (x, self.isLeader x state.dag) :: sequence)

/-- Commit one leader. -/
def flatten (leader : Certificate) (state : State) : Option (State × SubDag) := do
  let ordered ← self.orderDag leader state
  let (final, sequence) := self.flattenFrom ordered state
  return (final, ⟨state, leader, sequence⟩)

/-- Commit leaders, in order. -/
def flattenAll : List Certificate → State → Option (State × List SubDag)
  | [], state => some (state, [])
  | leader :: rest, state => do
      let (state, subDag) ← self.flatten leader state
      let (state, subDags) ← flattenAll rest state
      return (state, subDag :: subDags)

/-! ## The main loop -/

/-- The stake of the certificates of a round that have the digest as parent. -/
def support (authorities : HashMap PublicKey (Digest × Certificate)) (leaderDigest : Digest) :
    Stake :=
  ((authorities.values.filter fun x => decide (leaderDigest ∈ x.2.header.parents)).map
    fun x => self.committee.stake x.2.origin).sum

/-- Commit the leader of a round and the leaders it is linked to, when it has the support of the
round above. -/
def commit (state : State) (leaderRound : ℕ) : Option (State × List SubDag) :=
  match self.leader leaderRound state.dag with
  | none => some (state, [])
  | some (leaderDigest, leader) => do
      let authorities ← HashMap.get state.dag (leaderRound + 1)
      if self.support authorities leaderDigest < self.committee.validityThreshold then
        return (state, [])
      else
        let leadersToCommit ← self.orderLeaders leader state
        self.flattenAll leadersToCommit.reverse state

/-- Process one certificate. -/
def step (state : State) (certificate : Certificate) : Option (State × List SubDag) :=
  let state := { state with dag := state.dag.insert certificate }
  let r := precedingRound certificate.round
  if r % 2 ≠ 0 ∨ r < 4 then
    some (state, [])
  else if r - 2 ≤ state.lastCommittedRound then
    some (state, [])
  else if ¬ self.directCommitSelected (r - 2) then
    some (state, [])
  else if self.committee.size = 0 then
    -- the choice of the leader divides by the size
    none
  else
    self.commit state (r - 2)

/-- Process certificates, in order. -/
def runFrom : State → List Certificate → Option (State × List SubDag)
  | state, [] => some (state, [])
  | state, certificate :: rest => do
      let (state, subDags) ← self.step state certificate
      let (state, more) ← runFrom state rest
      return (state, subDags ++ more)

/-- Process certificates from the start. -/
def run (delivered : List Certificate) : Option (State × List SubDag) :=
  self.runFrom (.new (Certificate.genesis self.committee)) delivered

/-- The certificates output, in order. -/
def outputs (subDags : List SubDag) : List Certificate := subDags.flatMap SubDag.certificates

/-- The leaders committed, in order. -/
def leaders (subDags : List SubDag) : List Certificate := subDags.map SubDag.leader

end Consensus

end Tusk
