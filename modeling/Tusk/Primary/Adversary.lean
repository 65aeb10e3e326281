import Mathlib.Data.List.Sort
import Mathlib.Data.Prod.Lex
import Tusk.Crypto

/-!
# The simulated adversary

For experiments some primaries are silent in some rounds. Who is silent is computed from the round
and a seed, by every primary for itself: the authorities are ordered by a hash, and the first ones
are silent. In even rounds the leader of the round is decided on first, in windows of leader rounds.
-/

set_option autoImplicit false

namespace Tusk

open Lib

namespace Adversary

variable [Primitives]

/-- The bytes every score starts with. -/
def domainTag : List UInt8 :=
  "narwhal-dynamic-adversary-v1".toList.map fun letter => UInt8.ofNat letter.toNat

/-- The number an authority draws for a round. -/
def score (authority : PublicKey) (round seed : ℕ) (domain : UInt8) : Digest :=
  Primitives.sha512 (domainTag ++ littleEndian 8 seed ++ littleEndian 8 round ++ [domain] ++
    authority.asRef)

/-- The authority that leads a round. -/
def leaderOf (authorities : List PublicKey) (round : ℕ) : PublicKey :=
  authorities.getD (round % authorities.length) default

/-- The leader rounds of the window of an even round, each with the score of its leader. -/
def leaderSlots (authorities : List PublicKey) (round faults seed : ℕ) : List (Digest × ℕ) :=
  let window := 3 * faults + 1
  let ordinal := round / 2
  let windowStart := (ordinal - 1) / window * window + 1
  (List.range window).map fun offset =>
    let candidateRound := 2 * (windowStart + offset) % 2 ^ 64
    (score (leaderOf authorities candidateRound) candidateRound seed 2, candidateRound)

/-- How many of the candidates come before an authority in the order of a round. -/
def rank (authority : PublicKey) (candidates : List PublicKey) (round seed : ℕ) : ℕ :=
  candidates.countP fun candidate => decide
    (toLex (score candidate round seed 0, candidate) < toLex (score authority round seed 0, authority))

/-- Whether an authority is silent in a round. -/
def selected (authority : PublicKey) (authorities : List PublicKey) (round faults seed : ℕ) :
    Bool :=
  let faults := min faults authorities.length
  if faults = 0 then
    false
  else if round % 2 = 0 then
    let slots := (leaderSlots authorities round faults seed).insertionSort
      fun slot other => toLex slot ≤ toLex other
    let leaderIsSilent := (slots.take faults).any fun slot => decide (slot.2 = round)
    let leader := leaderOf authorities round
    if authority = leader then
      leaderIsSilent
    else
      let remaining := faults - leaderIsSilent.toNat
      let candidates := authorities.filter fun candidate => decide (candidate ≠ leader)
      decide (rank authority candidates round seed < remaining)
  else
    decide (rank authority authorities round seed < faults)

/-- Whether the leader of a round may be committed directly. Silent leaders are excluded before the
lowest-scored available slots of the window are taken. -/
def directCommitSelected (authorities : List PublicKey) (leaderRound faults seed : ℕ) : Bool :=
  if faults = 0 ∨ authorities.isEmpty = true then
    true
  else
    let window := 3 * faults + 1
    let target := min (faults + 2) window
    let ordinal := leaderRound / 2
    let windowStart := (ordinal - 1) / window * window + 1
    let available := (List.range window).filterMap fun offset =>
      let candidateRound := 2 * (windowStart + offset) % 2 ^ 64
      let leader := leaderOf authorities candidateRound
      if selected leader authorities candidateRound faults seed then
        none
      else
        some (score leader candidateRound seed 1, candidateRound)
    let sorted := available.insertionSort fun slot other => toLex slot ≤ toLex other
    (sorted.take target).any fun slot => decide (slot.2 = leaderRound)

end Adversary

end Tusk
