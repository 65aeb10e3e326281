import Mathlib.Data.UInt
import Tusk.Crypto
import Tusk.Lib.HashMap
import Tusk.Lib.Quorums
import Tusk.Lib.SortedCollections

/-!
# The committee

The authorities with their stake and network addresses, and the two thresholds. Stakes are
`u32` and the thresholds are computed in `u32` arithmetic, so they wrap when the total stake is
large. `Committee.NoWrap` is the range in which they do not, and there they are the quorum and
the validity weight of the committee's stakes (`quorumThreshold_toNat`,
`validityThreshold_toNat`).
-/

set_option autoImplicit false

namespace Tusk

open Lib

/-- The voting power of an authority. -/
abbrev Stake := UInt32

/-- The identifier of a worker. -/
abbrev WorkerId := UInt32

/-- A network address. -/
structure SocketAddr where
  ip : ℕ
  port : ℕ
deriving DecidableEq

inductive ConfigError where
  | notInCommittee (name : PublicKey)
  | unknownWorker (id : WorkerId)
deriving DecidableEq

structure PrimaryAddresses where
  /-- Address to receive messages from other primaries (WAN). -/
  primaryToPrimary : SocketAddr
  /-- Address to receive messages from our workers (LAN). -/
  workerToPrimary : SocketAddr
deriving DecidableEq

structure WorkerAddresses where
  /-- Address to receive client transactions (WAN). -/
  transactions : SocketAddr
  /-- Address to receive messages from other workers (WAN). -/
  workerToWorker : SocketAddr
  /-- Address to receive messages from our primary (LAN). -/
  primaryToWorker : SocketAddr
deriving DecidableEq

structure Authority where
  /-- The voting power of this authority. -/
  stake : Stake
  /-- The network addresses of the primary. -/
  primary : PrimaryAddresses
  /-- Map of workers' id and their network addresses. -/
  workers : HashMap WorkerId WorkerAddresses

/-- An authority with one worker, at unspecified addresses. -/
def Authority.ofStake (stake : Stake) : Authority :=
  let address : SocketAddr := ⟨0, 0⟩
  { stake := stake
    primary := ⟨address, address⟩
    workers := HashMap.ofList [(0, ⟨address, address, address⟩)] }

structure Committee where
  authorities : BTreeMap PublicKey Authority

namespace Committee

variable (committee : Committee)

/-- The number of authorities. -/
def size : ℕ := committee.authorities.entries.length

/-- The stake of a specific authority. -/
def stake (name : PublicKey) : Stake :=
  ((committee.authorities.get name).map Authority.stake).getD 0

/-- The sum of all stakes, in `u32`. -/
def totalVotes : Stake := (committee.authorities.values.map Authority.stake).sum

/-- The stake required to reach a quorum (2f+1). -/
def quorumThreshold : Stake := 2 * committee.totalVotes / 3 + 1

/-- The stake required to reach availability (f+1). -/
def validityThreshold : Stake := (committee.totalVotes + 2) / 3

/-- The primary addresses of the target primary. -/
def primary (target : PublicKey) : Except ConfigError PrimaryAddresses :=
  match committee.authorities.get target with
  | some authority => .ok authority.primary
  | none => .error (.notInCommittee target)

/-- The addresses of all primaries except `myself`. -/
def othersPrimaries (myself : PublicKey) : List (PublicKey × PrimaryAddresses) :=
  (committee.authorities.entries.filter fun entry => decide (entry.1 ≠ myself)).map
    fun entry => (entry.1, entry.2.primary)

/-- The addresses of a specific worker (`id`) of a specific authority (`target`). An unknown
worker is reported like an unknown authority. -/
def worker (target : PublicKey) (id : WorkerId) : Except ConfigError WorkerAddresses :=
  match committee.authorities.get target with
  | some authority =>
      match HashMap.get authority.workers id with
      | some addresses => .ok addresses
      | none => .error (.notInCommittee target)
  | none => .error (.notInCommittee target)

/-! ## Stakes as weights -/

theorem stake_of_not_mem {name : PublicKey} (absent : name ∉ committee.authorities.keys) :
    committee.stake name = 0 := by
  simp [stake, BTreeMap.get_eq_none_iff.mpr absent]

/-- The stakes of the committee, as weights. -/
def weights : Weights PublicKey where
  members := committee.authorities.keys.toFinset
  weight name := (committee.stake name).toNat
  outside name absent := by
    rw [committee.stake_of_not_mem (by simpa using absent)]
    rfl

@[simp] theorem weights_weight (name : PublicKey) :
    committee.weights.weight name = (committee.stake name).toNat := rfl

/-- The thresholds do not wrap. -/
def NoWrap : Prop := 2 * committee.weights.total < 2 ^ 32

instance : Decidable committee.NoWrap := inferInstanceAs (Decidable (_ < _))

end Committee

/-- A `u32` sum is the sum of the values up to the width. -/
theorem toNat_sum_stakes (stakes : List Stake) :
    stakes.sum.toNat = (stakes.map UInt32.toNat).sum % 2 ^ 32 := by
  induction stakes with
  | nil => rfl
  | cons stake stakes ih =>
      rw [List.sum_cons, UInt32.toNat_add, ih, List.map_cons, List.sum_cons, Nat.add_mod_mod]

/-- A `u32` sum is at most the sum of the values. -/
theorem toNat_sum_stakes_le (stakes : List Stake) :
    stakes.sum.toNat ≤ (stakes.map UInt32.toNat).sum := by
  rw [toNat_sum_stakes]
  exact Nat.mod_le _ _

namespace Committee

variable (committee : Committee)

theorem weights_total :
    committee.weights.total = (committee.authorities.values.map fun a => a.stake.toNat).sum := by
  have distinct : committee.authorities.keys.Nodup := committee.authorities.keys_nodup
  have stakes : ∀ entry ∈ committee.authorities.entries,
      (committee.stake entry.1).toNat = entry.2.stake.toNat := by
    intro entry member
    simp [stake, BTreeMap.get_of_mem (show (entry.1, entry.2) ∈ _ from member)]
  unfold Weights.total
  rw [show committee.weights.members = committee.authorities.keys.toFinset from rfl,
    ← committee.weights.sum_map_eq_of distinct]
  simp only [BTreeMap.keys, BTreeMap.values, List.map_map]
  exact congrArg List.sum (List.map_congr_left fun entry member => stakes entry member)

theorem totalVotes_toNat (fits : committee.weights.total < 2 ^ 32) :
    committee.totalVotes.toNat = committee.weights.total := by
  rw [totalVotes, toNat_sum_stakes, List.map_map]
  rw [weights_total] at fits ⊢
  exact Nat.mod_eq_of_lt fits

/-- The threshold is positive whether or not it wraps. -/
theorem quorumThreshold_pos : 0 < committee.quorumThreshold.toNat := by
  have one : (1 : UInt32).toNat = 1 := rfl
  have three : (3 : UInt32).toNat = 3 := rfl
  have bound := (2 * committee.totalVotes).toNat_lt
  simp only [quorumThreshold, UInt32.toNat_add, UInt32.toNat_div, one, three]
  omega

/-- **Without wrapping, the quorum threshold is the quorum weight.** -/
theorem quorumThreshold_toNat (noWrap : committee.NoWrap) :
    committee.quorumThreshold.toNat = committee.weights.quorum := by
  unfold NoWrap at noWrap
  have total := committee.totalVotes_toNat (by omega)
  have one : (1 : UInt32).toNat = 1 := rfl
  have two : (2 : UInt32).toNat = 2 := rfl
  have three : (3 : UInt32).toNat = 3 := rfl
  simp only [quorumThreshold, UInt32.toNat_add, UInt32.toNat_div, UInt32.toNat_mul, total, one,
    two, three, Weights.quorum, Nat.mod_eq_of_lt noWrap]
  omega

/-- **Without wrapping, the validity threshold is the validity weight.** -/
theorem validityThreshold_toNat (noWrap : committee.NoWrap) :
    committee.validityThreshold.toNat = committee.weights.validity := by
  unfold NoWrap at noWrap
  have total := committee.totalVotes_toNat (by omega)
  have two : (2 : UInt32).toNat = 2 := rfl
  have three : (3 : UInt32).toNat = 3 := rfl
  simp only [validityThreshold, UInt32.toNat_add, UInt32.toNat_div, total, two, three,
    Weights.validity]
  omega

theorem mem_keys_of_stake_pos {name : PublicKey} (positive : 0 < committee.stake name) :
    name ∈ committee.authorities.keys := by
  by_contra absent
  rw [committee.stake_of_not_mem absent] at positive
  exact absurd positive (by decide)

end Committee

end Tusk
