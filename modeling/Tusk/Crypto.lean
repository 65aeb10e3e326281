import Mathlib.Data.Set.Function
import Tusk.Lib.FixedWidth

/-!
# Digests, keys, signatures and the primitives behind them

Digests and public keys are 32 bytes, signatures are two halves of 32 bytes. A value of 32 bytes
is kept as the number its bytes write in big-endian order, so that the byte-wise order of the
source is the order of numbers, and `asRef` gives the bytes back.

SHA-512 and ed25519 come from a third-party crate and are a parameter (`Primitives`). What the
code relies on is stated where it is used: a hash without collisions among the byte strings that
are hashed (`CollisionFree`), which also does not reach digests fixed beforehand
(`Primitives.Avoids`), and a batch verification that accepts only signatures that verify one by
one (`BatchSound`).
-/

set_option autoImplicit false

namespace Tusk

open Lib

/-! ## Arrays of 32 bytes -/

/-- A hash digest (32 bytes). -/
structure Digest where
  word : BitVec 256

/-- A public key (32 bytes). -/
structure PublicKey where
  word : BitVec 256

/-- An ed25519 signature. -/
structure Signature where
  part1 : BitVec 256
  part2 : BitVec 256
deriving DecidableEq

/-- The 32 bytes of a word, most significant first. -/
def wordBytes (word : BitVec 256) : List UInt8 := (littleEndian 32 word.toNat).reverse

@[simp] theorem wordBytes_length (word : BitVec 256) : (wordBytes word).length = 32 := by
  simp [wordBytes]

theorem wordBytes_injective : Function.Injective wordBytes := by
  intro word word' same
  have bound : ∀ w : BitVec 256, w.toNat < 256 ^ 32 := fun w => by
    have := w.isLt
    norm_num at this ⊢
    exact this
  exact BitVec.eq_of_toNat_eq
    (littleEndian_inj (bound word) (bound word') (List.reverse_injective same))

namespace Digest

/-- `Digest::default()`, all zero. -/
instance : Inhabited Digest := ⟨⟨0⟩⟩

theorem toNat_injective : Function.Injective fun d : Digest => d.word.toNat := by
  rintro ⟨word⟩ ⟨word'⟩ same
  exact congrArg Digest.mk (BitVec.eq_of_toNat_eq same)

instance : LinearOrder Digest := LinearOrder.lift' (fun d => d.word.toNat) toNat_injective

/-- The bytes of a digest (`as_ref`, `to_vec`). -/
def asRef (d : Digest) : List UInt8 := wordBytes d.word

@[simp] theorem asRef_length (d : Digest) : d.asRef.length = 32 := wordBytes_length _

theorem asRef_injective : Function.Injective asRef := by
  rintro ⟨word⟩ ⟨word'⟩ same
  exact congrArg Digest.mk (wordBytes_injective same)

end Digest

namespace PublicKey

instance : Inhabited PublicKey := ⟨⟨0⟩⟩

theorem toNat_injective : Function.Injective fun k : PublicKey => k.word.toNat := by
  rintro ⟨word⟩ ⟨word'⟩ same
  exact congrArg PublicKey.mk (BitVec.eq_of_toNat_eq same)

instance : LinearOrder PublicKey := LinearOrder.lift' (fun k => k.word.toNat) toNat_injective

/-- The bytes of a key. -/
def asRef (k : PublicKey) : List UInt8 := wordBytes k.word

@[simp] theorem asRef_length (k : PublicKey) : k.asRef.length = 32 := wordBytes_length _

theorem asRef_injective : Function.Injective asRef := by
  rintro ⟨word⟩ ⟨word'⟩ same
  exact congrArg PublicKey.mk (wordBytes_injective same)

end PublicKey

namespace Signature

/-- `Signature::default()`, all zero. -/
instance : Inhabited Signature := ⟨⟨0, 0⟩⟩

end Signature

/-! ## Third-party primitives -/

/-- The hash and the signature scheme the code calls. -/
class Primitives where
  /-- SHA-512, cut to its first 32 bytes. -/
  sha512 : List UInt8 → Digest
  /-- Strict ed25519 verification of a signature on a digest, the decoding of key and signature
  included. -/
  verifyStrict : PublicKey → Digest → Signature → Bool
  /-- ed25519 batch verification of signatures on one digest, the decoding included. -/
  verifyBatch : Digest → List (PublicKey × Signature) → Bool

/-- The hash has no collision among the byte strings of `hashed`. -/
def CollisionFree [Primitives] (hashed : Set (List UInt8)) : Prop :=
  Set.InjOn Primitives.sha512 hashed

/-- No byte string of `hashed` has a digest that was fixed beforehand. -/
def Primitives.Avoids [Primitives] (hashed : Set (List UInt8)) (fixed : Set Digest) : Prop :=
  ∀ bytes ∈ hashed, Primitives.sha512 bytes ∉ fixed

/-- Batch verification accepts only signatures that verify one by one. -/
def BatchSound [Primitives] : Prop :=
  ∀ digest votes, Primitives.verifyBatch digest votes = true →
    ∀ vote ∈ votes, Primitives.verifyStrict vote.1 digest vote.2 = true

/-- The error of the signature crate. -/
inductive CryptoError where
  | invalid
deriving DecidableEq

namespace Signature

variable [Primitives]

/-- `Signature::verify`. -/
def verify (signature : Signature) (digest : Digest) (publicKey : PublicKey) :
    Except CryptoError Unit :=
  if Primitives.verifyStrict publicKey digest signature then .ok () else .error .invalid

/-- `Signature::verify_batch`. -/
def verifyBatch (digest : Digest) (votes : List (PublicKey × Signature)) :
    Except CryptoError Unit :=
  if Primitives.verifyBatch digest votes then .ok () else .error .invalid

theorem verify_ok_iff {signature : Signature} {digest : Digest} {publicKey : PublicKey} :
    signature.verify digest publicKey = .ok () ↔
      Primitives.verifyStrict publicKey digest signature = true := by
  unfold verify
  split_ifs with accepted <;> simp [accepted]

theorem verifyBatch_ok_iff {digest : Digest} {votes : List (PublicKey × Signature)} :
    verifyBatch digest votes = .ok () ↔ Primitives.verifyBatch digest votes = true := by
  unfold verifyBatch
  split_ifs with accepted <;> simp [accepted]

end Signature

/-! ## An executable instance

A hash that reads its bytes as the digits of a number, and signatures that name what was signed
and by whom. `mayVerify` limits what verifies to what its key holder is known to have signed. -/

/-- The bytes as digits of a number, cut to 256 bits. -/
def digitHash (bytes : List UInt8) : Digest :=
  ⟨BitVec.ofNat 256 (bytes.foldl (fun number byte => number * 257 + byte.toNat + 1) 0)⟩

/-- The signature that names the digest and the key. -/
def nameSignature (key : PublicKey) (digest : Digest) : Signature := ⟨digest.word, key.word⟩

/-- Primitives that can be evaluated. -/
@[reducible] def executable (mayVerify : PublicKey → Digest → Bool) : Primitives where
  sha512 := digitHash
  verifyStrict key digest signature :=
    decide (signature = nameSignature key digest) && mayVerify key digest
  verifyBatch digest votes := votes.all fun vote =>
    decide (vote.2 = nameSignature vote.1 digest) && mayVerify vote.1 digest

theorem executable_batchSound (mayVerify : PublicKey → Digest → Bool) :
    @BatchSound (executable mayVerify) := by
  intro digest votes accepted vote member
  exact List.all_eq_true.mp accepted vote member

/-- Whether there is a collision among the byte strings of a list can be evaluated. -/
theorem collisionFree_of_list [Primitives] {hashed : Set (List UInt8)} (inputs : List (List UInt8))
    (listed : ∀ bytes ∈ hashed, bytes ∈ inputs)
    (distinct : ∀ bytes ∈ inputs, ∀ bytes' ∈ inputs,
      Primitives.sha512 bytes = Primitives.sha512 bytes' → bytes = bytes') :
    CollisionFree hashed := fun bytes member bytes' member' =>
  distinct bytes (listed bytes member) bytes' (listed bytes' member')

end Tusk
