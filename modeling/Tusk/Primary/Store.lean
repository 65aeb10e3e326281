import Tusk.Primary.Messages

/-!
# The store of a primary

One map from byte strings to byte strings holds the headers under their ids, the certificates
under their digests, and an empty value for each batch that a worker has reported. The value is
kept as what was encoded. Reading a value as a certificate succeeds for the encoding of a
certificate only: the encoding of a header lacks the votes at its end.

Reads return what was written, and writes do not fail.
-/

set_option autoImplicit false

namespace Tusk

open Lib

/-- What the primary writes. -/
inductive StoreValue where
  | header (h : Header)
  | certificate (c : Certificate)
  | empty
deriving DecidableEq

/-- Read a value as a certificate. -/
def StoreValue.deserialize : StoreValue → Except DagError Certificate
  | .certificate c => .ok c
  | .header _ => .error .serializationError
  | .empty => .error .serializationError

theorem StoreValue.deserialize_ok_iff {value : StoreValue} {c : Certificate} :
    value.deserialize = .ok c ↔ value = .certificate c := by
  cases value <;> simp [deserialize]

/-- The persistent storage. -/
structure Store where
  db : HashMap (List UInt8) StoreValue

namespace Store

instance : EmptyCollection Store := ⟨⟨∅⟩⟩

/-- The value under a key. -/
def read (store : Store) (key : List UInt8) : Option StoreValue := HashMap.get store.db key

/-- Put a value under a key. -/
def write (store : Store) (key : List UInt8) (value : StoreValue) : Store :=
  ⟨HashMap.insert store.db key value⟩

@[simp] theorem read_empty (key : List UInt8) : (∅ : Store).read key = none := HashMap.get_empty key

theorem read_write (store : Store) (key other : List UInt8) (value : StoreValue) :
    (store.write key value).read other = if other = key then some value else store.read other :=
  HashMap.get_insert store.db key other value

/-- What is read after a write was written or was there before. -/
theorem written_or_before {store : Store} {key other : List UInt8} {value found : StoreValue}
    (read : (store.write key value).read other = some found) :
    (other = key ∧ found = value) ∨ store.read other = some found := by
  rw [read_write] at read
  split at read
  · next same => exact .inl ⟨same, (Option.some.inj read).symm⟩
  · exact .inr read

/-- The key under which a batch is reported: its digest and the id of the worker. -/
def payloadKey (digest : Digest) (workerId : WorkerId) : List UInt8 :=
  digest.asRef ++ littleEndian 4 workerId.toNat

/-- A report of a batch is no value under a digest. -/
theorem payloadKey_ne_asRef (digest other : Digest) (workerId : WorkerId) :
    payloadKey digest workerId ≠ other.asRef := by
  intro same
  have lengths := congrArg List.length same
  simp [payloadKey] at lengths

end Store

end Tusk
