import Tusk.Primary.CoreState

/-!
# The synchronizer

The `Synchronizer` checks if we have all batches and parents referenced by a header. If we don't,
it hands the header or the certificate to a waiter and processing is suspended.

A parent is looked up among the genesis certificates first and then in the store, where its
digest is a key beside the ids of headers. `getParents` reads what is there as a certificate,
`deliverCertificate` only asks whether something is there.
-/

set_option autoImplicit false

namespace Tusk

open Lib

namespace Core

variable [Primitives] (node : Core)

/-- The genesis and its digests. -/
def genesis : List (Digest × Certificate) :=
  (Certificate.genesis node.committee).map fun x => (x.digest, x)

/-- The digest is one of a genesis certificate. -/
def IsGenesis (digest : Digest) : Prop := digest ∈ node.genesis.map Prod.fst

instance (digest : Digest) : Decidable (node.IsGenesis digest) :=
  inferInstanceAs (Decidable (digest ∈ _))

/-- Whether we have all transactions of the payload. The payload of our own workers is not
stored. -/
def missingPayload (header : Header) : CoreM Bool := do
  if header.author = node.name then
    return false
  else
    let s ← get
    let missing := header.payload.entries.filter fun entry =>
      (s.store.read (Store.payloadKey entry.1 entry.2)).isNone
    if missing.isEmpty then
      return false
    else
      modify fun s => s.syncHeader (.syncBatches (HashMap.ofList missing) header)
      return true

/-- Look the parents up, and return what was found and what is missing. -/
def readParents (store : Store) : List Digest → Except DagError (List Certificate × List Digest)
  | [] => .ok ([], [])
  | digest :: digests =>
      match node.genesis.find? fun entry => decide (entry.1 = digest) with
      | some (_, certificate) => do
          let (parents, missing) ← readParents store digests
          return (certificate :: parents, missing)
      | none =>
          match store.read digest.asRef with
          | some value => do
              let certificate ← value.deserialize
              let (parents, missing) ← readParents store digests
              return (certificate :: parents, missing)
          | none => do
              let (parents, missing) ← readParents store digests
              return (parents, digest :: missing)

/-- The parents of a header if we have them all, and none otherwise. -/
def getParents (header : Header) : CoreM (List Certificate) := do
  let s ← get
  let (parents, missing) ← check (node.readParents s.store header.parents.toList)
  if missing.isEmpty then
    return parents
  else
    modify fun s => s.syncHeader (.syncParents missing header)
    return []

/-- Whether the parent is a genesis certificate or its digest is a key of the store. -/
def HasParent (store : Store) (digest : Digest) : Prop :=
  node.IsGenesis digest ∨ (store.read digest.asRef).isSome = true

instance (store : Store) (digest : Digest) : Decidable (node.HasParent store digest) :=
  inferInstanceAs (Decidable (_ ∨ _))

/-- Whether we have all the ancestors of the certificate. -/
def deliverCertificate (certificate : Certificate) : CoreM Bool := do
  let s ← get
  if ∀ digest ∈ certificate.header.parents.toList, node.HasParent s.store digest then
    return true
  else
    modify fun s => s.syncCertificate certificate
    return false

end Core

end Tusk
