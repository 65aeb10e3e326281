import Tusk.Primary.CoreMoves
import Tusk.Primary.VoteConsistency

/-!
# The helper

The `Helper` replies to the certificate requests of other authorities. It reads every requested digest
as a key of the store and takes what it finds for a certificate. In every run the store holds headers
under their ids, certificates under their digests, and reports of batches under longer keys
(`keyed_run`), so the reply is what it should be unless the id of a stored header is requested
(`reply_exact_iff`). Then the `Helper` panics (`header_requested`), where the `Synchronizer` reads
the same key for a parent and returns an error.
-/

set_option autoImplicit false

namespace Tusk

open Lib

/-- A task dedicated to help other authorities by replying to their certificates requests. -/
structure Helper where
  /-- The committee information. -/
  committee : Committee

namespace Helper

/-- What was sent in reply to a request, and whether the task panicked. -/
structure Reply where
  sent : List (SocketAddr × PrimaryMessage) := []
  panicked : Bool := false

/-- A message is sent first. -/
def Reply.cons (message : SocketAddr × PrimaryMessage) (reply : Reply) : Reply :=
  { reply with sent := message :: reply.sent }

theorem Reply.cons_inj {message : SocketAddr × PrimaryMessage} {reply reply' : Reply} :
    reply.cons message = reply'.cons message ↔ reply = reply' := by
  cases reply
  cases reply'
  simp [cons]

/-- Reply to the request (the best we can). What was sent before a panic stays sent. -/
def replyTo (store : Store) (address : SocketAddr) : List Digest → Reply
  | [] => {}
  | digest :: digests =>
      match store.read digest.asRef with
      | some data =>
          match data.deserialize with
          | .ok certificate =>
              (replyTo store address digests).cons (address, .certificate certificate)
          -- Failed to deserialize our own certificate.
          | .error _ => { panicked := true }
      | none => replyTo store address digests

/-- `Helper::run`, for one request. -/
def handle (helper : Helper) (store : Store) (request : List Digest × PublicKey) : Reply :=
  -- Get the requestors address.
  match helper.committee.primary request.2 with
  | .ok address => replyTo store address.primaryToPrimary request.1
  | .error _ => {}

section Requests

variable [Primitives]

/-- The stored certificate of a digest. -/
def storedCertificate (store : Store) (digest : Digest) : Option Certificate :=
  match store.read digest.asRef with
  | some (.certificate c) => if c.digest = digest then some c else none
  | _ => none

/-- The reply that is asked for: the stored certificates of the digests, in order. -/
def exactReply (store : Store) (address : SocketAddr) (digests : List Digest) : Reply where
  sent := (digests.filterMap (storedCertificate store)).map fun c => (address, .certificate c)

/-! ## The keys of the store -/

/-- Under which key a value may be. -/
def Under (key : List UInt8) : StoreValue → Prop
  | .header h => key = h.id.asRef
  | .certificate c => key = c.digest.asRef
  | .empty => ∀ digest : Digest, key ≠ digest.asRef

/-- Every value is under its key. -/
def Keyed (store : Store) : Prop := ∀ key value, store.read key = some value → Under key value

variable {store : Store}

theorem Keyed.write (keyed : Keyed store) {key : List UInt8} {value : StoreValue}
    (under : Under key value) : Keyed (store.write key value) := by
  intro other value' found
  rcases Store.written_or_before found with ⟨rfl, rfl⟩ | old
  · exact under
  · exact keyed other value' old

variable {node : Core}

theorem Keyed.moves {handled : Header → Prop} {carried : Certificate → Prop} {s s' : Core.State}
    (moves : node.Moves handled carried s s') (keyed : Keyed s.store) : Keyed s'.store := by
  cases moves with
  | check _ checks => cases checks <;> exact keyed
  | @store _ h => exact keyed.write (show Under h.id.asRef (.header h) from rfl)
  | vote => exact keyed
  | send => exact keyed
  | count => exact keyed
  | suspend => exact keyed
  | @deliver _ c => exact keyed.write (show Under c.digest.asRef (.certificate c) from rfl)

theorem Keyed.advance {s : Core.State} (keyed : Keyed s.store) (event : Core.Event) :
    Keyed (node.advance s event).store := by
  cases event with
  | batch digest workerId =>
      have longer : Under (Store.payloadKey digest workerId) .empty := fun other =>
        Store.payloadKey_ne_asRef digest other workerId
      exact keyed.write longer
  | consensus => exact keyed
  | core input =>
      refine Core.advance_kept_moves (fun t => Keyed t.store) keyed ?_
        (fun _ _ moves keyed => keyed.moves moves) ?_
      · cases input <;> exact keyed
      · rintro t _ ⟨⟩ keyed
        exact keyed

/-- **In every run every value is under its key.** -/
theorem keyed_run (node : Core) (events : List Core.Event) : Keyed (node.run events).store := by
  induction events using List.reverseRecOn with
  | nil => exact fun key value found => nomatch (Store.read_empty key).symm.trans found
  | append_singleton events event ih =>
      rw [Core.run_snoc]
      exact ih.advance event

/-! ## Replies -/

/-- **The reply is exact if and only if no header is requested**, where every value is under its
key. -/
theorem Keyed.replyTo_iff (keyed : Keyed store) (address : SocketAddr) (digests : List Digest) :
    replyTo store address digests = exactReply store address digests ↔
      ∀ digest ∈ digests, ∀ h, store.read digest.asRef ≠ some (.header h) := by
  induction digests with
  | nil => simp [replyTo, exactReply]
  | cons digest digests ih =>
      rw [List.forall_mem_cons]
      cases found : store.read digest.asRef with
      | none =>
          have absent : storedCertificate store digest = none := by simp [storedCertificate, found]
          have rest : replyTo store address (digest :: digests) = replyTo store address digests := by
            simp [replyTo, found]
          have rest' : exactReply store address (digest :: digests) =
              exactReply store address digests := by simp [exactReply, absent]
          rw [rest, rest', ih]
          simp
      | some value =>
          have under := keyed _ _ found
          cases value with
          | header h =>
              have panics : (replyTo store address (digest :: digests)).panicked = true := by
                simp [replyTo, found, StoreValue.deserialize]
              refine iff_of_false (fun same => ?_) fun none => none.1 h rfl
              rw [same] at panics
              exact absurd panics Bool.false_ne_true
          | empty => exact absurd rfl (under digest)
          | certificate c =>
              have digest_eq : c.digest = digest := (Digest.asRef_injective under).symm
              have present : storedCertificate store digest = some c := by
                simp [storedCertificate, found, digest_eq]
              have sends : replyTo store address (digest :: digests) =
                  (replyTo store address digests).cons (address, .certificate c) := by
                simp [replyTo, found, StoreValue.deserialize]
              have asked : exactReply store address (digest :: digests) =
                  (exactReply store address digests).cons (address, .certificate c) := by
                simp [exactReply, present, Reply.cons]
              rw [sends, asked, Reply.cons_inj, ih]
              refine (and_iff_right fun h same => ?_).symm
              cases same

/-- **When the reply to a request is exact.** In every run the `Helper` sends the stored certificates
that a member of the committee requests, in order and without a panic, if and only if no header is
stored under a requested digest. -/
theorem reply_exact_iff (node : Core) (events : List Core.Event) (helper : Helper)
    {origin : PublicKey} {address : PrimaryAddresses}
    (knows : helper.committee.primary origin = .ok address) (digests : List Digest) :
    helper.handle (node.run events).store (digests, origin) =
        exactReply (node.run events).store address.primaryToPrimary digests ↔
      ∀ digest ∈ digests, ∀ h, (node.run events).store.read digest.asRef ≠ some (.header h) := by
  rw [handle, knows]
  exact (keyed_run node events).replyTo_iff address.primaryToPrimary digests

end Requests

/-! ## A request for a header -/

section FiveAuthorities

local instance helperSign : Primitives := executable fun _ _ => true

/-- The digest of the first certificate that arrives, and the id of its header. -/
def requested : List Digest :=
  [(Core.firstRound ⟨1⟩).digest, (Core.firstRound ⟨1⟩).header.id]

theorem reply_exact_iff_opening :
    (Helper.mk Core.fiveAuthorities).handle (Core.thirdAuthority.run Core.opening).store
        (requested, ⟨1⟩) =
        exactReply (Core.thirdAuthority.run Core.opening).store ⟨0, 0⟩ requested ↔
      ∀ digest ∈ requested, ∀ h,
        (Core.thirdAuthority.run Core.opening).store.read digest.asRef ≠ some (.header h) :=
  have knows : Core.fiveAuthorities.primary ⟨1⟩ = .ok ⟨⟨0, 0⟩, ⟨0, 0⟩⟩ := rfl
  reply_exact_iff Core.thirdAuthority Core.opening ⟨Core.fiveAuthorities⟩ knows requested

/-- **The `Helper` panics at a request for the id of a stored header.** -/
theorem header_requested : ¬ ∀ (node : Core) (events : List Core.Event) (digests : List Digest)
    (origin : PublicKey) (address : PrimaryAddresses),
    Throughout node.advance node.Admissible {} events →
      node.committee.primary origin = .ok address →
      (Helper.mk node.committee).handle (node.run events).store (digests, origin) =
        exactReply (node.run events).store address.primaryToPrimary digests := by
  intro exact
  have reply := exact Core.thirdAuthority Core.opening requested ⟨1⟩ ⟨⟨0, 0⟩, ⟨0, 0⟩⟩
    (by decide +kernel) rfl
  exact absurd (congrArg Reply.panicked reply) (by decide +kernel)

end FiveAuthorities

end Helper

end Tusk
