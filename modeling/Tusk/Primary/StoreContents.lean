import Tusk.Primary.CoreMoves

/-!
# What the store of a primary contains

Headers and certificates are stored under 32-byte keys, the id of a header and the digest of a
certificate, and whether a parent has been delivered is decided by the presence of a key. The
headers that get this far are vetted: their id is their digest, or they pass for a genesis header,
or they are the empty header a primary starts with. In every run the store holds vetted headers
under their ids, certificates that were handed to the consensus under their digests, and reports
of batches under longer keys (`Filed`).

A header of no batch and one parent is as long as what is hashed of a certificate, and the two are
then told apart by the authority in the one and the header id in the other. So a stored header
stands in the place of a certificate only when the digest is one of a genesis certificate
(`isGenesisDigest_of_clash`), if hashing does not reach the keys of the committee.
-/

set_option autoImplicit false

namespace Tusk

open Lib

/-! ## Vetted headers -/

/-- The digest of a genesis certificate. -/
def Committee.IsGenesisDigest [Primitives] (committee : Committee) (digest : Digest) : Prop :=
  ∃ genesis ∈ Certificate.genesis committee, genesis.digest = digest

/-- The digests that hashing is not to reach: the default one and the keys of the committee. -/
def Committee.fixedDigests (committee : Committee) : Set Digest :=
  {digest | digest = default ∨ ∃ name ∈ committee.authorities.keys, digest.word = name.word}

/-- The byte strings that are hashed for some headers and for certificates of them. -/
def hashedFor (known : Set Header) : Set (List UInt8) :=
  {bytes | ∃ h, (h = default ∨ h ∈ known) ∧
    (bytes = h.hashInput ∨ bytes = certifiedBytes h.id h.round h.author)}

/-- The headers that a primary processes, when it hears of those in `known`. -/
inductive Header.Vetted [Primitives] (committee : Committee) (known : Set Header) (h : Header) :
    Prop where
  /-- The id is the digest. -/
  | identified (heard : h ∈ known) (id : h.id = h.digest)
      (author : h.author ∈ committee.authorities.keys)
  /-- The header passes for a genesis header. -/
  | genesis (id : h.id = default) (round : h.round = 0)
      (author : h.author ∈ committee.authorities.keys)
  /-- The header a primary starts with. -/
  | initial (default : h = default)

/-- The digest of a genesis certificate or of a certificate of a vetted header. -/
def Attested [Primitives] (committee : Committee) (known : Set Header) (digest : Digest) : Prop :=
  committee.IsGenesisDigest digest ∨
    ∃ p : Certificate, p.header.Vetted committee known ∧ p.digest = digest

section Vetting

variable [Primitives] {committee : Committee} {known : Set Header}

theorem isGenesisDigest_of_claimsGenesis {c : Certificate} (claims : c.claimsGenesis committee) :
    committee.IsGenesisDigest c.digest := by
  obtain ⟨id, round, origin⟩ := claims
  refine ⟨.genesisOf c.origin, List.mem_map_of_mem origin, ?_⟩
  unfold Certificate.digest Certificate.hashInput
  rw [id, round]
  rfl

theorem vetted_of_verify {h : Header} (heard : h ∈ known) (accepted : h.verify committee = .ok ()) :
    h.Vetted committee known := by
  obtain ⟨id, stake, -⟩ := Header.verify_ok_iff.mp accepted
  exact .identified heard id.symm (committee.mem_keys_of_stake_pos stake)

theorem vetted_of_certificate_verify {c : Certificate} (heard : c.header ∈ known)
    (accepted : c.verify committee = .ok ()) : c.header.Vetted committee known := by
  rcases Certificate.verify_ok_iff.mp accepted with claims | certified
  · exact .genesis claims.1 claims.2.1 claims.2.2
  · exact vetted_of_verify heard certified.header

/-- What is hashed for a certificate of a vetted header is known, unless the certificate passes
for a genesis certificate. -/
theorem hashInput_mem_hashedFor {p : Certificate} (vetted : p.header.Vetted committee known) :
    p.claimsGenesis committee ∨ p.hashInput ∈ hashedFor known := by
  cases vetted with
  | identified heard => exact .inr ⟨p.header, .inr heard, .inr rfl⟩
  | genesis id round author => exact .inl ⟨id, round, author⟩
  | initial same => exact .inr ⟨p.header, .inl same, .inr rfl⟩

/-- The byte strings hashed for the headers of a list. -/
def inputsOf (headers : List Header) : List (List UInt8) :=
  (default :: headers).flatMap fun h => [h.hashInput, certifiedBytes h.id h.round h.author]

omit [Primitives] in
theorem mem_inputsOf {headers : List Header} (listed : ∀ h ∈ known, h ∈ headers)
    {bytes : List UInt8} (hashed : bytes ∈ hashedFor known) : bytes ∈ inputsOf headers := by
  obtain ⟨h, among, input⟩ := hashed
  refine List.mem_flatMap.mpr ⟨h, ?_, by simpa using input⟩
  rcases among with rfl | inside
  · exact List.mem_cons_self ..
  · exact List.mem_cons_of_mem _ (listed h inside)

/-- What is assumed of the hash can be evaluated for the headers of a list. -/
theorem hashed_of_headers (headers : List Header) (listed : ∀ h ∈ known, h ∈ headers)
    (distinct : ∀ bytes ∈ inputsOf headers, ∀ bytes' ∈ inputsOf headers,
      Primitives.sha512 bytes = Primitives.sha512 bytes' → bytes = bytes')
    (outside : ∀ bytes ∈ inputsOf headers, Primitives.sha512 bytes ≠ default ∧
      ∀ name ∈ committee.authorities.keys, (Primitives.sha512 bytes).word ≠ name.word) :
    CollisionFree (hashedFor known) ∧
      Primitives.Avoids (hashedFor known) committee.fixedDigests := by
  refine ⟨collisionFree_of_list _ (fun _ => mem_inputsOf listed) distinct, ?_⟩
  rintro bytes hashed (zero | ⟨name, authority, same⟩)
  · exact (outside bytes (mem_inputsOf listed hashed)).1 zero
  · exact (outside bytes (mem_inputsOf listed hashed)).2 name authority same

/-- **A vetted header has the digest of a certificate as its id only at the genesis.** -/
theorem isGenesisDigest_of_clash (collisionFree : CollisionFree (hashedFor known))
    (avoids : Primitives.Avoids (hashedFor known) committee.fixedDigests) {h : Header}
    {p : Certificate} (vetted : h.Vetted committee known)
    (vetted' : p.header.Vetted committee known) (clash : p.digest = h.id) :
    committee.IsGenesisDigest p.digest := by
  rcases hashInput_mem_hashedFor vetted' with claims | hashed
  · exact isGenesisDigest_of_claimsGenesis claims
  have notDefault : h.id ≠ default := fun same =>
    avoids _ hashed (.inl (show p.digest = default from clash.trans same))
  cases vetted with
  | genesis id => exact absurd id notDefault
  | initial same => exact absurd (congrArg Header.id same) notDefault
  | identified heard id author =>
      have bytes : p.hashInput = h.hashInput :=
        collisionFree hashed ⟨h, .inr heard, .inl rfl⟩ (clash.trans id)
      -- the first 32 bytes are the header id on one side and the author on the other
      have front : p.header.id.asRef = h.author.asRef := by
        simp only [Certificate.hashInput, certifiedBytes, Header.hashInput,
          List.append_assoc] at bytes
        exact (List.append_inj bytes (by simp)).1
      have word : p.header.id.word = h.author.word := wordBytes_injective front
      cases vetted' with
      | identified heard' id' =>
          rw [id'] at word
          exact absurd (.inr ⟨h.author, author, word⟩)
            (avoids p.header.hashInput ⟨p.header, .inr heard', .inl rfl⟩)
      | genesis id' round' author' => exact isGenesisDigest_of_claimsGenesis ⟨id', round', author'⟩
      | initial same =>
          have origin : p.origin = h.author := by
            calc p.origin = (default : Header).author := congrArg Header.author same
              _ = ⟨p.header.id.word⟩ := by rw [same]; rfl
              _ = h.author := congrArg PublicKey.mk word
          have round : p.round = 0 := congrArg Header.round same
          exact isGenesisDigest_of_claimsGenesis
            ⟨congrArg Header.id same, round, origin ▸ author⟩

end Vetting

/-! ## The store -/

/-- The header an event brings. -/
def Core.Event.header : Core.Event → Option Header
  | .core (.primaries (.header h)) => some h
  | .core (.primaries (.certificate c)) => some c.header
  | .core (.headerWaiter h) => some h
  | .core (.certificateWaiter c) => some c.header
  | .core (.proposer h) => some h
  | _ => none

namespace Core

/-- The headers that some events bring. -/
def headersOf (events : List Event) : Set Header :=
  {h | ∃ event ∈ events, event.header = some h}

theorem headersOf_eq (events : List Event) :
    headersOf events = {h | h ∈ events.filterMap Event.header} :=
  Set.ext fun _ => List.mem_filterMap.symm

variable [Primitives]

/-- What may be stored under a key. -/
inductive Entry (committee : Committee) (known : Set Header) (sent : List Certificate)
    (key : List UInt8) : StoreValue → Prop where
  | header {h : Header} (id : key = h.id.asRef) (vetted : h.Vetted committee known)
      (parents : ∀ digest ∈ h.parents, Attested committee known digest) :
      Entry committee known sent key (.header h)
  | certificate {c : Certificate} (digest : key = c.digest.asRef)
      (vetted : c.header.Vetted committee known) (delivered : c ∈ sent) :
      Entry committee known sent key (.certificate c)
  | empty (longer : ∀ digest : Digest, key ≠ digest.asRef) : Entry committee known sent key .empty

/-- What is known of the store, of the channels and of the votes. -/
structure Filed (committee : Committee) (known : Set Header) (s : State) : Prop where
  store : ∀ key value, s.store.read key = some value →
    Entry committee known s.txConsensus key value
  headerWaiter : ∀ message ∈ s.txHeaderWaiter, message.deliver.Vetted committee known
  certificateWaiter : ∀ c ∈ s.txCertificateWaiter, c.header.Vetted committee known
  current : s.currentHeader.Vetted committee known
  votes : ∀ a ∈ s.votesCreated, ∀ digest ∈ a.1.parents, Attested committee known digest

variable {node : Core} {known : Set Header}

theorem Entry.mono {committee : Committee} {sent sent' : List Certificate} {key : List UInt8}
    {value : StoreValue} (entry : Entry committee known sent key value) (more : sent ⊆ sent') :
    Entry committee known sent' key value := by
  cases entry with
  | header id vetted parents => exact .header id vetted parents
  | certificate digest vetted delivered => exact .certificate digest vetted (more delivered)
  | empty longer => exact .empty longer

theorem isGenesisDigest_of_isGenesis {digest : Digest} (isGenesis : node.IsGenesis digest) :
    node.committee.IsGenesisDigest digest := by
  obtain ⟨entry, member, rfl⟩ := List.mem_map.mp isGenesis
  obtain ⟨c, genesis, rfl⟩ := List.mem_map.mp member
  exact ⟨c, genesis, rfl⟩

/-- A parent that is not missing is a genesis certificate or stored as a certificate. -/
theorem parent_of_readParents {store : Store} {digests missing : List Digest}
    {parents : List Certificate} (read : node.readParents store digests = .ok (parents, missing))
    {digest : Digest} (member : digest ∈ digests) :
    node.IsGenesis digest ∨ (∃ c, store.read digest.asRef = some (.certificate c)) ∨
      digest ∈ missing := by
  induction digests generalizing parents missing with
  | nil => exact absurd member List.not_mem_nil
  | cons first digests ih =>
      unfold readParents at read
      split at read
      · next key c found =>
          obtain ⟨⟨parents', missing'⟩, rest, same⟩ := bind_eq_ok_iff.mp read
          cases same
          rcases List.mem_cons.mp member with rfl | later
          · have isFirst : key = digest := by simpa using List.find?_some found
            exact .inl (List.mem_map.mpr ⟨(key, c), List.mem_of_find?_eq_some found, isFirst⟩)
          · exact ih rest later
      · split at read
        · next value found =>
            obtain ⟨c, decoded, read⟩ := bind_eq_ok_iff.mp read
            obtain ⟨⟨parents', missing'⟩, rest, same⟩ := bind_eq_ok_iff.mp read
            cases same
            rcases List.mem_cons.mp member with rfl | later
            · exact .inr (.inl ⟨c, StoreValue.deserialize_ok_iff.mp decoded ▸ found⟩)
            · exact ih rest later
        · obtain ⟨⟨parents', missing'⟩, rest, same⟩ := bind_eq_ok_iff.mp read
          cases same
          rcases List.mem_cons.mp member with rfl | later
          · exact .inr (.inr (List.mem_cons_self ..))
          · rcases ih rest later with genesis | stored | absent
            · exact .inl genesis
            · exact .inr (.inl stored)
            · exact .inr (.inr (List.mem_cons_of_mem _ absent))

/-- The parents of an accepted header are certificates. -/
theorem Filed.attested_of_accepts {s : State} (filed : Filed node.committee known s) {h : Header}
    (accepts : node.Accepts s h) : ∀ digest ∈ h.parents, Attested node.committee known digest := by
  intro digest member
  obtain ⟨parents, read, -⟩ := accepts.parents
  rcases parent_of_readParents read member with genesis | ⟨c, stored⟩ | absent
  · exact .inl (isGenesisDigest_of_isGenesis genesis)
  · cases filed.store _ _ stored with
    | certificate key vetted => exact .inr ⟨c, vetted, (Digest.asRef_injective key).symm⟩
  · exact absurd absent List.not_mem_nil

/-- **A move keeps the store filed** when the headers and certificates at hand are vetted. -/
theorem Filed.moves {handled : Header → Prop} {carried : Certificate → Prop} {s s' : State}
    (vettedHeaders : ∀ h, handled h → h.Vetted node.committee known)
    (vettedCertificates : ∀ c, carried c → c.header.Vetted node.committee known)
    (moves : node.Moves handled carried s s') (filed : Filed node.committee known s) :
    Filed node.committee known s' := by
  obtain ⟨store, headerWaiter, certificateWaiter, current, votes⟩ := filed
  cases moves with
  | check subject checks =>
      cases checks with
      | start => exact ⟨store, headerWaiter, certificateWaiter, current, votes⟩
      | suspend message ours =>
          refine ⟨store, fun m member => ?_, certificateWaiter, current, votes⟩
          rcases List.mem_append.mp member with old | new
          · exact headerWaiter m old
          · obtain rfl := List.mem_singleton.mp new
            exact ours ▸ vettedHeaders _ subject
  | @store _ h subject accepts =>
      refine ⟨fun key value found => ?_, headerWaiter, certificateWaiter, current, votes⟩
      rcases Store.written_or_before found with ⟨here, rfl⟩ | old
      · exact .header here (vettedHeaders h subject)
          (Filed.attested_of_accepts ⟨store, headerWaiter, certificateWaiter, current, votes⟩
            accepts)
      · exact store key value old
  | @vote t h subject accepts first =>
      refine ⟨store, headerWaiter, certificateWaiter, current, fun a member => ?_⟩
      rcases List.mem_append.mp member with old | new
      · exact votes a old
      · -- the header was stored just before
        obtain rfl := List.mem_singleton.mp new
        have stored : (t.storeHeader h).store.read h.id.asRef = some (.header h) := by
          change (t.store.write h.id.asRef (.header h)).read h.id.asRef = _
          rw [Store.read_write, if_pos rfl]
        cases store _ _ stored with
        | header _ _ parents => exact parents
  | send => exact ⟨store, headerWaiter, certificateWaiter, current, votes⟩
  | count => exact ⟨store, headerWaiter, certificateWaiter, current, votes⟩
  | @suspend _ c subject =>
      refine ⟨store, headerWaiter, fun c' member => ?_, current, votes⟩
      rcases List.mem_append.mp member with old | new
      · exact certificateWaiter c' old
      · obtain rfl := List.mem_singleton.mp new
        exact vettedCertificates _ subject
  | @deliver _ c subject parents =>
      refine ⟨fun key value found => ?_, headerWaiter, certificateWaiter, current, votes⟩
      rcases Store.written_or_before found with ⟨here, rfl⟩ | old
      · exact .certificate here (vettedCertificates c subject)
          (List.mem_append_right _ (List.mem_singleton_self c))
      · exact (store key value old).mono (List.subset_append_left ..)

/-! ## Runs -/

section Step

variable {s : State} {input : Input} (filed : Filed node.committee known s)
  (member : node.name ∈ node.committee.authorities.keys)
  (admissible : node.Admissible s (.core input))
  (heard : ∀ h, Event.header (.core input) = some h → h ∈ known)

include filed admissible heard

theorem Filed.vetted_of_carries {c : Certificate} (carries : node.Carries s input c) :
    c.header.Vetted node.committee known := by
  cases carries with
  | primaries sane =>
      obtain ⟨_, -, accepted⟩ := bind_eq_ok_iff.mp sane
      exact vetted_of_certificate_verify (heard _ rfl) accepted
  | certificateWaiter => exact filed.certificateWaiter c admissible.1

include member

theorem Filed.vetted_of_hands {h : Header} (hands : node.Hands s input h) :
    h.Vetted node.committee known := by
  cases hands with
  | primaries sane =>
      obtain ⟨_, -, accepted⟩ := bind_eq_ok_iff.mp sane
      exact vetted_of_verify (heard _ rfl) accepted
  | headerWaiter =>
      obtain ⟨message, sent, rfl, -⟩ := admissible
      exact filed.headerWaiter message sent
  | proposer =>
      have proposes : node.Proposes s h := admissible
      exact .identified (heard _ rfl) proposes.id (proposes.author ▸ member)
  | embedded carries => exact filed.vetted_of_carries admissible heard carries

theorem Filed.opened : Filed node.committee known (s.opened input) := by
  cases input with
  | proposer h =>
      exact ⟨filed.store, filed.headerWaiter, filed.certificateWaiter,
        filed.vetted_of_hands member admissible heard (.proposer h), filed.votes⟩
  | _ => exact filed

theorem Filed.vetted_of_handled {h : Header} (subject : node.Handled s input h) :
    h.Vetted node.committee known := by
  rcases subject with hands | ⟨-, rfl⟩
  · exact filed.vetted_of_hands member admissible heard hands
  · exact (filed.opened member admissible heard).current

theorem Filed.vetted_of_carried {c : Certificate} (subject : node.Carried s input c) :
    c.header.Vetted node.committee known :=
  filed.vetted_of_handled member admissible heard (handled_of_carried subject)

/-- The moves of a step keep the store filed. -/
theorem Filed.moves_of_step {t t' : State}
    (moves : node.Moves (node.Handled s input) (node.Carried s input) t t')
    (filed' : Filed node.committee known t) : Filed node.committee known t' :=
  filed'.moves (fun _ => filed.vetted_of_handled member admissible heard)
    (fun _ => filed.vetted_of_carried member admissible heard) moves

end Step

/-- **An event keeps the store filed.** -/
theorem Filed.advance {s : State} {event : Event} (filed : Filed node.committee known s)
    (member : node.name ∈ node.committee.authorities.keys) (admissible : node.Admissible s event)
    (heard : ∀ h, event.header = some h → h ∈ known) :
    Filed node.committee known (node.advance s event) := by
  cases event with
  | batch digest workerId =>
      refine ⟨fun key value found => ?_, filed.headerWaiter, filed.certificateWaiter,
        filed.current, filed.votes⟩
      rcases Store.written_or_before found with ⟨here, rfl⟩ | old
      · exact .empty fun other => here ▸ Store.payloadKey_ne_asRef digest other workerId
      · exact filed.store key value old
  | consensus =>
      exact ⟨filed.store, filed.headerWaiter, filed.certificateWaiter, filed.current, filed.votes⟩
  | core input =>
      refine advance_core filed fun _ => ?_
      apply step_invariant_settles (filed.opened member admissible heard)
      · exact fun t t' moves filed' =>
          filed.moves_of_step member admissible heard moves filed'
      · intro t t' settles filed'
        cases settles
        exact ⟨filed'.store, filed'.headerWaiter, filed'.certificateWaiter, filed'.current,
          filed'.votes⟩

theorem filed_start (committee : Committee) : Filed committee known {} where
  store key _ found := nomatch (Store.read_empty key).symm.trans found
  headerWaiter _ member := absurd member List.not_mem_nil
  certificateWaiter _ member := absurd member List.not_mem_nil
  current := .initial rfl
  votes _ member := absurd member List.not_mem_nil

end Core

end Tusk
