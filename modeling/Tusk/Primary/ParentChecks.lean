import Tusk.Primary.ProposedParents
import Tusk.Primary.StoreContents

/-!
# The checks on the parents of a header

`process_header` looks the parents of a header up, and when all are there it checks their rounds and
adds up their stake. Of a parent only its stamp matters: its round and author, or that what is found
is no certificate. The store of a primary keeps the stamps of what it holds (`Grows`,
`Filed.grows_advance`), although a certificate may be written over another one of the same digest. So
a header whose parents fail the checks fails them ever after (`Refuses.mono`), and one whose parents
are all there and pass them passes them ever after (`Passes.mono`).
-/

set_option autoImplicit false

namespace Tusk

open Lib

/-- The round and the author of a stored certificate. -/
def StoreValue.stamp : StoreValue → Option (ℕ × PublicKey)
  | .certificate c => some (c.round, c.origin)
  | _ => none

namespace Core

variable [Primitives] (node : Core)

/-! ## Looking one parent up -/

/-- What is found of a parent: a genesis certificate, or what the store has under its digest. -/
def parentValue (store : Store) (digest : Digest) : Option StoreValue :=
  match node.genesis.find? fun entry => decide (entry.1 = digest) with
  | some (_, certificate) => some (.certificate certificate)
  | none => store.read digest.asRef

theorem readParents_cons (store : Store) (digest : Digest) (digests : List Digest) :
    node.readParents store (digest :: digests) =
      match node.parentValue store digest with
      | some value => do
          let certificate ← value.deserialize
          let (parents, missing) ← node.readParents store digests
          return (certificate :: parents, missing)
      | none => do
          let (parents, missing) ← node.readParents store digests
          return (parents, digest :: missing) := by
  rw [readParents, parentValue]
  cases node.genesis.find? fun entry => decide (entry.1 = digest) with
  | none => rfl
  | some entry => rfl

/-- A genesis certificate is found under its digest. -/
theorem find_genesis {digest : Digest} (isGenesis : node.IsGenesis digest) :
    ∃ entry ∈ node.genesis, entry.1 = digest ∧
      (node.genesis.find? fun entry => decide (entry.1 = digest)) = some entry := by
  obtain ⟨entry, member, same⟩ := List.mem_map.mp isGenesis
  cases found : node.genesis.find? fun entry => decide (entry.1 = digest) with
  | none =>
      have absent := List.find?_eq_none.mp found entry member
      exact absurd same (by simpa using absent)
  | some entry' =>
      have isThis : entry'.1 = digest := by simpa using List.find?_some found
      exact ⟨entry', List.mem_of_find?_eq_some found, isThis, rfl⟩

theorem find_genesis_eq_none {digest : Digest} (other : ¬ node.IsGenesis digest) :
    (node.genesis.find? fun entry => decide (entry.1 = digest)) = none := by
  refine List.find?_eq_none.mpr fun entry member same => other ?_
  exact List.mem_map.mpr ⟨entry, member, by simpa using same⟩

variable {node}

theorem parentValue_of_isGenesis {digest : Digest} (isGenesis : node.IsGenesis digest)
    (store : Store) :
    ∃ c ∈ Certificate.genesis node.committee, c.digest = digest ∧
      node.parentValue store digest = some (.certificate c) := by
  obtain ⟨entry, member, same, found⟩ := node.find_genesis isGenesis
  obtain ⟨c, genesis, rfl⟩ := List.mem_map.mp member
  exact ⟨c, genesis, same, by rw [parentValue, found]⟩

theorem parentValue_of_not_isGenesis {digest : Digest} (other : ¬ node.IsGenesis digest)
    (store : Store) : node.parentValue store digest = store.read digest.asRef := by
  rw [parentValue, node.find_genesis_eq_none other]

theorem hasParent_iff {store : Store} {digest : Digest} :
    node.HasParent store digest ↔ ∃ value, node.parentValue store digest = some value := by
  by_cases isGenesis : node.IsGenesis digest
  · obtain ⟨c, -, -, found⟩ := parentValue_of_isGenesis isGenesis store
    exact ⟨fun _ => ⟨_, found⟩, fun _ => .inl isGenesis⟩
  · rw [parentValue_of_not_isGenesis isGenesis, ← Option.isSome_iff_exists]
    exact ⟨fun present => present.resolve_left isGenesis, .inr⟩

/-! ## A store that grows -/

variable (node) in
/-- What is found of a parent in one store is found in the other with the same stamp. -/
def Grows (store store' : Store) : Prop :=
  ∀ digest value, node.parentValue store digest = some value →
    ∃ value', node.parentValue store' digest = some value' ∧ value'.stamp = value.stamp

theorem Grows.refl (store : Store) : node.Grows store store := fun _ value found =>
  ⟨value, found, rfl⟩

theorem Grows.trans {store store' store'' : Store} (first : node.Grows store store')
    (second : node.Grows store' store'') : node.Grows store store'' := by
  intro digest value found
  obtain ⟨value', found', same⟩ := first digest value found
  obtain ⟨value'', found'', same'⟩ := second digest value' found'
  exact ⟨value'', found'', same'.trans same⟩

theorem Grows.hasParent {store store' : Store} (grows : node.Grows store store') {digest : Digest}
    (present : node.HasParent store digest) : node.HasParent store' digest := by
  obtain ⟨value, found⟩ := hasParent_iff.mp present
  obtain ⟨value', found', -⟩ := grows digest value found
  exact hasParent_iff.mpr ⟨value', found'⟩

/-- The round and the author of a certificate. -/
def stampOf (c : Certificate) : ℕ × PublicKey := (c.round, c.origin)

omit [Primitives] in
theorem stamp_eq_some_iff {value : StoreValue} {stamp : ℕ × PublicKey} :
    value.stamp = some stamp ↔ ∃ c, value = .certificate c ∧ stampOf c = stamp := by
  cases value <;> simp [StoreValue.stamp, stampOf]

omit [Primitives] in
theorem bind_pure_eq_error_iff {α β : Type} {x : Except DagError α} {f : α → β} :
    (∃ e, (do let a ← x; pure (f a)) = Except.error e) ↔ ∃ e, x = .error e := by
  cases x <;> simp [bind, Except.bind, pure, Except.pure]

/-- **Reading fails** exactly when something that is found is no certificate. -/
theorem readParents_eq_error_iff {store : Store} {digests : List Digest} :
    (∃ e, node.readParents store digests = .error e) ↔
      ∃ digest ∈ digests, ∃ value, node.parentValue store digest = some value ∧
        value.stamp = none := by
  induction digests with
  | nil => simp [readParents]
  | cons digest digests ih =>
      rw [readParents_cons, List.exists_mem_cons_iff, ← ih]
      cases node.parentValue store digest with
      | none =>
          dsimp only
          rw [bind_pure_eq_error_iff]
          simp
      | some value =>
          dsimp only
          cases value with
          | certificate c =>
              refine bind_pure_eq_error_iff.trans ?_
              simp [StoreValue.stamp]
          | header h => simp [StoreValue.deserialize, StoreValue.stamp, bind, Except.bind]
          | empty => simp [StoreValue.deserialize, StoreValue.stamp, bind, Except.bind]

/-- **Reading finds all parents** exactly when each is found as a certificate. -/
theorem readParents_eq_ok_iff {store : Store} {digests : List Digest} {parents : List Certificate} :
    node.readParents store digests = .ok (parents, []) ↔
      List.Forall₂ (fun digest c => node.parentValue store digest = some (.certificate c)) digests
        parents := by
  induction digests generalizing parents with
  | nil => simp [readParents, eq_comm]
  | cons digest digests ih =>
      rw [readParents_cons, List.forall₂_cons_left_iff]
      cases found : node.parentValue store digest with
      | none =>
          refine iff_of_false (fun read => ?_) fun ⟨c, _, here, _⟩ => nomatch here
          obtain ⟨rest, -, same⟩ := bind_eq_ok_iff.mp read
          cases same
      | some value =>
          dsimp only
          constructor
          · intro read
            obtain ⟨c, decoded, more⟩ := bind_eq_ok_iff.mp read
            obtain ⟨⟨rest, missing⟩, others, same⟩ := bind_eq_ok_iff.mp more
            cases same
            rw [StoreValue.deserialize_ok_iff.mp decoded]
            exact ⟨c, rest, rfl, ih.mp others, rfl⟩
          · rintro ⟨c, rest, same, found', rfl⟩
            cases same
            rw [StoreValue.deserialize_ok_iff.mpr rfl, ih.mpr found']
            rfl

/-- Nothing is missing when all parents are there. -/
theorem missing_eq_nil {store : Store} {digests missing : List Digest}
    {parents : List Certificate} (read : node.readParents store digests = .ok (parents, missing))
    (present : ∀ digest ∈ digests, node.HasParent store digest) : missing = [] := by
  induction digests generalizing parents missing with
  | nil =>
      cases read
      rfl
  | cons digest digests ih =>
      obtain ⟨first, others⟩ := List.forall_mem_cons.mp present
      obtain ⟨value, found⟩ := hasParent_iff.mp first
      rw [readParents_cons, found] at read
      obtain ⟨c, -, more⟩ := bind_eq_ok_iff.mp read
      obtain ⟨⟨rest, missing'⟩, read', same⟩ := bind_eq_ok_iff.mp more
      cases same
      exact ih read' others

/-! ## The checks -/

/-- What `process_header` checks of the parents in the store. While some are missing, nothing is
checked of those that are there but that they are certificates. -/
def checkStored (node : Core) (store : Store) (header : Header) : Except DagError Unit := do
  let (parents, missing) ← node.readParents store header.parents.toList
  if missing = [] ∧ parents ≠ [] then
    node.checkParents header parents
  else
    return

/-- The parents of the header fail the checks. -/
def Refuses (node : Core) (store : Store) (header : Header) : Prop :=
  node.checkStored store header ≠ .ok ()

instance (store : Store) (header : Header) : Decidable (node.Refuses store header) :=
  inferInstanceAs (Decidable (_ ≠ _))

/-- The parents of the header are all there and pass the checks. -/
def Passes (node : Core) (store : Store) (header : Header) : Prop :=
  (∀ digest ∈ header.parents.toList, node.HasParent store digest) ∧
    ¬ node.Refuses store header

instance (store : Store) (header : Header) : Decidable (node.Passes store header) :=
  inferInstanceAs (Decidable (_ ∧ _))

omit [Primitives] in
theorem sumParents_eq_ok_iff {header : Header} {parents : List Certificate} {stake total : Stake} :
    node.sumParents header parents stake = .ok total ↔
      (∀ x ∈ parents, (x.round + 1) % 2 ^ 64 = header.round) ∧
        stake + node.committee.stakeOf parents = total := by
  induction parents generalizing stake with
  | nil => simp [sumParents, Committee.stakeOf]
  | cons x parents ih =>
      simp only [sumParents, bind_eq_ok_iff, ensure_eq_ok_iff, exists_const, ih,
        List.forall_mem_cons, Committee.stakeOf, List.map_cons, List.sum_cons, and_assoc,
        add_assoc]

omit [Primitives] in
/-- **What the parents of an accepted header satisfy.** -/
theorem checkParents_eq_ok_iff {header : Header} {parents : List Certificate} :
    node.checkParents header parents = .ok () ↔
      (∀ x ∈ parents, (x.round + 1) % 2 ^ 64 = header.round) ∧
        node.committee.quorumThreshold ≤ node.committee.stakeOf parents := by
  simp only [checkParents, bind_eq_ok_iff, sumParents_eq_ok_iff, ensure_eq_ok_iff, zero_add]
  constructor
  · rintro ⟨_, ⟨rounds, rfl⟩, quorum⟩
    exact ⟨rounds, quorum⟩
  · rintro ⟨rounds, quorum⟩
    exact ⟨_, ⟨rounds, rfl⟩, quorum⟩

omit [Primitives] in
/-- Rounds and authors decide the sum of the stakes and whether it is formed. -/
theorem sumParents_congr {header : Header} {parents parents' : List Certificate} {stake : Stake}
    (same : parents.map stampOf = parents'.map stampOf) :
    node.sumParents header parents stake = node.sumParents header parents' stake := by
  induction parents generalizing parents' stake with
  | nil =>
      obtain rfl := List.map_eq_nil_iff.mp same.symm
      rfl
  | cons p parents ih =>
      cases parents' with
      | nil => cases same
      | cons p' parents' =>
          rw [List.map_cons, List.map_cons, List.cons.injEq] at same
          obtain ⟨first, rest⟩ := same
          obtain ⟨round, origin⟩ := Prod.mk.inj first
          rw [sumParents, sumParents, round, origin]
          exact congrArg _ (funext fun _ => ih rest)

omit [Primitives] in
theorem checkParents_congr {header : Header} {parents parents' : List Certificate}
    (same : parents.map stampOf = parents'.map stampOf) :
    node.checkParents header parents = node.checkParents header parents' := by
  rw [checkParents, checkParents, sumParents_congr same]

/-- A header is refused when something found is no certificate, or all parents are found and the
checks on them fail. -/
theorem refuses_iff {store : Store} {header : Header} :
    node.Refuses store header ↔
      (∃ digest ∈ header.parents.toList, ∃ value,
        node.parentValue store digest = some value ∧ value.stamp = none) ∨
      ∃ parents, node.readParents store header.parents.toList = .ok (parents, []) ∧
        parents ≠ [] ∧ node.checkParents header parents ≠ .ok () := by
  rw [← readParents_eq_error_iff, Refuses, checkStored]
  cases node.readParents store header.parents.toList with
  | error e => simp [bind, Except.bind]
  | ok found =>
      obtain ⟨parents, missing⟩ := found
      simp only [bind, Except.bind, Except.ok.injEq, Prod.mk.injEq, reduceCtorEq, exists_false,
        false_or]
      split_ifs with complete
      · obtain ⟨rfl, nonempty⟩ := complete
        simp [nonempty]
      · refine iff_of_false (fun impossible => impossible rfl) ?_
        rintro ⟨_, ⟨rfl, rfl⟩, nonempty, -⟩
        exact complete ⟨rfl, nonempty⟩

/-- In a store that grows the parents keep their stamps. -/
theorem Grows.readParents {store store' : Store} (grows : node.Grows store store')
    {digests : List Digest} {parents : List Certificate}
    (read : node.readParents store digests = .ok (parents, [])) :
    ∃ parents', node.readParents store' digests = .ok (parents', []) ∧
      parents'.map stampOf = parents.map stampOf := by
  simp only [readParents_eq_ok_iff] at read ⊢
  induction read with
  | nil => exact ⟨[], .nil, rfl⟩
  | @cons digest c digests parents found _ ih =>
      obtain ⟨parents', rest, same⟩ := ih
      obtain ⟨value, found', stamp⟩ := grows digest _ found
      obtain ⟨c', rfl, same'⟩ := stamp_eq_some_iff.mp stamp
      exact ⟨c' :: parents', .cons found' rest, by rw [List.map_cons, List.map_cons, same, same']; rfl⟩

/-- **A refused header stays refused.** -/
theorem Refuses.mono {store store' : Store} {header : Header} (refuses : node.Refuses store header)
    (grows : node.Grows store store') : node.Refuses store' header := by
  rw [refuses_iff] at refuses ⊢
  rcases refuses with ⟨digest, member, value, found, stamp⟩ | ⟨parents, read, nonempty, fails⟩
  · obtain ⟨value', found', same⟩ := grows digest value found
    exact .inl ⟨digest, member, value', found', same.trans stamp⟩
  · obtain ⟨parents', read', same⟩ := grows.readParents read
    refine .inr ⟨parents', read', ?_, ?_⟩
    · rintro rfl
      exact nonempty (List.map_eq_nil_iff.mp same.symm)
    · rwa [checkParents_congr same]

/-- When each parent is found as a certificate they are found together. -/
theorem exists_readParents {store : Store} {digests : List Digest}
    (found : ∀ digest ∈ digests, ∃ c, node.parentValue store digest = some (.certificate c)) :
    ∃ parents, node.readParents store digests = .ok (parents, []) := by
  simp only [readParents_eq_ok_iff]
  induction digests with
  | nil => exact ⟨[], .nil⟩
  | cons digest digests ih =>
      obtain ⟨c, here⟩ := found digest List.mem_cons_self
      obtain ⟨parents, rest⟩ := ih fun digest member => found digest (.tail _ member)
      exact ⟨c :: parents, .cons here rest⟩

omit [Primitives] in
/-- What is in the first list has a partner in the second. -/
theorem exists_of_forall₂ {α β : Type} {R : α → β → Prop} {as : List α} {bs : List β}
    (related : List.Forall₂ R as bs) {a : α} (member : a ∈ as) : ∃ b ∈ bs, R a b := by
  induction related with
  | nil => exact absurd member List.not_mem_nil
  | @cons a' b' as bs here _ ih =>
      rcases List.mem_cons.mp member with rfl | later
      · exact ⟨b', List.mem_cons_self, here⟩
      · obtain ⟨b, inside, rel⟩ := ih later
        exact ⟨b, List.mem_cons_of_mem _ inside, rel⟩

/-- **A header passes** when its parents are found as certificates that pass the checks, or when it
has none. -/
theorem passes_iff {store : Store} {header : Header} :
    node.Passes store header ↔
      ∃ parents, node.readParents store header.parents.toList = .ok (parents, []) ∧
        (parents = [] ∨ node.checkParents header parents = .ok ()) := by
  constructor
  · rintro ⟨present, accepted⟩
    rw [refuses_iff, not_or] at accepted
    obtain ⟨decodes, checked⟩ := accepted
    have certificates : ∀ digest ∈ header.parents.toList,
        ∃ c, node.parentValue store digest = some (.certificate c) := by
      intro digest member
      obtain ⟨value, found⟩ := hasParent_iff.mp (present digest member)
      cases stamp : value.stamp with
      | none => exact absurd ⟨digest, member, value, found, stamp⟩ decodes
      | some stamp' =>
          obtain ⟨c, rfl, -⟩ := stamp_eq_some_iff.mp stamp
          exact ⟨c, found⟩
    obtain ⟨parents, read⟩ := exists_readParents certificates
    refine ⟨parents, read, ?_⟩
    by_contra fails
    obtain ⟨nonempty, fails⟩ := not_or.mp fails
    exact checked ⟨parents, read, nonempty, fails⟩
  · rintro ⟨parents, read, checked⟩
    refine ⟨fun digest member => ?_, fun refuses => ?_⟩
    · obtain ⟨c, -, found⟩ := exists_of_forall₂ (readParents_eq_ok_iff.mp read) member
      exact hasParent_iff.mpr ⟨_, found⟩
    · rw [Refuses, checkStored, read] at refuses
      apply refuses
      simp only [bind, Except.bind]
      split_ifs with complete
      · exact checked.resolve_left complete.2
      · rfl

/-- **A header that passes goes on to pass.** -/
theorem Passes.mono {store store' : Store} {header : Header} (passes : node.Passes store header)
    (grows : node.Grows store store') : node.Passes store' header := by
  rw [passes_iff] at passes ⊢
  obtain ⟨parents, read, checked⟩ := passes
  obtain ⟨parents', read', same⟩ := grows.readParents read
  refine ⟨parents', read', ?_⟩
  rw [checkParents_congr same]
  refine checked.imp_left ?_
  rintro rfl
  exact List.map_eq_nil_iff.mp same

/-! ## The store of a run -/

section Runs

variable {known : Set Header} (collisionFree : CollisionFree (hashedFor known))
  (avoids : Primitives.Avoids (hashedFor known) node.committee.fixedDigests)

omit [Primitives] in
/-- Writing a value of the stamp that is there already, if something is there. -/
theorem stamp_write {store : Store} {key key' : List UInt8} {value value' : StoreValue}
    (found : store.read key = some value)
    (same : key = key' → value'.stamp = value.stamp) :
    ∃ value'', (store.write key' value').read key = some value'' ∧
      value''.stamp = value.stamp := by
  rw [Store.read_write]
  split
  · next here => exact ⟨value', rfl, same here⟩
  · exact ⟨value, found, rfl⟩

/-- Writes that keep the stamps, except under the digests of the genesis. -/
theorem grows_write {store : Store} {key : List UInt8} {value' : StoreValue}
    (same : ∀ digest value, ¬ node.IsGenesis digest → store.read digest.asRef = some value →
      digest.asRef = key → value'.stamp = value.stamp) :
    node.Grows store (store.write key value') := by
  intro digest value found
  by_cases isGenesis : node.IsGenesis digest
  · obtain ⟨c, -, -, found'⟩ := parentValue_of_isGenesis isGenesis store
    obtain ⟨entry, -, -, first⟩ := node.find_genesis isGenesis
    refine ⟨value, ?_, rfl⟩
    rw [parentValue, first] at found ⊢
    exact found
  · rw [parentValue_of_not_isGenesis isGenesis] at found ⊢
    exact stamp_write found fun here => same digest value isGenesis found here

theorem isGenesis_of_isGenesisDigest {digest : Digest}
    (isGenesis : node.committee.IsGenesisDigest digest) : node.IsGenesis digest := by
  obtain ⟨c, member, rfl⟩ := isGenesis
  exact List.mem_map.mpr ⟨(c.digest, c), List.mem_map.mpr ⟨c, member, rfl⟩, rfl⟩

include collisionFree in
/-- Vetted certificates of one digest have one round and author, but for the genesis. -/
theorem stampOf_eq_of_digest {c c' : Certificate}
    (vetted : c.header.Vetted node.committee known)
    (vetted' : c'.header.Vetted node.committee known) (same : c.digest = c'.digest)
    (other : ¬ node.IsGenesis c.digest) : stampOf c = stampOf c' := by
  have hashed : ∀ p : Certificate, p.header.Vetted node.committee known → p.digest = c.digest →
      p.hashInput ∈ hashedFor known := by
    intro p vettedP digest
    refine (hashInput_mem_hashedFor vettedP).resolve_left fun claims => other ?_
    exact digest ▸ isGenesis_of_isGenesisDigest (isGenesisDigest_of_claimsGenesis claims)
  have bytes := collisionFree (hashed c vetted rfl) (hashed c' vetted' same.symm) same
  obtain ⟨-, round, origin⟩ := Certificate.hashInput_inj bytes
  exact Prod.ext round origin

/-- The store of a later state of a step that started at `s`. -/
abbrev Grown (node : Core) (s t : State) : Prop := node.Grows s.store t.store

/-- The store is filed and has grown since the state `s`. -/
structure Growing (node : Core) (known : Set Header) (s t : State) : Prop where
  filed : Filed node.committee known t
  grows : Grown node s t

include collisionFree avoids

/-- **A move keeps the stamps** of what is stored. -/
theorem Filed.grows_moves {handled : Header → Prop} {carried : Certificate → Prop} {s s' : State}
    (filed : Filed node.committee known s)
    (vettedHeaders : ∀ h, handled h → h.Vetted node.committee known)
    (vettedCertificates : ∀ c, carried c → c.header.Vetted node.committee known)
    (moves : node.Moves handled carried s s') : node.Grows s.store s'.store := by
  -- a header and a certificate under one key
  have clash : ∀ (h : Header) (c : Certificate), h.Vetted node.committee known →
      c.header.Vetted node.committee known → c.digest = h.id → node.IsGenesis h.id :=
    fun h c vetted vetted' same => same ▸ isGenesis_of_isGenesisDigest
      (isGenesisDigest_of_clash collisionFree avoids vetted vetted' same)
  cases moves with
  | check _ checks => cases checks <;> exact .refl _
  | @store _ h subject accepts =>
      apply grows_write
      intro digest value other found here
      obtain rfl := Digest.asRef_injective here
      cases filed.store _ _ found with
      | header => rfl
      | certificate key vetted =>
          exact absurd (clash h _ (vettedHeaders h subject) vetted
            (Digest.asRef_injective key).symm) other
      | empty longer => exact absurd rfl (longer h.id)
  | @deliver _ c subject parents =>
      apply grows_write
      intro digest value other found here
      obtain rfl := Digest.asRef_injective here
      have vetted := vettedCertificates c subject
      cases filed.store _ _ found with
      | header key vetted' =>
          have same := Digest.asRef_injective key
          exact absurd (same ▸ clash _ c vetted' vetted same) other
      | @certificate c' key vetted' =>
          exact congrArg some
            (stampOf_eq_of_digest collisionFree vetted vetted' (Digest.asRef_injective key) other)
      | empty longer => exact absurd rfl (longer c.digest)
  | _ => exact .refl _

/-- The moves of a step keep the stamps. -/
theorem Filed.growing_moves {s u t t' : State} {input : Input}
    (filed : Filed node.committee known s) (member : node.name ∈ node.committee.authorities.keys)
    (admissible : node.Admissible s (.core input))
    (heard : ∀ h, Event.header (.core input) = some h → h ∈ known)
    (moves : node.Moves (node.Handled s input) (node.Carried s input) t t')
    (growing : Growing node known u t) : Growing node known u t' where
  filed := filed.moves_of_step member admissible heard moves growing.filed
  grows := growing.grows.trans (growing.filed.grows_moves collisionFree avoids
    (fun _ => filed.vetted_of_handled member admissible heard)
    (fun _ => filed.vetted_of_carried member admissible heard) moves)

/-- The acts of a step keep the stamps. -/
theorem Filed.growing_acts {s u t t' : State} {input : Input}
    (filed : Filed node.committee known s) (member : node.name ∈ node.committee.authorities.keys)
    (admissible : node.Admissible s (.core input))
    (heard : ∀ h, Event.header (.core input) = some h → h ∈ known)
    (acts : node.Acts s input t t') (growing : Growing node known u t) :
    Growing node known u t' := by
  have moves : ∀ v v', node.Moves (node.Handled s input) (node.Carried s input) v v' →
      Growing node known u v → Growing node known u v' := fun v v' =>
    filed.growing_moves collisionFree avoids member admissible heard
  exact Command.kept_of_steps moves acts.moves growing

/-- **An event keeps the stamps** of what is stored. -/
theorem Filed.grows_advance {s : State} {event : Event} (filed : Filed node.committee known s)
    (member : node.name ∈ node.committee.authorities.keys) (admissible : node.Admissible s event)
    (heard : ∀ h, event.header = some h → h ∈ known) :
    node.Grows s.store (node.advance s event).store := by
  cases event with
  | batch digest workerId =>
      exact grows_write fun digest' _ _ _ here =>
        absurd here.symm (Store.payloadKey_ne_asRef digest digest' workerId)
  | consensus => exact .refl _
  | core input =>
      have start : Growing node known s (s.opened input) := by
        refine ⟨filed.opened member admissible heard, ?_⟩
        cases input <;> exact .refl _
      have grown : Grown node s (node.advance s (.core input)) := by
        refine advance_core (.refl _) fun _ => ?_
        apply step_invariant_settles start
        · exact fun t t' moves growing =>
            filed.growing_moves collisionFree avoids member admissible heard moves growing
        · intro t t' settles growing
          cases settles
          exact growing.grows
      exact grown

end Runs

end Core

end Tusk
