import Tusk.Consensus.Pool

/-!
# Pools given as a list

Whether a list of certificates is a pool, and whether a list is an order in which a node may
receive them, can be evaluated. `Pool.ofList` and `Pool.delivery_ofList` say that the checks are
sound. `Certificate.sample` builds the certificates of a dag from their author, round and parents.
-/

set_option autoImplicit false

namespace Tusk

open Lib

variable [Primitives]

/-- A certificate without batches and signatures, with an id of its own. -/
def Certificate.sample (author round : ℕ) (parents : List Certificate) : Certificate where
  header :=
    { author := ⟨BitVec.ofNat 256 author⟩
      round := round % 2 ^ 64
      payload := ∅
      parents := .ofList (parents.map Certificate.digest)
      id := ⟨BitVec.ofNat 256 (256 * round + author)⟩
      signature := default
      round_lt := Nat.mod_lt _ (by decide) }
  votes := []

namespace Pool

/-- What has to be checked of a list of certificates for it to be a pool. -/
def Lists (committee : Committee) (certificates : List Certificate) : Prop :=
  let known := certificates ++ Certificate.genesis committee
  (known.Pairwise fun c c' =>
      c.digest ≠ c'.digest ∧ ¬ (c.origin = c'.origin ∧ c.round = c'.round)) ∧
    ∀ c ∈ certificates, 1 ≤ c.round ∧
      (∀ digest ∈ c.header.parents.toList,
        ∃ p ∈ known, p.digest = digest ∧ p.round + 1 = c.round) ∧
      committee.quorumThreshold.toNat ≤ committee.weights.of ((known.filter fun p =>
        decide (p.digest ∈ c.header.parents)).map Certificate.origin).toFinset

instance (committee : Committee) (certificates : List Certificate) :
    Decidable (Lists committee certificates) :=
  inferInstanceAs (Decidable (_ ∧ _))

/-- What has to be checked of the certificates received after `received`. -/
def Arrive (committee : Committee) (certificates : List Certificate) :
    List Certificate → List Certificate → Prop
  | _, [] => True
  | received, c :: rest =>
      c ∈ certificates ∧
        (∀ digest ∈ c.header.parents.toList,
          ∃ p ∈ received ++ Certificate.genesis committee, p.digest = digest) ∧
        Arrive committee certificates (received ++ [c]) rest

instance decidableArrive (committee : Committee) (certificates : List Certificate) :
    ∀ received rest, Decidable (Arrive committee certificates received rest)
  | _, [] => inferInstanceAs (Decidable True)
  | received, c :: rest =>
      have := decidableArrive committee certificates (received ++ [c]) rest
      inferInstanceAs (Decidable (_ ∧ _ ∧ _))

variable {committee : Committee} {certificates : List Certificate}

/-- A list that passes the check is a pool. -/
def ofList (certificates : List Certificate) (lists : Lists committee certificates) :
    Pool committee where
  certificates := {c | c ∈ certificates}
  round_pos c member := (lists.2 c member).1
  unique c member c' member' sameOrigin sameRound := by
    have distinct : ((certificates ++ Certificate.genesis committee).map
        fun c => (c.origin, c.round)).Nodup :=
      List.pairwise_map.mpr (lists.1.imp fun apart same => apart.2 (Prod.ext_iff.mp same))
    exact List.inj_on_of_nodup_map distinct (List.mem_append_left _ member)
      (List.mem_append_left _ member') (Prod.ext sameOrigin sameRound)
  collisionFree := by
    have distinct : ((certificates ++ Certificate.genesis committee).map
        Certificate.digest).Nodup := List.pairwise_map.mpr (lists.1.imp And.left)
    rintro _ ⟨c, known, rfl⟩ _ ⟨c', known', rfl⟩ same
    exact congrArg Certificate.hashInput (List.inj_on_of_nodup_map distinct
      (List.mem_append.mpr known) (List.mem_append.mpr known') same)
  parents c member digest isParent := by
    obtain ⟨p, known, rest⟩ := (lists.2 c member).2.1 digest isParent
    exact ⟨p, List.mem_append.mp known, rest⟩
  quorum c member := by
    refine ⟨_, (lists.2 c member).2.2, fun a isAuthor => ?_⟩
    obtain ⟨p, isParent, origin⟩ := List.mem_map.mp (List.mem_toFinset.mp isAuthor)
    obtain ⟨known, isParent⟩ := List.mem_filter.mp isParent
    exact ⟨p, List.mem_append.mp known, origin, by simpa using isParent⟩

theorem delivery_append (lists : Lists committee certificates)
    {received rest : List Certificate} (delivery : (ofList certificates lists).Delivery received)
    (arrive : Arrive committee certificates received rest) :
    (ofList certificates lists).Delivery (received ++ rest) := by
  induction rest generalizing received with
  | nil => simpa using delivery
  | cons c rest ih =>
      obtain ⟨member, parents, later⟩ := arrive
      have next : (ofList certificates lists).Delivery (received ++ [c]) := by
        refine ⟨fun x isMember => ?_, fun before x after split p parent => ?_⟩
        · rcases List.mem_append.mp isMember with old | new
          · exact delivery.mem x old
          · obtain rfl := List.mem_singleton.mp new
            exact member
        · rcases List.eq_nil_or_concat after with rfl | ⟨after, last, rfl⟩
          · -- the parents of the new certificate have been checked
            obtain ⟨rfl, same⟩ := List.append_inj' split rfl
            cases same
            obtain ⟨q, known, digest⟩ := parents _ parent.2.2
            have known' : (ofList certificates lists).Known q :=
              (List.mem_append.mp known).imp_left (delivery.mem q)
            obtain rfl := Known.eq_of_digest known' (.inl parent.2.1) digest
            refine (List.mem_append.mp known).resolve_right fun isGenesis => ?_
            have positive := (ofList certificates lists).round_pos q parent.2.1
            have zero := (Certificate.round_of_mem_genesis isGenesis).1
            omega
          · rw [List.concat_eq_append, ← List.cons_append, ← List.append_assoc] at split
            exact delivery.causal before x after (List.append_inj' split rfl).1 p parent
      simpa using ih next later

/-- A list that passes the check is an order in which a node may receive certificates. -/
theorem delivery_ofList (lists : Lists committee certificates) {delivered : List Certificate}
    (arrive : Arrive committee certificates [] delivered) :
    (ofList certificates lists).Delivery delivered :=
  delivery_append lists delivery_nil arrive

/-- The next certificate is a listed parent of the one before. -/
def Descends (certificates : List Certificate) (c p : Certificate) : Prop :=
  c ∈ certificates ∧ p ∈ certificates ∧ p.digest ∈ c.header.parents

instance (certificates : List Certificate) (c p : Certificate) :
    Decidable (Descends certificates c p) :=
  inferInstanceAs (Decidable (_ ∧ _ ∧ _))

/-- Some listed certificate has it as a parent. -/
def HasChild (certificates : List Certificate) (p : Certificate) : Prop :=
  ∃ c ∈ certificates, p.digest ∈ c.header.parents

instance (certificates : List Certificate) (p : Certificate) : Decidable (HasChild certificates p) :=
  inferInstanceAs (Decidable (∃ c ∈ certificates, _))

/-- An ancestor is listed and has a listed child. -/
theorem hasChild_of_ancestor (lists : Lists committee certificates) {c p : Certificate}
    (ancestor : (ofList certificates lists).dag.Ancestor c p) :
    p ∈ certificates ∧ HasChild certificates p := by
  obtain ⟨y, -, member, member', isParent⟩ := Relation.TransGen.tail'_iff.mp ancestor
  exact ⟨member', y, member, isParent⟩

/-- A list that descends from parent to parent leads to an ancestor. -/
theorem ancestor_ofList (lists : Lists committee certificates) {c p : Certificate}
    (path : List Certificate)
    (descends : List.IsChain (Descends certificates) (c :: path ++ [p])) :
    (ofList certificates lists).dag.Ancestor c p := by
  induction path generalizing c with
  | nil =>
      rw [List.cons_append, List.nil_append, List.isChain_pair] at descends
      exact .single descends
  | cons next path ih =>
      rw [List.cons_append, List.cons_append, List.isChain_cons_cons] at descends
      exact .head descends.1 (ih descends.2)

end Pool

/-! ## A committee with a heavy authority -/

/-- Four authorities, of which the first alone has a quorum. -/
def heavyCommittee : Committee where
  authorities := ⟨[(⟨0⟩, .ofStake 10), (⟨1⟩, .ofStake 1), (⟨2⟩, .ofStake 1), (⟨3⟩, .ofStake 1)],
    by decide⟩

/-- A node of that committee. -/
def heavyNode : Consensus where
  committee := heavyCommittee
  gcDepth := 50
  directCommitSelected := fun _ => true

/-- A node of that committee with a depth for which the sum with a round overflows from round 5 on. -/
def deepNode : Consensus := { heavyNode with gcDepth := 2 ^ 64 - 5 }

/-- The certificates of the first authority when nobody else contributes. -/
def spine : ℕ → Certificate
  | 0 => .genesisOf ⟨0⟩
  | r + 1 => .sample 0 (r + 1) [spine r]

/-- Its first certificates, enough to commit the leader of round 4. -/
def spineList : List Certificate :=
  [spine 1, spine 2, spine 3, spine 4, spine 5, spine 6, spine 7]

/-- More of them. -/
def spineTo (n : ℕ) : List Certificate := (List.range n).map fun i => spine (i + 1)

/-! ## A slow author

The first authority commits its certificates of rounds 4, 8 and 12. Its certificate of round 8 has
a branch of the fourth authority as a parent, and that of round 9 a branch of the third. -/

/-- The certificates of the first, third and fourth authority at a round. -/
def ladder : ℕ → Certificate × Certificate × Certificate
  | 0 => (.genesisOf ⟨0⟩, .genesisOf ⟨2⟩, .genesisOf ⟨3⟩)
  | 1 => (.sample 0 1 [.genesisOf ⟨0⟩], .sample 2 1 [.genesisOf ⟨0⟩], .genesisOf ⟨3⟩)
  | r + 2 =>
      let (quick, other, slow) := ladder (r + 1)
      let (quick', other', _) := ladder r
      let joined := if r = 2 then [.sample 1 3 [quick']] else if r = 6 then [slow]
        else if r = 7 then [other] else []
      (.sample 0 (r + 2) (quick :: joined), .sample 2 (r + 2) [quick, other],
        .sample 3 (r + 2) (quick :: if r = 1 then [.sample 1 2 [quick', other']] else [slow]))

def quick (r : ℕ) : Certificate := (ladder r).1

def other (r : ℕ) : Certificate := (ladder r).2.1

def slow (r : ℕ) : Certificate := (ladder r).2.2

/-- The certificate of the second authority that only the branch of the fourth has as parent. -/
def passed : Certificate := .sample 1 2 [quick 1, other 1]

/-- The next certificate of the second authority, which the first authority has as parent. -/
def passing : Certificate := .sample 1 3 [quick 2]

/-- What both orders have after the commit of round 4. -/
def ladderRest : List Certificate :=
  [slow 3, slow 4, slow 5, slow 6, slow 7, other 2, other 3, other 4, other 5, other 6, other 7,
    other 8, quick 8, quick 9, quick 10, quick 11]

/-- The passed certificate is received before the commit of round 4. -/
def passedEarly : List Certificate :=
  [quick 1, other 1, passed, quick 2, passing, quick 3, quick 4, quick 5, quick 6, quick 7] ++
    ladderRest

/-- The passed certificate is received after the commit of round 4. -/
def passedLate : List Certificate :=
  [quick 1, quick 2, passing, quick 3, quick 4, quick 5, quick 6, quick 7, other 1, passed] ++
    ladderRest

/-! ## Two leaders

The first authority commits its certificates of rounds 4 and 8. The second authority has two that the first
has as parents, at rounds 3 and 5, and one of round 1 that nobody has as parent. -/

/-- A certificate of round 1 that no other certificate has as parent. -/
def stray : Certificate := .sample 1 1 [.genesisOf ⟨0⟩]

/-- The leader of round 4, with a certificate of the second authority as a second parent. -/
def fork : Certificate := .sample 0 4 [spine 3, passing]

/-- A certificate of the second authority beside round 5. -/
def side : Certificate := .sample 1 5 [fork]

/-- The first authority from round 6 on. -/
def trunk : ℕ → Certificate
  | 0 => .sample 0 6 [.sample 0 5 [fork], side]
  | n + 1 => .sample 0 (n + 7) [trunk n]

/-- What is received up to the commit of round 4. -/
def untilFork : List Certificate :=
  [spine 1, spine 2, passing, spine 3, fork, .sample 0 5 [fork], side, trunk 0, trunk 1]

/-- What is received until the commit of round 8. -/
def untilTrunk : List Certificate := [trunk 2, trunk 3, trunk 4, trunk 5]

/-- The stray certificate comes first, and is cleaned up with the commit of round 4. -/
def strayEarly : List Certificate := stray :: (untilFork ++ untilTrunk)

/-- The stray certificate comes after the commit of round 4, and stays in the dag. -/
def strayLate : List Certificate := untilFork ++ stray :: untilTrunk

end Tusk
