import Tusk.Consensus.Run

/-!
# Dags whose certificates are in their place

Both searches in the dag, through the parents (`orderDag`) and from round to round (`linked`), look
certificates up by their digest. When every certificate is filed under its own round, with its own
digest, and no two digests are equal, a lookup finds the one certificate there is, and what the
searches compute is described by steps between certificates. Nothing is assumed of how the dag came
about.
-/

set_option autoImplicit false

namespace Tusk.Consensus

open Lib

section Filing

variable [Primitives]

/-- The dag has a certificate at a round. -/
def Dag.Holds (dag : Dag) (round : ℕ) (c : Certificate) : Prop :=
  ∃ n, dag.entry round n = some (c.digest, c)

/-- The certificates are filed under their own round, with digests of their own. -/
structure Dag.RoundFiled (dag : Dag) : Prop where
  digest : ∀ {r n e}, dag.entry r n = some e → e.1 = e.2.digest
  round : ∀ {r n e}, dag.entry r n = some e → e.2.round = r
  distinct : ∀ {r n e r' n' e'}, dag.entry r n = some e → dag.entry r' n' = some e' →
    e.1 = e'.1 → e.2 = e'.2

/-- A certificate of round 0 has no parents. -/
def Rooted (c : Certificate) : Prop := c.round = 0 → c.header.parents = ∅

/-- The certificates are filed under their own round and author, with digests of their own, and
those of round 0 have no parents. -/
structure Dag.Filed (dag : Dag) : Prop extends Dag.RoundFiled dag where
  origin : ∀ {r n e}, dag.entry r n = some e → e.2.origin = n
  rooted : ∀ {r n e}, dag.entry r n = some e → Rooted e.2

namespace Dag.RoundFiled

variable {dag : Dag} (filed : dag.RoundFiled)

include filed

theorem eq_mk {r : ℕ} {n : PublicKey} {e : Digest × Certificate} (found : dag.entry r n = some e) :
    e = (e.2.digest, e.2) := Prod.ext (filed.digest found) rfl

theorem holds {r : ℕ} {n : PublicKey} {e : Digest × Certificate} (found : dag.entry r n = some e) :
    dag.Holds r e.2 := ⟨n, found.trans (congrArg some (filed.eq_mk found))⟩

theorem round_eq {r : ℕ} {c : Certificate} (held : dag.Holds r c) : c.round = r := by
  obtain ⟨n, found⟩ := held
  exact filed.round found

/-- A digest is that of one certificate. -/
theorem eq_of_digest {r r' : ℕ} {c c' : Certificate} (held : dag.Holds r c)
    (held' : dag.Holds r' c') (same : c.digest = c'.digest) : c = c' := by
  obtain ⟨n, found⟩ := held
  obtain ⟨n', found'⟩ := held'
  exact filed.distinct found found' same

/-- Two certificates of the dag that the source takes for equal are the same. -/
theorem eq_of_partialEq {r r' : ℕ} {c c' : Certificate} (held : dag.Holds r c)
    (held' : dag.Holds r' c') (same : c.partialEq c' = true) : c = c' := by
  obtain ⟨id, round, origin⟩ := Certificate.partialEq_iff.mp same
  refine filed.eq_of_digest held held' ?_
  simp only [Certificate.digest, Certificate.hashInput, id, round, origin]

end Dag.RoundFiled

/-! ## Filing a certificate -/

theorem Dag.not_holds_empty (r : ℕ) (c : Certificate) : ¬ Dag.Holds ∅ r c := by
  rintro ⟨n, found⟩
  simp [Dag.entry] at found

theorem Dag.filed_empty : Dag.Filed ∅ := by
  have none : ∀ {r n e}, Dag.entry ∅ r n ≠ some e := by
    intro r n e found
    simp [Dag.entry] at found
  exact ⟨⟨fun found => absurd found none, fun found => absurd found none,
    fun found => absurd found none⟩, fun found => absurd found none, fun found => absurd found none⟩

theorem Dag.holds_insert {dag : Dag} {c x : Certificate} {r : ℕ} (held : (dag.insert c).Holds r x) :
    x = c ∨ dag.Holds r x := by
  obtain ⟨n, found⟩ := held
  rw [entry_insert] at found
  split_ifs at found
  · exact .inl (Prod.ext_iff.mp (Option.some.inj found)).2.symm
  · exact .inr ⟨n, found⟩

/-- A certificate with a digest of its own is filed by inserting it. -/
theorem Dag.Filed.insert {dag : Dag} (filed : dag.Filed) {c : Certificate} (rooted : Rooted c)
    (own : ∀ r x, dag.Holds r x → x.digest = c.digest → x = c) : (dag.insert c).Filed := by
  have entry : ∀ {r n e}, (dag.insert c).entry r n = some e →
      e = (c.digest, c) ∧ r = c.round ∧ n = c.origin ∨ dag.entry r n = some e := by
    intro r n e found
    rw [entry_insert] at found
    split_ifs at found with here
    · cases found
      exact .inl ⟨rfl, here⟩
    · exact .inr found
  refine ⟨⟨fun found => ?_, fun found => ?_, fun found found' same => ?_⟩, fun found => ?_,
    fun found => ?_⟩
  · rcases entry found with ⟨rfl, -⟩ | old
    · rfl
    · exact filed.digest old
  · rcases entry found with ⟨rfl, rfl, -⟩ | old
    · rfl
    · exact filed.round old
  · rcases entry found with ⟨rfl, -⟩ | old
    · rcases entry found' with ⟨rfl, -⟩ | old'
      · rfl
      · exact (own _ _ (filed.holds old') ((filed.digest old').symm.trans same.symm)).symm
    · rcases entry found' with ⟨rfl, -⟩ | old'
      · exact own _ _ (filed.holds old) ((filed.digest old).symm.trans same)
      · exact filed.distinct old old' same
  · rcases entry found with ⟨rfl, -, rfl⟩ | old
    · rfl
    · exact filed.origin old
  · rcases entry found with ⟨rfl, -⟩ | old
    · exact rooted
    · exact filed.rooted old

/-! ## Lookups -/

/-- What is in the map of a round. -/
theorem Dag.RoundFiled.mem_values_iff {dag : Dag} (filed : dag.RoundFiled) {r : ℕ}
    {authorities : HashMap PublicKey (Digest × Certificate)}
    (atRound : HashMap.get dag r = some authorities) {e : Digest × Certificate} :
    e ∈ HashMap.values authorities ↔ ∃ c, e = (c.digest, c) ∧ dag.Holds r c := by
  rw [HashMap.mem_values]
  constructor
  · rintro ⟨n, atName⟩
    have found : dag.entry r n = some e :=
      Option.bind_eq_some_iff.mpr ⟨authorities, atRound, atName⟩
    exact ⟨e.2, filed.eq_mk found, filed.holds found⟩
  · rintro ⟨c, rfl, n, found⟩
    obtain ⟨authorities', atRound', atName⟩ := Option.bind_eq_some_iff.mp found
    rw [atRound] at atRound'
    cases atRound'
    exact ⟨n, atName⟩

/-- The lookup by digest, in a round of the dag. -/
theorem Dag.RoundFiled.find?_eq_some_iff {dag : Dag} (filed : dag.RoundFiled) {r : ℕ}
    {parent : Digest} {e : Digest × Certificate} :
    ((HashMap.get dag r).bind fun authorities =>
        authorities.values.find? fun entry => decide (entry.1 = parent)) = some e ↔
      ∃ c, e = (c.digest, c) ∧ c.digest = parent ∧ dag.Holds r c := by
  rw [Option.bind_eq_some_iff]
  constructor
  · rintro ⟨authorities, atRound, isFirst⟩
    obtain ⟨c, rfl, held⟩ :=
      (filed.mem_values_iff atRound).mp (List.mem_of_find?_eq_some isFirst)
    exact ⟨c, rfl, by simpa using List.find?_some isFirst, held⟩
  · rintro ⟨c, rfl, rfl, n, found⟩
    obtain ⟨authorities, atRound, -⟩ := Option.bind_eq_some_iff.mp found
    have present : ∃ e ∈ HashMap.values authorities, decide (e.1 = c.digest) = true :=
      ⟨_, (filed.mem_values_iff atRound).mpr ⟨c, rfl, n, found⟩, by simp⟩
    obtain ⟨e, isFirst⟩ := Option.isSome_iff_exists.mp (List.find?_isSome.mpr present)
    obtain ⟨c', rfl, n', found'⟩ :=
      (filed.mem_values_iff atRound).mp (List.mem_of_find?_eq_some isFirst)
    have digest : c'.digest = c.digest := by simpa using List.find?_some isFirst
    have same : (c'.digest, c') = (c.digest, c) :=
      Prod.ext digest (filed.distinct found' found digest)
    exact ⟨authorities, atRound, same ▸ isFirst⟩

end Filing

/-! ## Depth first through the parents -/

section Search

/-- The certificates that `orderDag` finds are in the dag. -/
theorem mem_certificates {dag : Dag} {r : ℕ} {n : PublicKey} {e : Digest × Certificate}
    (found : dag.entry r n = some e) : e ∈ dag.certificates := by
  obtain ⟨authorities, atRound, atName⟩ := Option.bind_eq_some_iff.mp found
  exact List.mem_flatMap.mpr
    ⟨authorities, HashMap.mem_values.mpr ⟨r, atRound⟩, HashMap.mem_values.mpr ⟨n, atName⟩⟩

/-- The search finds entries of the dag. -/
theorem entry_of_parentToOrder {state : State} {x : Certificate} {parent : Digest} {e : Digest × Certificate}
    (found : state.parentToOrder x parent = some e) :
    e.1 = parent ∧ HashMap.get state.lastCommitted e.2.origin ≠ some e.2.round ∧
      ∃ n, state.dag.entry (precedingRound x.round) n = some e := by
  obtain ⟨found, notLast⟩ := Option.filter_eq_some_iff.mp found
  obtain ⟨authorities, atRound, isFirst⟩ := Option.bind_eq_some_iff.mp found
  have digest := List.find?_some isFirst
  obtain ⟨n, atName⟩ := HashMap.mem_values.mp (List.mem_of_find?_eq_some isFirst)
  exact ⟨of_decide_eq_true digest, of_decide_eq_true notLast, n,
    Option.bind_eq_some_iff.mpr ⟨authorities, atRound, atName⟩⟩

theorem entry_of_mem_parentsToOrder {state : State} {x : Certificate} {e : Digest × Certificate}
    (member : e ∈ state.parentsToOrder x) :
    ∃ n, state.dag.entry (precedingRound x.round) n = some e := by
  obtain ⟨parent, -, found⟩ := List.mem_filterMap.mp member
  exact (entry_of_parentToOrder found).2.2

variable [Primitives]

/-- The search finishes. -/
theorem exists_search (state : State) (x : Certificate) :
    ∃ out, Worklist.search Prod.fst (fun e : Digest × Certificate => state.parentsToOrder e.2)
      (state.dag.certificates.length + 1) [(x.digest, x)] [] = some out := by
  have known : ∀ e : Digest × Certificate, ∀ a ∈ state.parentsToOrder e.2,
      a.1 ∈ (state.dag.certificates.map Prod.fst).toFinset := by
    intro e a isFound
    obtain ⟨n, found⟩ := entry_of_mem_parentsToOrder isFound
    exact List.mem_toFinset.mpr (List.mem_map_of_mem (mem_certificates found))
  refine Worklist.search_total known ?_
  have card := (state.dag.certificates.map Prod.fst).toFinset_card_le
  simp only [List.length_map] at card
  simp only [List.length_cons, List.length_nil, List.toFinset_nil, Finset.sdiff_empty]
  omega

/-- `orderDag` goes from a certificate to its parents in the round below, unless one is the last
committed certificate of its author. -/
def StepsTo (state : State) (x p : Certificate) : Prop :=
  p.digest ∈ x.header.parents ∧ state.dag.Holds (x.round - 1) p ∧
    HashMap.get state.lastCommitted p.origin ≠ some p.round

variable {state : State} {x y : Certificate}

/-- The search finds the certificates it may step to. -/
theorem Dag.RoundFiled.parentToOrder_eq_some_iff (filed : state.dag.RoundFiled)
    (positive : x.round ≠ 0) {parent : Digest} (isParent : parent ∈ x.header.parents)
    {e : Digest × Certificate} :
    state.parentToOrder x parent = some e ↔
      ∃ p, e = (p.digest, p) ∧ p.digest = parent ∧ StepsTo state x p := by
  have preceding : precedingRound x.round = x.round - 1 := if_neg positive
  simp only [State.parentToOrder, preceding, Option.filter_eq_some_iff, filed.find?_eq_some_iff,
    decide_eq_true_eq]
  constructor
  · rintro ⟨⟨p, rfl, rfl, held⟩, notLast⟩
    exact ⟨p, rfl, rfl, isParent, held, notLast⟩
  · rintro ⟨p, rfl, rfl, -, held, notLast⟩
    exact ⟨⟨p, rfl, rfl, held⟩, notLast⟩

theorem Dag.RoundFiled.mem_parentsToOrder_iff (filed : state.dag.RoundFiled) (rooted : Rooted x)
    {e : Digest × Certificate} :
    e ∈ state.parentsToOrder x ↔ ∃ p, e = (p.digest, p) ∧ StepsTo state x p := by
  by_cases zero : x.round = 0
  · -- there is nothing to search below round 0
    have none : x.header.parents.toList = [] := by rw [rooted zero]; rfl
    have absent : ∀ p : Certificate, p.digest ∉ x.header.parents := fun p isParent => by
      rw [rooted zero] at isParent
      cases isParent
    simp [State.parentsToOrder, StepsTo, none, absent]
  rw [State.parentsToOrder, List.mem_filterMap]
  constructor
  · rintro ⟨parent, isParent, found⟩
    obtain ⟨p, isEntry, -, steps⟩ := (filed.parentToOrder_eq_some_iff zero isParent).mp found
    exact ⟨p, isEntry, steps⟩
  · rintro ⟨p, isEntry, steps⟩
    exact ⟨p.digest, steps.1,
      (filed.parentToOrder_eq_some_iff zero steps.1).mpr ⟨p, isEntry, rfl, steps⟩⟩

theorem StepsTo.rooted (filed : state.dag.Filed) (steps : StepsTo state x y) : Rooted y := by
  obtain ⟨-, ⟨n, found⟩, -⟩ := steps
  exact filed.rooted found

/-- A step goes down by one round. -/
theorem StepsTo.round (filed : state.dag.Filed) (rooted : Rooted x) (steps : StepsTo state x y) :
    y.round + 1 = x.round := by
  have positive : x.round ≠ 0 := by
    intro zero
    have isParent := steps.1
    rw [rooted zero] at isParent
    cases isParent
  have below := filed.round_eq steps.2.1
  omega

/-- `orderDag` gets from one certificate to another, in any number of steps. -/
def StepsDown (state : State) : Certificate → Certificate → Prop :=
  Relation.ReflTransGen (StepsTo state)

theorem StepsDown.rooted (filed : state.dag.Filed) (rooted : Rooted x) (down : StepsDown state x y) :
    Rooted y := by
  rcases Relation.ReflTransGen.cases_tail down with rfl | ⟨z, -, steps⟩
  · exact rooted
  · exact steps.rooted filed

/-- Everything below a certificate is of a lower round. -/
theorem StepsDown.eq_or_round_lt (filed : state.dag.Filed) (rooted : Rooted x)
    (down : StepsDown state x y) : y = x ∨ y.round < x.round := by
  induction down with
  | refl => exact .inl rfl
  | tail before steps ih =>
      have below := steps.round filed (StepsDown.rooted filed rooted before)
      rcases ih with rfl | lower
      · exact .inr (by omega)
      · exact .inr (by omega)

/-- What the search reaches. -/
theorem Dag.Filed.reach_iff (filed : state.dag.Filed) (rooted : Rooted x)
    {e : Digest × Certificate} :
    Worklist.Reach (fun e : Digest × Certificate => state.parentsToOrder e.2) (x.digest, x) e ↔
      ∃ y, e = (y.digest, y) ∧ StepsDown state x y := by
  constructor
  · intro reach
    induction reach with
    | refl => exact ⟨x, rfl, .refl⟩
    | tail _ step ih =>
        obtain ⟨y, rfl, down⟩ := ih
        obtain ⟨z, rfl, steps⟩ := (filed.mem_parentsToOrder_iff (down.rooted filed rooted)).mp step
        exact ⟨z, rfl, down.tail steps⟩
  · rintro ⟨y, rfl, down⟩
    induction down with
    | refl => exact .refl
    | tail before steps ih =>
        have isRooted := StepsDown.rooted filed rooted before
        exact ih.tail ((filed.mem_parentsToOrder_iff isRooted).mpr ⟨_, rfl, steps⟩)

/-- The keys of the search determine its nodes. -/
theorem Dag.RoundFiled.determined (filed : state.dag.RoundFiled) (x y a b : Digest × Certificate)
    (ha : a ∈ state.parentsToOrder x.2) (hb : b ∈ state.parentsToOrder y.2) (same : a.1 = b.1) :
    a = b := by
  obtain ⟨n, found⟩ := entry_of_mem_parentsToOrder ha
  obtain ⟨n', found'⟩ := entry_of_mem_parentsToOrder hb
  exact Prod.ext same (filed.distinct found found' same)

/-- **What `orderDag` returns**: the certificates below the leader that are within the depth, each
once and in the order of their rounds. -/
theorem Dag.Filed.orderDag_spec (node : Consensus) (filed : state.dag.Filed) {leader : Certificate}
    (rooted : Rooted leader)
    (own : ∀ r p, state.dag.Holds r p → p.digest = leader.digest → p = leader) :
    ∃ ordered, node.orderDag leader state = some ordered ∧
      (∀ x, x ∈ ordered ↔
        StepsDown state leader x ∧ state.lastCommittedRound ≤ horizon node.gcDepth x.round) ∧
      ordered.Nodup ∧ ordered.Pairwise fun x y => x.round ≤ y.round := by
  obtain ⟨out, searched⟩ := exists_search state leader
  have run := Worklist.runs_of_search searched
  have mem_iff : ∀ x, x ∈ out.map Prod.snd ↔ StepsDown state leader x := by
    intro x
    simp only [List.mem_map, run.mem_iff filed.determined, filed.reach_iff rooted]
    constructor
    · rintro ⟨e, ⟨y, rfl, down⟩, rfl⟩
      exact down
    · intro down
      exact ⟨_, ⟨x, rfl, down⟩, rfl⟩
  have nodup : (out.map Prod.snd).Nodup := by
    have keys : (out.map Prod.fst).Nodup := by
      refine run.nodup fun e reach a step same => ?_
      obtain ⟨y, rfl, down⟩ := (filed.reach_iff rooted).mp reach
      obtain ⟨z, rfl, steps⟩ := (filed.mem_parentsToOrder_iff (down.rooted filed rooted)).mp step
      obtain rfl := own _ z steps.2.1 same
      have below := steps.round filed (down.rooted filed rooted)
      rcases down.eq_or_round_lt filed rooted with rfl | lower
      · omega
      · omega
    have digests : (out.map Prod.snd).map Certificate.digest = out.map Prod.fst := by
      rw [List.map_map]
      refine List.map_congr_left fun e isOut => ?_
      obtain ⟨y, rfl, -⟩ := (filed.reach_iff rooted).mp ((run.mem_iff filed.determined).mp isOut)
      rfl
    exact .of_map Certificate.digest (digests ▸ keys)
  refine ⟨node.arrange state (out.map Prod.snd), ?_, fun x => ?_, ?_, ?_⟩
  · simp only [orderDag, searched]
    rfl
  · rw [arrange, List.mem_insertionSort, List.mem_filter, mem_iff, decide_eq_true_eq]
  · exact (List.perm_insertionSort _ _).nodup_iff.mpr (nodup.filter _)
  · have : Std.Total fun x y : Certificate => x.round ≤ y.round := ⟨fun x y => le_total _ _⟩
    have : IsTrans Certificate fun x y => x.round ≤ y.round := ⟨fun x y z => le_trans⟩
    exact List.pairwise_insertionSort _ _

end Search

/-! ## Round by round through the parents -/

section Levels

variable [Primitives]

/-- A certificate of the dag in the round below is a parent of a certificate. -/
def Links (dag : Dag) (x p : Certificate) : Prop :=
  p.digest ∈ x.header.parents ∧ dag.Holds p.round p ∧ p.round + 1 = x.round

/-- A chain of certificates of the dag, one per round, each a parent of the one before. -/
def Chained (dag : Dag) : Certificate → Certificate → Prop := Relation.ReflTransGen (Links dag)

variable {dag : Dag} {x y leader : Certificate}

/-- A chain that is not empty ends in a lower round. -/
theorem Chained.eq_or_round_lt (chained : Chained dag x y) : y = x ∨ y.round < x.round := by
  induction chained with
  | refl => exact .inl rfl
  | tail _ links ih =>
      have below := links.2.2
      rcases ih with rfl | lower
      · exact .inr (by omega)
      · exact .inr (by omega)

/-- What a chain ends in is in the dag, below its start. -/
theorem Chained.holds (chained : Chained dag x y) (lower : y.round < x.round) :
    dag.Holds y.round y := by
  rcases Relation.ReflTransGen.cases_tail chained with rfl | ⟨z, -, links⟩
  · exact absurd lower (lt_irrefl _)
  · exact links.2.1

/-- The parents found in a round that is not empty. -/
theorem Dag.RoundFiled.parentsAt_spec (filed : dag.RoundFiled) {r : ℕ}
    (present : HashMap.get dag r ≠ none) (parents : List Certificate) :
    ∃ next, parentsAt dag parents r = some next ∧
      ∀ c, c ∈ next ↔ dag.Holds r c ∧ ∃ x ∈ parents, c.digest ∈ x.header.parents := by
  obtain ⟨authorities, atRound⟩ := Option.ne_none_iff_exists'.mp present
  refine ⟨_, by rw [parentsAt, atRound]; rfl, fun c => ?_⟩
  simp only [List.mem_map, List.mem_filter, List.any_eq_true, decide_eq_true_eq,
    filed.mem_values_iff atRound]
  constructor
  · rintro ⟨_, ⟨⟨c, rfl, held⟩, x, isOne, isParent⟩, rfl⟩
    exact ⟨held, x, isOne, isParent⟩
  · rintro ⟨held, x, isOne, isParent⟩
    exact ⟨(c.digest, c), ⟨⟨c, rfl, held⟩, x, isOne, isParent⟩, rfl⟩

/-- From the certificates that a leader is chained to at one round `linked` gets to those at a
lower round. -/
theorem Dag.RoundFiled.foldlM_parentsAt (filed : dag.RoundFiled) {r n : ℕ}
    {parents : List Certificate} (low : r + n ≤ leader.round)
    (level : ∀ c, c ∈ parents ↔ Chained dag leader c ∧ c.round = r + n)
    (present : ∀ q, r ≤ q → q < leader.round → HashMap.get dag q ≠ none) :
    ∃ last, (List.range' r n).reverse.foldlM (parentsAt dag) parents = some last ∧
      ∀ c, c ∈ last ↔ Chained dag leader c ∧ c.round = r := by
  induction n generalizing parents with
  | zero => exact ⟨parents, rfl, level⟩
  | succ n ih =>
      obtain ⟨next, computed, mem_next⟩ :=
        filed.parentsAt_spec (present (r + n) (by omega) (by omega)) parents
      have level' : ∀ c, c ∈ next ↔ Chained dag leader c ∧ c.round = r + n := by
        intro c
        rw [mem_next]
        constructor
        · rintro ⟨held, x, isOne, isParent⟩
          obtain ⟨chained, round⟩ := (level x).mp isOne
          have below := filed.round_eq held
          exact ⟨chained.tail ⟨isParent, below.symm ▸ held, by omega⟩, below⟩
        · rintro ⟨chained, round⟩
          rcases Relation.ReflTransGen.cases_tail chained with rfl | ⟨x, before, links⟩
          · -- the leader itself is above this level
            omega
          · obtain ⟨isParent, held, below⟩ := links
            exact ⟨round ▸ held, x, (level x).mpr ⟨before, by omega⟩, isParent⟩
      obtain ⟨last, rest, isLast⟩ := ih (by omega) level'
      refine ⟨last, ?_, isLast⟩
      rw [List.range'_1_concat, List.reverse_append, List.reverse_singleton,
        List.singleton_append, List.foldlM_cons, computed]
      exact rest

end Levels

end Tusk.Consensus
