import Mathlib.Data.List.Infix
import Mathlib.Logic.Relation
import Tusk.Lib.Quorums

/-!
# Dags in rounds and their anchors

A dag in rounds has at most one node for each author and round, and parents are in the round just
below. Its authors carry weights. The dag is quorate when a node above the first round has parents
by authors of quorum weight. A node is supported when nodes of the next round by authors of valid
weight have it as parent. In a quorate dag every node two rounds above a supported node, or
higher, reaches it (`Supported.reaches`).

Some nodes are anchors, at most one a round. The chain of a node walks down the rounds and keeps
an anchor when the last one kept reaches it (`chain`). The chain of an anchor passes through every
supported anchor below (`chain_split`), so the histories of supported anchors are prefixes of one
another (`history_prefix`).
-/

set_option autoImplicit false

namespace Tusk.Lib

universe u v

/-- A dag whose nodes have an author and a round. -/
structure RoundDag (α : Type u) (β : Type v) where
  nodes : Set α
  round : α → ℕ
  author : α → β
  parents : α → Set α
  unique : ∀ x ∈ nodes, ∀ y ∈ nodes, author x = author y → round x = round y → x = y
  round_parent : ∀ x ∈ nodes, ∀ p ∈ nodes, p ∈ parents x → round p + 1 = round x

namespace RoundDag

variable {α : Type u} {β : Type v} (G : RoundDag α β) (W : Weights β)

/-- One node is a parent of another. -/
def Parent (x p : α) : Prop := x ∈ G.nodes ∧ p ∈ G.nodes ∧ p ∈ G.parents x

/-- One node is an ancestor of another, or the same. -/
def Reaches : α → α → Prop := Relation.ReflTransGen G.Parent

/-- One node is an ancestor of another. -/
def Ancestor : α → α → Prop := Relation.TransGen G.Parent

/-- Nodes above the first round have parents by authors of quorum weight. -/
def Quorate : Prop :=
  ∀ x ∈ G.nodes, 1 < G.round x → ∃ s : Finset β, W.quorum ≤ W.of s ∧
    ∀ a ∈ s, ∃ p ∈ G.nodes, p ∈ G.parents x ∧ G.author p = a

/-- Nodes above the first round have a parent. -/
def Grounded : Prop := ∀ x ∈ G.nodes, 1 < G.round x → ∃ p, G.Parent x p

/-- Nodes of the next round, of valid weight, have the node as parent. -/
def Supported (w : α) : Prop :=
  ∃ s : Finset β, W.validity ≤ W.of s ∧
    ∀ a ∈ s, ∃ x ∈ G.nodes, G.author x = a ∧ G.round x = G.round w + 1 ∧ w ∈ G.parents x

variable {G W}

/-! ## Paths -/

theorem Parent.round {x p : α} (parent : G.Parent x p) : G.round p + 1 = G.round x :=
  G.round_parent x parent.1 p parent.2.1 parent.2.2

theorem Reaches.mem {x y : α} (reaches : G.Reaches x y) (mem : x ∈ G.nodes) : y ∈ G.nodes := by
  induction reaches with
  | refl => exact mem
  | tail _ parent _ => exact parent.2.1

/-- Going down one step costs one round. -/
theorem Reaches.round_le {x y : α} (reaches : G.Reaches x y) : G.round y ≤ G.round x := by
  induction reaches with
  | refl => exact le_rfl
  | tail _ parent ih =>
      have := parent.round
      omega

theorem Ancestor.reaches {x y : α} (ancestor : G.Ancestor x y) : G.Reaches x y :=
  ancestor.to_reflTransGen

theorem Ancestor.mem {x y : α} (ancestor : G.Ancestor x y) : y ∈ G.nodes := by
  cases ancestor with
  | single parent => exact parent.2.1
  | tail _ parent => exact parent.2.1

theorem Ancestor.round_lt {x y : α} (ancestor : G.Ancestor x y) : G.round y < G.round x := by
  obtain ⟨p, reaches, parent⟩ := Relation.TransGen.tail'_iff.mp ancestor
  have above := Reaches.round_le reaches
  have step := parent.round
  omega

/-- A node reaches no other node of its round. -/
theorem Reaches.eq_of_round_le {x y : α} (reaches : G.Reaches x y)
    (high : G.round x ≤ G.round y) : x = y := by
  rcases Relation.ReflTransGen.cases_tail reaches with same | ⟨p, before, parent⟩
  · exact same.symm
  · have above := Reaches.round_le before
    have step := parent.round
    omega

theorem reaches_iff {x y : α} : G.Reaches x y ↔ x = y ∨ G.Ancestor x y := by
  rw [Reaches, Relation.reflTransGen_iff_eq_or_transGen]
  exact or_congr_left eq_comm

theorem Quorate.grounded [DecidableEq β] (quorate : G.Quorate W) : G.Grounded := by
  intro x mem high
  obtain ⟨s, heavy, present⟩ := quorate x mem high
  have positive : 0 < W.of s := by
    unfold Weights.quorum at heavy
    omega
  obtain ⟨a, member, -⟩ := W.exists_weight_pos positive
  obtain ⟨p, isNode, isParent, -⟩ := present a member
  exact ⟨p, mem, isNode, isParent⟩

/-- **Every node two rounds above a supported node, or higher, reaches it.** -/
theorem Supported.reaches [DecidableEq β] (quorate : G.Quorate W) {w : α}
    (supported : G.Supported W w) (mem : w ∈ G.nodes) (positive : 1 ≤ G.round w) {x : α}
    (node : x ∈ G.nodes) (high : G.round w + 2 ≤ G.round x) : G.Reaches x w := by
  obtain ⟨distance, apart⟩ : ∃ n, G.round x = G.round w + 2 + n :=
    ⟨_, (Nat.add_sub_of_le high).symm⟩
  induction distance generalizing x with
  | zero =>
      -- the parents of the node meet the supporters
      obtain ⟨parents, heavy, present⟩ := quorate x node (by omega)
      obtain ⟨supporters, valid, support⟩ := supported
      obtain ⟨a, isParent, supports, -⟩ := W.quorum_meets_valid heavy valid
      obtain ⟨p, pNode, pParent, pAuthor⟩ := present a isParent
      obtain ⟨q, qNode, qAuthor, qRound, qParent⟩ := support a supports
      have pRound := G.round_parent x node p pNode pParent
      obtain rfl := G.unique p pNode q qNode (pAuthor.trans qAuthor.symm) (by omega)
      exact .head ⟨node, pNode, pParent⟩ (.single ⟨qNode, mem, qParent⟩)
  | succ distance ih =>
      obtain ⟨p, parent⟩ := quorate.grounded x node (by omega)
      have below := parent.round
      exact .head parent (ih parent.2.1 (by omega) (by omega))

/-! ## Chains of anchors -/

section Chain

variable (G) (anchor : ℕ → Option α)

open Classical in
/-- Walk down the rounds and keep an anchor when the last one kept reaches it. -/
noncomputable def chain : List ℕ → α → List α
  | [], _ => []
  | r :: rounds, x =>
      match anchor r with
      | none => chain rounds x
      | some a => if G.Reaches x a then a :: chain rounds a else chain rounds x

/-- The rounds `low + 2 * n`, down to `low + 2`. -/
def everySecond (low : ℕ) : ℕ → List ℕ
  | 0 => []
  | n + 1 => (low + 2 * (n + 1)) :: everySecond low n

/-- The anchors that an anchor of round `2 * (n + 1)` commits, oldest first. -/
noncomputable def history (n : ℕ) (x : α) : List α :=
  (x :: G.chain anchor (everySecond 0 n) x).reverse

variable {G anchor}

theorem mem_everySecond {low n r : ℕ} :
    r ∈ everySecond low n ↔ ∃ i, 0 < i ∧ i ≤ n ∧ r = low + 2 * i := by
  induction n with
  | zero =>
      simp only [everySecond, List.not_mem_nil, false_iff, not_exists]
      omega
  | succ n ih =>
      rw [everySecond, List.mem_cons, ih]
      constructor
      · rintro (rfl | ⟨i, positive, bound, rfl⟩)
        · exact ⟨n + 1, by omega, le_rfl, rfl⟩
        · exact ⟨i, positive, by omega, rfl⟩
      · rintro ⟨i, positive, bound, rfl⟩
        rcases Nat.lt_or_ge n i with last | before
        · obtain rfl : i = n + 1 := by omega
          exact .inl rfl
        · exact .inr ⟨i, positive, before, rfl⟩

/-- The rounds down to the bottom pass through each of them. -/
theorem everySecond_split (n k : ℕ) :
    everySecond 0 (n + 1 + k) = everySecond (2 * (n + 1)) k ++ 2 * (n + 1) :: everySecond 0 n := by
  induction k with
  | zero => simp [everySecond]
  | succ k ih =>
      rw [← Nat.add_assoc, everySecond, ih, everySecond, List.cons_append]
      congr 1
      omega

/-- A chain passes through an anchor that the start and every anchor above reach. -/
theorem chain_split (above below : List ℕ) {x w : α} {r : ℕ} (isAnchor : anchor r = some w)
    (reaches : G.Reaches x w)
    (allReach : ∀ r ∈ above, ∀ a, anchor r = some a → G.Reaches a w) :
    G.chain anchor (above ++ r :: below) x =
      G.chain anchor above x ++ w :: G.chain anchor below w := by
  induction above generalizing x with
  | nil => simp [chain, isAnchor, reaches]
  | cons q above ih =>
      have rest : ∀ r ∈ above, ∀ a, anchor r = some a → G.Reaches a w :=
        fun r member => allReach r (.tail _ member)
      rw [List.cons_append, chain, chain]
      cases found : anchor q with
      | none => exact ih reaches rest
      | some a =>
          dsimp only
          split_ifs with linked
          · rw [ih (allReach q List.mem_cons_self a found) rest, List.cons_append]
          · exact ih reaches rest

variable [DecidableEq β]

/-- Above a supported anchor the history continues its history. -/
theorem history_eq_append (quorate : G.Quorate W)
    (anchored : ∀ r a, anchor r = some a → a ∈ G.nodes ∧ G.round a = r) {n k : ℕ} {w x : α}
    (isAnchor : anchor (2 * (n + 1)) = some w) (supported : G.Supported W w)
    (node : x ∈ G.nodes) (round : G.round x = 2 * (n + 1 + k + 1)) :
    G.history anchor (n + 1 + k) x =
      G.history anchor n w ++ (x :: G.chain anchor (everySecond (2 * (n + 1)) k) x).reverse := by
  obtain ⟨mem, wRound⟩ := anchored _ _ isAnchor
  have reaches : ∀ y ∈ G.nodes, 2 * (n + 1) + 2 ≤ G.round y → G.Reaches y w := fun y isNode high =>
    supported.reaches quorate mem (by omega) isNode (by omega)
  have split := chain_split (everySecond (2 * (n + 1)) k) (everySecond 0 n) isAnchor
    (reaches x node (by omega)) fun r member a found => by
      obtain ⟨i, positive, -, rfl⟩ := mem_everySecond.mp member
      obtain ⟨isNode, aRound⟩ := anchored _ _ found
      exact reaches a isNode (by omega)
  rw [history, history, everySecond_split, split]
  simp

/-- **The histories of supported anchors are prefixes of one another.** -/
theorem history_prefix (quorate : G.Quorate W)
    (anchored : ∀ r a, anchor r = some a → a ∈ G.nodes ∧ G.round a = r) {n n' : ℕ} {w w' : α}
    (isAnchor : anchor (2 * (n + 1)) = some w) (isAnchor' : anchor (2 * (n' + 1)) = some w')
    (supported : G.Supported W w) (le : n ≤ n') :
    G.history anchor n w <+: G.history anchor n' w' := by
  rcases Nat.eq_or_lt_of_le le with rfl | lt
  · rw [isAnchor] at isAnchor'
    cases isAnchor'
    exact List.prefix_rfl
  · obtain ⟨k, rfl⟩ : ∃ k, n' = n + 1 + k := ⟨_, (Nat.add_sub_of_le lt).symm⟩
    obtain ⟨node, round⟩ := anchored _ _ isAnchor'
    rw [history_eq_append quorate anchored isAnchor supported node round]
    exact List.prefix_append _ _

end Chain

end RoundDag

end Tusk.Lib
