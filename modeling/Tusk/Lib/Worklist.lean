import Mathlib.Data.Finset.Card
import Mathlib.Data.List.Nodup
import Mathlib.Logic.Relation

/-!
# Depth-first search with a worklist

The search keeps a stack of nodes to process and the keys visited so far. It pops a node, emits
it, and pushes each successor whose key is new, marking the key when the node is pushed. The
program form takes fuel (`search`); the relation `Runs` says what a finished search emits, and
the results are stated for it.

* A search whose successors have keys in a finite set finishes (`search_total`).
* What it emits is reachable from the stack (`Runs.sound`), and when a key determines its node,
  everything reachable is emitted (`Runs.complete`).
* No key is emitted twice (`Runs.nodup`).
* The nodes that satisfy a property are emitted in the order of a search restricted to them,
  when the other nodes lead only to other nodes (`Runs.restrict`). Two searches that agree on
  such nodes therefore emit the same ones in the same order (`Runs.restrict_unique`).
-/

set_option autoImplicit false

namespace Tusk.Lib.Worklist

universe u v

variable {α : Type u} {κ : Type v} [DecidableEq κ] (key : α → κ) (succs : α → List α)

/-- The nodes of a list that a pass pushes: those whose key is neither visited nor the key of an
earlier node of the list. -/
def fresh : List α → List κ → List α
  | [], _ => []
  | a :: rest, visited =>
      if key a ∈ visited then fresh rest visited else a :: fresh rest (key a :: visited)

/-- Pop, emit and push until the stack is empty. `none` is a search that ran out of fuel. -/
def search : ℕ → List α → List κ → Option (List α)
  | _, [], _ => some []
  | 0, _ :: _, _ => none
  | fuel + 1, x :: stack, visited =>
      (search fuel ((fresh key (succs x) visited).reverse ++ stack)
        ((fresh key (succs x) visited).map key ++ visited)).map (x :: ·)

/-- A finished search from a stack and visited keys, with what it emits. -/
inductive Runs : List α → List κ → List α → Prop where
  | done (visited : List κ) : Runs [] visited []
  | pop {x : α} {stack : List α} {visited : List κ} {out : List α} :
      Runs ((fresh key (succs x) visited).reverse ++ stack)
        ((fresh key (succs x) visited).map key ++ visited) out →
      Runs (x :: stack) visited (x :: out)

/-- One node is a successor of another, any number of times. -/
def Reach : α → α → Prop := Relation.ReflTransGen fun a b => b ∈ succs a

variable {key succs}

/-! ## The nodes a pass pushes -/

theorem fresh_sublist (l : List α) (visited : List κ) : (fresh key l visited).Sublist l := by
  induction l generalizing visited with
  | nil => exact .slnil
  | cons a rest ih =>
      unfold fresh
      split_ifs
      · exact (ih _).cons a
      · exact (ih _).cons_cons a

theorem not_mem_of_mem_fresh {l : List α} {visited : List κ} {a : α}
    (pushed : a ∈ fresh key l visited) : key a ∉ visited := by
  induction l generalizing visited with
  | nil => simp [fresh] at pushed
  | cons b rest ih =>
      unfold fresh at pushed
      split_ifs at pushed with seen
      · exact ih pushed
      · rcases List.mem_cons.mp pushed with rfl | later
        · exact seen
        · exact fun old => ih later (List.mem_cons_of_mem _ old)

theorem fresh_keys_nodup (l : List α) (visited : List κ) :
    ((fresh key l visited).map key).Nodup := by
  induction l generalizing visited with
  | nil => simp [fresh]
  | cons a rest ih =>
      unfold fresh
      split_ifs
      · exact ih _
      · rw [List.map_cons, List.nodup_cons]
        refine ⟨fun again => ?_, ih _⟩
        obtain ⟨b, pushed, same⟩ := List.mem_map.mp again
        exact not_mem_of_mem_fresh pushed (same ▸ List.mem_cons_self)

/-- Every node of the list has its key marked after the pass. -/
theorem marked_of_mem {l : List α} {visited : List κ} {a : α} (member : a ∈ l) :
    key a ∈ (fresh key l visited).map key ++ visited := by
  induction l generalizing visited with
  | nil => simp at member
  | cons b rest ih =>
      unfold fresh
      split_ifs with seen
      · rcases List.mem_cons.mp member with rfl | later
        · exact List.mem_append_right _ seen
        · exact ih later
      · rcases List.mem_cons.mp member with rfl | later
        · simp
        · have marked : key a ∈ (fresh key rest (key b :: visited)).map key ++ key b :: visited :=
            ih later
          simp only [List.mem_append, List.mem_cons, List.map_cons] at marked ⊢
          tauto

/-- The pass commutes with a filter that keys respect. -/
theorem fresh_filter {keep : α → Prop} [DecidablePred keep] {l : List α} {visited visited' : List κ}
    (separated : ∀ a ∈ l, ∀ b ∈ l, key a = key b → (keep a ↔ keep b))
    (agree : ∀ a ∈ l, keep a → (key a ∈ visited ↔ key a ∈ visited')) :
    fresh key (l.filter keep) visited' = (fresh key l visited).filter keep := by
  induction l generalizing visited visited' with
  | nil => rfl
  | cons a rest ih =>
      have separated' : ∀ b ∈ rest, ∀ c ∈ rest, key b = key c → (keep b ↔ keep c) :=
        fun b hb c hc => separated b (.tail _ hb) c (.tail _ hc)
      by_cases kept : keep a
      · rw [List.filter_cons_of_pos (by simpa using kept)]
        simp only [fresh, ← agree a List.mem_cons_self kept]
        split_ifs with seen
        · exact ih separated' fun b hb => agree b (.tail _ hb)
        · rw [List.filter_cons_of_pos (by simpa using kept)]
          congr 1
          refine ih separated' fun b hb keptB => ?_
          simp only [List.mem_cons, agree b (.tail _ hb) keptB]
      · rw [List.filter_cons_of_neg (by simpa using kept)]
        simp only [fresh]
        split_ifs with seen
        · exact ih separated' fun b hb => agree b (.tail _ hb)
        · rw [List.filter_cons_of_neg (by simpa using kept)]
          refine ih separated' fun b hb keptB => ?_
          have different : key b ≠ key a := fun same =>
            kept ((separated b (.tail _ hb) a List.mem_cons_self same).mp keptB)
          simp only [List.mem_cons, different, false_or, agree b (.tail _ hb) keptB]

/-! ## The program and the relation -/

theorem runs_of_search {fuel : ℕ} {stack : List α} {visited : List κ} {out : List α}
    (finished : search key succs fuel stack visited = some out) :
    Runs key succs stack visited out := by
  induction fuel generalizing stack visited out with
  | zero =>
      cases stack with
      | nil =>
          cases finished
          exact .done _
      | cons x stack => simp [search] at finished
  | succ fuel ih =>
      cases stack with
      | nil =>
          cases finished
          exact .done _
      | cons x stack =>
          obtain ⟨rest, searched, rfl⟩ := Option.map_eq_some_iff.mp finished
          exact .pop (ih searched)

/-- A search emits one list. -/
theorem Runs.unique {stack : List α} {visited : List κ} {out out' : List α}
    (first : Runs key succs stack visited out) (second : Runs key succs stack visited out') :
    out = out' := by
  induction first generalizing out' with
  | done visited =>
      cases second
      rfl
  | pop _ ih =>
      cases second with
      | pop rest => rw [ih rest]

/-- **Enough fuel finishes the search.** Each push marks a new key, so the stack and the keys
not yet visited bound the number of steps. -/
theorem search_total {keys : Finset κ} (known : ∀ x, ∀ a ∈ succs x, key a ∈ keys) {fuel : ℕ}
    {stack : List α} {visited : List κ}
    (enough : stack.length + (keys \ visited.toFinset).card ≤ fuel) :
    ∃ out, search key succs fuel stack visited = some out := by
  induction fuel generalizing stack visited with
  | zero =>
      have empty : stack = [] := List.length_eq_zero_iff.mp (by omega)
      exact ⟨[], by simp [empty, search]⟩
  | succ fuel ih =>
      cases stack with
      | nil => exact ⟨[], rfl⟩
      | cons x stack =>
          let pushed := fresh key (succs x) visited
          -- the new keys leave the unvisited part, one for each node pushed
          have shrink : (keys \ (pushed.map key ++ visited).toFinset).card + pushed.length ≤
              (keys \ visited.toFinset).card := by
            have distinct : (pushed.map key).toFinset.card = pushed.length := by
              rw [List.toFinset_card_of_nodup (fresh_keys_nodup _ _), List.length_map]
            rw [← distinct, List.toFinset_append, ← Finset.card_union_of_disjoint]
            · refine Finset.card_le_card fun k member => ?_
              simp only [Finset.mem_union, Finset.mem_sdiff, List.mem_toFinset, List.mem_map,
                not_or] at member ⊢
              rcases member with ⟨inKeys, _, old⟩ | ⟨a, isPushed, rfl⟩
              · exact ⟨inKeys, old⟩
              · exact ⟨known x a ((fresh_sublist _ _).subset isPushed),
                  not_mem_of_mem_fresh isPushed⟩
            · rw [Finset.disjoint_left]
              intro k member
              simp only [Finset.mem_sdiff, Finset.mem_union, List.mem_toFinset, not_or] at member ⊢
              exact member.2.1
          have rest : ∃ out, search key succs fuel (pushed.reverse ++ stack)
              (pushed.map key ++ visited) = some out := by
            refine ih ?_
            simp only [List.length_append, List.length_reverse, List.length_cons] at enough ⊢
            omega
          obtain ⟨out, finished⟩ := rest
          exact ⟨x :: out, by simpa only [search, Option.map_eq_some_iff] using ⟨out, finished, rfl⟩⟩

/-! ## What is emitted -/

theorem Runs.stack_subset {stack : List α} {visited : List κ} {out : List α}
    (run : Runs key succs stack visited out) : stack ⊆ out := by
  induction run with
  | done visited => exact List.nil_subset _
  | pop _ ih =>
      refine List.cons_subset.mpr ⟨List.mem_cons_self, fun a member => ?_⟩
      exact List.mem_cons_of_mem _ (ih (List.mem_append_right _ member))

/-- Everything emitted is reachable from the stack. -/
theorem Runs.sound {stack : List α} {visited : List κ} {out : List α}
    (run : Runs key succs stack visited out) :
    ∀ a ∈ out, ∃ s ∈ stack, Reach succs s a := by
  induction run with
  | done visited => simp
  | @pop x stack visited out _ ih =>
      intro a member
      rcases List.mem_cons.mp member with rfl | later
      · exact ⟨a, List.mem_cons_self, .refl⟩
      · obtain ⟨s, onStack, reach⟩ := ih a later
        rcases List.mem_append.mp onStack with pushed | old
        · have successor := (fresh_sublist _ _).subset (List.mem_reverse.mp pushed)
          exact ⟨x, List.mem_cons_self, .head successor reach⟩
        · exact ⟨s, List.mem_cons_of_mem _ old, reach⟩

/-- A successor of an emitted node is emitted, unless its key had been visited before. -/
theorem Runs.closed {stack : List α} {visited : List κ} {out : List α}
    (run : Runs key succs stack visited out)
    (determined : ∀ x y a b, a ∈ succs x → b ∈ succs y → key a = key b → a = b) :
    ∀ x ∈ out, ∀ a ∈ succs x, a ∈ out ∨ key a ∈ visited := by
  induction run with
  | done visited => simp
  | @pop x stack visited out rest ih =>
      have emitted : ∀ y, ∀ a ∈ succs y, key a ∈ (fresh key (succs x) visited).map key →
          a ∈ out := by
        intro y a successor marked
        obtain ⟨b, pushed, same⟩ := List.mem_map.mp marked
        obtain rfl := determined x y b a ((fresh_sublist _ _).subset pushed) successor same
        exact rest.stack_subset (List.mem_append_left _ (List.mem_reverse.mpr pushed))
      intro y member a successor
      have split : a ∈ out ∨ key a ∈ (fresh key (succs x) visited).map key ++ visited := by
        rcases List.mem_cons.mp member with rfl | later
        · exact .inr (marked_of_mem successor)
        · exact ih y later a successor
      rcases split with found | marked
      · exact .inl (List.mem_cons_of_mem _ found)
      · rcases List.mem_append.mp marked with new | old
        · exact .inl (List.mem_cons_of_mem _ (emitted y a successor new))
        · exact .inr old

/-- **Everything reachable is emitted**, when a key determines its node. -/
theorem Runs.complete {start : α} {out : List α} (run : Runs key succs [start] [] out)
    (determined : ∀ x y a b, a ∈ succs x → b ∈ succs y → key a = key b → a = b) {a : α}
    (reach : Reach succs start a) : a ∈ out := by
  induction reach with
  | refl => exact run.stack_subset List.mem_cons_self
  | tail _ successor ih => simpa using run.closed determined _ ih _ successor

theorem Runs.mem_iff {start : α} {out : List α} (run : Runs key succs [start] [] out)
    (determined : ∀ x y a b, a ∈ succs x → b ∈ succs y → key a = key b → a = b) {a : α} :
    a ∈ out ↔ Reach succs start a :=
  ⟨fun member => by simpa using run.sound a member, run.complete determined⟩

theorem Runs.nodup_aux {stack : List α} {visited : List κ} {out : List α}
    (run : Runs key succs stack visited out) (distinct : (stack.map key).Nodup)
    (marked : ∀ a ∈ stack, key a ∈ visited) :
    (out.map key).Nodup ∧ ∀ a ∈ out, key a ∈ stack.map key ∨ key a ∉ visited := by
  induction run with
  | done visited => simp
  | @pop x stack visited out _ ih =>
      rw [List.map_cons, List.nodup_cons] at distinct
      have marked' : ∀ a ∈ stack, key a ∈ visited := fun a member => marked a (.tail _ member)
      obtain ⟨nodup, origin⟩ := ih
        (by
          rw [List.map_append, List.map_reverse, List.nodup_append]
          refine ⟨List.nodup_reverse.mpr (fresh_keys_nodup _ _), distinct.2, ?_⟩
          rintro k pushed k' old rfl
          obtain ⟨a, new, rfl⟩ := List.mem_map.mp (List.mem_reverse.mp pushed)
          obtain ⟨b, onStack, same⟩ := List.mem_map.mp old
          exact not_mem_of_mem_fresh new (same ▸ marked' b onStack))
        (fun a member => by
          rcases List.mem_append.mp member with pushed | old
          · exact List.mem_append_left _ (List.mem_map_of_mem (List.mem_reverse.mp pushed))
          · exact List.mem_append_right _ (marked' a old))
      -- a node emitted later is on the old stack or has a key that was not visited here
      have later : ∀ a ∈ out, key a ∈ stack.map key ∨ key a ∉ visited := by
        intro a member
        rcases origin a member with onStack | unmarked
        · rw [List.map_append, List.mem_append, List.map_reverse, List.mem_reverse] at onStack
          rcases onStack with pushed | old
          · obtain ⟨b, pushed, same⟩ := List.mem_map.mp pushed
            exact .inr (same ▸ not_mem_of_mem_fresh pushed)
          · exact .inl old
        · exact .inr fun old => unmarked (List.mem_append_right _ old)
      refine ⟨?_, fun a member => ?_⟩
      · rw [List.map_cons, List.nodup_cons]
        refine ⟨fun again => ?_, nodup⟩
        obtain ⟨a, member, same⟩ := List.mem_map.mp again
        rcases later a member with old | unmarked
        · exact distinct.1 (same ▸ old)
        · exact unmarked (same ▸ marked x List.mem_cons_self)
      · rcases List.mem_cons.mp member with rfl | tail
        · exact .inl List.mem_cons_self
        · exact (later a tail).imp_left (List.mem_cons_of_mem _)

/-! ## Restricting a search -/

/-- What is reached from the stack after a step was reached from the stack before. -/
theorem exists_reach_of_pop {x s y : α} {stack : List α} {visited : List κ}
    (member : s ∈ (fresh key (succs x) visited).reverse ++ stack) (reach : Reach succs s y) :
    ∃ t ∈ x :: stack, Reach succs t y := by
  rcases List.mem_append.mp member with pushed | old
  · have successor := (fresh_sublist _ _).subset (List.mem_reverse.mp pushed)
    exact ⟨x, List.mem_cons_self, .head successor reach⟩
  · exact ⟨s, List.mem_cons_of_mem _ old, reach⟩

omit [DecidableEq κ] in
/-- The key of a node that is kept is the key of a node of the list when it is one of those kept. -/
theorem mem_map_filter_iff {keep : α → Prop} [DecidablePred keep] {l : List α} {a : α}
    (kept : keep a) (separated : ∀ b ∈ l, key b = key a → (keep b ↔ keep a)) :
    key a ∈ (l.filter keep).map key ↔ key a ∈ l.map key := by
  simp only [List.mem_map]
  constructor
  · rintro ⟨b, member, same⟩
    exact ⟨b, List.mem_of_mem_filter member, same⟩
  · rintro ⟨b, member, same⟩
    have keptB := (separated b member same).mpr kept
    exact ⟨b, List.mem_filter.mpr ⟨member, by simpa using keptB⟩, same⟩

/-- **The nodes that satisfy a property are emitted as by the search restricted to them.** The
other nodes lead only to other nodes, the restricted successors agree, and keys respect the
property; then the visited keys need to agree only where they can matter. -/
theorem Runs.restrict {stack : List α} {visited : List κ} {out : List α}
    (run : Runs key succs stack visited out) (keep : α → Prop) [DecidablePred keep]
    (succs' : α → List α) (visited' : List κ)
    (separated : ∀ x y a b, a ∈ succs x → b ∈ succs y → key a = key b → (keep a ↔ keep b))
    (low : ∀ s ∈ stack, ∀ x, Reach succs s x → ¬ keep x → ∀ a ∈ succs x, ¬ keep a)
    (agree : ∀ s ∈ stack, ∀ x, Reach succs s x → keep x →
      (succs x).filter keep = (succs' x).filter keep)
    (seen : ∀ s ∈ stack, ∀ x, Reach succs s x → ∀ a ∈ succs x, keep a →
      (key a ∈ visited ↔ key a ∈ visited')) :
    Runs key (fun x => (succs' x).filter keep) (stack.filter keep) visited' (out.filter keep) := by
  induction run generalizing visited' with
  | done visited => exact .done _
  | @pop x stack visited out _ ih =>
      let pushed := fresh key (succs x) visited
      have agree' : ∀ s ∈ pushed.reverse ++ stack, ∀ y, Reach succs s y → keep y →
          (succs y).filter keep = (succs' y).filter keep := by
        intro s member y reach kept
        obtain ⟨t, onStack, reach⟩ := exists_reach_of_pop member reach
        exact agree t onStack y reach kept
      have low' : ∀ s ∈ pushed.reverse ++ stack, ∀ y, Reach succs s y → ¬ keep y →
          ∀ a ∈ succs y, ¬ keep a := by
        intro s member y reach
        obtain ⟨t, onStack, reach⟩ := exists_reach_of_pop member reach
        exact low t onStack y reach
      have seen' : ∀ s ∈ pushed.reverse ++ stack, ∀ y, Reach succs s y → ∀ a ∈ succs y, keep a →
          (key a ∈ pushed.map key ++ visited ↔ key a ∈ (pushed.filter keep).map key ++ visited') := by
        intro s member y reach a successor kept
        obtain ⟨t, onStack, reach⟩ := exists_reach_of_pop member reach
        rw [List.mem_append, List.mem_append, seen t onStack y reach a successor kept,
          mem_map_filter_iff kept]
        exact fun b inside => separated x y b a ((fresh_sublist _ _).subset inside) successor
      by_cases kept : keep x
      · have same : fresh key ((succs' x).filter keep) visited' = pushed.filter keep := by
          rw [← agree x List.mem_cons_self x .refl kept]
          exact fresh_filter (fun a ha b hb => separated x x a b ha hb)
            fun a ha keptA => seen x List.mem_cons_self x .refl a ha keptA
        rw [List.filter_cons_of_pos (by simpa using kept),
          List.filter_cons_of_pos (by simpa using kept)]
        refine .pop ?_
        rw [same]
        have rest := ih ((pushed.filter keep).map key ++ visited') low' agree' seen'
        simpa only [List.filter_append, List.filter_reverse] using rest
      · -- nothing that is kept was pushed
        have none : pushed.filter keep = [] := by
          refine List.filter_eq_nil_iff.mpr fun a inside => ?_
          simpa using low x List.mem_cons_self x .refl kept a ((fresh_sublist _ _).subset inside)
        rw [none] at seen'
        rw [List.filter_cons_of_neg (by simpa using kept),
          List.filter_cons_of_neg (by simpa using kept)]
        have rest := ih visited' low' agree' seen'
        rw [List.filter_append, List.filter_reverse] at rest
        simpa only [pushed, none, List.reverse_nil, List.nil_append] using rest

/-- **No key is emitted twice** from a start whose own key no reachable node leads back to. -/
theorem Runs.nodup {start : α} {out : List α} (run : Runs key succs [start] [] out)
    (acyclic : ∀ x, Reach succs start x → ∀ a ∈ succs x, key a ≠ key start) :
    (out.map key).Nodup := by
  -- the start may as well have been marked from the beginning
  have marked := run.restrict (fun _ => True) succs [key start]
    (fun _ _ _ _ _ _ _ => Iff.rfl) (fun _ _ _ _ dropped => absurd trivial dropped)
    (fun _ _ _ _ _ => rfl)
    (by
      intro s onStack x reach a successor _
      rw [List.mem_singleton.mp onStack] at reach
      simp [acyclic x reach a successor])
  simp only [decide_true, List.filter_true] at marked
  exact (marked.nodup_aux (by simp) (by simp)).1

/-- Two searches from one start that agree on the nodes satisfying a property emit the same
ones in the same order. -/
theorem Runs.restrict_unique {keep : α → Prop} [DecidablePred keep] {succs' : α → List α}
    {start : α} {out out' : List α} (run : Runs key succs [start] [] out)
    (run' : Runs key succs' [start] [] out')
    (separated : ∀ x y a b, a ∈ succs x → b ∈ succs y → key a = key b → (keep a ↔ keep b))
    (separated' : ∀ x y a b, a ∈ succs' x → b ∈ succs' y → key a = key b → (keep a ↔ keep b))
    (low : ∀ x, Reach succs start x → ¬ keep x → ∀ a ∈ succs x, ¬ keep a)
    (low' : ∀ x, Reach succs' start x → ¬ keep x → ∀ a ∈ succs' x, ¬ keep a)
    (agree : ∀ x, Reach succs start x → keep x →
      (succs x).filter keep = (succs' x).filter keep) :
    out.filter keep = out'.filter keep := by
  have first := run.restrict keep succs' [] separated
    (fun s onStack => by rw [List.mem_singleton.mp onStack]; exact low)
    (fun s onStack => by rw [List.mem_singleton.mp onStack]; exact agree)
    (fun _ _ _ _ _ _ _ => Iff.rfl)
  have second := run'.restrict keep succs' [] separated'
    (fun s onStack => by rw [List.mem_singleton.mp onStack]; exact low')
    (fun _ _ _ _ _ => rfl) (fun _ _ _ _ _ _ _ => Iff.rfl)
  exact first.unique second

/-! ## The image of a search -/

section Image

variable {β : Type*} {key' : β → κ} {succs' : β → List β} {f : α → β}

theorem fresh_map (keys : ∀ a, key' (f a) = key a) (l : List α) (visited : List κ) :
    fresh key' (l.map f) visited = (fresh key l visited).map f := by
  induction l generalizing visited with
  | nil => rfl
  | cons a l ih =>
      simp only [List.map_cons, fresh, keys, ih]
      split_ifs <;> rfl

/-- **A function that commutes with the keys and the successors commutes with the search.** -/
theorem search_map (keys : ∀ a, key' (f a) = key a) (images : ∀ a, succs' (f a) = (succs a).map f)
    (fuel : ℕ) (stack : List α) (visited : List κ) :
    search key' succs' fuel (stack.map f) visited =
      (search key succs fuel stack visited).map (List.map f) := by
  induction fuel generalizing stack visited with
  | zero => cases stack <;> rfl
  | succ fuel ih =>
      cases stack with
      | nil => rfl
      | cons a stack =>
          have marked : ((fresh key (succs a) visited).map f).map key' =
              (fresh key (succs a) visited).map key := by
            rw [List.map_map]
            exact List.map_congr_left fun b _ => keys b
          rw [List.map_cons, search, search, images, fresh_map keys, marked, ← List.map_reverse,
            ← List.map_append, ih, Option.map_map, Option.map_map]
          rfl

end Image
end Tusk.Lib.Worklist
