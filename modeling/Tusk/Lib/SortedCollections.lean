import Mathlib.Order.Lattice
import Mathlib.Data.List.Basic
import Mathlib.Data.List.Induction
import Mathlib.Data.List.Nodup

/-!
# Sets and maps kept in key order

An ordered set is a strictly increasing list of its elements, and an ordered map is a list of
entries whose keys strictly increase. The order is a field of the structure, so a set with a
repeated element or a map with two entries for one key cannot be built, and two collections
with the same list are equal. Iteration is the list itself.
-/

set_option autoImplicit false

namespace Tusk.Lib

universe u v

/-! ## Ordered sets -/

/-- A set iterated in increasing order. -/
structure BTreeSet (α : Type u) [LT α] where
  toList : List α
  sorted : toList.Pairwise (· < ·)

namespace BTreeSet

section Basic

variable {α : Type u} [LT α]

@[ext] theorem ext {s t : BTreeSet α} (same : s.toList = t.toList) : s = t := by
  cases s
  cases t
  cases same
  rfl

instance [DecidableEq α] : DecidableEq (BTreeSet α) := fun s t =>
  decidable_of_iff (s.toList = t.toList) ⟨ext, fun same => same ▸ rfl⟩

instance : Membership α (BTreeSet α) := ⟨fun s a => a ∈ s.toList⟩

theorem mem_def {a : α} {s : BTreeSet α} : a ∈ s ↔ a ∈ s.toList := Iff.rfl

instance [DecidableEq α] (a : α) (s : BTreeSet α) : Decidable (a ∈ s) :=
  inferInstanceAs (Decidable (a ∈ s.toList))

instance : EmptyCollection (BTreeSet α) := ⟨⟨[], .nil⟩⟩

@[simp] theorem toList_empty : (∅ : BTreeSet α).toList = [] := rfl

end Basic

variable {α : Type u} [LinearOrder α]

theorem nodup (s : BTreeSet α) : s.toList.Nodup :=
  s.sorted.imp fun below => ne_of_lt below

end BTreeSet

/-- Insert in an increasing list, keeping one copy. -/
def insertSorted {α : Type u} [LinearOrder α] (a : α) : List α → List α
  | [] => [a]
  | b :: rest =>
      if a < b then a :: b :: rest else if a = b then b :: rest else b :: insertSorted a rest

section Insert

variable {α : Type u} [LinearOrder α]

theorem mem_insertSorted {a x : α} {l : List α} : x ∈ insertSorted a l ↔ x = a ∨ x ∈ l := by
  induction l with
  | nil => simp [insertSorted]
  | cons b rest ih =>
      unfold insertSorted
      split_ifs with below same
      · simp
      · subst same
        simp
      · simp only [List.mem_cons, ih]
        tauto

theorem pairwise_insertSorted {a : α} {l : List α} (sorted : l.Pairwise (· < ·)) :
    (insertSorted a l).Pairwise (· < ·) := by
  induction l with
  | nil => simp [insertSorted]
  | cons b rest ih =>
      rw [List.pairwise_cons] at sorted
      unfold insertSorted
      split_ifs with below same
      · refine List.pairwise_cons.mpr ⟨fun x member => ?_, List.pairwise_cons.mpr sorted⟩
        rcases List.mem_cons.mp member with rfl | later
        · exact below
        · exact below.trans (sorted.1 x later)
      · exact List.pairwise_cons.mpr sorted
      · refine List.pairwise_cons.mpr ⟨fun x member => ?_, ih sorted.2⟩
        rcases mem_insertSorted.mp member with rfl | later
        · exact lt_of_le_of_ne (not_lt.mp below) (Ne.symm same)
        · exact sorted.1 x later

end Insert

namespace BTreeSet

variable {α : Type u} [LinearOrder α]

/-- Collect a list into a set. -/
def ofList (l : List α) : BTreeSet α where
  toList := l.foldr insertSorted []
  sorted := by
    induction l with
    | nil => exact .nil
    | cons a l ih => exact pairwise_insertSorted ih

@[simp] theorem mem_ofList {a : α} {l : List α} : a ∈ ofList l ↔ a ∈ l := by
  rw [mem_def]
  induction l with
  | nil => simp [ofList]
  | cons b l ih =>
      simp only [ofList] at ih
      simp only [ofList, List.foldr_cons, mem_insertSorted, List.mem_cons, ih]

end BTreeSet

/-! ## Ordered maps -/

/-- A map iterated in increasing order of its keys. -/
structure BTreeMap (κ : Type u) (ν : Type v) [LT κ] where
  entries : List (κ × ν)
  sorted : entries.Pairwise (·.1 < ·.1)

namespace BTreeMap

section Basic

variable {κ : Type u} {ν : Type v} [LT κ]

@[ext] theorem ext {m m' : BTreeMap κ ν} (same : m.entries = m'.entries) : m = m' := by
  cases m
  cases m'
  cases same
  rfl

instance [DecidableEq κ] [DecidableEq ν] : DecidableEq (BTreeMap κ ν) := fun m m' =>
  decidable_of_iff (m.entries = m'.entries) ⟨ext, fun same => same ▸ rfl⟩

instance : EmptyCollection (BTreeMap κ ν) := ⟨⟨[], .nil⟩⟩

@[simp] theorem entries_empty : (∅ : BTreeMap κ ν).entries = [] := rfl

/-- The keys, in increasing order. -/
def keys (m : BTreeMap κ ν) : List κ := m.entries.map Prod.fst

/-- The values, in the order of their keys. -/
def values (m : BTreeMap κ ν) : List ν := m.entries.map Prod.snd

/-- The value under a key. -/
def get [DecidableEq κ] (m : BTreeMap κ ν) (key : κ) : Option ν :=
  (m.entries.find? fun entry => decide (entry.1 = key)).map Prod.snd

theorem keys_sorted (m : BTreeMap κ ν) : m.keys.Pairwise (· < ·) :=
  List.pairwise_map.mpr m.sorted

end Basic

variable {κ : Type u} {ν : Type v} [LinearOrder κ]

theorem keys_nodup (m : BTreeMap κ ν) : m.keys.Nodup :=
  m.keys_sorted.imp fun below => ne_of_lt below

theorem mem_of_get {m : BTreeMap κ ν} {key : κ} {value : ν} (found : m.get key = some value) :
    (key, value) ∈ m.entries := by
  obtain ⟨⟨key', value'⟩, first, rfl⟩ := Option.map_eq_some_iff.mp found
  have same : key' = key := by simpa using List.find?_some first
  subst same
  exact List.mem_of_find?_eq_some first

theorem get_of_mem {m : BTreeMap κ ν} {key : κ} {value : ν} (member : (key, value) ∈ m.entries) :
    m.get key = some value := by
  have present : (m.get key).isSome := by
    rw [get, Option.isSome_map, List.find?_isSome]
    exact ⟨(key, value), member, by simp⟩
  obtain ⟨value', found⟩ := Option.isSome_iff_exists.mp present
  have unique := List.inj_on_of_nodup_map m.keys_nodup (mem_of_get found) member rfl
  rw [found, (Prod.mk.inj unique).2]

theorem get_eq_none_iff {m : BTreeMap κ ν} {key : κ} : m.get key = none ↔ key ∉ m.keys := by
  rw [get, Option.map_eq_none_iff, List.find?_eq_none, keys, List.mem_map]
  constructor
  · rintro missing ⟨entry, member, rfl⟩
    exact missing entry member (by simp)
  · intro missing entry member same
    exact missing ⟨entry, member, by simpa using same⟩

end BTreeMap

/-- Insert in a list of entries with increasing keys, replacing the value of the key. -/
def insertEntry {κ : Type u} {ν : Type v} [LinearOrder κ] (key : κ) (value : ν) :
    List (κ × ν) → List (κ × ν)
  | [] => [(key, value)]
  | entry :: rest =>
      if key < entry.1 then (key, value) :: entry :: rest
      else if key = entry.1 then (key, value) :: rest
      else entry :: insertEntry key value rest

section InsertEntry

variable {κ : Type u} {ν : Type v} [LinearOrder κ]

theorem mem_insertEntry {key : κ} {value : ν} {l : List (κ × ν)} {x : κ × ν}
    (member : x ∈ insertEntry key value l) : x = (key, value) ∨ x ∈ l := by
  induction l with
  | nil => exact .inl (List.mem_singleton.mp member)
  | cons entry rest ih =>
      unfold insertEntry at member
      split_ifs at member with below same
      · exact (List.mem_cons.mp member)
      · rcases List.mem_cons.mp member with here | later
        · exact .inl here
        · exact .inr (List.mem_cons_of_mem _ later)
      · rcases List.mem_cons.mp member with here | later
        · exact .inr (here ▸ List.mem_cons_self)
        · exact (ih later).imp_right (List.mem_cons_of_mem _)

theorem pairwise_insertEntry {key : κ} {value : ν} {l : List (κ × ν)}
    (sorted : l.Pairwise (·.1 < ·.1)) : (insertEntry key value l).Pairwise (·.1 < ·.1) := by
  induction l with
  | nil => exact List.pairwise_singleton _ _
  | cons entry rest ih =>
      obtain ⟨first, others⟩ := List.pairwise_cons.mp sorted
      unfold insertEntry
      split_ifs with below same
      · refine List.pairwise_cons.mpr ⟨fun x member => ?_, sorted⟩
        rcases List.mem_cons.mp member with rfl | later
        · exact below
        · exact below.trans (first x later)
      · exact List.pairwise_cons.mpr ⟨fun x member => same ▸ first x member, others⟩
      · refine List.pairwise_cons.mpr ⟨fun x member => ?_, ih others⟩
        rcases mem_insertEntry member with rfl | later
        · exact lt_of_le_of_ne (not_lt.mp below) (Ne.symm same)
        · exact first x later

theorem find?_insertEntry {key other : κ} {value : ν} {l : List (κ × ν)} :
    ((insertEntry key value l).find? fun entry => decide (entry.1 = other)) =
      if other = key then some (key, value)
      else l.find? fun entry => decide (entry.1 = other) := by
  induction l with
  | nil =>
      by_cases here : other = key
      · simp [insertEntry, here]
      · simp [insertEntry, here, Ne.symm here]
  | cons entry rest ih =>
      unfold insertEntry
      by_cases here : other = key
      · subst here
        rw [if_pos rfl] at ih ⊢
        split_ifs with below same
        · simp
        · simp
        · simp [Ne.symm same, ih]
      · rw [if_neg here] at ih ⊢
        split_ifs with below same
        · simp [Ne.symm here]
        · simp [Ne.symm here, ← same]
        · rw [List.find?_cons, List.find?_cons, ih]

end InsertEntry

namespace BTreeMap

variable {κ : Type u} {ν : Type v} [LinearOrder κ]

/-- Put a value under a key. -/
def insert (m : BTreeMap κ ν) (key : κ) (value : ν) : BTreeMap κ ν where
  entries := insertEntry key value m.entries
  sorted := pairwise_insertEntry m.sorted

/-- Collect entries into a map. Of two entries of one key the later one stays. -/
def ofList (entries : List (κ × ν)) : BTreeMap κ ν :=
  entries.foldl (fun m entry => m.insert entry.1 entry.2) ∅

theorem get_insert (m : BTreeMap κ ν) (key other : κ) (value : ν) :
    (m.insert key value).get other = if other = key then some value else m.get other := by
  rw [get, insert, find?_insertEntry]
  split_ifs with here <;> rfl

theorem ofList_snoc (entries : List (κ × ν)) (entry : κ × ν) :
    ofList (entries ++ [entry]) = (ofList entries).insert entry.1 entry.2 := by
  rw [ofList, List.foldl_append]
  rfl

/-- **The value under a key is that of its last entry.** -/
theorem get_ofList (entries : List (κ × ν)) (key : κ) :
    (ofList entries).get key =
      (entries.reverse.find? fun entry => decide (entry.1 = key)).map Prod.snd := by
  induction entries using List.reverseRecOn with
  | nil => rfl
  | append_singleton entries entry ih =>
      rw [ofList_snoc, get_insert, ih, List.reverse_append]
      by_cases here : key = entry.1
      · simp [here]
      · simp [here, Ne.symm here]

/-- Nothing else gets into the map. -/
theorem entries_ofList_subset (entries : List (κ × ν)) : (ofList entries).entries ⊆ entries := by
  rintro ⟨key, value⟩ inside
  have found := get_of_mem inside
  rw [get_ofList] at found
  obtain ⟨entry, last, rfl⟩ := Option.map_eq_some_iff.mp found
  have same : entry.1 = key := by simpa using List.find?_some last
  exact same ▸ List.mem_reverse.mp (List.mem_of_find?_eq_some last)

/-- Entries of different keys are all kept. -/
theorem entries_ofList_perm {entries : List (κ × ν)} (distinct : (entries.map Prod.fst).Nodup) :
    (ofList entries).entries.Perm entries := by
  have unique : entries.Nodup := distinct.of_map
  have sorted : (ofList entries).entries.Nodup := (ofList entries).keys_nodup.of_map
  refine (List.perm_ext_iff_of_nodup sorted unique).mpr fun x => ?_
  have found : x ∈ (ofList entries).entries ↔ (ofList entries).get x.1 = some x.2 :=
    ⟨get_of_mem, mem_of_get⟩
  rw [found, get_ofList]
  constructor
  · intro last
    obtain ⟨entry, here, same⟩ := Option.map_eq_some_iff.mp last
    have key : entry.1 = x.1 := by simpa using List.find?_some here
    have member := List.mem_reverse.mp (List.mem_of_find?_eq_some here)
    rwa [Prod.ext key same] at member
  · intro member
    have present : (entries.reverse.find? fun entry => decide (entry.1 = x.1)).isSome := by
      rw [List.find?_isSome]
      exact ⟨x, List.mem_reverse.mpr member, by simp⟩
    obtain ⟨entry, here⟩ := Option.isSome_iff_exists.mp present
    have key : entry.1 = x.1 := by simpa using List.find?_some here
    have inside := List.mem_reverse.mp (List.mem_of_find?_eq_some here)
    rw [here, List.inj_on_of_nodup_map distinct inside member key]
    rfl

end BTreeMap

namespace BTreeSet

variable {α : Type u} [LinearOrder α]

/-- Different elements are all kept. -/
theorem toList_ofList_perm {l : List α} (distinct : l.Nodup) : (ofList l).toList.Perm l :=
  (List.perm_ext_iff_of_nodup (ofList l).nodup distinct).mpr fun _ => mem_ofList

end BTreeSet

end Tusk.Lib
