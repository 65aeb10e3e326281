import Mathlib.Data.Finset.Insert
import Mathlib.Data.List.AList

/-!
# Hash maps

A hash map is an association list with one entry a key. The operations are the ones a program
uses: reading a key, inserting, updating the entry of a key in place, and retaining entries
while changing the values that stay. Each operation is described by what reading a key gives
afterwards, and later proofs use only these descriptions.

The iteration order of the list carries no meaning. A program that iterates over a hash map is
described by the members of the iteration (`mem_values`, `mem_items`).
-/

set_option autoImplicit false

namespace Tusk.Lib

universe u v

/-- A map with at most one value under each key. -/
abbrev HashMap (κ : Type u) (ν : Type v) : Type (max u v) := AList fun _ : κ => ν

namespace HashMap

variable {κ : Type u} {ν : Type v}

/-- The entries, in iteration order. -/
def items (m : HashMap κ ν) : List (κ × ν) := m.entries.map fun entry => (entry.1, entry.2)

/-- The values, in iteration order. -/
def values (m : HashMap κ ν) : List ν := (items m).map Prod.snd

/-- Drop the entries that `keep` refuses and replace the others by what it returns. -/
def retain (keep : κ → ν → Option ν) (m : HashMap κ ν) : HashMap κ ν where
  entries := m.entries.filterMap fun entry =>
    (keep entry.1 entry.2).map fun value => ⟨entry.1, value⟩
  nodupKeys := by
    have keysOf : ∀ l : List (Sigma fun _ : κ => ν),
        (l.filterMap fun entry => (keep entry.1 entry.2).map fun value =>
          (⟨entry.1, value⟩ : Sigma fun _ : κ => ν)).keys.Sublist l.keys := by
      intro l
      induction l with
      | nil => simp
      | cons entry l ih =>
          cases kept : keep entry.1 entry.2 with
          | none => simpa [kept] using ih.cons _
          | some value => simpa [kept] using ih.cons_cons entry.1
    exact List.Nodup.sublist (keysOf m.entries) m.nodupKeys

theorem items_keys_nodup (m : HashMap κ ν) : ((items m).map Prod.fst).Nodup := by
  have keysOf : (items m).map Prod.fst = m.keys := by
    simp [items, AList.keys, List.keys]
  rw [keysOf]
  exact m.keys_nodup

variable [DecidableEq κ]

/-- The value under a key. -/
def get (m : HashMap κ ν) (key : κ) : Option ν := AList.lookup key m

/-- Put a value under a key, in place of any earlier one. -/
def insert (m : HashMap κ ν) (key : κ) (value : ν) : HashMap κ ν := AList.insert key value m

/-- Put under a key what `change` makes of the value that is there now. -/
def upsert (m : HashMap κ ν) (key : κ) (change : Option ν → ν) : HashMap κ ν :=
  insert m key (change (get m key))

/-- Drop the entry of a key. -/
def remove (m : HashMap κ ν) (key : κ) : HashMap κ ν := AList.erase key m

/-- Collect entries; a later entry replaces an earlier one for the same key. -/
def ofList (entries : List (κ × ν)) : HashMap κ ν :=
  entries.foldl (fun m entry => insert m entry.1 entry.2) ∅

@[simp] theorem get_empty (key : κ) : get (∅ : HashMap κ ν) key = none := AList.lookup_empty key

theorem get_insert (m : HashMap κ ν) (key other : κ) (value : ν) :
    get (insert m key value) other = if other = key then some value else get m other := by
  split_ifs with same
  · subst same
    exact AList.lookup_insert m
  · exact AList.lookup_insert_ne same

@[simp] theorem get_insert_self (m : HashMap κ ν) (key : κ) (value : ν) :
    get (insert m key value) key = some value := by
  rw [get_insert, if_pos rfl]

theorem get_upsert (m : HashMap κ ν) (key other : κ) (change : Option ν → ν) :
    get (upsert m key change) other =
      if other = key then some (change (get m key)) else get m other :=
  get_insert m key other _

theorem get_remove (m : HashMap κ ν) (key other : κ) :
    get (remove m key) other = if other = key then none else get m other := by
  split_ifs with same
  · subst same
    exact AList.lookup_erase other m
  · exact AList.lookup_erase_ne same

theorem mem_items {m : HashMap κ ν} {key : κ} {value : ν} :
    (key, value) ∈ items m ↔ get m key = some value := by
  have found : get m key = some value ↔ Sigma.mk key value ∈ m.entries := AList.mem_lookup_iff
  rw [found, items, List.mem_map]
  constructor
  · rintro ⟨⟨key', value'⟩, member, same⟩
    cases same
    exact member
  · intro member
    exact ⟨_, member, rfl⟩

theorem mem_values {m : HashMap κ ν} {value : ν} :
    value ∈ values m ↔ ∃ key, get m key = some value := by
  simp only [values, List.mem_map, Prod.exists, exists_eq_right, mem_items]

theorem get_retain (keep : κ → ν → Option ν) (m : HashMap κ ν) (key : κ) :
    get (retain keep m) key = (get m key).bind (keep key) := by
  ext value
  rw [← mem_items, Option.bind_eq_some_iff]
  simp only [← mem_items, items, retain, List.mem_map, List.mem_filterMap, Prod.mk.injEq]
  constructor
  · rintro ⟨entry, ⟨before, member, kept⟩, rfl, rfl⟩
    obtain ⟨value, stays, rfl⟩ := Option.map_eq_some_iff.mp kept
    exact ⟨before.2, ⟨before, member, rfl, rfl⟩, stays⟩
  · rintro ⟨before, ⟨entry, member, rfl, rfl⟩, kept⟩
    exact ⟨⟨entry.1, value⟩, ⟨entry, member, by simp [kept]⟩, rfl, rfl⟩

theorem get_foldl_remove (keys : List κ) (m : HashMap κ ν) (key : κ) :
    get (keys.foldl remove m) key = if key ∈ keys then none else get m key := by
  induction keys generalizing m with
  | nil => simp
  | cons first keys ih =>
      rw [List.foldl_cons, ih, get_remove]
      by_cases same : key = first <;> simp [same]

/-- Retaining without a change keeps the values that satisfy a condition. -/
theorem get_retain_eq_some_iff {kept : κ → ν → Prop} [∀ key value, Decidable (kept key value)]
    {m : HashMap κ ν} {key : κ} {value : ν} :
    get (retain (fun key value => if kept key value then some value else none) m) key = some value ↔
      get m key = some value ∧ kept key value := by
  rw [get_retain, Option.bind_eq_some_iff]
  constructor
  · rintro ⟨before, found, stays⟩
    split_ifs at stays with keeps
    cases stays
    exact ⟨found, keeps⟩
  · rintro ⟨found, keeps⟩
    exact ⟨value, found, if_pos keeps⟩

theorem get_foldl_insert (entries : List (κ × ν)) (m : HashMap κ ν) (key : κ)
    (distinct : (entries.map Prod.fst).Nodup) (value : ν) :
    get (entries.foldl (fun m entry => insert m entry.1 entry.2) m) key = some value ↔
      (key, value) ∈ entries ∨ (key ∉ entries.map Prod.fst ∧ get m key = some value) := by
  induction entries generalizing m with
  | nil => simp
  | cons entry entries ih =>
      rw [List.map_cons, List.nodup_cons] at distinct
      rw [List.foldl_cons, ih _ distinct.2, get_insert]
      by_cases same : key = entry.1
      · subst same
        have absent : ∀ value, (entry.1, value) ∉ entries := fun value member =>
          distinct.1 (List.mem_map.mpr ⟨_, member, rfl⟩)
        simp [distinct.1, absent, Prod.ext_iff, eq_comm]
      · simp [same, Prod.ext_iff]

/-- Upserts at other keys leave a key alone. -/
theorem get_foldl_upsert {α : Type*} (keyOf : α → κ) (change : α → Option ν → ν) {l : List α}
    (m : HashMap κ ν) {key : κ} (absent : key ∉ l.map keyOf) :
    get (l.foldl (fun m a => upsert m (keyOf a) (change a)) m) key = get m key := by
  induction l generalizing m with
  | nil => rfl
  | cons a l ih =>
      rw [List.map_cons, List.mem_cons, not_or] at absent
      rw [List.foldl_cons, ih _ absent.2, get_upsert, if_neg absent.1]

/-- Entries with distinct keys are read back as they were given. -/
theorem get_ofList {entries : List (κ × ν)} (distinct : (entries.map Prod.fst).Nodup) {key : κ}
    {value : ν} : get (ofList entries) key = some value ↔ (key, value) ∈ entries := by
  simp [ofList, get_foldl_insert entries ∅ key distinct]

/-! ## Sets under keys -/

section Buckets

variable {α : Type*}

/-- The set under a key, empty when there is none. -/
def bucket (m : HashMap κ (Finset α)) (key : κ) : Finset α := (get m key).getD ∅

/-- Keep the entries whose keys satisfy a condition. -/
def retainKeys (kept : κ → Prop) [DecidablePred kept] (m : HashMap κ ν) : HashMap κ ν :=
  retain (fun key value => if kept key then some value else none) m

/-- Add an element to the set under a key. -/
def adjoin [DecidableEq α] (m : HashMap κ (Finset α)) (key : κ) (a : α) : HashMap κ (Finset α) :=
  upsert m key fun set => Insert.insert a (set.getD ∅)

@[simp] theorem bucket_empty (key : κ) : bucket (∅ : HashMap κ (Finset α)) key = ∅ := by
  rw [bucket, get_empty, Option.getD_none]

theorem get_retainKeys (kept : κ → Prop) [DecidablePred kept] (m : HashMap κ ν) (key : κ) :
    get (retainKeys kept m) key = if kept key then get m key else none := by
  rw [retainKeys, get_retain]
  cases get m key <;> simp

theorem bucket_retainKeys (kept : κ → Prop) [DecidablePred kept] (m : HashMap κ (Finset α))
    (key : κ) : bucket (retainKeys kept m) key = if kept key then bucket m key else ∅ := by
  rw [bucket, get_retainKeys]
  split_ifs <;> rfl

theorem mem_bucket_adjoin [DecidableEq α] {m : HashMap κ (Finset α)} {key other : κ} {a b : α} :
    b ∈ bucket (adjoin m key a) other ↔ (other = key ∧ b = a) ∨ b ∈ bucket m other := by
  rw [bucket, adjoin, get_upsert]
  split_ifs with same
  · subst same
    simp [bucket]
  · simp [bucket, same]

end Buckets

/-! ## Maps of the values -/

section Values

variable {μ : Type*}

/-- Replace each value by what a function makes of it. -/
def mapValues (f : ν → μ) (m : HashMap κ ν) : HashMap κ μ where
  entries := m.entries.map fun entry => ⟨entry.1, f entry.2⟩
  nodupKeys := by
    have keys : (m.entries.map fun entry => (⟨entry.1, f entry.2⟩ : Sigma fun _ : κ => μ)).keys =
        m.entries.keys := by
      simp [List.keys]
    rw [List.NodupKeys, keys]
    exact m.nodupKeys

variable (f : ν → μ)

omit [DecidableEq κ] in
theorem items_mapValues (m : HashMap κ ν) :
    items (mapValues f m) = (items m).map fun entry => (entry.1, f entry.2) := by
  simp [items, mapValues]

omit [DecidableEq κ] in
theorem values_mapValues (m : HashMap κ ν) : values (mapValues f m) = (values m).map f := by
  simp [values, items_mapValues]

omit [DecidableEq κ] in
theorem retain_mapValues {keep : κ → ν → Option ν} {keep' : κ → μ → Option μ}
    (agrees : ∀ key value, keep' key (f value) = (keep key value).map f) (m : HashMap κ ν) :
    retain keep' (mapValues f m) = mapValues f (retain keep m) := by
  apply AList.ext
  simp only [retain, mapValues, List.filterMap_map, List.map_filterMap]
  refine List.filterMap_congr fun entry _ => ?_
  simp [agrees, Option.map_map, Function.comp_def]

theorem get_mapValues (m : HashMap κ ν) (key : κ) :
    get (mapValues f m) key = (get m key).map f := by
  ext value
  rw [← mem_items, items_mapValues, List.mem_map, Option.map_eq_some_iff]
  constructor
  · rintro ⟨entry, member, same⟩
    cases same
    exact ⟨entry.2, mem_items.mp member, rfl⟩
  · rintro ⟨value, found, rfl⟩
    exact ⟨(key, value), mem_items.mpr found, rfl⟩

theorem insert_mapValues (m : HashMap κ ν) (key : κ) (value : ν) :
    insert (mapValues f m) key (f value) = mapValues f (insert m key value) := by
  apply AList.ext
  simp [insert, mapValues, AList.insert, List.kinsert, List.kerase, List.eraseP_map, Function.comp_def]

theorem upsert_mapValues {change : Option ν → ν} {change' : Option μ → μ}
    (agrees : ∀ value, change' (value.map f) = f (change value)) (m : HashMap κ ν) (key : κ) :
    upsert (mapValues f m) key change' = mapValues f (upsert m key change) := by
  rw [upsert, get_mapValues, agrees, insert_mapValues, upsert]

theorem ofList_map (entries : List (κ × ν)) :
    ofList (entries.map fun entry => (entry.1, f entry.2)) = mapValues f (ofList entries) := by
  have step : ∀ (entries : List (κ × ν)) (m : HashMap κ ν),
      (entries.map fun entry => (entry.1, f entry.2)).foldl
          (fun m entry => insert m entry.1 entry.2) (mapValues f m) =
        mapValues f (entries.foldl (fun m entry => insert m entry.1 entry.2) m) := by
    intro entries
    induction entries with
    | nil => exact fun _ => rfl
    | cons entry entries ih =>
        intro m
        rw [List.map_cons, List.foldl_cons, List.foldl_cons, insert_mapValues, ih]
  exact step entries ∅

end Values

end HashMap

end Tusk.Lib
