import Mathlib.Data.List.Basic
import Mathlib.Tactic.Ring

/-!
# Byte strings of fixed width

A number written on a fixed number of little-endian bytes, and the concatenation of a list of
items that are each written on the same number of bytes.

The little-endian bytes determine the number below the width (`littleEndian_inj`). A
concatenation of items of one positive width determines the list of items
(`flatMap_injective_of_width`), and with a known count it also determines what follows it
(`flatMap_append_inj`). Two lists of items of different widths, written one after the other
without a count or a separator, are not determined: the last items of the first list may have
the bytes of the first items of a longer second list (`Resplits`). That is the only way two
pairs of lists share their bytes (`append_flatMap_eq_iff`).
-/

set_option autoImplicit false

namespace Tusk.Lib

/-! ## Little-endian numbers -/

/-- The `width` low bytes of a number, least significant first. -/
def littleEndian : ℕ → ℕ → List UInt8
  | 0, _ => []
  | width + 1, n => UInt8.ofNat n :: littleEndian width (n / 256)

@[simp] theorem littleEndian_length (width n : ℕ) : (littleEndian width n).length = width := by
  induction width generalizing n with
  | zero => rfl
  | succ width ih => simp [littleEndian, ih]

/-- The bytes determine the number up to the width. -/
theorem littleEndian_mod_eq {width m n : ℕ} (same : littleEndian width m = littleEndian width n) :
    m % 256 ^ width = n % 256 ^ width := by
  induction width generalizing m n with
  | zero => simp [Nat.mod_one]
  | succ width ih =>
      simp only [littleEndian, List.cons.injEq] at same
      have low : m % 256 = n % 256 := by
        simpa using congrArg UInt8.toNat same.1
      have high := ih same.2
      rw [pow_succ', Nat.mod_mul, Nat.mod_mul, low, high]

/-- **Little-endian bytes determine a number below their width.** -/
theorem littleEndian_inj {width m n : ℕ} (hm : m < 256 ^ width) (hn : n < 256 ^ width)
    (same : littleEndian width m = littleEndian width n) : m = n := by
  have := littleEndian_mod_eq same
  rwa [Nat.mod_eq_of_lt hm, Nat.mod_eq_of_lt hn] at this

/-- The number that little-endian bytes write. -/
def ofLittleEndian : List UInt8 → ℕ
  | [] => 0
  | byte :: bytes => byte.toNat + 256 * ofLittleEndian bytes

theorem ofLittleEndian_littleEndian (width n : ℕ) :
    ofLittleEndian (littleEndian width n) = n % 256 ^ width := by
  induction width generalizing n with
  | zero => simp [littleEndian, ofLittleEndian, Nat.mod_one]
  | succ width ih => simp [littleEndian, ofLittleEndian, ih, pow_succ', Nat.mod_mul]

theorem ofLittleEndian_lt (bytes : List UInt8) : ofLittleEndian bytes < 256 ^ bytes.length := by
  induction bytes with
  | nil => simp [ofLittleEndian]
  | cons byte bytes ih =>
      have bound : byte.toNat < 256 := byte.toNat_lt
      rw [ofLittleEndian, List.length_cons, pow_succ]
      omega

theorem littleEndian_ofLittleEndian (bytes : List UInt8) :
    littleEndian bytes.length (ofLittleEndian bytes) = bytes := by
  induction bytes with
  | nil => rfl
  | cons byte bytes ih =>
      have bound : byte.toNat < 256 := byte.toNat_lt
      have low : (byte.toNat + 256 * ofLittleEndian bytes) % 256 = byte.toNat := by omega
      have high : (byte.toNat + 256 * ofLittleEndian bytes) / 256 = ofLittleEndian bytes := by omega
      rw [ofLittleEndian, List.length_cons, littleEndian, high, ih]
      exact congrArg (· :: bytes) (UInt8.toNat_inj.mp ((UInt8.toNat_ofNat' ..).trans low))

/-! ## Concatenation of items of one width -/

section Width

variable {α β : Type*} {write : α → List β} {width : ℕ}

theorem flatMap_length_of_width (fixed : ∀ a, (write a).length = width) (items : List α) :
    (items.flatMap write).length = width * items.length := by
  induction items with
  | nil => simp
  | cons a items ih =>
      rw [List.flatMap_cons, List.length_append, ih, fixed, List.length_cons]
      ring

/-- Two concatenations of equally many items, each followed by a rest, have the same items and
the same rest. -/
theorem flatMap_append_inj (injective : Function.Injective write)
    (fixed : ∀ a, (write a).length = width) :
    ∀ {items items' : List α} {rest rest' : List β}, items.length = items'.length →
      items.flatMap write ++ rest = items'.flatMap write ++ rest' → items = items' ∧ rest = rest'
  | [], [], _, _, _, same => ⟨rfl, by simpa using same⟩
  | [], _ :: _, _, _, count, _ => by simp at count
  | _ :: _, [], _, _, count, _ => by simp at count
  | a :: items, a' :: items', rest, rest', count, same => by
      simp only [List.flatMap_cons, List.append_assoc] at same
      obtain ⟨head, tail⟩ := List.append_inj same (by rw [fixed, fixed])
      obtain ⟨rfl, rfl⟩ := flatMap_append_inj injective fixed (by simpa using count) tail
      exact ⟨by rw [injective head], rfl⟩

/-- **Items of one positive width are determined by their concatenation.** -/
theorem flatMap_injective_of_width (injective : Function.Injective write)
    (fixed : ∀ a, (write a).length = width) (positive : 0 < width) {items items' : List α}
    (same : items.flatMap write = items'.flatMap write) : items = items' := by
  have lengths := congrArg List.length same
  rw [flatMap_length_of_width fixed, flatMap_length_of_width fixed] at lengths
  have count := Nat.eq_of_mul_eq_mul_left positive lengths
  have both : items = items' ∧ ([] : List β) = [] :=
    flatMap_append_inj injective fixed count (by simpa using same)
  exact both.1

end Width

/-! ## Two concatenations, one after the other -/

section TwoWidths

variable {α β γ : Type*} {first : α → List γ} {second : β → List γ} {width width' : ℕ}

/-- The items written first by one side continue those of the other side, and the bytes of the
continuation are read by the other side as the beginning of its second list. -/
def Resplits (first : α → List γ) (second : β → List γ) (items items' : List α)
    (tail tail' : List β) : Prop :=
  ∃ extra more, extra ≠ [] ∧ items = items' ++ extra ∧ tail' = more ++ tail ∧
    extra.flatMap first = more.flatMap second

theorem Resplits.append_eq {items items' : List α} {tail tail' : List β}
    (resplits : Resplits first second items items' tail tail') :
    items.flatMap first ++ tail.flatMap second = items'.flatMap first ++ tail'.flatMap second := by
  obtain ⟨extra, more, -, rfl, rfl, same⟩ := resplits
  simp only [List.flatMap_append, List.append_assoc, same]

theorem Resplits.ne {items items' : List α} {tail tail' : List β}
    (resplits : Resplits first second items items' tail tail') : items ≠ items' := by
  obtain ⟨extra, more, nonempty, rfl, -, -⟩ := resplits
  simpa using nonempty

/-- With at least as many first items on the left, equal bytes are equal lists or a resplit. -/
theorem eq_or_resplits_of_le (injective : Function.Injective first)
    (injective' : Function.Injective second) (fixed : ∀ a, (first a).length = width)
    (fixed' : ∀ b, (second b).length = width') (positive' : 0 < width')
    {items items' : List α} {tail tail' : List β} (count : items'.length ≤ items.length)
    (same : items.flatMap first ++ tail.flatMap second =
      items'.flatMap first ++ tail'.flatMap second) :
    (items = items' ∧ tail = tail') ∨ Resplits first second items items' tail tail' := by
  obtain ⟨front, extra, rfl, long⟩ : ∃ front extra, items = front ++ extra ∧
      front.length = items'.length :=
    ⟨items.take items'.length, items.drop items'.length, (List.take_append_drop _ _).symm,
      List.length_take_of_le count⟩
  rw [List.flatMap_append, List.append_assoc] at same
  obtain ⟨rfl, rest⟩ := flatMap_append_inj injective fixed long same
  -- the lengths leave room on the right for the bytes of the extra items
  have lengths := congrArg List.length rest
  rw [List.length_append, flatMap_length_of_width fixed, flatMap_length_of_width fixed',
    flatMap_length_of_width fixed'] at lengths
  have shorter : tail.length ≤ tail'.length :=
    Nat.le_of_mul_le_mul_left (le_of_add_le_right (le_of_eq lengths)) positive'
  obtain ⟨more, back, rfl, long'⟩ : ∃ more back, tail' = more ++ back ∧
      back.length = tail.length :=
    ⟨tail'.take (tail'.length - tail.length), tail'.drop (tail'.length - tail.length),
      (List.take_append_drop _ _).symm, by rw [List.length_drop]; omega⟩
  rw [List.flatMap_append] at rest
  obtain ⟨bytes, tails⟩ := List.append_inj' rest (by
    rw [flatMap_length_of_width fixed', flatMap_length_of_width fixed', long'])
  obtain rfl := flatMap_injective_of_width injective' fixed' positive' tails
  by_cases empty : extra = []
  · subst empty
    obtain rfl : [] = more :=
      flatMap_injective_of_width injective' fixed' positive' (by simpa using bytes)
    exact .inl ⟨by simp, rfl⟩
  · exact .inr ⟨extra, more, empty, rfl, rfl, bytes⟩

/-- **Two lists of items of different widths, written one after the other, are determined up to
a resplit.** -/
theorem append_flatMap_eq_iff (injective : Function.Injective first)
    (injective' : Function.Injective second) (fixed : ∀ a, (first a).length = width)
    (fixed' : ∀ b, (second b).length = width') (positive' : 0 < width')
    (items items' : List α) (tail tail' : List β) :
    items.flatMap first ++ tail.flatMap second =
        items'.flatMap first ++ tail'.flatMap second ↔
      (items = items' ∧ tail = tail') ∨ Resplits first second items items' tail tail' ∨
        Resplits first second items' items tail' tail := by
  constructor
  · intro same
    rcases le_total items'.length items.length with count | count
    · exact (eq_or_resplits_of_le injective injective' fixed fixed' positive' count same).imp_right
        .inl
    · rcases eq_or_resplits_of_le injective injective' fixed fixed' positive' count same.symm with
        ⟨rfl, rfl⟩ | resplits
      · exact .inl ⟨rfl, rfl⟩
      · exact .inr (.inr resplits)
  · rintro (⟨rfl, rfl⟩ | resplits | resplits)
    · rfl
    · exact resplits.append_eq
    · exact resplits.append_eq.symm

end TwoWidths

end Tusk.Lib
