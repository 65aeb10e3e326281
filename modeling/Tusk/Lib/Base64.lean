import Mathlib.Data.List.Basic
import Mathlib.Tactic.IntervalCases

/-!
# Base 64

Three bytes are written as four letters, and what is left at the end is padded. A text is decoded
to the bytes it encodes and to nothing when it encodes none, so the decoder accepts exactly the
encodings (`decode_eq_some_iff`).
-/

set_option autoImplicit false

namespace Tusk.Lib.Base64

/-- The letters, in the order of the six bits they stand for. -/
def alphabet : List Char :=
  "ABCDEFGHIJKLMNOPQRSTUVWXYZabcdefghijklmnopqrstuvwxyz0123456789+/".toList

/-- The letter of six bits. -/
def letter (bits : ℕ) : Char := alphabet.getD bits 'A'

/-- The six bits of a letter. -/
def sixBits (c : Char) : ℕ := alphabet.idxOf c

theorem sixBits_letter {bits : ℕ} (bound : bits < 64) : sixBits (letter bits) = bits := by
  interval_cases bits <;> decide

theorem letter_ne_padding {bits : ℕ} (bound : bits < 64) : letter bits ≠ '=' := by
  interval_cases bits <;> decide

/-- The letters of bytes. -/
def letters : List UInt8 → List Char
  | a :: b :: c :: rest =>
      letter (a.toNat / 4) :: letter (a.toNat % 4 * 16 + b.toNat / 16) ::
        letter (b.toNat % 16 * 4 + c.toNat / 64) :: letter (c.toNat % 64) :: letters rest
  | [a, b] =>
      [letter (a.toNat / 4), letter (a.toNat % 4 * 16 + b.toNat / 16), letter (b.toNat % 16 * 4), '=']
  | [a] => [letter (a.toNat / 4), letter (a.toNat % 4 * 16), '=', '=']
  | [] => []

/-- The bytes that groups of six bits fill. -/
def fill : List ℕ → List UInt8
  | w :: x :: y :: z :: rest =>
      .ofNat (w * 4 + x / 16) :: .ofNat (x % 16 * 16 + y / 4) :: .ofNat (y % 4 * 64 + z) :: fill rest
  | [w, x, y] => [.ofNat (w * 4 + x / 16), .ofNat (x % 16 * 16 + y / 4)]
  | [w, x] => [.ofNat (w * 4 + x / 16)]
  | _ => []

/-- The groups of six bits of a text, without its padding. -/
def groups (text : List Char) : List ℕ := (text.filter fun c => c ≠ '=').map sixBits

/-- The bytes that the letters of a text fill. -/
def read (text : List Char) : List UInt8 := fill (groups text)

@[simp] theorem groups_nil : groups [] = [] := rfl

@[simp] theorem groups_padding (text : List Char) : groups ('=' :: text) = groups text := rfl

theorem groups_letter {bits : ℕ} (bound : bits < 64) (text : List Char) :
    groups (letter bits :: text) = bits :: groups text := by
  rw [groups, List.filter_cons_of_pos (by simpa using letter_ne_padding bound), List.map_cons,
    sixBits_letter bound]
  rfl

theorem ofNat_of_eq {n : ℕ} {a : UInt8} (same : n = a.toNat) : UInt8.ofNat n = a := by
  rw [same, UInt8.ofNat_toNat]

/-- Reading gives back what was written. -/
theorem read_letters (bytes : List UInt8) : read (letters bytes) = bytes := by
  unfold read
  fun_induction letters bytes with
  | case1 a b c rest ih =>
      have ha := a.toNat_lt
      have hb := b.toNat_lt
      have hc := c.toNat_lt
      rw [groups_letter (by omega), groups_letter (by omega), groups_letter (by omega),
        groups_letter (by omega), fill, ih, ofNat_of_eq (a := a) (by omega),
        ofNat_of_eq (a := b) (by omega), ofNat_of_eq (a := c) (by omega)]
  | case2 a b =>
      have ha := a.toNat_lt
      have hb := b.toNat_lt
      rw [groups_letter (by omega), groups_letter (by omega), groups_letter (by omega),
        groups_padding, groups_nil, fill, ofNat_of_eq (a := a) (by omega),
        ofNat_of_eq (a := b) (by omega)]
  | case3 a =>
      have ha := a.toNat_lt
      rw [groups_letter (by omega), groups_letter (by omega), groups_padding, groups_padding,
        groups_nil, fill, ofNat_of_eq (a := a) (by omega)]
  | case4 => rfl

/-- Base 64 of bytes. -/
def encode (bytes : List UInt8) : String := String.ofList (letters bytes)

/-- The bytes that a text encodes, if any. -/
def decode (text : String) : Option (List UInt8) :=
  if encode (read text.toList) = text then some (read text.toList) else none

/-- **The decoder accepts exactly the encodings.** -/
theorem decode_eq_some_iff {text : String} {bytes : List UInt8} :
    decode text = some bytes ↔ text = encode bytes := by
  unfold decode
  constructor
  · intro decoded
    split_ifs at decoded with same
    cases decoded
    exact same.symm
  · rintro rfl
    have same : read (encode bytes).toList = bytes := by
      rw [encode, String.toList_ofList, read_letters]
    simp [same]

end Tusk.Lib.Base64
