import Mathlib.Data.Vector.Defs
import Tusk.Crypto
import Tusk.Lib.Base64

/-!
# Keys in base 64

Keys are written in base 64, in configuration files and inside network messages. To decode a key
the source takes a slice of the decoded bytes and converts it to an array. The conversion cannot
fail, since the slice has the length of the array: a text of fewer bytes makes the slice panic, and
of a longer one the rest is dropped. So keys are decoded as they should be from every text that
is not decoded to another number of bytes (`decodeBase64_exact_iff`).

Base 64 comes from a third-party crate and is a parameter. `none` stands for a panic.
-/

set_option autoImplicit false

namespace Tusk

open Lib

/-- Why a text is not base 64. -/
inductive DecodeError where
  | invalidByte (offset : ℕ) (byte : UInt8)
  | invalidLength
  | invalidLastSymbol (offset : ℕ) (byte : UInt8)
deriving DecidableEq

/-- The functions of the base 64 crate that the code calls. -/
structure Base64 where
  encode : List UInt8 → String
  decode : String → Except DecodeError (List UInt8)
  errorText : DecodeError → String

/-- The crate decodes exactly the encodings of byte strings. -/
def Base64.Exact (base64 : Base64) : Prop :=
  ∀ text bytes, base64.decode text = .ok bytes ↔ text = base64.encode bytes

/-! ## Slices and arrays -/

/-- The slice of the first `n` bytes. -/
def sliceTo (n : ℕ) (bytes : List UInt8) : Option (List UInt8) :=
  if n ≤ bytes.length then some (bytes.take n) else none

/-- Convert a slice to an array. -/
def tryInto (n : ℕ) (slice : List UInt8) : Option (List.Vector UInt8 n) :=
  if length : slice.length = n then some ⟨slice, length⟩ else none

/-- Decode an array of `n` bytes. -/
def decodeArray (base64 : Base64) (n : ℕ) (text : String) :
    Option (Except DecodeError (List.Vector UInt8 n)) :=
  match base64.decode text with
  | .error e => some (.error e)
  | .ok bytes => (sliceTo n bytes).map fun slice =>
      match tryInto n slice with
      | none => .error .invalidLength
      | some array => .ok array

/-- `Deserialize` of a key, from the text and the decoding of the key. -/
def deserializeText {α : Type} (base64 : Base64)
    (decode : String → Option (Except DecodeError α)) (text : String) :
    Option (Except String α) :=
  (decode text).map fun decoded => decoded.mapError base64.errorText

/-! ## Public keys -/

namespace PublicKey

def toArray (key : PublicKey) : List.Vector UInt8 32 := ⟨key.asRef, key.asRef_length⟩

/-- The key with the given bytes. -/
def ofArray (array : List.Vector UInt8 32) : PublicKey :=
  ⟨BitVec.ofNat 256 (ofLittleEndian array.toList.reverse)⟩

variable (base64 : Base64)

def encodeBase64 (key : PublicKey) : String := base64.encode key.asRef

def decodeBase64 (text : String) : Option (Except DecodeError PublicKey) :=
  (decodeArray base64 32 text).map fun decoded => decoded.map ofArray

def serialize (key : PublicKey) : String := key.encodeBase64 base64

def deserialize (text : String) : Option (Except String PublicKey) :=
  deserializeText base64 (decodeBase64 base64) text

end PublicKey

/-! ## Secret keys -/

/-- A secret key (64 bytes). -/
structure SecretKey where
  bytes : List.Vector UInt8 64

namespace SecretKey

variable (base64 : Base64)

def encodeBase64 (key : SecretKey) : String := base64.encode key.bytes.toList

def decodeBase64 (text : String) : Option (Except DecodeError SecretKey) :=
  (decodeArray base64 64 text).map fun decoded => decoded.map mk

def serialize (key : SecretKey) : String := key.encodeBase64 base64

def deserialize (text : String) : Option (Except String SecretKey) :=
  deserializeText base64 (decodeBase64 base64) text

end SecretKey

/-! ## What a text decodes to -/

section Decoding

variable {base64 : Base64} {n : ℕ} {text : String} {bytes : List UInt8}

theorem decodeArray_of_short (decoded : base64.decode text = .ok bytes) (short : bytes.length < n) :
    decodeArray base64 n text = none := by
  simp [decodeArray, decoded, sliceTo, short]

/-- From enough bytes the first `n` are taken. -/
theorem decodeArray_of_le (decoded : base64.decode text = .ok bytes) (long : n ≤ bytes.length) :
    ∃ array : List.Vector UInt8 n,
      decodeArray base64 n text = some (.ok array) ∧ array.toList = bytes.take n := by
  refine ⟨⟨bytes.take n, List.length_take_of_le long⟩, ?_, rfl⟩
  have slice : tryInto n (bytes.take n) =
      some ⟨bytes.take n, List.length_take_of_le long⟩ := dif_pos _
  simp only [decodeArray, decoded, sliceTo, if_pos long, Option.map_some, slice]

/-- An array is decoded from its encoding. -/
theorem decodeArray_encode (exact : base64.Exact) (array : List.Vector UInt8 n) :
    decodeArray base64 n (base64.encode array.toList) = some (.ok array) := by
  obtain ⟨array', decoded, taken⟩ :=
    decodeArray_of_le ((exact _ _).mpr rfl) array.toList_length.ge
  rw [List.take_of_length_le array.toList_length.le] at taken
  rw [decoded, List.Vector.eq _ _ taken]

/-- A text is decoded as it should be: without a panic, and to a key only if the text has the bytes
of the key, in the right number. -/
def DecodesExactly {α : Type} (base64 : Base64) (n : ℕ) (asRef : α → List UInt8) (text : String)
    (result : Option (Except DecodeError α)) : Prop :=
  result ≠ none ∧ ∀ key, result = some (.ok key) →
    base64.decode text = .ok (asRef key) ∧ (asRef key).length = n

section Keys

variable {α : Type} {asRef : α → List UInt8} {ofArray : List.Vector UInt8 n → α}

/-- Two texts for one key have the same bytes. -/
theorem DecodesExactly.unique {text' : String} {bytes' : List UInt8} {key : α}
    (exactly : DecodesExactly base64 n asRef text (some (.ok key)))
    (exactly' : DecodesExactly base64 n asRef text' (some (.ok key)))
    (decoded : base64.decode text = .ok bytes) (decoded' : base64.decode text' = .ok bytes') :
    bytes = bytes' := by
  rw [(exactly.2 key rfl).1] at decoded
  rw [(exactly'.2 key rfl).1] at decoded'
  cases decoded
  cases decoded'
  rfl

/-- **A key is decoded as it should be from a text that the crate does not decode to another number of
bytes**, and from no other. -/
theorem decodesExactly_iff_length
    (asRef_ofArray : ∀ array, asRef (ofArray array) = array.toList) (text : String) :
    DecodesExactly base64 n asRef text
        ((decodeArray base64 n text).map fun decoded => decoded.map ofArray) ↔
      ∀ bytes, base64.decode text = .ok bytes → bytes.length = n := by
  constructor
  · rintro ⟨noPanic, exactly⟩ bytes decoded
    rcases Nat.lt_or_ge bytes.length n with short | long
    · -- the slice panics
      exact absurd (congrArg _ (decodeArray_of_short decoded short)) noPanic
    · obtain ⟨array, isArray, -⟩ := decodeArray_of_le decoded long
      rw [isArray] at exactly
      obtain ⟨isBytes, length⟩ := exactly (ofArray array) rfl
      rw [decoded, Except.ok.injEq] at isBytes
      rw [isBytes, length]
  · intro right
    cases decoded : base64.decode text with
    | error e =>
        have rejected : decodeArray base64 n text = some (.error e) := by simp [decodeArray, decoded]
        rw [rejected]
        exact ⟨Option.some_ne_none _, fun key isKey => by cases isKey⟩
    | ok bytes =>
        have length := right bytes decoded
        obtain ⟨array, isArray, taken⟩ := decodeArray_of_le decoded length.ge
        rw [List.take_of_length_le length.le] at taken
        rw [isArray]
        refine ⟨Option.some_ne_none _, fun key isKey => ?_⟩
        cases isKey
        rw [asRef_ofArray, taken]
        exact ⟨decoded, length⟩

/-- What the crate decodes is what was encoded. -/
theorem Base64.Exact.decode_iff (exact : base64.Exact) :
    (∀ bytes, base64.decode text = .ok bytes → bytes.length = n) ↔
      ∀ bytes, text = base64.encode bytes → bytes.length = n :=
  forall_congr' fun bytes => imp_congr_left (exact text bytes)

end Keys

end Decoding

/-! ## Keys -/

namespace PublicKey

theorem ofArray_toArray (key : PublicKey) : ofArray key.toArray = key := by
  rcases key with ⟨word⟩
  refine congrArg PublicKey.mk (BitVec.eq_of_toNat_eq ?_)
  have bound : word.toNat < 2 ^ 256 := word.isLt
  rw [toArray, List.Vector.toList_mk, asRef, wordBytes, List.reverse_reverse,
    ofLittleEndian_littleEndian, BitVec.toNat_ofNat, show 256 ^ 32 = 2 ^ 256 by norm_num,
    Nat.mod_mod, Nat.mod_eq_of_lt bound]

theorem asRef_ofArray (array : List.Vector UInt8 32) : (ofArray array).asRef = array.toList := by
  have length : array.toList.reverse.length = 32 := by simp
  have bound := ofLittleEndian_lt array.toList.reverse
  rw [length, show 256 ^ 32 = 2 ^ 256 by norm_num] at bound
  rw [asRef, ofArray, wordBytes, BitVec.toNat_ofNat, Nat.mod_eq_of_lt bound]
  have back := littleEndian_ofLittleEndian array.toList.reverse
  rw [length] at back
  rw [back, List.reverse_reverse]

end PublicKey

section Decoders

variable {base64 : Base64}

/-- **Keys are decoded as they should be from the texts that are not decoded to another number of
bytes.** If the crate decodes exactly the encodings of byte strings these are the texts that do not encode
another number of bytes, and the encodings of keys are decoded to the keys. -/
theorem decodeBase64_exact_iff (base64 : Base64) :
    (∀ text,
      (DecodesExactly base64 32 PublicKey.asRef text (PublicKey.decodeBase64 base64 text) ↔
        ∀ bytes, base64.decode text = .ok bytes → bytes.length = 32) ∧
      (DecodesExactly base64 64 (fun key : SecretKey => key.bytes.toList) text
          (SecretKey.decodeBase64 base64 text) ↔
        ∀ bytes, base64.decode text = .ok bytes → bytes.length = 64)) ∧
    (base64.Exact →
      (∀ key : PublicKey,
        PublicKey.decodeBase64 base64 (key.encodeBase64 base64) = some (.ok key)) ∧
      (∀ key : SecretKey,
        SecretKey.decodeBase64 base64 (key.encodeBase64 base64) = some (.ok key)) ∧
      ∀ text,
        (DecodesExactly base64 32 PublicKey.asRef text (PublicKey.decodeBase64 base64 text) ↔
          ∀ bytes, text = base64.encode bytes → bytes.length = 32) ∧
        (DecodesExactly base64 64 (fun key : SecretKey => key.bytes.toList) text
            (SecretKey.decodeBase64 base64 text) ↔
          ∀ bytes, text = base64.encode bytes → bytes.length = 64)) := by
  have publicKeys : ∀ text,
      DecodesExactly base64 32 PublicKey.asRef text (PublicKey.decodeBase64 base64 text) ↔
        ∀ bytes, base64.decode text = .ok bytes → bytes.length = 32 :=
    decodesExactly_iff_length PublicKey.asRef_ofArray
  have secretKeys : ∀ text,
      DecodesExactly base64 64 (fun key : SecretKey => key.bytes.toList) text
          (SecretKey.decodeBase64 base64 text) ↔
        ∀ bytes, base64.decode text = .ok bytes → bytes.length = 64 :=
    decodesExactly_iff_length fun _ => rfl
  refine ⟨fun text => ⟨publicKeys text, secretKeys text⟩, fun exact => ⟨fun key => ?_, fun key => ?_,
    fun text => ⟨(publicKeys text).trans exact.decode_iff,
      (secretKeys text).trans exact.decode_iff⟩⟩⟩
  · have decoded := decodeArray_encode exact key.toArray
    rw [PublicKey.toArray, List.Vector.toList_mk] at decoded
    rw [PublicKey.encodeBase64, PublicKey.decodeBase64, decoded]
    exact congrArg (fun k => some (Except.ok k)) key.ofArray_toArray
  · rw [SecretKey.encodeBase64, SecretKey.decodeBase64, decodeArray_encode exact]
    rfl

/-- Deserializing a key gives what decoding it gives, with the text of the error. -/
theorem deserialize_eq_none_iff (text : String) :
    (PublicKey.deserialize base64 text = none ↔ PublicKey.decodeBase64 base64 text = none) ∧
      (SecretKey.deserialize base64 text = none ↔ SecretKey.decodeBase64 base64 text = none) := by
  simp [PublicKey.deserialize, SecretKey.deserialize, deserializeText]

end Decoders

/-! ## Texts of other lengths -/

/-- A crate that reports every text that is not an encoding alike. -/
def canonical : Base64 where
  encode := Lib.Base64.encode
  decode text := match Lib.Base64.decode text with
    | none => .error .invalidLength
    | some bytes => .ok bytes
  errorText _ := "Encoded text cannot have a 6-bit remainder."

theorem canonical_exact : canonical.Exact := by
  intro text bytes
  refine Iff.trans ?_ Lib.Base64.decode_eq_some_iff
  cases decoded : Lib.Base64.decode text <;> simp [canonical, decoded]

/-- The theorem on the text `AQID`, of three bytes. -/
theorem decodeBase64_exact_short :
    canonical.Exact ∧
      (DecodesExactly canonical 32 PublicKey.asRef "AQID" (PublicKey.decodeBase64 canonical "AQID") ↔
        ∀ bytes, "AQID" = canonical.encode bytes → bytes.length = 32) :=
  ⟨canonical_exact, (((decodeBase64_exact_iff canonical).2 canonical_exact).2.2 "AQID").1⟩

/-- **A short text makes the decoders panic, and the end of a long one is dropped.** -/
theorem decodeBase64_inexact :
    PublicKey.decodeBase64 canonical "AQID" = none ∧
      SecretKey.decodeBase64 canonical "AQID" = none ∧
      ∃ bytes bytes' : List UInt8, bytes.length ≠ bytes'.length ∧ ∃ key,
        PublicKey.decodeBase64 canonical (canonical.encode bytes) = some (.ok key) ∧
        PublicKey.decodeBase64 canonical (canonical.encode bytes') = some (.ok key) := by
  have short : canonical.decode "AQID" = .ok [1, 2, 3] :=
    (canonical_exact _ _).mpr (by decide)
  refine ⟨?_, ?_, List.replicate 32 0, List.replicate 33 0, by decide, ?_⟩
  · rw [PublicKey.decodeBase64, decodeArray_of_short short (by decide)]
    rfl
  · rw [SecretKey.decodeBase64, decodeArray_of_short short (by decide)]
    rfl
  · obtain ⟨array, decoded, taken⟩ := decodeArray_of_le (n := 32)
      ((canonical_exact _ (List.replicate 32 0)).mpr rfl) (by decide)
    obtain ⟨array', decoded', taken'⟩ := decodeArray_of_le (n := 32)
      ((canonical_exact _ (List.replicate 33 0)).mpr rfl) (by decide)
    have same : array' = array := List.Vector.eq _ _ (taken'.trans taken.symm)
    refine ⟨PublicKey.ofArray array, ?_, ?_⟩
    · rw [PublicKey.decodeBase64, decoded]
      rfl
    · rw [PublicKey.decodeBase64, decoded', same]
      rfl

end Tusk
