import Tusk.Primary.Messages

/-!
# What a header id commits to

The digest of a header is computed from its author, its round, its payload entries of 36 bytes
and its parents of 32 bytes, with no count and no separator between the two lists. Two headers
have the same bytes exactly when they have the same content, or when the last payload entries
of one are the bytes of the first parents of the other (`hashInput_eq_iff`). Eight payload
entries are as long as nine parents, so the second case occurs (`payloadHeader`,
`parentsHeader`).
-/

set_option autoImplicit false

namespace Tusk

open Lib

namespace Header

/-- The same author, round, payload and parents. -/
def SameContent (header other : Header) : Prop :=
  header.author = other.author ∧ header.round = other.round ∧
    header.payload = other.payload ∧ header.parents = other.parents

/-- The last payload entries of one header have the bytes of the first parents of the other, and
the two headers agree otherwise. -/
def Resplit (header other : Header) : Prop :=
  header.author = other.author ∧ header.round = other.round ∧
    Resplits payloadBytes Digest.asRef header.payload.entries other.payload.entries
      header.parents.toList other.parents.toList

theorem payloadBytes_length (entry : Digest × WorkerId) : (payloadBytes entry).length = 36 := by
  simp [payloadBytes]

theorem payloadBytes_injective : Function.Injective payloadBytes := by
  rintro ⟨digest, workerId⟩ ⟨digest', workerId'⟩ same
  obtain ⟨digests, ids⟩ := List.append_inj same (by simp)
  have bound : ∀ id : WorkerId, id.toNat < 256 ^ 4 := fun id => id.toNat_lt
  rw [Prod.mk.injEq]
  exact ⟨Digest.asRef_injective digests,
    UInt32.toNat_inj.mp (littleEndian_inj (bound workerId) (bound workerId') ids)⟩

/-- A resplit takes eight payload entries for nine parents. -/
theorem Resplit.counts {header other : Header} (resplit : header.Resplit other) :
    ∃ t, 0 < t ∧
      header.payload.entries.length = other.payload.entries.length + 8 * t ∧
      other.parents.toList.length = header.parents.toList.length + 9 * t := by
  obtain ⟨-, -, extra, more, nonempty, payload, parents, bytes⟩ := resplit
  have lengths := congrArg List.length bytes
  rw [flatMap_length_of_width payloadBytes_length,
    flatMap_length_of_width Digest.asRef_length] at lengths
  have positive := List.length_pos_iff.mpr nonempty
  refine ⟨extra.length / 8, by omega, ?_, ?_⟩
  · rw [payload, List.length_append]
    omega
  · rw [parents, List.length_append]
    omega

/-- The fixed part of the bytes and the two lists after it. -/
theorem hashInput_split (header : Header) :
    header.hashInput = (header.author.asRef ++ littleEndian 8 header.round) ++
      (header.payload.entries.flatMap payloadBytes ++
        header.parents.toList.flatMap Digest.asRef) := by
  simp only [hashInput, List.append_assoc]

/-- **Two headers have the same bytes when they have the same content or resplit.** -/
theorem hashInput_eq_iff {header other : Header} :
    header.hashInput = other.hashInput ↔
      header.SameContent other ∨ header.Resplit other ∨ other.Resplit header := by
  have lists := append_flatMap_eq_iff payloadBytes_injective Digest.asRef_injective
    payloadBytes_length Digest.asRef_length (by decide) header.payload.entries
    other.payload.entries header.parents.toList other.parents.toList
  rw [hashInput_split, hashInput_split]
  constructor
  · intro same
    obtain ⟨front, rest⟩ := List.append_inj same (by simp)
    obtain ⟨authors, rounds⟩ := List.append_inj front (by simp)
    have author := PublicKey.asRef_injective authors
    have round : header.round = other.round :=
      littleEndian_inj (by simpa using header.round_lt) (by simpa using other.round_lt) rounds
    rcases lists.mp rest with ⟨payload, parents⟩ | resplits | resplits
    · exact .inl ⟨author, round, BTreeMap.ext payload, BTreeSet.ext parents⟩
    · exact .inr (.inl ⟨author, round, resplits⟩)
    · exact .inr (.inr ⟨author.symm, round.symm, resplits⟩)
  · rintro (⟨author, round, payload, parents⟩ | ⟨author, round, resplits⟩ |
      ⟨author, round, resplits⟩)
    · rw [author, round, payload, parents]
    · rw [author, round, resplits.append_eq]
    · rw [author, round, resplits.append_eq]

theorem Resplit.not_sameContent {header other : Header} (resplit : header.Resplit other) :
    ¬ header.SameContent other := fun same =>
  resplit.2.2.ne (congrArg BTreeMap.entries same.2.2.1)

/-- **The bytes determine the content exactly when neither header resplits into the other.** -/
theorem content_determined_iff (header other : Header) :
    (header.hashInput = other.hashInput → header.SameContent other) ↔
      ¬ header.Resplit other ∧ ¬ other.Resplit header := by
  constructor
  · intro determined
    refine ⟨fun resplit => ?_, fun resplit => ?_⟩
    · exact resplit.not_sameContent (determined (hashInput_eq_iff.mpr (.inr (.inl resplit))))
    · have same := determined (hashInput_eq_iff.mpr (.inr (.inr resplit)))
      exact resplit.not_sameContent ⟨same.1.symm, same.2.1.symm, same.2.2.1.symm, same.2.2.2.symm⟩
  · rintro ⟨forward, backward⟩ same
    rcases hashInput_eq_iff.mp same with content | resplit | resplit
    · exact content
    · exact absurd resplit forward
    · exact absurd resplit backward

/-! ## Two headers with one id -/

/-- The batch digests of `payloadHeader`, whose bytes are those of `confusedParents`. -/
def confusedPayload : List (Digest × WorkerId) :=
  (List.range 8).map fun j =>
    (⟨BitVec.ofNat 256 (j * 256 ^ 31 + if 0 < j then (j + 1) * 256 ^ (4 * j - 1) else 0)⟩,
      if j = 0 then 1 else 0)

/-- The parents of `parentsHeader`. -/
def confusedParents : List Digest :=
  (List.range 9).map fun i =>
    ⟨BitVec.ofNat 256 (i * 256 ^ 31 + if i < 8 then i * 256 ^ (31 - 4 * i) else 0)⟩

/-- A header of round 2 with eight batches and one parent. -/
def payloadHeader : Header where
  author := ⟨1⟩
  round := 2
  payload := ⟨confusedPayload, by decide⟩
  parents := ⟨[⟨BitVec.ofNat 256 (9 * 256 ^ 31)⟩], by decide⟩
  id := default
  signature := default

/-- A header of round 2 with no batch and ten parents. -/
def parentsHeader : Header where
  author := ⟨1⟩
  round := 2
  payload := ∅
  parents := ⟨confusedParents ++ [⟨BitVec.ofNat 256 (9 * 256 ^ 31)⟩], by decide⟩
  id := default
  signature := default

/-- **The id does not determine the header.** -/
theorem content_not_determined :
    ¬ ∀ header other : Header, header.hashInput = other.hashInput → header.SameContent other := by
  intro determined
  have same := determined payloadHeader parentsHeader (by decide +kernel)
  exact absurd (congrArg (fun m => m.entries.length) same.2.2.1) (by decide)

end Header

end Tusk
