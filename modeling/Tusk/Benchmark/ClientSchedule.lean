import Mathlib.Data.Int.Log
import Mathlib.Data.Rat.Floor
import Tusk.Lib.HashMap
import Tusk.Lib.Ranking
import Tusk.Lib.Results
import Tusk.Primary.Adversary

/-!
# The schedule of the benchmark clients

The benchmark clients pause while their authority is silent. A Python script computes beforehand when
that is: `buildClientSchedules` gives each authority a string with one character for each round, `1`
where it is silent. The first part states what the script uses of Python and its library.
-/

set_option autoImplicit false

namespace Tusk.Benchmark

open Lib

/-! ## Python -/

/-- The exceptions a script may raise. -/
inductive Raised where
  | valueError (message : String)
  | overflowError (message : String)
deriving DecidableEq

/-- The six bits of a letter of base 64. -/
def sixBits (letter : Char) : Option ℕ :=
  if 'A' ≤ letter ∧ letter ≤ 'Z' then some (letter.toNat - 65)
  else if 'a' ≤ letter ∧ letter ≤ 'z' then some (letter.toNat - 71)
  else if '0' ≤ letter ∧ letter ≤ '9' then some (letter.toNat + 4)
  else if letter = '+' then some 62
  else if letter = '/' then some 63
  else none

/-- `binascii.a2b_base64`, from a state of its loop. Letters that do not belong to base 64 are skipped,
and what follows a complete padding is not read. -/
def a2bBase64 : List Char → ℕ → ℕ → ℕ → List UInt8 → Except Raised (List UInt8)
  | [], quadPos, _, _, data =>
      if quadPos = 0 then
        .ok data
      else if quadPos = 1 then
        .error (.valueError ("Invalid base64-encoded string: number of data characters (" ++
          toString (data.length / 3 * 4 + 1) ++ ") cannot be 1 more than a multiple of 4"))
      else
        .error (.valueError "Incorrect padding")
  | letter :: rest, quadPos, leftchar, pads, data =>
      if letter = '=' then
        if 2 ≤ quadPos then
          if 4 ≤ quadPos + (pads + 1) then .ok data
          else a2bBase64 rest quadPos leftchar (pads + 1) data
        else
          a2bBase64 rest quadPos leftchar pads data
      else
        match sixBits letter with
        | none => a2bBase64 rest quadPos leftchar pads data
        | some bits =>
            match quadPos with
            | 0 => a2bBase64 rest 1 bits 0 data
            | 1 => a2bBase64 rest 2 (bits % 16) 0 (data ++ [UInt8.ofNat (leftchar * 4 + bits / 16)])
            | 2 => a2bBase64 rest 3 (bits % 4) 0 (data ++ [UInt8.ofNat (leftchar * 16 + bits / 4)])
            | _ => a2bBase64 rest 0 0 0 (data ++ [UInt8.ofNat (leftchar * 64 + bits)])

/-- `b64decode` of a text. -/
def b64decode (text : String) : Except Raised (List UInt8) :=
  if text.toList.any fun letter => decide (127 < letter.toNat) then
    .error (.valueError "string argument should contain only ASCII characters")
  else
    a2bBase64 text.toList 0 0 0 []

/-- The `binary64` number closest to a rational, and of two the one with the even significand. -/
def binary64 (q : ℚ) : ℚ :=
  let unit : ℚ := 2 ^ max (Int.log 2 |q| - 52) (-1074)
  let below := Int.floor (q / unit)
  let rest := q / unit - below
  let significand :=
    if rest < 1 / 2 then below
    else if 1 / 2 < rest then below + 1
    else if below % 2 = 0 then below
    else below + 1
  significand * unit

/-- The true division of integers, rounded once. -/
def trueDivide (a b : ℤ) : Except Raised ℚ :=
  let quotient := binary64 (a / b)
  if |quotient| < 2 ^ 1024 then .ok quotient
  else .error (.overflowError "integer division result too large for a float")

/-- `to_bytes(8, 'little')` of a number that is not negative. -/
def toBytes (n : ℕ) : Except Raised (List UInt8) :=
  if n < 2 ^ 64 then .ok (littleEndian 8 n) else .error (.overflowError "int too big to convert")

/-! ## The script -/

/-- The environment variables that the script reads: the text of `TUSK_CLIENT_DURING_SILENCE`, and the
integer that `TUSK_ADVERSARY_SEED` writes. -/
structure Environ where
  clientDuringSilence : Option String
  adversarySeed : Option ℤ

/-- A key of 32 bytes. -/
def keyOfBytes (raw : List UInt8) : PublicKey := ⟨BitVec.ofNat 256 (ofLittleEndian raw.reverse)⟩

section Script

variable [Primitives]

/-- `_score` -/
def score (authority : PublicKey) (roundNumber seed : ℕ) (domain : UInt8) :
    Except Raised Digest := do
  let seed ← toBytes seed
  let roundNumber ← toBytes roundNumber
  return Primitives.sha512 (Adversary.domainTag ++ seed ++ roundNumber ++ [domain] ++ authority.asRef)

/-- The candidates, sorted by their score in a round and then by key. -/
def sortedByScore (candidates : List PublicKey) (roundNumber seed : ℕ) :
    Except Raised (List PublicKey) := do
  let keyed ← candidates.mapM fun key => return (← score key roundNumber seed 0, key)
  return (sortByKey toLex keyed).map Prod.snd

/-- The leader rounds of the window of an even round that have a silent leader. -/
def silentLeaderRounds (ordered : List PublicKey) (roundNumber faults seed : ℕ) :
    Except Raised (List ℕ) := do
  let window := 3 * faults + 1
  let ordinal := roundNumber / 2
  let windowStart := (max ordinal 1 - 1) / window * window + 1
  let leaderSlots ← (List.range window).mapM fun offset => do
    let candidateRound := 2 * (windowStart + offset)
    let leader := ordered.getD (candidateRound % ordered.length) default
    return (← score leader candidateRound seed 2, candidateRound)
  return ((sortByKey toLex leaderSlots).take faults).map Prod.snd

/-- The authorities that are silent in a round. -/
def silentIn (ordered : List PublicKey) (roundNumber faults seed : ℕ) :
    Except Raised (List PublicKey) := do
  if 0 < faults ∧ roundNumber % 2 = 0 then
    let silentLeaderRounds ← silentLeaderRounds ordered roundNumber faults seed
    let leader := ordered.getD (roundNumber % ordered.length) default
    let leaderIsSilent := decide (roundNumber ∈ silentLeaderRounds)
    let candidates := ordered.filter fun key => decide (key ≠ leader)
    let selected := (← sortedByScore candidates roundNumber seed).take
      (faults - leaderIsSilent.toNat)
    return if leaderIsSilent then leader :: selected else selected
  else
    return (← sortedByScore ordered roundNumber seed).take faults

/-- What a round adds to the schedules. -/
def appendRound (authorities : List (String × PublicKey)) (pause : Bool) (selected : List PublicKey)
    (schedules : HashMap String (List Char)) : HashMap String (List Char) :=
  authorities.foldl (fun schedules entry =>
    let silent := pause && selected.contains entry.2
    HashMap.upsert schedules entry.1 fun bits =>
      bits.getD [] ++ [if silent then '1' else '0']) schedules

/-- The number of rounds of a schedule. -/
def slotCount (duration slotMs : ℤ) : Except Raised ℤ :=
  (trueDivide (duration * 1000 + 5000) slotMs).map Int.ceil

/-- `build_client_schedules`. A schedule is the list of the characters of its string. -/
def buildClientSchedules (environ : Environ) (names : List String) (faults duration slotMs : ℤ) :
    Except Raised (HashMap String (List Char)) := do
  let mode := (environ.clientDuringSilence.getD "pause").toList.map Char.toLower
  if mode ≠ "send".toList ∧ mode ≠ "pause".toList then
    throw (.valueError "TUSK_CLIENT_DURING_SILENCE must be send or pause")
  let seed := environ.adversarySeed.getD 0
  if seed < 0 ∨ 2 ^ 64 - 1 < seed then
    throw (.valueError "TUSK_ADVERSARY_SEED must be an unsigned 64-bit integer")
  if slotMs ≤ 0 then
    throw (.valueError "TUSK_CLIENT_SILENCE_SLOT_MS must be positive")
  let decoded ← names.mapM fun name => return (name, ← b64decode name)
  if decoded.any fun entry => decide (entry.2.length ≠ 32) then
    throw (.valueError "Invalid authority public key")
  let authorities := decoded.map fun entry => (entry.1, keyOfBytes entry.2)
  let ordered := (authorities.map Prod.snd).insertionSort (· ≤ ·)
  let faults := (min (max faults 0) ordered.length).toNat
  let slots ← slotCount duration slotMs
  (List.range' 1 slots.toNat).foldlM (fun schedules roundNumber => do
    let selected ← silentIn ordered roundNumber faults seed.toNat
    return appendRound authorities (decide (mode = "pause".toList)) selected schedules)
    (HashMap.ofList (names.map fun name => (name, [])))

end Script

end Tusk.Benchmark
