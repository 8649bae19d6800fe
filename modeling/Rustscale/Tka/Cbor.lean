import Rustscale.Lib.Cbor
import Rustscale.Tka.Aum

/-! The CBOR layer: a scan that bounds the input before it is decoded, the accessors of values, and
maps in key order. -/
namespace Rustscale.Tka
open Octets Bytes Checks Cbor Utf8

def maxNesting : ℕ := 16
def maxCborBytes : ℕ := 1024 * 1024
def maxArrayElements : ℕ := 4096
def maxMapPairs : ℕ := 1024

/-- Why bytes are not decoded. -/
inductive DecodeError where
  | cbor (reason : String)
  | inputTooLarge (bytes : ℕ)
  | tooManyArrayElements (limit : ℕ)
  | tooManyMapPairs (limit : ℕ)
  | notAMap
  | notAnArray
  | notBytes
  | notText
  | notUint
  | duplicateKey
  | missingField (field : ℕ)
  | nestingTooDeep (limit : ℕ)
  | invalidAumKind (kind : ℕ)
  | invalidSigKind (kind : ℕ)
  | invalidKeyKind (kind : ℕ)
  | typeMismatch (field : ℕ)
  deriving DecidableEq

def DecodeError.display : DecodeError → String
  | cbor reason => s!"CBOR deserialization failed: {reason}"
  | inputTooLarge bytes => s!"CBOR input is too large: {bytes} bytes"
  | tooManyArrayElements limit => s!"CBOR array exceeds {limit} elements"
  | tooManyMapPairs limit => s!"CBOR map exceeds {limit} pairs"
  | notAMap => "expected map"
  | notAnArray => "expected array"
  | notBytes => "expected bytes"
  | notText => "expected text"
  | notUint => "expected unsigned integer"
  | duplicateKey => "duplicate map key"
  | missingField field => s!"missing required field {field}"
  | nestingTooDeep limit => s!"CBOR nesting exceeds {limit} levels"
  | invalidAumKind kind => s!"invalid AUM kind: {kind}"
  | invalidSigKind kind => s!"invalid sig kind: {kind}"
  | invalidKeyKind kind => s!"invalid key kind: {kind}"
  | typeMismatch field => s!"type mismatch on field {field}"

/-- A big-endian number of `n` bytes and the input after it. -/
def readFixed (n : ℕ) (data : Bytes) : Except DecodeError (ℕ × Bytes) :=
  if n ≤ data.length then .ok (ofBytes .big (data.take n), data.drop n)
  else .error (.cbor "truncated argument")

/-- The major type and argument of the first item, and the input after its head. -/
def scanHead : Bytes → Except DecodeError (ℕ × ℕ × Bytes)
  | [] => .error (.cbor "truncated item")
  | initial :: rest =>
    let major := initial.toNat / 32
    match initial.toNat % 32 with
    | 24 => (readFixed 1 rest).map fun r => (major, r)
    | 25 => (readFixed 2 rest).map fun r => (major, r)
    | 26 => (readFixed 4 rest).map fun r => (major, r)
    | 27 => (readFixed 8 rest).map fun r => (major, r)
    | 31 => .error (.cbor "indefinite-length CBOR is forbidden")
    | value =>
      if value ≤ 23 then .ok (major, value, rest)
      else .error (.cbor "invalid additional information")

def times {α : Type} (n : ℕ) (step : α → Except DecodeError α) (a : α) : Except DecodeError α :=
  match n with
  | 0 => .ok a
  | n + 1 => do
    let a ← step a
    times n step a

/-- The input after its first item, with the number of levels left. -/
def scanCborItem : ℕ → Bytes → Except DecodeError Bytes
  | 0, _ => .error (.nestingTooDeep maxNesting)
  | levels + 1, data => do
    let (major, argument, rest) ← scanHead data
    match major with
    | 0 | 1 | 7 => .ok rest
    | 2 | 3 =>
      if argument ≤ rest.length then .ok (rest.drop argument)
      else .error (.cbor "declared string exceeds input")
    | 4 =>
      if maxArrayElements < argument then .error (.tooManyArrayElements maxArrayElements)
      else times argument (scanCborItem levels) rest
    | 5 =>
      if maxMapPairs < argument then .error (.tooManyMapPairs maxMapPairs)
      else times argument (fun r => scanCborItem levels r >>= scanCborItem levels) rest
    | 6 => .error (.cbor "CBOR tags are forbidden")
    | _ => .error (.cbor "invalid CBOR major type")

/-- What is taken from the CBOR library. -/
class Ciborium where
  intoWriter : Value → Bytes
  fromReader : Bytes → Except String Value
  /-- The order of integers by their canonical encoding. -/
  canonicalCmp : ℤ → ℤ → Ordering

def checkNesting : ℕ → Value → Except DecodeError Unit
  | 0, _ => .error (.nestingTooDeep maxNesting)
  | levels + 1, .map entries => entries.forM fun e => do
    checkNesting levels e.1
    checkNesting levels e.2
  | levels + 1, .array items => items.forM (checkNesting levels)
  | _ + 1, _ => .ok ()

section Values
variable [Ciborium]

/-- Decode bytes, rejecting what exceeds the limits. -/
def decodeValue (data : Bytes) : Except DecodeError Value := do
  ensure (!decide (maxCborBytes < data.length)) (.inputTooLarge data.length)
  let rest ← scanCborItem (maxNesting + 1) data
  ensure rest.isEmpty (.cbor "trailing data")
  let val ← (Ciborium.fromReader data).mapError .cbor
  checkNesting (maxNesting + 1) val
  pure val

def encodeValue (v : Value) : Bytes := Ciborium.intoWriter v

def canonicalKeyCmp : Value → Value → Ordering
  | .int a, .int b => Ciborium.canonicalCmp a b
  | .bytes a, .bytes b => (compare a.length b.length).then (compare a b)
  | .text a, .text b => (compare (utf8 a).length (utf8 b).length).then (compare a b)
  | .int _, _ => .lt
  | _, .int _ => .gt
  | .bytes _, _ => .lt
  | _, .bytes _ => .gt
  | .text _, _ => .lt
  | _, .text _ => .gt
  | _, _ => .eq

def sortByKey (entries : List (Value × Value)) : List (Value × Value) :=
  entries.insertionSort fun a b => canonicalKeyCmp a.1 b.1 ≠ .gt

end Values

/-- The pairs of the fields that are not left out. -/
def presentFields (fields : List (ℕ × Option Value)) : List (Value × Value) :=
  fields.filterMap fun f => f.2.map fun v => (.int f.1, v)

def canonicalMap [Ciborium] (fields : List (ℕ × Option Value)) : Value :=
  .map (sortByKey (presentFields fields))

def expectBytes : Value → Except DecodeError Bytes
  | .bytes b => .ok b
  | _ => .error .notBytes

def expectUint : Value → Except DecodeError ℕ
  | .int (.ofNat n) => if n < 2 ^ 64 then .ok n else .error .notUint
  | _ => .error .notUint

def expectKey : Value → Except DecodeError ℕ := expectUint

def setUnique {α : Type} (slot : Option α) (val : α) : Except DecodeError (Option α) :=
  if slot.isSome then .error .duplicateKey else .ok (some val)

end Rustscale.Tka
