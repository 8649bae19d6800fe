import Rustscale.Lib.Bytes
import Rustscale.Lib.Utf8

/-! CBOR of definite length: values, their encoding with the shortest heads, and a reader of heads
of any width. -/
namespace Cbor
open Octets Bytes List Utf8

inductive Simple where
  | null
  | other
  deriving DecidableEq

/-- What a well-formed item says. -/
inductive Value where
  | int (n : ℤ)
  | bytes (b : List Byte)
  | text (s : String)
  | array (items : List Value)
  | map (entries : List (Value × Value))
  | simple (x : Simple)

/-- The number of argument bytes after the first byte of a head. -/
def width : ℕ → Option ℕ
  | 24 => some 1
  | 25 => some 2
  | 26 => some 4
  | 27 => some 8
  | _ => none

/-- The shortest head of a major type with an argument below `2 ^ 64`. -/
def head (major argument : ℕ) : List Byte :=
  if argument < 24 then [BitVec.ofNat 8 (major * 32 + argument)]
  else if argument < 256 ^ 1 then BitVec.ofNat 8 (major * 32 + 24) :: toBytes .big 1 argument
  else if argument < 256 ^ 2 then BitVec.ofNat 8 (major * 32 + 25) :: toBytes .big 2 argument
  else if argument < 256 ^ 4 then BitVec.ofNat 8 (major * 32 + 26) :: toBytes .big 4 argument
  else BitVec.ofNat 8 (major * 32 + 27) :: toBytes .big 8 argument

/-- The first bytes of an item: major type, additional information, argument, and the rest. -/
structure Head where
  major : ℕ
  additional : ℕ
  argument : ℕ
  rest : List Byte
  deriving DecidableEq

/-- The head with the given additional information, whose argument is in `rest`. -/
def readArgument (major additional : ℕ) (rest : List Byte) : Option Head :=
  if additional < 24 then some ⟨major, additional, additional, rest⟩
  else
    match width additional with
    | none => none
    | some w =>
      if w ≤ rest.length then some ⟨major, additional, ofBytes .big (rest.take w), rest.drop w⟩
      else none

def readHead : List Byte → Option Head
  | [] => none
  | initial :: rest => readArgument (initial.toNat / 32) (initial.toNat % 32) rest

mutual

def write : Value → List Byte
  | .int n => if 0 ≤ n then head 0 n.toNat else head 1 (-1 - n).toNat
  | .bytes b => head 2 b.length ++ b
  | .text s => head 3 (utf8 s).length ++ utf8 s
  | .array items => head 4 items.length ++ writeItems items
  | .map entries => head 5 entries.length ++ writeEntries entries
  | .simple .null => head 7 22
  | .simple .other => head 7 23

def writeItems : List Value → List Byte
  | [] => []
  | v :: items => write v ++ writeItems items

def writeEntries : List (Value × Value) → List Byte
  | [] => []
  | (k, v) :: entries => write k ++ write v ++ writeEntries entries

end

def readMany {α : Type} (item : List Byte → Option (α × List Byte)) :
    ℕ → List Byte → Option (List α × List Byte)
  | 0, data => some ([], data)
  | n + 1, data =>
    (item data).bind fun r => (readMany item n r.2).map fun rs => (r.1 :: rs.1, rs.2)

def readPair {α : Type} (item : List Byte → Option (α × List Byte)) (data : List Byte) :
    Option ((α × α) × List Byte) :=
  (item data).bind fun k => (item k.2).map fun v => ((k.1, v.1), v.2)

/-- A string of the given length, as `f` understands it. -/
def readString (f : List Byte → Option Value) (length : ℕ) (rest : List Byte) :
    Option (Value × List Byte) :=
  if length ≤ rest.length then (f (rest.take length)).map fun v => (v, rest.drop length) else none

/-- The first value and the input after it, with at most `levels` nested values. `simple` says what
a simple value stands for. -/
def read (simple : ℕ → ℕ → Option Simple) : ℕ → List Byte → Option (Value × List Byte)
  | 0, _ => none
  | levels + 1, data =>
    match readHead data with
    | none => none
    | some ⟨0, _, argument, rest⟩ => some (.int argument, rest)
    | some ⟨1, _, argument, rest⟩ => some (.int (-1 - argument), rest)
    | some ⟨2, _, argument, rest⟩ => readString (fun b => some (.bytes b)) argument rest
    | some ⟨3, _, argument, rest⟩ => readString (fun b => (ofUtf8 b).map .text) argument rest
    | some ⟨4, _, argument, rest⟩ =>
      (readMany (read simple levels) argument rest).map fun r => (.array r.1, r.2)
    | some ⟨5, _, argument, rest⟩ =>
      (readMany (readPair (read simple levels)) argument rest).map fun r => (.map r.1, r.2)
    | some ⟨7, additional, argument, rest⟩ =>
      (simple additional argument).map fun x => (.simple x, rest)
    | some _ => none

end Cbor
