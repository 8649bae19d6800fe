import Rustscale.IpAddr

/-! The textual forms of addresses and small numbers in the standard library. -/
namespace Rustscale.IpText

/-- A reader takes characters from the front, or fails and takes none. -/
abbrev Reader (α : Type) := List Char → Option (α × List Char)

def toDigit (radix : ℕ) (c : Char) : Option ℕ :=
  let digit :=
    if '0' ≤ c ∧ c ≤ '9' then some (c.toNat - '0'.toNat)
    else if 'a' ≤ c ∧ c ≤ 'z' then some (c.toNat - 'a'.toNat + 10)
    else if 'A' ≤ c ∧ c ≤ 'Z' then some (c.toNat - 'A'.toNat + 10)
    else none
  digit.filter fun d => decide (d < radix)

/-- The digit loop of `read_number`: the value and the number of digits, at most `maxDigits`. -/
def readDigits (radix maxDigits : ℕ) : (value count : ℕ) → Reader (ℕ × ℕ)
  | value, count, [] => some ((value, count), [])
  | value, count, c :: rest =>
    match toDigit radix c with
    | none => some ((value, count), c :: rest)
    | some digit =>
      if maxDigits < count + 1 then none
      else readDigits radix maxDigits (value * radix + digit) (count + 1) rest

def readNumber (radix maxDigits : ℕ) (allowZeroPrefix : Bool) (max : ℕ) : Reader ℕ := fun s =>
  match readDigits radix maxDigits 0 0 s with
  | none => none
  | some ((value, count), rest) =>
    if count = 0 then none
    else if !allowZeroPrefix && s.head? == some '0' && decide (1 < count) then none
    else if max < value then none
    else some (value, rest)

/-- Read the separator unless this is the first item, then the item. -/
def readSeparator {α : Type} (sep : Char) (index : ℕ) (inner : Reader α) : Reader α := fun s =>
  if index = 0 then inner s
  else
    match s with
    | c :: rest => if c = sep then inner rest else none
    | [] => none

def readOctets : (n index : ℕ) → Reader (List ℕ)
  | 0, _, s => some ([], s)
  | n + 1, index, s =>
    match readSeparator '.' index (readNumber 10 3 false 255) s with
    | none => none
    | some (octet, s) =>
      match readOctets n (index + 1) s with
      | none => none
      | some (octets, s) => some (octet :: octets, s)

/-- The number with the given digits to a base, most significant first. -/
def ofDigits (base : ℕ) (digits : List ℕ) : ℕ := digits.foldl (fun n d => n * base + d) 0

def readIpv4Addr : Reader (BitVec 32) := fun s =>
  match readOctets 4 0 s with
  | none => none
  | some (octets, s) => some (BitVec.ofNat 32 (ofDigits 256 octets), s)

/-- At most `n` groups of an IPv6 address from number `i` on; an embedded IPv4 address ends them.
The groups, whether they end so, and the rest. -/
def readGroups : (n i : ℕ) → List Char → List ℕ × Bool × List Char
  | 0, _, s => ([], false, s)
  | n + 1, i, s =>
    let ipv4 := if 1 ≤ n then readSeparator ':' i readIpv4Addr s else none
    match ipv4 with
    | some (a, s) => ([a.toNat / 65536, a.toNat % 65536], true, s)
    | none =>
      match readSeparator ':' i (readNumber 16 4 true 65535) s with
      | none => ([], false, s)
      | some (group, s) =>
        let rest := readGroups n (i + 1) s
        (group :: rest.1, rest.2)

def readIpv6Addr : Reader (BitVec 128) := fun s =>
  let (head, headIpv4, s) := readGroups 8 0 s
  if head.length = 8 then some (BitVec.ofNat 128 (ofDigits 65536 head), s)
  else if headIpv4 then none
  else
    match s with
    | ':' :: ':' :: s =>
      let (tail, _, s) := readGroups (8 - (head.length + 1)) 0 s
      let groups := head ++ List.replicate (8 - head.length - tail.length) 0 ++ tail
      some (BitVec.ofNat 128 (ofDigits 65536 groups), s)
    | _ => none

def readIpAddr : Reader IpAddr := fun s =>
  match readIpv4Addr s with
  | some (a, s) => some (.v4 a, s)
  | none => (readIpv6Addr s).map fun r => (.v6 r.1, r.2)

/-- `str::parse::<IpAddr>`: the whole text is one address. -/
def parseIpAddr (s : List Char) : Option IpAddr :=
  match readIpAddr s with
  | some (a, []) => some a
  | _ => none

/-- `str::parse::<u8>`: an optional plus sign and decimal digits. -/
def parseU8 (s : List Char) : Option ℕ :=
  let digits := match s with
    | '+' :: rest => rest
    | _ => s
  if digits.isEmpty then none
  else (digits.mapM (toDigit 10)).bind fun ds =>
    if ofDigits 10 ds ≤ 255 then some (ofDigits 10 ds) else none

def splitOnce (sep : Char) : List Char → Option (List Char × List Char)
  | [] => none
  | c :: rest =>
    if c = sep then some ([], rest)
    else (splitOnce sep rest).map fun r => (c :: r.1, r.2)

end Rustscale.IpText
