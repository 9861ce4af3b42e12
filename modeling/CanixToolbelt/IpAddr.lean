import CanixToolbelt.Numerals

/-! Literal IP addresses: four decimal octets, or up to eight hexadecimal groups with at most one
run of zero groups left out and an IPv4 address in place of the last two. -/
namespace CanixToolbelt

/-- An address by its octets, or by its groups of 16 bits. -/
inductive IpAddr where
  | v4 (octets : List ℕ)
  | v6 (groups : List ℕ)
  deriving DecidableEq, Repr

namespace IpAddr

abbrev Reader (α : Type) := List Char → Option (α × List Char)

/-- A number of at most so many digits, below the bound; `none` once it has too many. -/
def digits (radix bound : ℕ) : ℕ → ℕ → ℕ → Reader (ℕ × ℕ)
  | _, value, count, [] => some ((value,count),[])
  | left, value, count, c::cs =>
    match Numerals.digit radix c with
    | none => some ((value,count),c::cs)
    | some d =>
      match left with
      | 0 => none
      | left+1 =>
        if value * radix + d < bound then digits radix bound left (value * radix + d) (count+1) cs
        else none

def readNumber (radix maxDigits bound : ℕ) (allowZeroPrefix : Bool) : Reader ℕ := fun cs =>
  match digits radix bound maxDigits 0 0 cs with
  | some ((value,count),rest) =>
    if count = 0 ∨ (allowZeroPrefix = false ∧ cs.head? = some '0' ∧ 1 < count) then none
    else some (value,rest)
  | none => none

def readGivenChar (c : Char) : Reader Unit
  | [] => none
  | d::cs => if d = c then some ((),cs) else none

/-- A part preceded by its separator, unless it is the first. -/
def readSeparator {α : Type} (sep : Char) (index : ℕ) (inner : Reader α) : Reader α := fun cs =>
  if index = 0 then inner cs else (readGivenChar sep cs).bind fun r => inner r.2

/-- The octets from the given index on. -/
def readOctets : ℕ → ℕ → Reader (List ℕ)
  | 0, _, cs => some ([],cs)
  | n+1, index, cs => do
    let (octet,cs) ← readSeparator '.' index (readNumber 10 3 256 false) cs
    let (octets,cs) ← readOctets n (index+1) cs
    some (octet::octets,cs)

def readIpv4 : Reader (List ℕ) := readOctets 4 0

/-- An octet pair as one group. -/
def paired : List ℕ → List ℕ
  | a::b::rest => (a * 256 + b) :: paired rest
  | _ => []

/-- At most `limit` groups from the given index on, and whether the last two were an IPv4
address, which needs room for two. -/
def readGroups : ℕ → ℕ → List Char → (List ℕ × Bool) × List Char
  | 0, _, cs => (([],false),cs)
  | limit+1, index, cs =>
    match if limit = 0 then none else readSeparator ':' index readIpv4 cs with
    | some (octets,rest) => ((paired octets,true),rest)
    | none =>
      match readSeparator ':' index (readNumber 16 4 65536 true) cs with
      | some (group,rest) =>
        let ((groups,quad),rest) := readGroups limit (index+1) rest
        ((group::groups,quad),rest)
      | none => (([],false),cs)

def readIpv6 : Reader (List ℕ) := fun cs =>
  let ((head,quad),rest) := readGroups 8 0 cs
  if head.length = 8 then some (head,rest)
  else if quad then none
  else do
    let (_,rest) ← readGivenChar ':' rest
    let (_,rest) ← readGivenChar ':' rest
    -- the run of zeros has one group at least
    let ((tail,_),rest) := readGroups (7 - head.length) 0 rest
    some (head ++ List.replicate (8 - head.length - tail.length) 0 ++ tail,rest)

/-- `str::parse::<IpAddr>`. -/
def parse (text : String) : Option IpAddr := do
  let (ip,rest) ← match readIpv4 text.toList with
    | some (octets,rest) => some (v4 octets,rest)
    | none => (readIpv6 text.toList).map fun r => (v6 r.1,r.2)
  if rest = [] then some ip else none

example : parse "192.0.2.1" = some (.v4 [192,0,2,1]) := by decide
example : parse "fe80::1" = some (.v6 [0xfe80,0,0,0,0,0,0,1]) := by decide
example : parse "::ffff:127.0.0.54" = some (.v6 [0,0,0,0,0,0xffff,0x7f00,54]) := by decide
example : parse "192.0.02.1" = none := by decide

end IpAddr
end CanixToolbelt
