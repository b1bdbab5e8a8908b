import TwinView.Json.Basic
import TwinView.Text.Chars

/-!
Reading JSON text. Every function takes the text that is left and gives back what remains after the
piece it read, or `none` where the text has no such piece.
-/

namespace TwinView.Json

open Text

def isJsonSpace (c : Char) : Bool := c = ' ' || c = '\n' || c = '\t' || c = '\r'

def skipSpace (cs : List Char) : List Char := cs.dropWhile isJsonSpace

def readUnit : List Char → Option (Nat × List Char)
  | a :: b :: c :: d :: rest =>
    if [a, b, c, d].all isHexDigit then some (hexNumber [a, b, c, d], rest) else none
  | _ => none

/-- What an escape stands for: a character, or nothing when it is an unpaired surrogate. -/
def readEscape : List Char → Option (Option Char × List Char)
  | '"' :: rest => some (some '"', rest)
  | '\\' :: rest => some (some '\\', rest)
  | '/' :: rest => some (some '/', rest)
  | 'b' :: rest => some (some '\x08', rest)
  | 'f' :: rest => some (some '\x0C', rest)
  | 'n' :: rest => some (some '\n', rest)
  | 'r' :: rest => some (some '\r', rest)
  | 't' :: rest => some (some '\t', rest)
  | 'u' :: rest => do
    let (u, rest) ← readUnit rest
    if u < 0xD800 || 0xE000 ≤ u then return (some (Char.ofNat u), rest)
    if 0xDC00 ≤ u then return (none, rest)
    match rest with
    | '\\' :: 'u' :: after =>
      let (v, after) ← readUnit after
      if 0xDC00 ≤ v && v < 0xE000 then
        return (some (Char.ofNat (0x10000 + (u - 0xD800) * 0x400 + (v - 0xDC00))), after)
      else return (none, after)
    | _ => return (none, rest)
  | _ => none

/-- The rest of a string after its opening quote. The value is `none` if some surrogate in it is
unpaired. -/
def readString : Nat → List Char → Option (Option (List Char) × List Char)
  | 0, _ => none
  | _ + 1, [] => none
  | fuel + 1, c :: rest =>
    if c = '"' then some (some [], rest)
    else if c = '\\' then do
      let (head, rest) ← readEscape rest
      let (tail, rest) ← readString fuel rest
      return ((do return (← head) :: (← tail)), rest)
    else if c.toNat < 0x20 then none
    else do
      let (tail, rest) ← readString fuel rest
      return (tail.map (c :: ·), rest)

def readDigits (cs : List Char) : Option (List Char × List Char) :=
  let digits := cs.takeWhile isDigit
  if digits.isEmpty then none else some (digits, cs.dropWhile isDigit)

def readFraction : List Char → Option (Option (List Char) × List Char)
  | '.' :: rest => do
    let (digits, rest) ← readDigits rest
    return (some digits, rest)
  | cs => some (none, cs)

def readExponent : List Char → Option (Option Int × List Char)
  | [] => some (none, [])
  | c :: rest =>
    if c = 'e' || c = 'E' then do
      let (negative, rest) :=
        match rest with
        | '-' :: after => (true, after)
        | '+' :: after => (false, after)
        | after => (false, after)
      let (digits, rest) ← readDigits rest
      let n : Int := decimalNumber digits
      return (some (if negative then -n else n), rest)
    else some (none, c :: rest)

/-- Whether a number is one of 64 bits, with or without a sign. -/
def fitsWord (n : Int) : Bool := -0x8000000000000000 ≤ n && n < 0x10000000000000000

/-- A whole number if it has neither fraction nor exponent and fits 64 bits, otherwise a double;
negative zero is a double. -/
def ofNumeral (negative : Bool) (whole : List Char) (part : Option (List Char))
    (power : Option Int) : Json :=
  let n : Int := decimalNumber whole
  let signed := if negative then -n else n
  if part.isNone && power.isNone && fitsWord signed && !(negative && n = 0) then
    .int signed
  else
    let digits := part.getD []
    let x := Double.ofDecimal negative (decimalNumber (whole ++ digits))
      (power.getD 0 - digits.length)
    if x.isInfinite then .void else .float x

def readNumber (cs : List Char) : Option (Json × List Char) := do
  let (negative, cs) :=
    match cs with
    | '-' :: rest => (true, rest)
    | rest => (false, rest)
  let (whole, cs) ← readDigits cs
  if whole.head? = some '0' && whole.length ≠ 1 then none
  let (part, cs) ← readFraction cs
  let (power, cs) ← readExponent cs
  return (ofNumeral negative whole part power, cs)

mutual

/-- One value; the text is `fuel` characters long at most. -/
def readValue : Nat → List Char → Option (Json × List Char)
  | 0, _ => none
  | fuel + 1, cs =>
    match skipSpace cs with
    | 'n' :: 'u' :: 'l' :: 'l' :: rest => some (.null, rest)
    | 't' :: 'r' :: 'u' :: 'e' :: rest => some (.bool true, rest)
    | 'f' :: 'a' :: 'l' :: 's' :: 'e' :: rest => some (.bool false, rest)
    | '"' :: rest => do
      let (s, rest) ← readString (rest.length + 1) rest
      return (match s with | some s => .str (String.ofList s) | none => .void, rest)
    | '[' :: rest =>
      match skipSpace rest with
      | ']' :: rest => some (.arr [], rest)
      | rest => do
        let (items, rest) ← readItems fuel rest
        return (.arr items, rest)
    | '{' :: rest =>
      match skipSpace rest with
      | '}' :: rest => some (.obj [], rest)
      | rest => do
        let (members, rest) ← readMembers fuel rest
        return (match members with | some members => .obj members | none => .void, rest)
    | cs => readNumber cs

def readItems : Nat → List Char → Option (List Json × List Char)
  | 0, _ => none
  | fuel + 1, cs => do
    let (item, rest) ← readValue fuel cs
    match skipSpace rest with
    | ']' :: rest => return ([item], rest)
    | ',' :: rest =>
      let (items, rest) ← readItems fuel rest
      return (item :: items, rest)
    | _ => none

/-- The members of an object up to its closing brace. They are `none` if some key has an unpaired
surrogate. -/
def readMembers : Nat → List Char → Option (Option (List (String × Json)) × List Char)
  | 0, _ => none
  | fuel + 1, cs =>
    match skipSpace cs with
    | '"' :: rest => do
      let (key, rest) ← readString (rest.length + 1) rest
      match skipSpace rest with
      | ':' :: rest =>
        let (value, rest) ← readValue fuel rest
        let member := key.map fun key => (String.ofList key, value)
        match skipSpace rest with
        | '}' :: rest => return (member.map fun m => [m], rest)
        | ',' :: rest =>
          let (members, rest) ← readMembers fuel rest
          return ((do return (← member) :: (← members)), rest)
        | _ => none
      | _ => none
    | _ => none

end

def parse (text : String) : Option Json := do
  let cs := text.toList
  let (value, rest) ← readValue (2 * cs.length + 1) cs
  if (skipSpace rest).isEmpty then some value else none

end TwinView.Json
