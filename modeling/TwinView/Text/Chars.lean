import TwinView.Text.Alphabetic

/-!
The character classes of the binding language: blanks, line breaks, digits and the characters of
names.
-/

namespace TwinView.Text

def isSpace (c : Char) : Bool :=
  c = ' ' || c = '\t' || c = '\x0B' || c = '\x0C' || c = '\u00A0' || c = '\uFEFF'

def isLineBreak (c : Char) : Bool :=
  c = '\n' || c = '\r' || c = '\u2028' || c = '\u2029'

def isDigit (c : Char) : Bool := '0' ≤ c && c ≤ '9'

def isHexDigit (c : Char) : Bool :=
  isDigit c || ('a' ≤ c && c ≤ 'f') || ('A' ≤ c && c ≤ 'F')

def isLetter (c : Char) : Bool := ('a' ≤ c && c ≤ 'z') || ('A' ≤ c && c ≤ 'Z')

def isNameStart (c : Char) : Bool :=
  isLetter c || c = '_' || c = '$' || ('\x7F' < c && isAlphabetic c)

def isNamePart (c : Char) : Bool := isNameStart c || isDigit c

def isQuote (c : Char) : Bool := c = '\'' || c = '"'

def isPrintable (c : Char) : Bool := ' ' ≤ c && c < '\x7F'

def hexValue (c : Char) : Nat :=
  if isDigit c then c.toNat - '0'.toNat
  else if 'a' ≤ c then c.toNat - 'a'.toNat + 10
  else c.toNat - 'A'.toNat + 10

def hexNumber (digits : List Char) : Nat := digits.foldl (fun n c => 16 * n + hexValue c) 0

def decimalNumber (digits : List Char) : Nat :=
  digits.foldl (fun n c => 10 * n + (c.toNat - '0'.toNat)) 0

def upperHexDigit (n : Nat) : Char :=
  if n < 10 then Char.ofNat ('0'.toNat + n) else Char.ofNat ('A'.toNat + (n - 10))

def upperHex : Nat → Nat → List Char
  | 0, _ => []
  | width + 1, n => upperHex width (n / 16) ++ [upperHexDigit (n % 16)]

def codePointHex (c : Char) : List Char :=
  let n := c.toNat
  upperHex (if n < 0x10000 then 4 else if n < 0x100000 then 5 else 6) n

def utf16Units (c : Char) : List Nat :=
  let n := c.toNat
  if n < 0x10000 then [n]
  else [0xD800 + (n - 0x10000) / 0x400, 0xDC00 + (n - 0x10000) % 0x400]

/-- A character as one four-digit escape for each of its code units. -/
def unitEscapes (c : Char) : List Char :=
  (utf16Units c).flatMap fun u => '\\' :: 'u' :: upperHex 4 u

def lowerAscii (s : String) : String := s.map Char.toLower

def sameIgnoringCase (s t : String) : Bool := lowerAscii s == lowerAscii t

/-- Replaces `old` in the rest of a text, of which the first `skip` characters belong to the last
occurrence found. -/
def replaceFrom (old new : List Char) : Nat → List Char → List Char
  | _, [] => []
  | skip + 1, _ :: rest => replaceFrom old new skip rest
  | 0, c :: rest =>
    if old.isPrefixOf (c :: rest) then new ++ replaceFrom old new (old.length - 1) rest
    else c :: replaceFrom old new 0 rest

/-- Replaces every occurrence of `old`, which is not empty, from left to right. -/
def replaceAll (old new s : String) : String :=
  String.ofList (replaceFrom old.toList new.toList 0 s.toList)

/-- A block comment around a text; an end of comment inside it is broken up. -/
def blockComment (s : String) : String := "/*" ++ replaceAll "*/" "*\\/" s ++ "*/"

def splitAt (sep : Char) : List Char → List (List Char)
  | [] => [[]]
  | c :: rest =>
    match splitAt sep rest with
    | [] => [[c]]
    | piece :: pieces => if c = sep then [] :: piece :: pieces else (c :: piece) :: pieces

def replaceChar (old : Char) (new : String) (s : String) : String :=
  String.ofList (s.toList.flatMap fun c => if c = old then new.toList else [c])

def repeated (count : Nat) (s : String) : String := String.join (List.replicate count s)

end TwinView.Text
