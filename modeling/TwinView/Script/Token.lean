import TwinView.Error
import TwinView.Number.Writing
import TwinView.Text.Chars

/-!
Tokens of the binding language, and how a text is cut into them. Between tokens stand blanks, line
breaks and comments.
-/

namespace TwinView.Script

open Text

inductive Lexeme
  | mark (c : Char)
  | name (s : String)
  | keyword (s : String)
  | operator (s : String)
  /-- A string literal, given by its value. -/
  | text (value : String)
  | number (value : Double)
deriving DecidableEq, Repr

/-- A lexeme with the byte offsets where it starts and ends. -/
structure Token where
  start : Nat
  stop : Nat
  lexeme : Lexeme
deriving DecidableEq, Repr

/-- A fault and the byte offset where it lies. -/
structure Refusal where
  fault : ScriptFault
  index : Nat
deriving DecidableEq, Repr

def Refusal.toError (source : String) (r : Refusal) : Error :=
  .script r.fault (Position.locate source r.index)

def Token.display (t : Token) : String :=
  match t.lexeme with
  | .mark c => c.toString
  | .name s | .keyword s | .operator s => s
  | .text value => "\"" ++ value ++ "\""
  | .number x => x.plain

def keywords : List String := [
  "break", "case", "catch", "continue", "default", "delete", "do", "else", "false", "finally",
  "for", "function", "if", "in", "instanceof", "new", "null", "return", "switch", "this",
  "throw", "true", "try", "typeof", "var", "void", "while", "with"]

def isKeyword (s : String) : Bool := keywords.contains s

def operators : List String := [
  ">>>=", "===", "!==", ">>>", "<<=", ">>=", "==", "!=", "<=", ">=", "&&", "||", "++", "--",
  "+=", "-=", "*=", "/=", "%=", "&=", "|=", "^=", "<<", ">>", "+", "-", "*", "/", "%", "<",
  ">", "=", "!", "~", "&", "|", "^", "?"]

def marks : List Char := ['(', ')', '[', ']', '{', '}', ',', ':', ';']

def byteLength : List Char → Nat
  | [] => 0
  | c :: rest => c.utf8Size + byteLength rest

/-- What is left of a text, with the offset where it starts. -/
structure Rest where
  offset : Nat
  chars : List Char

inductive Between
  | blanks
  | lineComment
  /-- Inside a block comment that starts at this offset. -/
  | blockComment (start : Nat)

def skip : Between → Nat → List Char → Except Refusal Rest
  | .blockComment start, _, [] => .error ⟨.unterminatedComment, start⟩
  | _, here, [] => .ok ⟨here, []⟩
  | .blanks, here, c :: rest =>
    if isSpace c || isLineBreak c then skip .blanks (here + c.utf8Size) rest
    else if c = '/' then
      match rest with
      | '/' :: rest => skip .lineComment (here + 2) rest
      | '*' :: rest => skip (.blockComment here) (here + 2) rest
      | rest => .ok ⟨here, c :: rest⟩
    else .ok ⟨here, c :: rest⟩
  | .lineComment, here, c :: rest =>
    skip (if isLineBreak c then .blanks else .lineComment) (here + c.utf8Size) rest
  | .blockComment start, here, c :: rest =>
    if c = '*' then
      match rest with
      | '/' :: rest => skip .blanks (here + 2) rest
      | rest => skip (.blockComment start) (here + 1) rest
    else skip (.blockComment start) (here + c.utf8Size) rest

def scanName (start : Nat) (cs : List Char) : Token × Rest :=
  let spelled := cs.takeWhile isNamePart
  let stop := start + byteLength spelled
  let name := String.ofList spelled
  (⟨start, stop, if isKeyword name then .keyword name else .name name⟩,
    ⟨stop, cs.dropWhile isNamePart⟩)

/-- A hexadecimal number after its `0x`. It has at least one digit and fits 63 bits. -/
def scanHex (start : Nat) (cs : List Char) : Except Refusal (Token × Rest) :=
  let digits := cs.takeWhile isHexDigit
  let value := hexNumber digits
  if digits.isEmpty || 0x8000000000000000 ≤ value then .error ⟨.invalidHexNumber, start⟩
  else
    let stop := start + 2 + digits.length
    .ok (⟨start, stop, .number (Double.ofInt value)⟩, ⟨stop, cs.dropWhile isHexDigit⟩)

/-- The digits after a decimal point, if there is one, and the rest. -/
def splitFraction : List Char → Option (List Char) × List Char
  | '.' :: rest => (some (rest.takeWhile isDigit), rest.dropWhile isDigit)
  | cs => (none, cs)

def splitSign : List Char → Option Char × List Char
  | '+' :: rest => (some '+', rest)
  | '-' :: rest => (some '-', rest)
  | cs => (none, cs)

/-- The exponent of a number, its length in the text, and the rest. The number so far ends at
`here`. -/
def scanExponent (here : Nat) : List Char → Except Refusal (Int × Rest)
  | [] => .ok (0, ⟨here, []⟩)
  | c :: rest =>
    if c = 'e' || c = 'E' then
      let (sign, rest) := splitSign rest
      let here := here + 1 + sign.toList.length
      let digits := rest.takeWhile isDigit
      if digits.isEmpty then .error ⟨.invalidExponent, here⟩
      else
        let n : Int := decimalNumber digits
        .ok (if sign = some '-' then -n else n, ⟨here + digits.length, rest.dropWhile isDigit⟩)
    else .ok (0, ⟨here, c :: rest⟩)

/-- A decimal number; no name may follow it directly. -/
def scanDecimal (start : Nat) (cs : List Char) : Except Refusal (Token × Rest) := do
  let whole := cs.takeWhile isDigit
  let (part, rest) := splitFraction (cs.dropWhile isDigit)
  let digits := part.getD []
  let here := start + whole.length + (if part.isSome then 1 + digits.length else 0)
  let (power, rest) ← scanExponent here rest
  if rest.chars.head?.any isNameStart then .error ⟨.nameAfterNumber, rest.offset⟩
  else
    let value := Double.ofDecimal false (decimalNumber (whole ++ digits)) (power - digits.length)
    .ok (⟨start, rest.offset, .number value⟩, rest)

def scanNumber (start : Nat) : List Char → Except Refusal (Token × Rest)
  | '0' :: 'x' :: rest => scanHex start rest
  | '0' :: 'X' :: rest => scanHex start rest
  | cs => scanDecimal start cs

def letterEscapes : List (Char × Char) := [
  ('n', '\n'), ('t', '\t'), ('r', '\r'), ('b', '\x08'), ('f', '\x0C'), ('v', '\x0B')]

/-- The character of a code point, unless it is a surrogate. -/
def charOf? (n : Nat) : Option Char := if n.isValidChar then some (Char.ofNat n) else none

def hexEscape? (width : Nat) (cs : List Char) : Option Char :=
  let digits := cs.take width
  if digits.length = width && digits.all isHexDigit then charOf? (hexNumber digits) else none

/-- What a backslash stands for with the text behind it: the characters it adds, and how many
characters of that text it takes. -/
def escape? : List Char → Except ScriptFault (List Char × Nat)
  | [] => .error .unterminatedString
  | c :: rest =>
    match letterEscapes.lookup c with
    | some e => .ok ([e], 1)
    | none =>
      if c = '0' then
        .ok (if rest.head?.any isDigit then ['0'] else ['\x00'], 1)
      else if c = 'u' then
        match hexEscape? 4 rest with
        | some e => .ok ([e], 5)
        | none => .error .invalidEscape
      else if c = 'x' then
        match hexEscape? 2 rest with
        | some e => .ok ([e], 3)
        | none => .error .invalidEscape
      else if c = '\r' then .ok ([], if rest.head? = some '\n' then 2 else 1)
      else if isLineBreak c then .ok ([], 1)
      else if c = '\x00' then .error .unterminatedString
      else .ok ([c], 1)

/-- The value of a string literal from `here` on, behind its opening quote at `start`. The first
`taken` characters belong to the last escape. -/
def scanText (quote : Char) (start : Nat) : Nat → Nat → List Char →
    Except Refusal (List Char × Rest)
  | _, _, [] => .error ⟨.unterminatedString, start⟩
  | taken + 1, here, c :: rest => scanText quote start taken (here + c.utf8Size) rest
  | 0, here, c :: rest =>
    if isLineBreak c then .error ⟨.unterminatedString, start⟩
    else if c = quote then .ok ([], ⟨here + 1, rest⟩)
    else if c = '\\' then
      match escape? rest with
      | .ok (added, taken) => do
        let (value, rest) ← scanText quote start taken (here + 1) rest
        return (added ++ value, rest)
      | .error .invalidEscape => .error ⟨.invalidEscape, here⟩
      | .error fault => .error ⟨fault, start⟩
    else do
      let (value, rest) ← scanText quote start 0 (here + c.utf8Size) rest
      return (c :: value, rest)

def scanOperator (start : Nat) (c : Char) (cs : List Char) : Except Refusal (Token × Rest) :=
  match operators.find? fun op => op.toList.isPrefixOf cs with
  | some op =>
    let stop := start + op.length
    .ok (⟨start, stop, .operator op⟩, ⟨stop, cs.drop op.length⟩)
  | none => .error ⟨.unexpectedCharacter c, start⟩

def scanToken (start : Nat) (c : Char) (rest : List Char) : Except Refusal (Token × Rest) :=
  if isNameStart c then .ok (scanName start (c :: rest))
  else if isDigit c || (c = '.' && rest.head?.any isDigit) then scanNumber start (c :: rest)
  else if c = '.' || marks.contains c then
    .ok (⟨start, start + 1, .mark c⟩, ⟨start + 1, rest⟩)
  else if isQuote c then do
    let (value, rest) ← scanText c start 0 (start + 1) rest
    return (⟨start, rest.offset, .text (String.ofList value)⟩, rest)
  else scanOperator start c (c :: rest)

def scanAll : Nat → Nat → List Char → Except Refusal (List Token)
  | 0, _, _ => .ok []
  | fuel + 1, here, cs => do
    let rest ← skip .blanks here cs
    match rest.chars with
    | [] => return []
    | c :: cs =>
      let (token, rest) ← scanToken rest.offset c cs
      return token :: (← scanAll fuel rest.offset rest.chars)

def tokenize (source : String) : Except Refusal (List Token) :=
  let cs := source.toList
  scanAll (cs.length + 1) 0 cs

end TwinView.Script
