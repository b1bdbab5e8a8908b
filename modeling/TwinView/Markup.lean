import TwinView.Text.Blank
import TwinView.Text.Chars

/-!
Pieces of HTML. Text and attribute values are encoded by character references; a comment keeps its
markup, except that it cannot end early.
-/

namespace TwinView.Markup

open Text

inductive Place
  | content
  | quotedValue
  | comment
deriving DecidableEq, Repr

def namedEntities : List (Char × String) := [
  ('\u00A0', "&nbsp;"), ('\u00A9', "&copy;"), ('\u2122', "&trade;"), ('\u00AE', "&reg;"),
  ('\u00E9', "&eacute;"), ('\u2026', "&hellip;"), ('\u00AD', "&shy;"), ('\u00B7', "&middot;")]

/-- Characters that are never written as they are: controls, the second block of controls without
NEL, and the noncharacters from U+FDD0 to U+FDEF. -/
def needsReference (nonAscii : Bool) (c : Char) : Bool :=
  c < ' ' || ('\x7F' ≤ c && (nonAscii || c ≤ '\u0084')) || ('\u0086' ≤ c && c ≤ '\u009F') ||
    ('\uFDD0' ≤ c && c ≤ '\uFDEF')

def isTabOrBreak (c : Char) : Bool := c = '\t' || c = '\n' || c = '\r'

/-- Writes one character. `closing` tells that two hyphens stand in front of it. -/
def encodeChar (place : Place) (nonAscii closing : Bool) (c : Char) : List Char :=
  if isTabOrBreak c && place ≠ .quotedValue then [c]
  else if c = '&' then "&amp;".toList
  else if c = '<' then if place = .comment then [c] else "&lt;".toList
  else if c = '>' then if place = .comment && !closing then [c] else "&gt;".toList
  else if c = '"' then if place = .quotedValue then "&quot;".toList else [c]
  else
    match namedEntities.lookup c with
    | some entity => entity.toList
    | none =>
      if needsReference nonAscii c then '&' :: '#' :: 'x' :: codePointHex c ++ [';'] else [c]

/-- Encodes the rest of a text, in which the last two characters were `before` and `last`. -/
def encodeFrom (place : Place) (nonAscii : Bool) : Char → Char → List Char → List Char
  | _, _, [] => []
  | before, last, c :: rest =>
    encodeChar place nonAscii (before = '-' && last = '-') c ++
      encodeFrom place nonAscii last c rest

def encode (place : Place) (nonAscii : Bool) (s : String) : String :=
  String.ofList (encodeFrom place nonAscii '\x00' '\x00' s.toList)

def literal (nonAscii : Bool) (s : String) : String := encode .content nonAscii s

def comment (s : String) : String := "<!--" ++ encode .comment false s ++ "-->"

def docType (s : String) : String := "<!DOCTYPE " ++ trim s ++ ">"

def openTag (tag : String) : String := "<" ++ tag

def closeTag : String := ">"

def closeVoidTag : String := " />"

def endTag (tag : String) : String := "</" ++ tag ++ ">"

def openAttribute (name : String) : String := " " ++ name ++ "=\""

def closeAttribute : String := "\""

/-- A whole attribute; without a value it is the bare name. -/
def wholeAttribute (name : String) : Option String → String
  | none => " " ++ name
  | some value => openAttribute name ++ encode .quotedValue true value ++ closeAttribute

/-- Blanks that normalization touches; a non-breaking space is content. -/
def isCollapsible (c : Char) : Bool :=
  c = ' ' || c = '\t' || c = '\n' || c = '\x0B' || c = '\x0C' || c = '\r'

def isNewline (c : Char) : Bool := c = '\r' || c = '\n'

/-- Writes each run of blanks as one space; `inside` tells that a run has begun. -/
def collapse : Bool → List Char → List Char
  | _, [] => []
  | inside, c :: rest =>
    if isCollapsible c then
      if inside then collapse true rest else ' ' :: collapse true rest
    else c :: collapse false rest

/-- Drops line breaks at both ends and collapses runs of blanks; what would vanish is one space. -/
def normalize (s : String) : String :=
  let kept := dropEndWhile isNewline (s.toList.dropWhile isNewline)
  match collapse false kept with
  | [] => " "
  | cs => String.ofList cs

def isNewlines (s : String) : Bool := s.toList.all isNewline

/-- Drops the first item of a list if it is of some sort, and so the last. -/
def trimEdges {α : Type} (p : α → Bool) (items : List α) : List α :=
  let items := if items.head?.any p then items.tail else items
  if items.getLast?.any p then items.dropLast else items

end TwinView.Markup
