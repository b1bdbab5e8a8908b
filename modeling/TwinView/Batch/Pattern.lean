import TwinView.Text.Chars

/-!
Patterns of file names: `?` stands for one character, `*` for any run of them, brackets for one
character of a set, and `**` as a whole name for any depth of directories.
-/

namespace TwinView

open Text

inductive Glyph
  | exactly (c : Char)
  | anyOne
  | oneOf (ranges : List (Char × Char))
  | noneOf (ranges : List (Char × Char))
  | anyRun
  | anyDepth
deriving DecidableEq, Repr

inductive PatternFault
  /-- Three or more stars in a row. -/
  | starRun (position : Nat)
  /-- Two stars that are not a whole name. -/
  | depthInName (position : Nat)
  | bracket (position : Nat)
deriving DecidableEq, Repr

def PatternFault.message (fault : PatternFault) : String :=
  let (position, what) : Nat × String :=
    match fault with
    | .starRun n => (n, "wildcards are either regular `*` or recursive `**`")
    | .depthInName n => (n, "recursive wildcards must form a single path component")
    | .bracket n => (n, "invalid range pattern")
  "Pattern syntax error near position " ++ position.repr ++ ": " ++ what

namespace Glyph

/-- The set that the characters between brackets spell; `a-z` is a range. -/
def ranges : List Char → List (Char × Char)
  | a :: '-' :: b :: rest => (a, b) :: ranges rest
  | a :: rest => (a, a) :: ranges rest
  | [] => []

/-- The set of a bracket and what follows it. The first character of the set may be the closing
bracket. -/
def closeBracket (first : Char) (cs : List Char) : Option (List (Char × Char) × List Char) :=
  match cs.dropWhile (· ≠ ']') with
  | _ :: rest => some (ranges (first :: cs.takeWhile (· ≠ ']')), rest)
  | [] => none

def readBracket : List Char → Option (Glyph × List Char)
  | '!' :: first :: cs => (closeBracket first cs).map fun (set, rest) => (.noneOf set, rest)
  | '!' :: [] => none
  | first :: cs => (closeBracket first cs).map fun (set, rest) => (.oneOf set, rest)
  | [] => none

theorem closeBracket_length {first : Char} {cs rest : List Char} {set : List (Char × Char)}
    (h : closeBracket first cs = some (set, rest)) : rest.length < cs.length := by
  unfold closeBracket at h
  split at h
  next c tail hd =>
    obtain ⟨_, rfl⟩ := by simpa using h
    have hle := (List.dropWhile_suffix (l := cs) (· ≠ ']')).length_le
    rw [hd] at hle
    exact hle
  next => simp at h

theorem readBracket_length {cs rest : List Char} {g : Glyph}
    (h : readBracket cs = some (g, rest)) : rest.length < cs.length := by
  unfold readBracket at h
  split at h
  next first tail =>
    obtain ⟨⟨set, after⟩, hc, he⟩ := Option.map_eq_some_iff.1 h
    obtain ⟨_, rfl⟩ := by simpa using he
    have := closeBracket_length hc
    simp only [List.length_cons]
    omega
  next => simp at h
  next first tail _ _ =>
    obtain ⟨⟨set, after⟩, hc, he⟩ := Option.map_eq_some_iff.1 h
    obtain ⟨_, rfl⟩ := by simpa using he
    have := closeBracket_length hc
    simp only [List.length_cons]
    omega
  next => simp at h

/-- Reads a pattern from its character `position` on; `starts` tells that a name starts there. -/
def read (position : Nat) (starts : Bool) (cs : List Char) : Except PatternFault (List Glyph) :=
  match cs with
  | [] => .ok []
  | '*' :: '*' :: '*' :: _ => .error (.starRun (position + 2))
  | ['*', '*'] => if starts then .ok [.anyDepth] else .error (.depthInName (position - 1))
  | '*' :: '*' :: c :: rest =>
    if !starts then .error (.depthInName (position - 1))
    else if c ≠ '/' then .error (.depthInName (position + 2))
    else do return .anyDepth :: (← read (position + 3) true rest)
  | '*' :: rest => do return .anyRun :: (← read (position + 1) false rest)
  | '?' :: rest => do return .anyOne :: (← read (position + 1) false rest)
  | '[' :: rest =>
    match h : readBracket rest with
    | none => .error (.bracket position)
    | some (g, after) =>
      have := readBracket_length h
      do return g :: (← read (position + 1 + (rest.length - after.length)) false after)
  | c :: rest => do return .exactly c :: (← read (position + 1) (c = '/') rest)
termination_by cs.length

def accepts (c : Char) : Glyph → Bool
  | .exactly d => c = d
  | .oneOf set => set.any fun (low, high) => low ≤ c && c ≤ high
  | .noneOf set => !set.any fun (low, high) => low ≤ c && c ≤ high
  | _ => true

def spells : List Glyph → List Char → Bool
  | [], cs => cs.isEmpty
  | .anyRun :: rest, [] => spells rest []
  | .anyRun :: rest, c :: cs => spells rest (c :: cs) || spells (.anyRun :: rest) cs
  | _ :: _, [] => false
  | g :: rest, c :: cs => g.accepts c && spells rest cs
termination_by glyphs cs => glyphs.length + cs.length

/-- The name that a run of glyphs spells, if they spell only one. -/
def name? (glyphs : List Glyph) : Option String :=
  String.ofList <$> glyphs.mapM fun g =>
    match g with
    | .exactly c => some c
    | _ => none

end Glyph

/-- A pattern of paths: the glyphs of each name, from the working directory or from the root. -/
structure Pattern where
  isAbsolute : Bool
  names : List (List Glyph)
  /-- The pattern ends in a slash and so asks for directories. -/
  wantsDirectory : Bool
deriving DecidableEq, Repr

namespace Pattern

/-- The names of a pattern; a slash at the end starts none. -/
def pieces (cs : List Char) : List (List Char) :=
  let all := splitAt '/' cs
  if all.getLast? = some [] then all.dropLast else all

/-- Reads a pattern. A fault is looked for in the whole text first, then in each name. -/
def parse (text : String) : Except PatternFault Pattern := do
  let cs := text.toList
  let _ ← Glyph.read 0 true cs
  let isAbsolute := cs.head? = some '/'
  let relative := if isAbsolute then cs.tail else cs
  let names ← (pieces relative).mapM (Glyph.read 0 true)
  return {
    isAbsolute
    names := if relative = [] then [[]] else names
    wantsDirectory := cs.getLast? = some '/' }

end Pattern

end TwinView
