import TwinView.Proofs.Java.Reading

/-!
The nesting with which an expression is written, and when its text is read back with it: exactly if
every operand that is written without parentheses binds as tightly as its position requires.
-/

namespace TwinView.Java

open Code
open Script (infixLevel precedence conditionalLevel assignmentLevel prefixLevel postfixLevel tightest)

/-- A constant; what has not been set and the numbers that are not finite are constants by name. -/
def constantTree (s : Settings) (value : Primitive) : Tree :=
  match value with
  | .undefined => .word (primitive s value)
  | .double x =>
    if x.isNaN || x.isInfinite then .word (primitive s value) else .constant (primitive s value)
  | _ => .constant (primitive s value)

def bracketed (parens : Bool) (t : Tree) : Tree := if parens then .parens t else t

def selfCall (method : String) (args : List Tree) : Tree := .call (.select (.word "this") method) args

mutual

/-- The nesting of an expression as it is written. Scripts have no casts; one is taken as a whole. -/
def nesting (s : Settings) (p : Parens) : Expr → Tree
  | .prim value _ => constantTree s value
  | .var name _ _ => .word name
  | .property target key _ =>
    selfCall "getProperty" [nesting s .flagged target, nesting s .flagged key]
  | .field target name _ _ => .select (nesting s .flagged target) name
  | .this _ => .word "this"
  | .typeRef type _ => .word (typeName type)
  | .binary op left right flag =>
    let value := nesting s .flagged right
    let written :=
      match comparisonMethod op left right with
      | some (negated, method) =>
        let call := selfCall method [nesting s .flagged left, value]
        if negated then .unary .not call else call
      | none =>
        if op.isAssignment && left.isStored then assignedNesting s left value
        else .binary op (nesting s .flagged left) value
    bracketed (p.around (.binary op left right flag)) written
  | .unary op operand flag =>
    bracketed (p.around (.unary op operand flag)) (.unary op (nesting s .flagged operand))
  | .ternary test yes no flag =>
    let asked :=
      if test.resultType.isBoolean then nesting s .flagged test
      else .call (.select (.word "DuelData") "coerceBoolean") [nesting s .never test]
    bracketed (p.around (.ternary test yes no flag))
      (.cond asked (nesting s .flagged yes) (nesting s .flagged no))
  | .invoke _ target method args _ =>
    .call (.select (nesting s .flagged target) method) (argumentNestings s args)
  | .create name args _ => .call (.word ("new " ++ name)) (argumentNestings s args)
  | .array element size items _ =>
    if items.isEmpty then
      .call (.word ("new ArrayList<" ++ boxedTypeName element ++ ">"))
        (if 0 < size then [.constant size.repr] else [])
    else .call (.select (.word "Arrays") "asList") (argumentNestings s items)
  | .cast type operand flag => .word (expression s p (.cast type operand flag))
  | .extra name _ => selfCall "getExtra" [.word "context", .constant (stringLiteral s name)]

def assignedNesting (s : Settings) (target : Expr) (value : Tree) : Tree :=
  match target with
  | .property object key _ =>
    selfCall "setProperty" [nesting s .flagged object, nesting s .flagged key, value]
  | .extra name _ => selfCall "putExtra" [.word "context", .constant (stringLiteral s name), value]
  | _ => value

def argumentNestings (s : Settings) : List Expr → List Tree
  | [] => []
  | [e] => [nesting s .never e]
  | e :: rest => nesting s .flagged e :: moreNestings s rest

def moreNestings (s : Settings) : List Expr → List Tree
  | [] => []
  | e :: rest => nesting s .flagged e :: moreNestings s rest

end

theorem textOf_constantTree (s : Settings) (value : Primitive) :
    textOf (constantTree s value).spell = primitive s value := by
  unfold constantTree
  split
  · simp [Tree.spell, textOf, Tok.text]
  · split <;> simp [Tree.spell, textOf, Tok.text]
  · simp [Tree.spell, textOf, Tok.text]

theorem textOf_bracketed (parens : Bool) (t : Tree) :
    textOf (bracketed parens t).spell = wrap parens (textOf t.spell) := by
  unfold bracketed wrap
  split
  · simp [Tree.spell, textOf, Tok.text, textOf_append, String.append_assoc]
  · rfl

theorem textOf_unary (op : UnaryOp) (t : Tree) :
    textOf (Tree.unary op t).spell =
      if op.isPost then textOf t.spell ++ unarySymbol op else prefixed op (textOf t.spell) := by
  rw [Tree.spell]
  split
  · simp [textOf, Tok.text, textOf_append]
  · unfold prefixed
    dsimp only
    split <;> simp_all [textOf, Tok.text, String.append_assoc]

theorem textOf_select (t : Tree) (name : String) :
    textOf (Tree.select t name).spell = textOf t.spell ++ "." ++ name := by
  simp [Tree.spell, textOf, textOf_append, Tok.text, String.append_assoc]

theorem textOf_call (t : Tree) (args : List Tree) :
    textOf (Tree.call t args).spell = textOf t.spell ++ "(" ++ textOf (Tree.spellAll args) ++ ")" := by
  simp [Tree.spell, textOf, textOf_append, Tok.text, String.append_assoc]

theorem textOf_binary (op : BinaryOp) (l r : Tree) :
    textOf (Tree.binary op l r).spell = textOf l.spell ++ binarySymbol op ++ textOf r.spell := by
  simp [Tree.spell, textOf, textOf_append, Tok.text, String.append_assoc]

theorem textOf_cond (test yes no : Tree) :
    textOf (Tree.cond test yes no).spell =
      textOf test.spell ++ " ? " ++ textOf yes.spell ++ " : " ++ textOf no.spell := by
  simp [Tree.spell, textOf, textOf_append, Tok.text, String.append_assoc]

theorem textOf_spellAll : ∀ args : List Tree,
    textOf (Tree.spellAll args) = ", ".intercalate (args.map fun t => textOf t.spell)
  | [] => rfl
  | [t] => String.intercalate_singleton.symm
  | t :: u :: rest => by
      rw [Tree.spellAll, textOf_append, textOf, textOf_spellAll (u :: rest), List.map_cons,
        List.map_cons, List.map_cons, String.intercalate_cons_cons, String.append_assoc]
      · rfl
      · simp

theorem textOf_selfCall (method : String) (args : List Tree) :
    textOf (selfCall method args).spell = callSelf method (args.map fun t => textOf t.spell) := by
  rw [selfCall, textOf_call, textOf_select, textOf_spellAll]
  rfl

@[simp] theorem textOf_word (name : String) : textOf (Tree.word name).spell = name := by
  simp [Tree.spell, textOf, Tok.text]

@[simp] theorem textOf_constant (value : String) : textOf (Tree.constant value).spell = value := by
  simp [Tree.spell, textOf, Tok.text]

mutual

theorem textOf_nesting (s : Settings) (p : Parens) : ∀ e : Expr,
    textOf (nesting s p e).spell = expression s p e
  | .prim value _ => by
      simpa only [nesting, expression] using textOf_constantTree s value
  | .var name _ _ | .this _ | .typeRef type _ | .cast type operand flag => by
      simp only [nesting, textOf_word, expression]
  | .property target key _ => by
      simp only [nesting, expression, textOf_selfCall, List.map_cons, List.map_nil,
        textOf_nesting s .flagged target, textOf_nesting s .flagged key]
  | .field target name _ _ => by
      simp only [nesting, expression, textOf_select, textOf_nesting s .flagged target]
  | .binary op left right flag => by
      have hl := textOf_nesting s .flagged left
      have hr := textOf_nesting s .flagged right
      simp only [nesting, expression, textOf_bracketed]
      congr 1
      cases hm : comparisonMethod op left right with
      | none =>
          dsimp only
          split
          · exact textOf_assignedNesting s left hr
          · rw [textOf_binary, hl, hr]
      | some m =>
          obtain ⟨negated, method⟩ := m
          have hcall : textOf (selfCall method [nesting s .flagged left, nesting s .flagged right]).spell =
              callSelf method [expression s .flagged left, expression s .flagged right] := by
            rw [textOf_selfCall, ← hl, ← hr]
            rfl
          cases negated with
          | true => exact (textOf_unary .not _).trans (congrArg (prefixed .not) hcall)
          | false => exact hcall.trans (String.empty_append ..).symm
  | .unary op operand flag => by
      simp only [nesting, expression, textOf_bracketed, textOf_unary, textOf_nesting s .flagged operand]
  | .ternary test yes no flag => by
      simp only [nesting, expression, textOf_bracketed, textOf_cond, textOf_nesting s .flagged yes,
        textOf_nesting s .flagged no]
      congr 5
      split
      · exact textOf_nesting s .flagged test
      · rw [textOf_call, textOf_select, Tree.spellAll, textOf_nesting s .never test]
        rfl
  | .invoke _ target method args _ => by
      simp only [nesting, expression, textOf_call, textOf_select, textOf_nesting s .flagged target,
        textOf_argumentNestings s args]
  | .create name args _ => by
      simp only [nesting, expression, textOf_call, textOf_word, textOf_argumentNestings s args]
  | .array element size items _ => by
      simp only [nesting, expression]
      split
      · split <;> simp [textOf_call, Tree.spellAll, textOf, String.append_assoc]
      · simp only [textOf_call, textOf_select, textOf_word, textOf_argumentNestings s items]
        rfl
  | .extra name _ => by
      simp only [nesting, expression, textOf_selfCall, List.map_cons, List.map_nil, textOf_word,
        textOf_constant]

theorem textOf_assignedNesting (s : Settings) {value : Tree} {text : String} : ∀ target : Expr,
    textOf value.spell = text →
    textOf (assignedNesting s target value).spell = assigned s target text
  | .property object key _, h => by
      simp only [assignedNesting, assigned, textOf_selfCall, List.map_cons, List.map_nil,
        textOf_nesting s .flagged object, textOf_nesting s .flagged key, h]
  | .extra name _, h => by
      simp only [assignedNesting, assigned, textOf_selfCall, List.map_cons, List.map_nil, textOf_word,
        textOf_constant, h]
  | .prim _ _, h | .var _ _ _, h | .field _ _ _ _, h | .this _, h | .typeRef _ _, h | .binary _ _ _ _, h
  | .unary _ _ _, h | .ternary _ _ _ _, h | .invoke _ _ _ _ _, h | .create _ _ _, h
  | .array _ _ _ _, h | .cast _ _ _, h => by simpa only [assignedNesting, assigned] using h

theorem textOf_argumentNestings (s : Settings) : ∀ args : List Expr,
    textOf (Tree.spellAll (argumentNestings s args)) = arguments s args
  | [] => by simp [argumentNestings, arguments, Tree.spellAll, textOf]
  | [e] => by simpa only [argumentNestings, arguments, Tree.spellAll] using textOf_nesting s .never e
  | e :: e' :: rest => by
      rw [argumentNestings, arguments, textOf_moreNestings s _ (e' :: rest),
        textOf_nesting s .flagged e]
      · simp
      · simp

theorem textOf_moreNestings (s : Settings) (t : Tree) : ∀ args : List Expr,
    textOf (Tree.spellAll (t :: moreNestings s args)) = textOf t.spell ++ moreArguments s args
  | [] => by simp [moreNestings, moreArguments, Tree.spellAll]
  | e :: rest => by
      rw [moreNestings, moreArguments, Tree.spellAll, textOf_append, textOf,
        textOf_moreNestings s _ rest, textOf_nesting s .flagged e, String.append_assoc]
      · rfl
      · simp

end

/-- The text of an expression has the nesting that it is written with, and no other. -/
structure ReadsBack (s : Settings) (e : Expr) : Prop where
  text : textOf (nesting s .flagged e).spell = expression s .flagged e
  reading (t : Tree) : Phrase assignmentLevel t (nesting s .flagged e).spell ↔ t = nesting s .flagged e

theorem readsBack_iff {s : Settings} {e : Expr} : ReadsBack s e ↔ (nesting s .flagged e).isLayered := by
  constructor
  · intro h
    exact ((h.reading _).2 rfl).isLayered.1
  · intro h
    have hself := phrase_spell _ h (Tree.assignmentLevel_le _)
    refine ⟨textOf_nesting s .flagged e, fun t => ⟨fun ht => ht.unique hself, ?_⟩⟩
    rintro rfl
    exact hself

end TwinView.Java
