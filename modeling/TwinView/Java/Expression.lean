import TwinView.Code.Coercion
import TwinView.Java.Literal

/-!
Java expressions. Access to properties and to names of the environment is written as calls of
inherited methods. An operand is written between parentheses if its flag says so; nothing else adds
any.
-/

namespace TwinView.Java

open Code

inductive Parens
  | flagged
  | always
  | never
deriving DecidableEq, Repr

def Parens.around (p : Parens) (e : Expr) : Bool :=
  match p with
  | .flagged => e.hasParens
  | .always => true
  | .never => false

def wrap (parens : Bool) (s : String) : String := if parens then "(" ++ s ++ ")" else s

def typeName : Ty → String
  | .void => "void"
  | .object => "Object"
  | .boolean => "boolean"
  | .char => "char"
  | .int => "int"
  | .long => "long"
  | .double => "double"
  | .number => "Number"
  | .string => "String"
  | .classRef => "Class"
  | .collection => "Collection"
  | .iterator => "Iterator"
  | .mapEntry => "Entry"
  | .map => "Map"
  | .list => "List"
  | .context => "DuelContext"
  | .view => "DuelView"
  | .part => "DuelPart"
  | .ioException => "IOException"
  | .named name => name

/-- The name of a type as the argument of another, which cannot be a scalar. -/
def boxedTypeName : Ty → String
  | .boolean => "Boolean"
  | .char => "Character"
  | .int => "Integer"
  | .long => "Long"
  | .double => "Double"
  | t => typeName t

def arithSymbol : Arith → String
  | .add => "+"
  | .subtract => "-"
  | .multiply => "*"
  | .divide => "/"
  | .modulus => "%"
  | .bitAnd => "&"
  | .bitOr => "|"
  | .bitXor => "^"
  | .shiftLeft => "<<"
  | .shiftRight => ">>"
  | .shiftRightUnsigned => ">>>"

def binarySymbol : BinaryOp → String
  | .assign => " = "
  | .arith op => " " ++ arithSymbol op ++ " "
  | .update op => " " ++ arithSymbol op ++ "= "
  | .and => " && "
  | .or => " || "
  | .compare .less => " < "
  | .compare .lessEqual => " <= "
  | .compare .greater => " > "
  | .compare .greaterEqual => " >= "
  | .compare .identical => " == "
  | .compare .notIdentical => " != "
  | .compare .equal => ""
  | .compare .notEqual => ""

def unarySymbol : UnaryOp → String
  | .not => "!"
  | .bitNot => "~"
  | .negate => "-"
  | .plus => "+"
  | .preIncrement | .postIncrement => "++"
  | .preDecrement | .postDecrement => "--"

def isSign (c : Char) : Bool := c = '-' || c = '+'

/-- An operator in front of its operand, with a space where two signs would join. -/
def prefixed (op : UnaryOp) (operand : String) : String :=
  let symbol := unarySymbol op
  if symbol.toList.getLast?.any isSign && operand.toList.head?.any isSign then
    symbol ++ " " ++ operand
  else symbol ++ operand

def callSelf (method : String) (args : List String) : String :=
  "this." ++ method ++ "(" ++ ", ".intercalate args ++ ")"

/-- The inherited method that an equality is written with, and whether its answer is negated. The
equalities without coercion are native if one side is the constant null or undefined. -/
def comparisonMethod (op : BinaryOp) (left right : Expr) : Option (Bool × String) :=
  match op with
  | .compare .identical => if left.isNullish || right.isNullish then none else some (false, "equal")
  | .compare .notIdentical =>
    if left.isNullish || right.isNullish then none else some (true, "equal")
  | .compare .equal => some (false, "coerceEqual")
  | .compare .notEqual => some (true, "coerceEqual")
  | _ => none

def coercedTruth (value : String) : String := "DuelData.coerceBoolean(" ++ value ++ ")"

mutual

def expression (s : Settings) (p : Parens) : Expr → String
  | .prim value _ => primitive s value
  | .var name _ _ => name
  | .property target key _ =>
    callSelf "getProperty" [expression s .flagged target, expression s .flagged key]
  | .field target name _ _ => expression s .flagged target ++ "." ++ name
  | .this _ => "this"
  | .typeRef type _ => typeName type
  | .binary op left right flag =>
    let value := expression s .flagged right
    let written :=
      match comparisonMethod op left right with
      | some (negated, method) =>
        (if negated then "!" else "") ++ callSelf method [expression s .flagged left, value]
      | none =>
        if op.isAssignment && left.isStored then
          assigned s left value
        else expression s .flagged left ++ binarySymbol op ++ value
    wrap (p.around (.binary op left right flag)) written
  | .unary op operand flag =>
    let inner := expression s .flagged operand
    wrap (p.around (.unary op operand flag))
      (if op.isPost then inner ++ unarySymbol op else prefixed op inner)
  | .ternary test yes no flag =>
    let asked :=
      if test.resultType.isBoolean then expression s .flagged test
      else coercedTruth (expression s .never test)
    wrap (p.around (.ternary test yes no flag))
      (asked ++ " ? " ++ expression s .flagged yes ++ " : " ++ expression s .flagged no)
  | .invoke _ target method args _ =>
    expression s .flagged target ++ "." ++ method ++ "(" ++ arguments s args ++ ")"
  | .create name args _ => "new " ++ name ++ "(" ++ arguments s args ++ ")"
  | .array element size items _ =>
    if items.isEmpty then
      "new ArrayList<" ++ boxedTypeName element ++ ">(" ++ (if 0 < size then size.repr else "") ++ ")"
    else "Arrays.asList(" ++ arguments s items ++ ")"
  | .cast type operand flag =>
    wrap (p.around (.cast type operand flag))
      ("(" ++ typeName type ++ ")" ++ expression s .always operand)
  | .extra name _ => callSelf "getExtra" ["context", stringLiteral s name]

/-- An assignment to a target that only an inherited method can write to. -/
def assigned (s : Settings) (target : Expr) (value : String) : String :=
  match target with
  | .property object key _ =>
    callSelf "setProperty" [expression s .flagged object, expression s .flagged key, value]
  | .extra name _ => callSelf "putExtra" ["context", stringLiteral s name, value]
  | _ => value

/-- Arguments between commas; a lone argument needs no parentheses. -/
def arguments (s : Settings) : List Expr → String
  | [] => ""
  | [e] => expression s .never e
  | e :: rest => expression s .flagged e ++ moreArguments s rest

def moreArguments (s : Settings) : List Expr → String
  | [] => ""
  | e :: rest => ", " ++ expression s .flagged e ++ moreArguments s rest

end

/-- An expression whose truth is asked for; if it is no boolean it is coerced. -/
def condition (s : Settings) (p : Parens) (e : Expr) : String :=
  if e.resultType.isBoolean then expression s p e else coercedTruth (expression s .never e)

end TwinView.Java
