import TwinView.Script.Token
import TwinView.Script.Tree

/-!
Parsing tokens into statements. Every function takes the tokens that are left and gives back the ones
behind what it read; `stop` is the length of the source, where a missing token is reported. Infix
operators are read by precedence climbing. The recursion is bounded by fuel, of which a step that
reads no token uses one; sixteen for each token are enough.
-/

namespace TwinView.Script

open Code

abbrev Parsed (α : Type) := α × List Token

inductive Infix
  | binary (op : BinaryOp)
  | isIn
  | instanceOf
deriving DecidableEq, Repr

def infixTable : List (String × Nat × BinaryOp) := [
  ("||", 1, .or), ("&&", 2, .and), ("|", 3, .arith .bitOr), ("^", 4, .arith .bitXor),
  ("&", 5, .arith .bitAnd), ("==", 6, .compare .equal), ("!=", 6, .compare .notEqual),
  ("===", 6, .compare .identical), ("!==", 6, .compare .notIdentical), ("<", 7, .compare .less),
  (">", 7, .compare .greater), ("<=", 7, .compare .lessEqual), (">=", 7, .compare .greaterEqual),
  ("<<", 8, .arith .shiftLeft), (">>", 8, .arith .shiftRight),
  (">>>", 8, .arith .shiftRightUnsigned), ("+", 9, .arith .add), ("-", 9, .arith .subtract),
  ("*", 10, .arith .multiply), ("/", 10, .arith .divide), ("%", 10, .arith .modulus)]

def infix? : Lexeme → Option (Nat × Infix)
  | .keyword "in" => some (7, .isIn)
  | .keyword "instanceof" => some (7, .instanceOf)
  | .operator s => (infixTable.lookup s).map fun (precedence, op) => (precedence, .binary op)
  | _ => none

def assignmentTable : List (String × BinaryOp) := [
  ("=", .assign), ("+=", .update .add), ("-=", .update .subtract), ("*=", .update .multiply),
  ("/=", .update .divide), ("%=", .update .modulus), ("&=", .update .bitAnd),
  ("|=", .update .bitOr), ("^=", .update .bitXor), ("<<=", .update .shiftLeft),
  (">>=", .update .shiftRight), (">>>=", .update .shiftRightUnsigned)]

def assignment? : Lexeme → Option BinaryOp
  | .operator s => assignmentTable.lookup s
  | _ => none

def prefixTable : List (String × UnaryOp) := [
  ("!", .not), ("~", .bitNot), ("-", .negate), ("+", .plus), ("++", .preIncrement),
  ("--", .preDecrement)]

def unsupportedStatements : List String := [
  "if", "else", "while", "do", "switch", "case", "default", "try", "catch", "finally", "throw",
  "break", "continue"]

def next (ts : List Token) : Option Lexeme := ts.head?.map (·.lexeme)

def nextIs (l : Lexeme) (ts : List Token) : Bool := next ts = some l

def accept? (l : Lexeme) : List Token → Option (List Token)
  | [] => none
  | t :: rest => if t.lexeme = l then some rest else none

def startOf (stop : Nat) : List Token → Nat
  | [] => stop
  | t :: _ => t.start

def unexpected {α : Type} (stop : Nat) : List Token → Except Refusal α
  | [] => .error ⟨.unexpectedEnd, stop⟩
  | t :: _ => .error ⟨.unexpectedToken t.display, t.start⟩

def expect (stop : Nat) (c : Char) (ts : List Token) : Except Refusal (List Token) :=
  match accept? (.mark c) ts, ts with
  | some rest, _ => .ok rest
  | none, [] => .error ⟨.missing c none, stop⟩
  | none, t :: _ => .error ⟨.missing c (some t.display), t.start⟩

def expectName (stop : Nat) (ts : List Token) : Except Refusal (Parsed String) :=
  match ts with
  | ⟨_, _, .name s⟩ :: rest => .ok (s, rest)
  | _ => unexpected stop ts

def expectProperty (stop : Nat) (ts : List Token) : Except Refusal (Parsed String) :=
  match ts with
  | ⟨_, _, .name s⟩ :: rest => .ok (s, rest)
  | ⟨_, _, .keyword s⟩ :: rest => .ok (s, rest)
  | _ => unexpected stop ts

def skipSemicolon (ts : List Token) : List Token := (accept? (.mark ';') ts).getD ts

/-- The names of parameters from the first on, up to the closing parenthesis. -/
def parameterNames (stop : Nat) : Nat → List Token → Except Refusal (Parsed (List String))
  | 0, ts => unexpected stop ts
  | fuel + 1, ts => do
    let (name, ts) ← expectName stop ts
    match accept? (.mark ')') ts with
    | some ts => return ([name], ts)
    | none =>
      let ts ← expect stop ',' ts
      let (names, ts) ← parameterNames stop fuel ts
      return (name :: names, ts)

/-- The key of a property: a name, a keyword, a string or a number. -/
def parseKey (stop : Nat) (ts : List Token) : Except Refusal (Parsed PropertyKey) :=
  match ts with
  | ⟨_, _, .name s⟩ :: rest => .ok (.name s, rest)
  | ⟨_, _, .keyword s⟩ :: rest => .ok (.name s, rest)
  | ⟨start, _, .text s⟩ :: rest => .ok (.text start s, rest)
  | ⟨start, _, .number x⟩ :: rest => .ok (.number start x, rest)
  | _ => unexpected stop ts

mutual

def parseProgram (stop : Nat) : Nat → List Token → Except Refusal (List Stmt)
  | _, [] => .ok []
  | 0, ts => unexpected stop ts
  | fuel + 1, ts => do
    let (stmt, ts) ← parseStatement stop fuel ts
    return stmt :: (← parseProgram stop fuel ts)

def parseStatement (stop : Nat) : Nat → List Token → Except Refusal (Parsed Stmt)
  | 0, ts => unexpected stop ts
  | fuel + 1, ts => do
    let start := startOf stop ts
    match ts with
    | [] => unexpected stop []
    | ⟨_, _, .mark '\x7b'⟩ :: rest =>
      let (body, rest) ← parseBlock stop fuel rest
      return (.block start body, rest)
    | ⟨_, _, .mark ';'⟩ :: rest => return (.empty start, rest)
    | ⟨_, _, .keyword "var"⟩ :: rest =>
      let (decls, rest) ← parseDecls stop fuel rest
      return (.var start decls, skipSemicolon rest)
    | ⟨_, _, .keyword "function"⟩ :: rest =>
      let (body, rest) ← parseFunction stop fuel start rest
      return (.function start body, rest)
    | ⟨_, _, .keyword "return"⟩ :: rest =>
      if rest.isEmpty || nextIs (.mark ';') rest || nextIs (.mark '\x7d') rest then
        return (.ret start none, skipSemicolon rest)
      else
        let (value, rest) ← parseExpression stop fuel rest
        return (.ret start (some value), skipSemicolon rest)
    | ⟨_, _, .keyword "for"⟩ :: rest => parseLoop stop fuel start rest
    | ⟨_, _, .keyword "with"⟩ :: _ => .error ⟨.withStatement, start⟩
    | t :: _ =>
      match t.lexeme with
      | .keyword k =>
        if unsupportedStatements.contains k then .error ⟨.unsupported k, start⟩
        else parseExpressionStatement stop fuel start ts
      | _ => parseExpressionStatement stop fuel start ts

def parseExpressionStatement (stop : Nat) : Nat → Nat → List Token → Except Refusal (Parsed Stmt)
  | 0, _, ts => unexpected stop ts
  | fuel + 1, start, ts => do
    let (e, ts) ← parseExpression stop fuel ts
    return (.expr start e, skipSemicolon ts)

def parseBlock (stop : Nat) : Nat → List Token → Except Refusal (Parsed (List Stmt))
  | 0, ts => unexpected stop ts
  | fuel + 1, ts => do
    match ts with
    | [] => .error ⟨.missing '\x7d' none, stop⟩
    | ⟨_, _, .mark '\x7d'⟩ :: rest => return ([], rest)
    | ts =>
      let (stmt, ts) ← parseStatement stop fuel ts
      let (body, ts) ← parseBlock stop fuel ts
      return (stmt :: body, ts)

def parseDecls (stop : Nat) : Nat → List Token → Except Refusal (Parsed (List Decl))
  | 0, ts => unexpected stop ts
  | fuel + 1, ts => do
    let start := startOf stop ts
    let (name, ts) ← expectName stop ts
    let (init, ts) ← parseInit stop fuel ts
    let decl : Decl := { name, init, start }
    match accept? (.mark ',') ts with
    | none => return ([decl], ts)
    | some ts =>
      let (decls, ts) ← parseDecls stop fuel ts
      return (decl :: decls, ts)

def parseInit (stop : Nat) : Nat → List Token → Except Refusal (Parsed (Option Expr))
  | 0, ts => unexpected stop ts
  | fuel + 1, ts => do
    match accept? (.operator "=") ts with
    | none => return (none, ts)
    | some ts =>
      let (e, ts) ← parseAssignment stop fuel ts
      return (some e, ts)

def parseLoop (stop : Nat) : Nat → Nat → List Token → Except Refusal (Parsed Stmt)
  | 0, _, ts => unexpected stop ts
  | fuel + 1, start, ts => do
    let ts ← expect stop '(' ts
    let (init, ts) ← parseLoopInit stop fuel ts
    if nextIs (.keyword "in") ts then .error ⟨.unsupported "for-in", startOf stop ts⟩
    else
      let ts ← expect stop ';' ts
      let (test, ts) ← parseOptional stop fuel ';' ts
      let ts ← expect stop ';' ts
      let (update, ts) ← parseOptional stop fuel ')' ts
      let ts ← expect stop ')' ts
      let (body, ts) ← parseStatement stop fuel ts
      return (.loop start init test update body, ts)

def parseLoopInit (stop : Nat) : Nat → List Token → Except Refusal (Parsed (Option Stmt))
  | 0, ts => unexpected stop ts
  | fuel + 1, ts => do
    if nextIs (.mark ';') ts then return (none, ts)
    else
      let start := startOf stop ts
      match accept? (.keyword "var") ts with
      | some ts =>
        let (decls, ts) ← parseDecls stop fuel ts
        return (some (.var start decls), ts)
      | none =>
        let (e, ts) ← parseExpression stop fuel ts
        return (some (.expr start e), ts)

def parseOptional (stop : Nat) : Nat → Char → List Token → Except Refusal (Parsed (Option Expr))
  | 0, _, ts => unexpected stop ts
  | fuel + 1, c, ts => do
    if nextIs (.mark c) ts then return (none, ts)
    else
      let (e, ts) ← parseExpression stop fuel ts
      return (some e, ts)

def parseFunction (stop : Nat) : Nat → Nat → List Token → Except Refusal (Parsed Function)
  | 0, _, ts => unexpected stop ts
  | fuel + 1, start, ts => do
    let (name, ts) :=
      match ts with
      | ⟨_, _, .name s⟩ :: rest => (some s, rest)
      | ts => (none, ts)
    let ts ← expect stop '(' ts
    let (params, ts) ←
      match accept? (.mark ')') ts with
      | some ts => pure ([], ts)
      | none => parameterNames stop (ts.length + 1) ts
    let ts ← expect stop '\x7b' ts
    let (body, ts) ← parseBlock stop fuel ts
    return ({ name, params, body, start }, ts)

def parseExpression (stop : Nat) : Nat → List Token → Except Refusal (Parsed Expr)
  | 0, ts => unexpected stop ts
  | fuel + 1, ts => do
    let (first, ts) ← parseAssignment stop fuel ts
    if nextIs (.mark ',') ts then
      let (more, ts) ← parseCommas stop fuel ts
      return (.comma first.start (first :: more), ts)
    else return (first, ts)

def parseCommas (stop : Nat) : Nat → List Token → Except Refusal (Parsed (List Expr))
  | 0, ts => unexpected stop ts
  | fuel + 1, ts => do
    match accept? (.mark ',') ts with
    | none => return ([], ts)
    | some ts =>
      let (e, ts) ← parseAssignment stop fuel ts
      let (more, ts) ← parseCommas stop fuel ts
      return (e :: more, ts)

def parseAssignment (stop : Nat) : Nat → List Token → Except Refusal (Parsed Expr)
  | 0, ts => unexpected stop ts
  | fuel + 1, ts => do
    let (left, ts) ← parseConditional stop fuel ts
    match (next ts).bind assignment? with
    | none => return (left, ts)
    | some op =>
      if left.isTarget then
        let (right, ts) ← parseAssignment stop fuel (ts.drop 1)
        return (.binary left.start op left right, ts)
      else .error ⟨.assignmentTarget, left.start⟩

def parseConditional (stop : Nat) : Nat → List Token → Except Refusal (Parsed Expr)
  | 0, ts => unexpected stop ts
  | fuel + 1, ts => do
    let (test, ts) ← parseInfix stop fuel 1 ts
    match accept? (.operator "?") ts with
    | none => return (test, ts)
    | some ts =>
      let (yes, ts) ← parseAssignment stop fuel ts
      let ts ← expect stop ':' ts
      let (no, ts) ← parseAssignment stop fuel ts
      return (.cond test.start test yes no, ts)

def parseInfix (stop : Nat) : Nat → Nat → List Token → Except Refusal (Parsed Expr)
  | 0, _, ts => unexpected stop ts
  | fuel + 1, least, ts => do
    let (left, ts) ← parseUnary stop fuel ts
    parseInfixRest stop fuel least left ts

def parseInfixRest (stop : Nat) : Nat → Nat → Expr → List Token → Except Refusal (Parsed Expr)
  | 0, _, _, ts => unexpected stop ts
  | fuel + 1, least, left, ts => do
    match (next ts).bind infix? with
    | none => return (left, ts)
    | some (precedence, op) =>
      if precedence < least then return (left, ts)
      else
        let (right, ts) ← parseInfix stop fuel (precedence + 1) (ts.drop 1)
        let joined : Expr :=
          match op with
          | .binary op => .binary left.start op left right
          | .isIn => .isIn left.start left right
          | .instanceOf => .instanceOf left.start left right
        parseInfixRest stop fuel least joined ts

def parseUnary (stop : Nat) : Nat → List Token → Except Refusal (Parsed Expr)
  | 0, ts => unexpected stop ts
  | fuel + 1, ts => do
    match ts with
    | [] => unexpected stop []
    | ⟨start, _, .operator s⟩ :: rest =>
      match prefixTable.lookup s with
      | some op =>
        let (operand, rest) ← parseUnary stop fuel rest
        return (.unary start op operand, rest)
      | none => unexpected stop ts
    | ⟨start, _, .keyword "typeof"⟩ :: rest =>
      let (operand, rest) ← parseUnary stop fuel rest
      return (.typeOf start operand, rest)
    | ⟨start, _, .keyword "void"⟩ :: _ => .error ⟨.unsupported "void", start⟩
    | ⟨start, _, .keyword "delete"⟩ :: _ => .error ⟨.unsupported "delete", start⟩
    | ts => parsePostfix stop fuel ts

def parsePostfix (stop : Nat) : Nat → List Token → Except Refusal (Parsed Expr)
  | 0, ts => unexpected stop ts
  | fuel + 1, ts => do
    let (e, ts) ← parseCallMember stop fuel ts
    match accept? (.operator "++") ts, accept? (.operator "--") ts with
    | some rest, _ => return (.unary e.start .postIncrement e, rest)
    | none, some rest => return (.unary e.start .postDecrement e, rest)
    | none, none => return (e, ts)

def parseCallMember (stop : Nat) : Nat → List Token → Except Refusal (Parsed Expr)
  | 0, ts => unexpected stop ts
  | fuel + 1, ts => do
    let (e, ts) ← parseHead stop fuel ts
    parseTails stop fuel true e ts

def parseHead (stop : Nat) : Nat → List Token → Except Refusal (Parsed Expr)
  | 0, ts => unexpected stop ts
  | fuel + 1, ts =>
    if nextIs (.keyword "new") ts then parseNew stop fuel ts else parsePrimary stop fuel ts

def parseTails (stop : Nat) : Nat → Bool → Expr → List Token → Except Refusal (Parsed Expr)
  | 0, _, _, ts => unexpected stop ts
  | fuel + 1, calls, e, ts => do
    match ts with
    | ⟨_, _, .mark '.'⟩ :: rest =>
      let (name, rest) ← expectProperty stop rest
      parseTails stop fuel calls (.member e.start e name) rest
    | ⟨_, _, .mark '['⟩ :: rest =>
      let (key, rest) ← parseExpression stop fuel rest
      let rest ← expect stop ']' rest
      parseTails stop fuel calls (.index e.start e key) rest
    | ⟨_, _, .mark '('⟩ :: rest =>
      if calls then
        let (args, rest) ← parseArguments stop fuel rest
        parseTails stop fuel calls (.call e.start e args) rest
      else return (e, ts)
    | ts => return (e, ts)

/-- A `new`; its target has accesses and no calls. -/
def parseNew (stop : Nat) : Nat → List Token → Except Refusal (Parsed Expr)
  | 0, ts => unexpected stop ts
  | fuel + 1, ts => do
    let start := startOf stop ts
    let (head, ts) ← parseHead stop fuel (ts.drop 1)
    let (target, ts) ← parseTails stop fuel false head ts
    match accept? (.mark '(') ts with
    | none => return (.new start target [], ts)
    | some ts =>
      let (args, ts) ← parseArguments stop fuel ts
      return (.new start target args, ts)

def parseArguments (stop : Nat) : Nat → List Token → Except Refusal (Parsed (List Expr))
  | 0, ts => unexpected stop ts
  | fuel + 1, ts => do
    match accept? (.mark ')') ts with
    | some ts => return ([], ts)
    | none => parseMoreArguments stop fuel ts

def parseMoreArguments (stop : Nat) : Nat → List Token → Except Refusal (Parsed (List Expr))
  | 0, ts => unexpected stop ts
  | fuel + 1, ts => do
    let (e, ts) ← parseAssignment stop fuel ts
    match accept? (.mark ')') ts with
    | some ts => return ([e], ts)
    | none =>
      let ts ← expect stop ',' ts
      let (more, ts) ← parseMoreArguments stop fuel ts
      return (e :: more, ts)

def parsePrimary (stop : Nat) : Nat → List Token → Except Refusal (Parsed Expr)
  | 0, ts => unexpected stop ts
  | fuel + 1, ts => do
    match ts with
    | ⟨start, _, .name s⟩ :: rest => return (.name start s, rest)
    | ⟨start, _, .number x⟩ :: rest => return (.number start x, rest)
    | ⟨start, _, .text s⟩ :: rest => return (.text start s, rest)
    | ⟨start, _, .keyword "true"⟩ :: rest => return (.bool start true, rest)
    | ⟨start, _, .keyword "false"⟩ :: rest => return (.bool start false, rest)
    | ⟨start, _, .keyword "null"⟩ :: rest => return (.null start, rest)
    | ⟨start, _, .keyword "this"⟩ :: rest => return (.this start, rest)
    | ⟨start, _, .keyword "function"⟩ :: rest =>
      let (body, rest) ← parseFunction stop fuel start rest
      return (.function start body, rest)
    | ⟨start, _, .mark '('⟩ :: rest =>
      let (inner, rest) ← parseExpression stop fuel rest
      let rest ← expect stop ')' rest
      return (.parens start inner, rest)
    | ⟨start, _, .mark '['⟩ :: rest =>
      let (items, rest) ← parseItems stop fuel rest
      return (.array start items, rest)
    | ⟨start, _, .mark '\x7b'⟩ :: rest =>
      let (props, rest) ← parseProps stop fuel rest
      return (.object start props, rest)
    | ts => unexpected stop ts

/-- The items of an array up to its closing bracket; a comma may stand before it. -/
def parseItems (stop : Nat) : Nat → List Token → Except Refusal (Parsed (List Expr))
  | 0, ts => unexpected stop ts
  | fuel + 1, ts => do
    match accept? (.mark ']') ts with
    | some ts => return ([], ts)
    | none =>
      let (e, ts) ← parseAssignment stop fuel ts
      match accept? (.mark ',') ts with
      | some ts =>
        let (more, ts) ← parseItems stop fuel ts
        return (e :: more, ts)
      | none =>
        let ts ← expect stop ']' ts
        return ([e], ts)

/-- The properties of an object up to its closing brace; a comma may stand before it. -/
def parseProps (stop : Nat) : Nat → List Token → Except Refusal (Parsed (List (PropertyKey × Expr)))
  | 0, ts => unexpected stop ts
  | fuel + 1, ts => do
    match accept? (.mark '\x7d') ts with
    | some ts => return ([], ts)
    | none =>
      let (key, ts) ← parseKey stop ts
      let ts ← expect stop ':' ts
      let (value, ts) ← parseAssignment stop fuel ts
      match accept? (.mark ',') ts with
      | some ts =>
        let (more, ts) ← parseProps stop fuel ts
        return ((key, value) :: more, ts)
      | none =>
        let ts ← expect stop '\x7d' ts
        return ([(key, value)], ts)

end

def parse (source : String) : Except Refusal (List Stmt) := do
  let ts ← tokenize source
  parseProgram (byteLength source.toList) (16 * (ts.length + 2)) ts

end TwinView.Script
