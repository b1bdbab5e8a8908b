import TwinView.Script.Parser

/-!
The grammar of scripts, apart from how they are parsed. `Written` says by which tokens a tree is
spelled, in front of what; the optional tokens are the semicolon behind a statement, the comma before a
closing bracket and the empty parentheses behind `new`. `isLayered` says how the nodes of a tree may
stand in each other without parentheses.
-/

namespace TwinView.Script

open Code

def symbol : BinaryOp → String
  | .assign => "="
  | .arith op => arithSymbol op
  | .update op => arithSymbol op ++ "="
  | .and => "&&"
  | .or => "||"
  | .compare .less => "<"
  | .compare .lessEqual => "<="
  | .compare .greater => ">"
  | .compare .greaterEqual => ">="
  | .compare .identical => "==="
  | .compare .notIdentical => "!=="
  | .compare .equal => "=="
  | .compare .notEqual => "!="
where
  arithSymbol : Arith → String
    | .add => "+"
    | .subtract => "-"
    | .multiply => "*"
    | .divide => "/"
    | .modulus => "%"
    | .bitAnd => "&"
    | .bitOr => "|"
    | .bitXor => "^"
    | .shiftLeft => "<<"
    | .shiftRight => ">>"
    | .shiftRightUnsigned => ">>>"

/-- The precedence of an infix operator, the loosest first. Assignments are none. -/
def precedence : BinaryOp → Nat
  | .assign | .update _ => 0
  | .or => 1
  | .and => 2
  | .arith .bitOr => 3
  | .arith .bitXor => 4
  | .arith .bitAnd => 5
  | .compare .identical | .compare .notIdentical | .compare .equal | .compare .notEqual => 6
  | .compare _ => 7
  | .arith .shiftLeft | .arith .shiftRight | .arith .shiftRightUnsigned => 8
  | .arith .add | .arith .subtract => 9
  | .arith .multiply | .arith .divide | .arith .modulus => 10

def wordPrecedence : Nat := 7

def unarySymbol : UnaryOp → String
  | .not => "!"
  | .bitNot => "~"
  | .negate => "-"
  | .plus => "+"
  | .preIncrement | .postIncrement => "++"
  | .preDecrement | .postDecrement => "--"

theorem infix?_symbol {op : BinaryOp} (h : op.isAssignment = false) :
    infix? (.operator (symbol op)) = some (precedence op, .binary op) := by
  cases op with
  | assign | update => cases h
  | and | or => rfl
  | arith op => cases op <;> rfl
  | compare op => cases op <;> rfl

theorem infix?_eq_some {l : Lexeme} {p : Nat} {x : Infix} (h : infix? l = some (p, x)) :
    match x with
    | .binary op => l = .operator (symbol op) ∧ p = precedence op ∧ op.isAssignment = false
    | .isIn => l = .keyword "in" ∧ p = wordPrecedence
    | .instanceOf => l = .keyword "instanceof" ∧ p = wordPrecedence := by
  unfold infix? at h
  split at h
  · cases h
    exact ⟨rfl, rfl⟩
  · cases h
    exact ⟨rfl, rfl⟩
  · obtain ⟨⟨q, op⟩, hl, he⟩ := Option.map_eq_some_iff.1 h
    cases he
    obtain ⟨_, _, htable, -⟩ := List.lookup_eq_some_iff.1 hl
    have hall : ∀ x ∈ infixTable, x.1 = symbol x.2.2 ∧ x.2.1 = precedence x.2.2 ∧
        x.2.2.isAssignment = false := by decide
    obtain ⟨hs, hp, ha⟩ := hall _ (htable ▸ List.mem_append_right _ List.mem_cons_self)
    exact ⟨congrArg _ hs, hp, ha⟩
  · cases h

theorem assignment?_symbol {op : BinaryOp} (h : op.isAssignment) :
    assignment? (.operator (symbol op)) = some op := by
  cases op with
  | assign => rfl
  | update op => cases op <;> rfl
  | arith | and | or | compare => cases h

theorem assignment?_eq_some {l : Lexeme} {op : BinaryOp} (h : assignment? l = some op) :
    l = .operator (symbol op) ∧ op.isAssignment := by
  unfold assignment? at h
  split at h
  · obtain ⟨_, _, htable, -⟩ := List.lookup_eq_some_iff.1 h
    have hall : ∀ x ∈ assignmentTable, x.1 = symbol x.2 ∧ x.2.isAssignment := by decide
    obtain ⟨hs, ha⟩ := hall _ (htable ▸ List.mem_append_right _ List.mem_cons_self)
    exact ⟨congrArg _ hs, ha⟩
  · cases h

theorem prefixTable_symbol {op : UnaryOp} (h : op.isPost = false) :
    prefixTable.lookup (unarySymbol op) = some op := by
  cases op with
  | postIncrement | postDecrement => cases h
  | _ => rfl

theorem prefixTable_eq_some {s : String} {op : UnaryOp} (h : prefixTable.lookup s = some op) :
    s = unarySymbol op ∧ op.isPost = false := by
  obtain ⟨_, _, htable, -⟩ := List.lookup_eq_some_iff.1 h
  have hall : ∀ x ∈ prefixTable, x.1 = unarySymbol x.2 ∧ x.2.isPost = false := by decide
  exact hall _ (htable ▸ List.mem_append_right _ List.mem_cons_self)

theorem precedence_le (op : BinaryOp) : precedence op ≤ 10 := by
  cases op with
  | assign | update => exact Nat.zero_le _
  | and | or => decide
  | arith op => cases op <;> decide
  | compare op => cases op <;> decide

/-- The level of infix operators of a precedence. Below are conditionals, assignments and commas. -/
def infixLevel (precedence : Nat) : Nat := precedence + 2

def conditionalLevel : Nat := 2
def assignmentLevel : Nat := 1
def prefixLevel : Nat := 13
def postfixLevel : Nat := 14
def tightest : Nat := 15

def Expr.level : Expr → Nat
  | .comma _ _ => 0
  | .binary _ op _ _ => if op.isAssignment then assignmentLevel else infixLevel (precedence op)
  | .cond _ _ _ _ => conditionalLevel
  | .isIn _ _ _ | .instanceOf _ _ _ => infixLevel wordPrecedence
  | .unary _ op _ => if op.isPost then postfixLevel else prefixLevel
  | .typeOf _ _ => prefixLevel
  | _ => tightest

/-- Whether an expression is made up of accesses behind what they start from, with no call among
them. -/
def Expr.isCallFree : Expr → Bool
  | .member _ target _ | .index _ target _ => target.isCallFree
  | .call _ _ _ => false
  | e => e.level = tightest

mutual

/-- Whether no node stands where a tighter one is called for. -/
def Expr.isLayered : Expr → Bool
  | .parens _ inner => inner.isLayered
  | .member _ target _ => tightest ≤ target.level && target.isLayered
  | .index _ target key => tightest ≤ target.level && target.isLayered && key.isLayered
  | .call _ target args => tightest ≤ target.level && target.isLayered && areLayered args
  | .new _ target args => target.isCallFree && target.isLayered && areLayered args
  | .unary _ op operand =>
    (if op.isPost then tightest else prefixLevel) ≤ operand.level && operand.isLayered
  | .typeOf _ operand => prefixLevel ≤ operand.level && operand.isLayered
  | .binary _ op left right =>
    (if op.isAssignment then left.isTarget && assignmentLevel ≤ right.level
      else infixLevel (precedence op) ≤ left.level && infixLevel (precedence op) < right.level) &&
    left.isLayered && right.isLayered
  | .isIn _ key target =>
    infixLevel wordPrecedence ≤ key.level && infixLevel wordPrecedence < target.level &&
    key.isLayered && target.isLayered
  | .instanceOf _ target type =>
    infixLevel wordPrecedence ≤ target.level && infixLevel wordPrecedence < type.level &&
    target.isLayered && type.isLayered
  | .cond _ test yes no =>
    conditionalLevel < test.level && assignmentLevel ≤ yes.level && assignmentLevel ≤ no.level &&
    test.isLayered && yes.isLayered && no.isLayered
  | .comma _ items => 2 ≤ items.length && areLayered items
  | .object _ props => areLayeredProps props
  | .array _ items => areLayered items
  | .function _ ⟨_, _, body, _⟩ => Stmt.areLayered body
  | _ => true

def areLayered : List Expr → Bool
  | [] => true
  | e :: rest => assignmentLevel ≤ e.level && e.isLayered && areLayered rest

def areLayeredProps : List (PropertyKey × Expr) → Bool
  | [] => true
  | (_, e) :: rest => assignmentLevel ≤ e.level && e.isLayered && areLayeredProps rest

def Stmt.isLayered : Stmt → Bool
  | .expr _ e => e.isLayered
  | .var _ decls => !decls.isEmpty && areLayeredDecls decls
  | .ret _ none => true
  | .ret _ (some e) => e.isLayered
  | .block _ body => Stmt.areLayered body
  | .loop _ none test update body => isLayeredOption test && isLayeredOption update && body.isLayered
  | .loop _ (some init) test update body =>
    init.isLayered && isLayeredOption test && isLayeredOption update && body.isLayered
  | .function _ ⟨_, _, body, _⟩ => Stmt.areLayered body
  | .empty _ => true

def areLayeredDecls : List (DeclOf Expr) → Bool
  | [] => true
  | ⟨_, none, _⟩ :: rest => areLayeredDecls rest
  | ⟨_, some e, _⟩ :: rest => assignmentLevel ≤ e.level && e.isLayered && areLayeredDecls rest

def isLayeredOption : Option Expr → Bool
  | none => true
  | some e => e.isLayered

def Stmt.areLayered : List Stmt → Bool
  | [] => true
  | s :: rest => s.isLayered && Stmt.areLayered rest

end

def Infix.join (left right : Expr) : Infix → Expr
  | .binary op => .binary left.start op left right
  | .isIn => .isIn left.start left right
  | .instanceOf => .instanceOf left.start left right

theorem level_join {p : Nat} {op : Infix} {l : Lexeme} (hop : infix? l = some (p, op)) (left right : Expr) :
    (op.join left right).level = infixLevel p := by
  have := infix?_eq_some hop
  cases op with
  | binary op =>
      obtain ⟨-, rfl, ha⟩ := this
      simp [Infix.join, Expr.level, ha]
  | isIn | instanceOf =>
      obtain ⟨-, rfl⟩ := this
      rfl

theorem isLayered_join {p : Nat} {op : Infix} {l : Lexeme} (hop : infix? l = some (p, op))
    (left right : Expr) :
    (op.join left right).isLayered =
      (infixLevel p ≤ left.level && infixLevel p < right.level && left.isLayered && right.isLayered) := by
  have := infix?_eq_some hop
  cases op with
  | binary op =>
      obtain ⟨-, rfl, ha⟩ := this
      simp [Infix.join, Expr.isLayered, ha]
  | isIn | instanceOf =>
      obtain ⟨-, rfl⟩ := this
      rfl

theorem areLayeredDecls_cons (decl : Decl) (decls : List Decl) :
    areLayeredDecls (decl :: decls) = (areLayeredDecls [decl] && areLayeredDecls decls) := by
  obtain ⟨s, init, i⟩ := decl
  cases init <;> simp [areLayeredDecls]

def StartsAt (i : Nat) (ts : List Token) : Prop := ∃ t rest, ts = t :: rest ∧ t.start = i

/-- Things between commas; where it is `loose`, a comma may also stand behind the last one. -/
inductive Separated {α : Type} (loose : Bool) (W : α → List Token → List Token → Prop) :
    List α → List Token → List Token → Prop
  | nil {rest} : Separated loose W [] [] rest
  | one {a ts rest} (h : W a ts rest) : Separated loose W [a] ts rest
  | last {a ts i j rest} (hl : loose) (h : W a ts (⟨i, j, .mark ','⟩ :: rest)) :
      Separated loose W [a] (ts ++ [⟨i, j, .mark ','⟩]) rest
  | more {a b as ts i j us rest} (h : W a ts (⟨i, j, .mark ','⟩ :: us ++ rest))
      (hm : Separated loose W (b :: as) us rest) :
      Separated loose W (a :: b :: as) (ts ++ ⟨i, j, .mark ','⟩ :: us) rest

def IsNamed (s : String) (t : Token) : Prop := t.lexeme = .name s ∨ t.lexeme = .keyword s

def IsKey : PropertyKey → Token → Prop
  | .name s, t => IsNamed s t
  | .text i s, t => t.start = i ∧ t.lexeme = .text s
  | .number i x, t => t.start = i ∧ t.lexeme = .number x

def IsParameter (s : String) (ts _rest : List Token) : Prop := ∃ i j, ts = [⟨i, j, .name s⟩]

def IsFunctionName : Option String → List Token → Prop
  | none, ts => ts = []
  | some s, ts => ∃ i j, ts = [⟨i, j, .name s⟩]

def isTail (l : Lexeme) : Bool := l = .mark '.' || l = .mark '[' || l = .mark '('

/-- The semicolon of a statement; without it the rest has to be separate. -/
inductive Ended (Separate : List Token → Prop) : List Token → List Token → Prop
  | semicolon {i j rest} : Ended Separate [⟨i, j, .mark ';'⟩] rest
  | bare {rest} (h : Separate rest) : Ended Separate [] rest

def endsBlock (rest : List Token) : Prop := rest = [] ∨ nextIs (.mark '\x7d') rest

variable (Separate : List Token → Prop)

mutual

/-- The expression is spelled by the tokens, in front of the rest. -/
inductive Written : Expr → List Token → List Token → Prop
  | name {i j s rest} : Written (.name i s) [⟨i, j, .name s⟩] rest
  | number {i j x rest} : Written (.number i x) [⟨i, j, .number x⟩] rest
  | text {i j s rest} : Written (.text i s) [⟨i, j, .text s⟩] rest
  | yes {i j rest} : Written (.bool i true) [⟨i, j, .keyword "true"⟩] rest
  | no {i j rest} : Written (.bool i false) [⟨i, j, .keyword "false"⟩] rest
  | null {i j rest} : Written (.null i) [⟨i, j, .keyword "null"⟩] rest
  | this {i j rest} : Written (.this i) [⟨i, j, .keyword "this"⟩] rest
  | parens {i j k l inner ts rest} (h : Written inner ts (⟨k, l, .mark ')'⟩ :: rest)) :
      Written (.parens i inner) (⟨i, j, .mark '('⟩ :: ts ++ [⟨k, l, .mark ')'⟩]) rest
  | member {i j k s t target ts rest} (hi : StartsAt i ts)
      (h : Written target ts (⟨j, k, .mark '.'⟩ :: t :: rest)) (ht : IsNamed s t) :
      Written (.member i target s) (ts ++ [⟨j, k, .mark '.'⟩, t]) rest
  | index {i j k l m target key ts us rest} (hi : StartsAt i ts)
      (ht : Written target ts (⟨j, k, .mark '['⟩ :: us ++ ⟨l, m, .mark ']'⟩ :: rest))
      (hk : Written key us (⟨l, m, .mark ']'⟩ :: rest)) :
      Written (.index i target key)
        (ts ++ ⟨j, k, .mark '['⟩ :: us ++ [⟨l, m, .mark ']'⟩]) rest
  | call {i j k l m target args ts us rest} (hi : StartsAt i ts)
      (ht : Written target ts (⟨j, k, .mark '('⟩ :: us ++ ⟨l, m, .mark ')'⟩ :: rest))
      (ha : Separated false Written args us (⟨l, m, .mark ')'⟩ :: rest)) :
      Written (.call i target args)
        (ts ++ ⟨j, k, .mark '('⟩ :: us ++ [⟨l, m, .mark ')'⟩]) rest
  | new {i j k l m n target args ts us rest}
      (ht : Written target ts (⟨k, l, .mark '('⟩ :: us ++ ⟨m, n, .mark ')'⟩ :: rest))
      (ha : Separated false Written args us (⟨m, n, .mark ')'⟩ :: rest)) :
      Written (.new i target args)
        (⟨i, j, .keyword "new"⟩ :: ts ++ ⟨k, l, .mark '('⟩ :: us ++ [⟨m, n, .mark ')'⟩]) rest
  | newBare {i j target ts rest} (ht : Written target ts rest) (hr : !(next rest).any isTail) :
      Written (.new i target []) (⟨i, j, .keyword "new"⟩ :: ts) rest
  | before {i j op operand ts rest} (hop : op.isPost = false) (h : Written operand ts rest) :
      Written (.unary i op operand) (⟨i, j, .operator (unarySymbol op)⟩ :: ts) rest
  | behind {i j k op operand ts rest} (hop : op.isPost) (hi : StartsAt i ts)
      (h : Written operand ts (⟨j, k, .operator (unarySymbol op)⟩ :: rest)) :
      Written (.unary i op operand) (ts ++ [⟨j, k, .operator (unarySymbol op)⟩]) rest
  | typeOf {i j operand ts rest} (h : Written operand ts rest) :
      Written (.typeOf i operand) (⟨i, j, .keyword "typeof"⟩ :: ts) rest
  | binary {i j k op left right ts us rest} (hi : StartsAt i ts)
      (hl : Written left ts (⟨j, k, .operator (symbol op)⟩ :: us ++ rest))
      (hr : Written right us rest) :
      Written (.binary i op left right) (ts ++ ⟨j, k, .operator (symbol op)⟩ :: us) rest
  | isIn {i j k key target ts us rest} (hi : StartsAt i ts)
      (hk : Written key ts (⟨j, k, .keyword "in"⟩ :: us ++ rest)) (ht : Written target us rest) :
      Written (.isIn i key target) (ts ++ ⟨j, k, .keyword "in"⟩ :: us) rest
  | instanceOf {i j k target type ts us rest} (hi : StartsAt i ts)
      (ht : Written target ts (⟨j, k, .keyword "instanceof"⟩ :: us ++ rest))
      (hty : Written type us rest) :
      Written (.instanceOf i target type) (ts ++ ⟨j, k, .keyword "instanceof"⟩ :: us) rest
  | cond {i j k l m test yes no ts us vs rest} (hi : StartsAt i ts)
      (ht : Written test ts (⟨j, k, .operator "?"⟩ :: us ++ ⟨l, m, .mark ':'⟩ :: vs ++ rest))
      (hy : Written yes us (⟨l, m, .mark ':'⟩ :: vs ++ rest)) (hn : Written no vs rest) :
      Written (.cond i test yes no)
        (ts ++ ⟨j, k, .operator "?"⟩ :: us ++ ⟨l, m, .mark ':'⟩ :: vs) rest
  | comma {i items ts rest} (hi : StartsAt i ts) (h : Separated false Written items ts rest) :
      Written (.comma i items) ts rest
  | object {i j k l props ts rest}
      (h : Separated true WrittenProp props ts (⟨k, l, .mark '\x7d'⟩ :: rest)) :
      Written (.object i props) (⟨i, j, .mark '\x7b'⟩ :: ts ++ [⟨k, l, .mark '\x7d'⟩]) rest
  | array {i j k l items ts rest}
      (h : Separated true Written items ts (⟨k, l, .mark ']'⟩ :: rest)) :
      Written (.array i items) (⟨i, j, .mark '['⟩ :: ts ++ [⟨k, l, .mark ']'⟩]) rest
  | function {i f ts rest} (h : WrittenFunction f ts rest) (hi : f.start = i) :
      Written (.function i f) ts rest

inductive WrittenProp : PropertyKey × Expr → List Token → List Token → Prop
  | prop {key t i j value ts rest} (hk : IsKey key t) (h : Written value ts rest) :
      WrittenProp (key, value) (t :: ⟨i, j, .mark ':'⟩ :: ts) rest

inductive WrittenFunction : FunctionOf Stmt → List Token → List Token → Prop
  | function {i j k l m n o p q r name params body ns ps ts rest} (hn : IsFunctionName name ns)
      (hp : Separated false IsParameter params ps [])
      (hb : WrittenAll body ts (⟨q, r, .mark '\x7d'⟩ :: rest)) :
      WrittenFunction ⟨name, params, body, i⟩
        (⟨i, j, .keyword "function"⟩ :: ns ++ ⟨k, l, .mark '('⟩ :: ps ++
          ⟨m, n, .mark ')'⟩ :: ⟨o, p, .mark '\x7b'⟩ :: ts ++ [⟨q, r, .mark '\x7d'⟩]) rest

/-- A declared name with its initial value, if it has one. -/
inductive WrittenDecl : DeclOf Expr → List Token → List Token → Prop
  | bare {i j s rest} : WrittenDecl ⟨s, none, i⟩ [⟨i, j, .name s⟩] rest
  | init {i j k l s e ts rest} (h : Written e ts rest) :
      WrittenDecl ⟨s, some e, i⟩ (⟨i, j, .name s⟩ :: ⟨k, l, .operator "="⟩ :: ts) rest

inductive WrittenOption : Option Expr → List Token → List Token → Prop
  | none {rest} : WrittenOption none [] rest
  | some {e ts rest} (h : Written e ts rest) : WrittenOption (some e) ts rest

/-- The first clause in the head of a loop. -/
inductive WrittenInit : Option Stmt → List Token → List Token → Prop
  | none {rest} : WrittenInit none [] rest
  | expr {i e ts rest} (hi : StartsAt i ts) (h : Written e ts rest) :
      WrittenInit (some (.expr i e)) ts rest
  | var {i j decls ts rest} (h : Separated false WrittenDecl decls ts rest) :
      WrittenInit (some (.var i decls)) (⟨i, j, .keyword "var"⟩ :: ts) rest

/-- The statement is spelled by the tokens, in front of the rest. -/
inductive WrittenStmt : Stmt → List Token → List Token → Prop
  /-- An expression that starts like a block or a function is none as a statement. -/
  | expr {i e ts us rest} (hi : StartsAt i ts) (h : Written e ts (us ++ rest))
      (hb : nextIs (.mark '\x7b') ts = false) (hf : nextIs (.keyword "function") ts = false)
      (he : Ended Separate us rest) : WrittenStmt (.expr i e) (ts ++ us) rest
  | var {i j decls ts us rest} (h : Separated false WrittenDecl decls ts (us ++ rest))
      (he : Ended Separate us rest) :
      WrittenStmt (.var i decls) (⟨i, j, .keyword "var"⟩ :: ts ++ us) rest
  | retBare {i j ts rest} (he : Ended endsBlock ts rest) :
      WrittenStmt (.ret i none) (⟨i, j, .keyword "return"⟩ :: ts) rest
  | ret {i j e ts us rest} (h : Written e ts (us ++ rest)) (he : Ended Separate us rest) :
      WrittenStmt (.ret i (some e)) (⟨i, j, .keyword "return"⟩ :: ts ++ us) rest
  | block {i j k l body ts rest} (h : WrittenAll body ts (⟨k, l, .mark '\x7d'⟩ :: rest)) :
      WrittenStmt (.block i body) (⟨i, j, .mark '\x7b'⟩ :: ts ++ [⟨k, l, .mark '\x7d'⟩]) rest
  | loop {i j k l m n o p q r init test update body ts us vs ws rest}
      (hi : WrittenInit init ts (⟨m, n, .mark ';'⟩ :: us ++ ⟨o, p, .mark ';'⟩ :: vs ++
        ⟨q, r, .mark ')'⟩ :: ws ++ rest))
      (ht : WrittenOption test us (⟨o, p, .mark ';'⟩ :: vs ++ ⟨q, r, .mark ')'⟩ :: ws ++ rest))
      (hu : WrittenOption update vs (⟨q, r, .mark ')'⟩ :: ws ++ rest))
      (hb : WrittenStmt body ws rest) :
      WrittenStmt (.loop i init test update body)
        (⟨i, j, .keyword "for"⟩ :: ⟨k, l, .mark '('⟩ :: ts ++ ⟨m, n, .mark ';'⟩ :: us ++
          ⟨o, p, .mark ';'⟩ :: vs ++ ⟨q, r, .mark ')'⟩ :: ws) rest
  | function {i f ts rest} (h : WrittenFunction f ts rest) (hi : f.start = i) :
      WrittenStmt (.function i f) ts rest
  | empty {i j rest} : WrittenStmt (.empty i) [⟨i, j, .mark ';'⟩] rest

inductive WrittenAll : List Stmt → List Token → List Token → Prop
  | nil {rest} : WrittenAll [] [] rest
  | cons {s body ts us rest} (h : WrittenStmt s ts (us ++ rest)) (hb : WrittenAll body us rest) :
      WrittenAll (s :: body) (ts ++ us) rest

end

end TwinView.Script
