import TwinView.Proofs.Script.Grammar
import TwinView.Proofs.Script.Tiling

/-!
What the parser reads is written there: every token goes into the tree, in its place, and operators are
grouped by their precedence. Each parsing function is looked at on its own, with what its callees read;
the induction is on the bound of the recursion.
-/

namespace TwinView.Script

open Code

variable {stop fuel : Nat} {ts us rest : List Token} {e : Expr} {S : List Token → Prop}

/-! Tokens. -/

theorem StartsAt.append {i : Nat} (h : StartsAt i ts) (us : List Token) : StartsAt i (ts ++ us) := by
  obtain ⟨t, ts, rfl, rfl⟩ := h
  exact ⟨t, ts ++ us, rfl, rfl⟩

theorem startsAt_cons (t : Token) (ts : List Token) : StartsAt t.start (t :: ts) := ⟨t, ts, rfl, rfl⟩

theorem Written.startsAt (h : Written S e ts rest) : StartsAt e.start ts := by
  cases h with
  | name | number | text | yes | no | null | this | newBare | before | typeOf => exact startsAt_cons _ _
  | parens | new | object | array => exact startsAt_cons _ _
  | function h hi =>
      cases h
      subst hi
      exact startsAt_cons _ _
  | member hi | behind _ hi | binary hi | isIn hi | instanceOf hi => exact hi.append _
  | index hi | call hi | cond hi => exact (hi.append _).append _
  | comma hi => exact hi

theorem accept?_eq_some {l : Lexeme} (h : accept? l ts = some rest) : ∃ i j, ts = ⟨i, j, l⟩ :: rest := by
  cases ts with
  | nil => cases h
  | cons t ts =>
      obtain ⟨i, j, l'⟩ := t
      rw [accept?] at h
      split at h
      · next hl =>
          cases h
          cases hl
          exact ⟨i, j, rfl⟩
      · cases h

theorem accept?_eq_none {l : Lexeme} (h : accept? l ts = none) : nextIs l ts = false := by
  cases ts with
  | nil => rfl
  | cons t ts =>
      rw [accept?] at h
      split at h
      · cases h
      · next hl => simp [nextIs, next, hl]

theorem next_eq_some {l : Lexeme} (h : next ts = some l) : ∃ i j rest, ts = ⟨i, j, l⟩ :: rest := by
  cases ts with
  | nil => cases h
  | cons t rest =>
      obtain ⟨i, j, l'⟩ := t
      cases h
      exact ⟨i, j, rest, rfl⟩

theorem next_assignment {op : BinaryOp} (h : (next ts).bind assignment? = some op) :
    ∃ i j rest, ts = ⟨i, j, .operator (symbol op)⟩ :: rest ∧ op.isAssignment := by
  obtain ⟨l, hl, hop⟩ := Option.bind_eq_some_iff.1 h
  obtain ⟨i, j, rest, rfl⟩ := next_eq_some hl
  obtain ⟨rfl, hassign⟩ := assignment?_eq_some hop
  exact ⟨i, j, rest, rfl, hassign⟩

theorem expect_eq_ok {c : Char} (h : expect stop c ts = .ok rest) :
    ∃ i j, ts = ⟨i, j, .mark c⟩ :: rest := by
  unfold expect at h
  split at h
  · next ha =>
      cases h
      exact accept?_eq_some ha
  · cases h
  · cases h

@[simp]
theorem unexpected_ne_ok {α : Type} {a : α} : unexpected stop ts ≠ .ok a := by
  cases ts <;> exact fun h => by cases h

theorem expectName_eq_ok {s : String} (h : expectName stop ts = .ok (s, rest)) :
    ∃ i j, ts = ⟨i, j, .name s⟩ :: rest := by
  unfold expectName at h
  split at h
  · cases h
    exact ⟨_, _, rfl⟩
  · exact absurd h unexpected_ne_ok

theorem expectProperty_eq_ok {s : String} (h : expectProperty stop ts = .ok (s, rest)) :
    ∃ t, ts = t :: rest ∧ IsNamed s t := by
  unfold expectProperty at h
  split at h
  · cases h
    exact ⟨_, rfl, Or.inl rfl⟩
  · cases h
    exact ⟨_, rfl, Or.inr rfl⟩
  · exact absurd h unexpected_ne_ok

theorem parseKey_eq_ok {key : PropertyKey} (h : parseKey stop ts = .ok (key, rest)) :
    ∃ t, ts = t :: rest ∧ IsKey key t := by
  unfold parseKey at h
  split at h
  · cases h
    exact ⟨_, rfl, Or.inl rfl⟩
  · cases h
    exact ⟨_, rfl, Or.inr rfl⟩
  · cases h
    exact ⟨_, rfl, rfl, rfl⟩
  · cases h
    exact ⟨_, rfl, rfl, rfl⟩
  · exact absurd h unexpected_ne_ok

def NoSemicolon (rest : List Token) : Prop := nextIs (.mark ';') rest = false

theorem ended_skipSemicolon (ts : List Token) :
    ∃ us, ts = us ++ skipSemicolon ts ∧ Ended NoSemicolon us (skipSemicolon ts) := by
  unfold skipSemicolon
  cases h : accept? (.mark ';') ts with
  | none => exact ⟨[], rfl, .bare (accept?_eq_none h)⟩
  | some rest =>
      obtain ⟨i, j, rfl⟩ := accept?_eq_some h
      exact ⟨[⟨i, j, .mark ';'⟩], rfl, .semicolon⟩

theorem Separated.cons {α : Type} {loose : Bool} {W : α → List Token → List Token → Prop} {a : α}
    {as : List α} {i j : Nat} (h : W a ts (⟨i, j, .mark ','⟩ :: us ++ rest))
    (hm : Separated loose W as us rest) (hl : loose ∨ as ≠ []) :
    Separated loose W (a :: as) (ts ++ ⟨i, j, .mark ','⟩ :: us) rest := by
  cases as with
  | nil =>
      cases hm
      exact .last (hl.resolve_right fun hne => hne rfl) h
  | cons b as => exact .more h hm

theorem separated_parameterNames {params : List String}
    (h : parameterNames stop fuel ts = .ok (params, rest)) :
    ∃ us i j, ts = us ++ ⟨i, j, .mark ')'⟩ :: rest ∧ params ≠ [] ∧
      Separated false IsParameter params us [] := by
  induction fuel generalizing ts params with
  | zero => exact absurd h unexpected_ne_ok
  | succ fuel ih =>
      unfold parameterNames at h
      rw [bind_eq_ok] at h
      obtain ⟨⟨s, ts₁⟩, hname, h⟩ := h
      obtain ⟨i, j, rfl⟩ := expectName_eq_ok hname
      dsimp only at h
      split at h
      · next ha =>
          cases h
          obtain ⟨k, l, rfl⟩ := accept?_eq_some ha
          exact ⟨[⟨i, j, .name s⟩], k, l, rfl, List.cons_ne_nil _ _, .one ⟨i, j, rfl⟩⟩
      · simp only [bind_eq_ok] at h
        obtain ⟨ts₂, hcomma, ⟨names, ts₃⟩, hnames, h⟩ := h
        cases h
        obtain ⟨k, l, rfl⟩ := expect_eq_ok hcomma
        obtain ⟨us, m, n, rfl, hne, hs⟩ := ih hnames
        exact ⟨[⟨i, j, .name s⟩] ++ ⟨k, l, .mark ','⟩ :: us, m, n, by simp, List.cons_ne_nil _ _,
          hs.cons ⟨i, j, rfl⟩ (.inr hne)⟩

/-! What the parsing functions read. -/

def Reads (level : Nat) (ts : List Token) (e : Expr) (rest : List Token) : Prop :=
  ∃ us, ts = us ++ rest ∧ Written NoSemicolon e us rest ∧ e.isLayered ∧ level ≤ e.level

def ReadsItems (loose : Bool) (close : Char) (ts : List Token) (items : List Expr)
    (rest : List Token) : Prop :=
  ∃ us i j, ts = us ++ ⟨i, j, .mark close⟩ :: rest ∧
    Separated loose (Written NoSemicolon) items us (⟨i, j, .mark close⟩ :: rest) ∧ areLayered items

def ReadsProps (ts : List Token) (props : List (PropertyKey × Expr)) (rest : List Token) : Prop :=
  ∃ us i j, ts = us ++ ⟨i, j, .mark '\x7d'⟩ :: rest ∧
    Separated true (WrittenProp NoSemicolon) props us (⟨i, j, .mark '\x7d'⟩ :: rest) ∧
    areLayeredProps props

def ReadsMore (ts : List Token) (items : List Expr) (rest : List Token) : Prop :=
  (nextIs (.mark ',') ts → items ≠ []) ∧
  ∃ us, ts = us ++ rest ∧ areLayered items ∧ ∀ e vs, Written NoSemicolon e vs ts →
    Separated false (Written NoSemicolon) (e :: items) (vs ++ us) rest

def ReadsDecls (ts : List Token) (decls : List Decl) (rest : List Token) : Prop :=
  ∃ us, ts = us ++ rest ∧ Separated false (WrittenDecl NoSemicolon) decls us rest ∧ decls ≠ [] ∧
    areLayeredDecls decls

def ReadsOption (ts : List Token) (e : Option Expr) (rest : List Token) : Prop :=
  ∃ us, ts = us ++ rest ∧ WrittenOption NoSemicolon e us rest ∧ isLayeredOption e

def ReadsStmt (ts : List Token) (s : Stmt) (rest : List Token) : Prop :=
  ∃ us, ts = us ++ rest ∧ WrittenStmt NoSemicolon s us rest ∧ s.isLayered

def ReadsBlock (ts : List Token) (body : List Stmt) (rest : List Token) : Prop :=
  ∃ us i j, ts = us ++ ⟨i, j, .mark '\x7d'⟩ :: rest ∧
    WrittenAll NoSemicolon body us (⟨i, j, .mark '\x7d'⟩ :: rest) ∧ Stmt.areLayered body

def ReadsFunction (start : Nat) (ts : List Token) (f : Function) (rest : List Token) : Prop :=
  ∃ us, ts = us ++ rest ∧ f.start = start ∧ Stmt.areLayered f.body ∧
    ∀ j, WrittenFunction NoSemicolon f (⟨start, j, .keyword "function"⟩ :: us) rest

def ReadsOn (left : Expr) (ts : List Token) (e : Expr) (rest : List Token) : Prop :=
  ∃ us, ts = us ++ rest ∧ e.isLayered ∧ ∀ vs, Written NoSemicolon left vs ts →
    Written NoSemicolon e (vs ++ us) rest

def EndsInfix (least : Nat) (rest : List Token) : Prop :=
  ∀ p op, (next rest).bind infix? = some (p, op) → p < least

/-- What the parsing functions read with some bound of the recursion. -/
structure Sound (stop fuel : Nat) : Prop where
  program : ∀ {ts body}, parseProgram stop fuel ts = .ok body →
    WrittenAll NoSemicolon body ts [] ∧ Stmt.areLayered body
  statement : ∀ {ts s rest}, parseStatement stop fuel ts = .ok (s, rest) → ReadsStmt ts s rest
  expressionStatement : ∀ {start ts s rest}, StartsAt start ts → nextIs (.mark '\x7b') ts = false →
    nextIs (.keyword "function") ts = false →
    parseExpressionStatement stop fuel start ts = .ok (s, rest) → ReadsStmt ts s rest
  block : ∀ {ts body rest}, parseBlock stop fuel ts = .ok (body, rest) → ReadsBlock ts body rest
  decls : ∀ {ts decls rest}, parseDecls stop fuel ts = .ok (decls, rest) → ReadsDecls ts decls rest
  init : ∀ {ts init rest}, parseInit stop fuel ts = .ok (init, rest) → ∀ i j s,
    ∃ us, ts = us ++ rest ∧ WrittenDecl NoSemicolon ⟨s, init, i⟩ (⟨i, j, .name s⟩ :: us) rest ∧
      areLayeredDecls [⟨s, init, i⟩]
  loop : ∀ {start ts s rest}, parseLoop stop fuel start ts = .ok (s, rest) → ∀ j,
    ReadsStmt (⟨start, j, .keyword "for"⟩ :: ts) s rest
  loopInit : ∀ {ts init rest}, parseLoopInit stop fuel ts = .ok (init, rest) →
    ∃ us, ts = us ++ rest ∧ WrittenInit NoSemicolon init us rest ∧ ∀ s ∈ init, s.isLayered
  option : ∀ {c ts e rest}, parseOptional stop fuel c ts = .ok (e, rest) → ReadsOption ts e rest
  function : ∀ {start ts f rest}, parseFunction stop fuel start ts = .ok (f, rest) →
    ReadsFunction start ts f rest
  expression : ∀ {ts e rest}, parseExpression stop fuel ts = .ok (e, rest) → Reads 0 ts e rest
  commas : ∀ {ts items rest}, parseCommas stop fuel ts = .ok (items, rest) → ReadsMore ts items rest
  assignment : ∀ {ts e rest}, parseAssignment stop fuel ts = .ok (e, rest) →
    Reads assignmentLevel ts e rest
  conditional : ∀ {ts e rest}, parseConditional stop fuel ts = .ok (e, rest) →
    Reads conditionalLevel ts e rest
  operators : ∀ {least ts e rest}, least ≤ 11 → parseInfix stop fuel least ts = .ok (e, rest) →
    Reads (infixLevel least) ts e rest ∧ EndsInfix least rest
  moreOperators : ∀ {least left ts e rest}, left.isLayered → infixLevel least ≤ left.level →
    (∀ p op, (next ts).bind infix? = some (p, op) → infixLevel p ≤ left.level) →
    parseInfixRest stop fuel least left ts = .ok (e, rest) →
    ReadsOn left ts e rest ∧ infixLevel least ≤ e.level ∧ EndsInfix least rest
  unary : ∀ {ts e rest}, parseUnary stop fuel ts = .ok (e, rest) → Reads prefixLevel ts e rest
  behind : ∀ {ts e rest}, parsePostfix stop fuel ts = .ok (e, rest) → Reads postfixLevel ts e rest
  callMember : ∀ {ts e rest}, parseCallMember stop fuel ts = .ok (e, rest) → Reads tightest ts e rest
  head : ∀ {ts e rest}, parseHead stop fuel ts = .ok (e, rest) →
    Reads tightest ts e rest ∧ e.isCallFree
  tails : ∀ {calls left ts e rest}, left.isLayered → tightest ≤ left.level →
    (calls = false → left.isCallFree) → parseTails stop fuel calls left ts = .ok (e, rest) →
    ReadsOn left ts e rest ∧ tightest ≤ e.level ∧ (calls = false → e.isCallFree) ∧
      nextIs (.mark '.') rest = false ∧ nextIs (.mark '[') rest = false
  new : ∀ {ts e rest}, nextIs (.keyword "new") ts → parseNew stop fuel ts = .ok (e, rest) →
    Reads tightest ts e rest ∧ e.isCallFree
  arguments : ∀ {ts args rest}, parseArguments stop fuel ts = .ok (args, rest) →
    ReadsItems false ')' ts args rest
  moreArguments : ∀ {ts args rest}, parseMoreArguments stop fuel ts = .ok (args, rest) →
    ReadsItems false ')' ts args rest ∧ args ≠ []
  primary : ∀ {ts e rest}, parsePrimary stop fuel ts = .ok (e, rest) →
    Reads tightest ts e rest ∧ e.isCallFree
  items : ∀ {ts items rest}, parseItems stop fuel ts = .ok (items, rest) →
    ReadsItems true ']' ts items rest
  props : ∀ {ts props rest}, parseProps stop fuel ts = .ok (props, rest) → ReadsProps ts props rest

/-! Statements. -/

theorem Sound.program_succ (ih : Sound stop fuel) {body : List Stmt}
    (h : parseProgram stop (fuel + 1) ts = .ok body) :
    WrittenAll NoSemicolon body ts [] ∧ Stmt.areLayered body := by
  unfold parseProgram at h
  split at h
  · cases h
    exact ⟨.nil, rfl⟩
  · next heq _ => cases heq
  · next heq _ =>
      cases heq
      simp only [bind_eq_ok] at h
      obtain ⟨⟨s, ts₁⟩, hs, body, hbody, h⟩ := h
      cases h
      obtain ⟨us, rfl, hw, hl⟩ := ih.statement hs
      obtain ⟨hws, hls⟩ := ih.program hbody
      exact ⟨.cons (by simpa using hw) hws, by simp [Stmt.areLayered, hl, hls]⟩

theorem Sound.expressionStatement_succ (ih : Sound stop fuel) {start : Nat} {s : Stmt}
    (hi : StartsAt start ts) (hb : nextIs (.mark '\x7b') ts = false)
    (hf : nextIs (.keyword "function") ts = false)
    (h : parseExpressionStatement stop (fuel + 1) start ts = .ok (s, rest)) :
    ReadsStmt ts s rest := by
  unfold parseExpressionStatement at h
  simp only [bind_eq_ok] at h
  obtain ⟨⟨e, ts₁⟩, he, h⟩ := h
  cases h
  obtain ⟨us, rfl, hw, hl, -⟩ := ih.expression he
  obtain ⟨vs, hvs, hend⟩ := ended_skipSemicolon ts₁
  rw [hvs] at hw
  obtain ⟨t, us, rfl, -⟩ := hw.startsAt
  obtain ⟨_, _, heq, rfl⟩ := hi
  cases heq
  exact ⟨t :: us ++ vs, by rw [List.append_assoc, ← hvs], .expr (startsAt_cons t us) hw hb hf hend, hl⟩

theorem Sound.statement_succ (ih : Sound stop fuel) {s : Stmt}
    (h : parseStatement stop (fuel + 1) ts = .ok (s, rest)) : ReadsStmt ts s rest := by
  unfold parseStatement at h
  dsimp only at h
  split at h
  · exact absurd h unexpected_ne_ok
  · next i j ts₁ =>
      simp only [bind_eq_ok] at h
      obtain ⟨⟨body, ts₂⟩, hbody, h⟩ := h
      cases h
      obtain ⟨us, k, l, rfl, hw, hl⟩ := ih.block hbody
      exact ⟨⟨i, j, .mark '\x7b'⟩ :: us ++ [⟨k, l, .mark '\x7d'⟩], by simp, .block hw, hl⟩
  · next i j ts₁ =>
      cases h
      exact ⟨[⟨i, j, .mark ';'⟩], rfl, .empty, rfl⟩
  · next i j ts₁ =>
      simp only [bind_eq_ok] at h
      obtain ⟨⟨decls, ts₂⟩, hdecls, h⟩ := h
      cases h
      obtain ⟨us, rfl, hw, hne, hl⟩ := ih.decls hdecls
      obtain ⟨vs, hvs, hend⟩ := ended_skipSemicolon ts₂
      rw [hvs] at hw
      refine ⟨⟨i, j, .keyword "var"⟩ :: us ++ vs, ?_, .var hw hend, by simp [Stmt.isLayered, hne, hl]⟩
      rw [List.append_assoc, ← hvs, List.cons_append]
  · next i j ts₁ =>
      simp only [bind_eq_ok] at h
      obtain ⟨⟨f, ts₂⟩, hf, h⟩ := h
      cases h
      obtain ⟨us, rfl, hi, hl, hw⟩ := ih.function hf
      exact ⟨⟨i, j, .keyword "function"⟩ :: us, rfl, .function (hw j) hi, hl⟩
  · next i j ts₁ =>
      split at h
      · next hstop =>
          cases h
          obtain ⟨vs, hvs, hend⟩ := ended_skipSemicolon ts₁
          refine ⟨⟨i, j, .keyword "return"⟩ :: vs, by rw [List.cons_append, ← hvs], .retBare ?_, rfl⟩
          cases hend with
          | semicolon => exact .semicolon
          | bare hno =>
              rw [List.nil_append] at hvs
              rw [← hvs] at hno ⊢
              rw [hno] at hstop
              exact .bare (by simpa [endsBlock] using hstop)
      · simp only [bind_eq_ok] at h
        obtain ⟨⟨e, ts₂⟩, he, h⟩ := h
        cases h
        obtain ⟨us, rfl, hw, hl, -⟩ := ih.expression he
        obtain ⟨vs, hvs, hend⟩ := ended_skipSemicolon ts₂
        rw [hvs] at hw
        refine ⟨⟨i, j, .keyword "return"⟩ :: us ++ vs, ?_, .ret hw hend, hl⟩
        rw [List.append_assoc, ← hvs, List.cons_append]
  · exact ih.loop h _
  · cases h
  · next t ts₁ hbrace _ _ hfunction _ _ _ =>
      have hb : nextIs (.mark '\x7b') (t :: ts₁) = false := by
        refine decide_eq_false fun heq => ?_
        obtain ⟨i, j, l⟩ := t
        cases heq
        exact hbrace _ _ rfl
      have hf : nextIs (.keyword "function") (t :: ts₁) = false := by
        refine decide_eq_false fun heq => ?_
        obtain ⟨i, j, l⟩ := t
        cases heq
        exact hfunction _ _ rfl
      split at h
      · split at h
        · cases h
        · exact ih.expressionStatement (startsAt_cons t ts₁) hb hf h
      · exact ih.expressionStatement (startsAt_cons t ts₁) hb hf h

theorem Sound.block_succ (ih : Sound stop fuel) {body : List Stmt}
    (h : parseBlock stop (fuel + 1) ts = .ok (body, rest)) : ReadsBlock ts body rest := by
  unfold parseBlock at h
  split at h
  · cases h
  · next i j ts₁ =>
      cases h
      exact ⟨[], i, j, rfl, .nil, rfl⟩
  · simp only [bind_eq_ok] at h
    obtain ⟨⟨s, ts₁⟩, hs, ⟨body, ts₂⟩, hbody, h⟩ := h
    cases h
    obtain ⟨us, rfl, hw, hl⟩ := ih.statement hs
    obtain ⟨vs, i, j, rfl, hws, hls⟩ := ih.block hbody
    exact ⟨us ++ vs, i, j, by simp, .cons hw hws, by simp [Stmt.areLayered, hl, hls]⟩

theorem Sound.init_succ (ih : Sound stop fuel) {init : Option Expr}
    (h : parseInit stop (fuel + 1) ts = .ok (init, rest)) (i j : Nat) (s : String) :
    ∃ us, ts = us ++ rest ∧ WrittenDecl NoSemicolon ⟨s, init, i⟩ (⟨i, j, .name s⟩ :: us) rest ∧
      areLayeredDecls [⟨s, init, i⟩] := by
  unfold parseInit at h
  split at h
  · cases h
    exact ⟨[], rfl, .bare, rfl⟩
  · next ha =>
      simp only [bind_eq_ok] at h
      obtain ⟨⟨e, ts₁⟩, he, h⟩ := h
      cases h
      obtain ⟨k, l, rfl⟩ := accept?_eq_some ha
      obtain ⟨us, rfl, hw, hl, hlevel⟩ := ih.assignment he
      exact ⟨⟨k, l, .operator "="⟩ :: us, rfl, .init hw, by simp [areLayeredDecls, hl, hlevel]⟩

theorem Sound.decls_succ (ih : Sound stop fuel) {decls : List Decl}
    (h : parseDecls stop (fuel + 1) ts = .ok (decls, rest)) : ReadsDecls ts decls rest := by
  unfold parseDecls at h
  simp only [bind_eq_ok] at h
  obtain ⟨⟨s, ts₁⟩, hname, ⟨init, ts₂⟩, hinit, h⟩ := h
  obtain ⟨i, j, rfl⟩ := expectName_eq_ok hname
  obtain ⟨us, rfl, hw, hl⟩ := ih.init hinit i j s
  split at h
  · cases h
    exact ⟨⟨i, j, .name s⟩ :: us, rfl, .one hw, List.cons_ne_nil _ _, hl⟩
  · next ha =>
      simp only [bind_eq_ok] at h
      obtain ⟨⟨decls, ts₃⟩, hdecls, h⟩ := h
      cases h
      obtain ⟨k, l, rfl⟩ := accept?_eq_some ha
      obtain ⟨vs, rfl, hws, hne, hls⟩ := ih.decls hdecls
      refine ⟨⟨i, j, .name s⟩ :: us ++ ⟨k, l, .mark ','⟩ :: vs, by simp, hws.cons hw (.inr hne),
        List.cons_ne_nil _ _, ?_⟩
      rw [areLayeredDecls_cons]
      exact Bool.and_eq_true_iff.2 ⟨hl, hls⟩

theorem Sound.option_succ (ih : Sound stop fuel) {c : Char} {e : Option Expr}
    (h : parseOptional stop (fuel + 1) c ts = .ok (e, rest)) : ReadsOption ts e rest := by
  unfold parseOptional at h
  split at h
  · cases h
    exact ⟨[], rfl, .none, rfl⟩
  · simp only [bind_eq_ok] at h
    obtain ⟨⟨e, ts₁⟩, he, h⟩ := h
    cases h
    obtain ⟨us, rfl, hw, hl, -⟩ := ih.expression he
    exact ⟨us, rfl, .some hw, hl⟩

theorem Sound.loopInit_succ (ih : Sound stop fuel) {init : Option Stmt}
    (h : parseLoopInit stop (fuel + 1) ts = .ok (init, rest)) :
    ∃ us, ts = us ++ rest ∧ WrittenInit NoSemicolon init us rest ∧ ∀ s ∈ init, s.isLayered := by
  unfold parseLoopInit at h
  split at h
  · cases h
    exact ⟨[], rfl, .none, by simp⟩
  · dsimp only at h
    split at h
    · next ha =>
        simp only [bind_eq_ok] at h
        obtain ⟨⟨decls, ts₁⟩, hdecls, h⟩ := h
        cases h
        obtain ⟨i, j, rfl⟩ := accept?_eq_some ha
        obtain ⟨us, rfl, hw, hne, hl⟩ := ih.decls hdecls
        exact ⟨⟨i, j, .keyword "var"⟩ :: us, rfl, .var hw, by simp [Stmt.isLayered, hne, hl]⟩
    · simp only [bind_eq_ok] at h
      obtain ⟨⟨e, ts₁⟩, he, h⟩ := h
      cases h
      obtain ⟨us, rfl, hw, hl, -⟩ := ih.expression he
      obtain ⟨t, us, rfl, -⟩ := hw.startsAt
      exact ⟨t :: us, rfl, .expr (startsAt_cons t us) hw, by simpa [Stmt.isLayered] using hl⟩

theorem Sound.loop_succ (ih : Sound stop fuel) {start : Nat} {s : Stmt}
    (h : parseLoop stop (fuel + 1) start ts = .ok (s, rest)) (j : Nat) :
    ReadsStmt (⟨start, j, .keyword "for"⟩ :: ts) s rest := by
  unfold parseLoop at h
  simp only [bind_eq_ok] at h
  obtain ⟨ts₁, hopen, ⟨init, ts₂⟩, hinit, h⟩ := h
  split at h
  · cases h
  · simp only [bind_eq_ok] at h
    obtain ⟨ts₃, hfirst, ⟨test, ts₄⟩, htest, ts₅, hsecond, ⟨update, ts₆⟩, hupdate, ts₇, hclose,
      ⟨body, ts₈⟩, hbody, h⟩ := h
    cases h
    obtain ⟨k, l, rfl⟩ := expect_eq_ok hopen
    obtain ⟨is, rfl, hwi, hli⟩ := ih.loopInit hinit
    obtain ⟨m, n, rfl⟩ := expect_eq_ok hfirst
    obtain ⟨us, rfl, hwt, hlt⟩ := ih.option htest
    obtain ⟨o, p, rfl⟩ := expect_eq_ok hsecond
    obtain ⟨vs, rfl, hwu, hlu⟩ := ih.option hupdate
    obtain ⟨q, r, rfl⟩ := expect_eq_ok hclose
    obtain ⟨ws, rfl, hwb, hlb⟩ := ih.statement hbody
    refine ⟨_, ?_, .loop (j := j) (k := k) (l := l) (by simpa using hwi) (by simpa using hwt) hwu hwb, ?_⟩
    · simp
    · cases init with
      | none => simp [Stmt.isLayered, hlt, hlu, hlb]
      | some s => simp [Stmt.isLayered, hli s rfl, hlt, hlu, hlb]

/-- The name of a function, if it has one, and the tokens behind it. -/
def functionName : List Token → Option String × List Token
  | ⟨_, _, .name s⟩ :: rest => (some s, rest)
  | ts => (none, ts)

def parameters (stop : Nat) (ts : List Token) : Except Refusal (Parsed (List String)) :=
  match accept? (.mark ')') ts with
  | some ts => pure ([], ts)
  | none => parameterNames stop (ts.length + 1) ts

theorem parseFunction_succ (stop fuel start : Nat) (ts : List Token) :
    parseFunction stop (fuel + 1) start ts = (do
      let ts₁ ← expect stop '(' (functionName ts).2
      let (params, ts₂) ← parameters stop ts₁
      let ts₃ ← expect stop '\x7b' ts₂
      let (body, ts₄) ← parseBlock stop fuel ts₃
      return (⟨(functionName ts).1, params, body, start⟩, ts₄)) := by
  unfold parseFunction functionName parameters
  refine bind_congr fun ts₁ => ?_
  cases accept? (.mark ')') ts₁ <;> rfl

theorem functionName_spec (ts : List Token) :
    ∃ us, ts = us ++ (functionName ts).2 ∧ IsFunctionName (functionName ts).1 us := by
  unfold functionName
  split
  · next i j s rest => exact ⟨[⟨i, j, .name s⟩], rfl, i, j, rfl⟩
  · exact ⟨[], rfl, rfl⟩

theorem separated_parameters {params : List String} (h : parameters stop ts = .ok (params, rest)) :
    ∃ us i j, ts = us ++ ⟨i, j, .mark ')'⟩ :: rest ∧ Separated false IsParameter params us [] := by
  unfold parameters at h
  split at h
  · next ha =>
      cases h
      obtain ⟨i, j, rfl⟩ := accept?_eq_some ha
      exact ⟨[], i, j, rfl, .nil⟩
  · obtain ⟨us, i, j, hus, -, hs⟩ := separated_parameterNames h
    exact ⟨us, i, j, hus, hs⟩

theorem Sound.function_succ (ih : Sound stop fuel) {start : Nat} {f : Function}
    (h : parseFunction stop (fuel + 1) start ts = .ok (f, rest)) : ReadsFunction start ts f rest := by
  rw [parseFunction_succ] at h
  obtain ⟨ns, hns, hname⟩ := functionName_spec ts
  simp only [bind_eq_ok] at h
  obtain ⟨ts₁, hopen, ⟨params, ts₂⟩, hparams, ts₃, hbrace, ⟨body, ts₄⟩, hbody, h⟩ := h
  cases h
  obtain ⟨k, l, hopen⟩ := expect_eq_ok hopen
  obtain ⟨ps, m, n, rfl, hps⟩ := separated_parameters hparams
  obtain ⟨o, p, rfl⟩ := expect_eq_ok hbrace
  obtain ⟨us, q, r, rfl, hw, hl⟩ := ih.block hbody
  rw [hopen] at hns
  refine ⟨_, ?_, rfl, hl, fun j => .function (k := k) (l := l) (m := m) (n := n) (o := o) (p := p) hname
    hps hw⟩
  rw [hns]
  simp

/-! Operators. -/

theorem Sound.expression_succ (ih : Sound stop fuel)
    (h : parseExpression stop (fuel + 1) ts = .ok (e, rest)) : Reads 0 ts e rest := by
  unfold parseExpression at h
  simp only [bind_eq_ok] at h
  obtain ⟨⟨first, ts₁⟩, hfirst, h⟩ := h
  obtain ⟨us, rfl, hw, hl, hlevel⟩ := ih.assignment hfirst
  split at h
  · next hcomma =>
      simp only [bind_eq_ok] at h
      obtain ⟨⟨more, ts₂⟩, hmore, h⟩ := h
      cases h
      obtain ⟨hne, vs, rfl, hls, hws⟩ := ih.commas hmore
      obtain ⟨second, more, rfl⟩ := List.exists_cons_of_ne_nil (hne hcomma)
      refine ⟨us ++ vs, by simp, .comma (hw.startsAt.append vs) (hws _ _ hw), ?_, Nat.zero_le _⟩
      rw [Expr.isLayered, areLayered]
      simp [hl, hlevel, hls]
  · cases h
    exact ⟨us, rfl, hw, hl, Nat.zero_le _⟩

theorem Sound.commas_succ (ih : Sound stop fuel) {items : List Expr}
    (h : parseCommas stop (fuel + 1) ts = .ok (items, rest)) : ReadsMore ts items rest := by
  unfold parseCommas at h
  split at h
  · next ha =>
      cases h
      exact ⟨by simp [accept?_eq_none ha], [], rfl, rfl, fun e vs hw => by simpa using .one hw⟩
  · next ha =>
      simp only [bind_eq_ok] at h
      obtain ⟨⟨e, ts₁⟩, he, ⟨more, ts₂⟩, hmore, h⟩ := h
      cases h
      obtain ⟨i, j, rfl⟩ := accept?_eq_some ha
      obtain ⟨us, rfl, hw, hl, hlevel⟩ := ih.assignment he
      obtain ⟨-, vs, rfl, hls, hws⟩ := ih.commas hmore
      refine ⟨fun _ => List.cons_ne_nil _ _, ⟨i, j, .mark ','⟩ :: us ++ vs, by simp,
        by simp [areLayered, hl, hlevel, hls], fun first ws hfirst => ?_⟩
      have hfirst' : Written NoSemicolon first ws (⟨i, j, .mark ','⟩ :: (us ++ vs) ++ ts₂) := by
        simpa using hfirst
      have := (hws _ _ hw).cons hfirst' (.inr (List.cons_ne_nil _ _))
      simpa using this

theorem Sound.assignment_succ (ih : Sound stop fuel)
    (h : parseAssignment stop (fuel + 1) ts = .ok (e, rest)) : Reads assignmentLevel ts e rest := by
  unfold parseAssignment at h
  simp only [bind_eq_ok] at h
  obtain ⟨⟨left, ts₁⟩, hleft, h⟩ := h
  obtain ⟨us, rfl, hw, hl, hlevel⟩ := ih.conditional hleft
  split at h
  · cases h
    exact ⟨us, rfl, hw, hl, Nat.le_of_succ_le hlevel⟩
  · next op hop =>
      split at h
      · next htarget =>
          simp only [bind_eq_ok] at h
          obtain ⟨⟨right, ts₂⟩, hright, h⟩ := h
          cases h
          obtain ⟨j, k, ts₃, rfl, hassign⟩ := next_assignment hop
          obtain ⟨vs, hvs, hwr, hlr, hlevelr⟩ := ih.assignment hright
          cases hvs
          exact ⟨us ++ ⟨j, k, .operator (symbol op)⟩ :: vs, by simp, .binary hw.startsAt hw hwr,
            by simp [Expr.isLayered, hassign, htarget, hl, hlr, hlevelr],
            by simp [Expr.level, hassign]⟩
      · cases h

theorem Sound.conditional_succ (ih : Sound stop fuel)
    (h : parseConditional stop (fuel + 1) ts = .ok (e, rest)) : Reads conditionalLevel ts e rest := by
  unfold parseConditional at h
  simp only [bind_eq_ok] at h
  obtain ⟨⟨test, ts₁⟩, htest, h⟩ := h
  obtain ⟨⟨us, rfl, hw, hl, hlevel⟩, -⟩ := ih.operators (by decide) htest
  split at h
  · cases h
    exact ⟨us, rfl, hw, hl, Nat.le_of_succ_le hlevel⟩
  · next ha =>
      simp only [bind_eq_ok] at h
      obtain ⟨⟨yes, ts₂⟩, hyes, ts₃, hcolon, ⟨no, ts₄⟩, hno, h⟩ := h
      cases h
      obtain ⟨j, k, rfl⟩ := accept?_eq_some ha
      obtain ⟨vs, rfl, hwy, hly, hlevely⟩ := ih.assignment hyes
      obtain ⟨l, m, rfl⟩ := expect_eq_ok hcolon
      obtain ⟨ws, rfl, hwn, hln, hleveln⟩ := ih.assignment hno
      refine ⟨us ++ ⟨j, k, .operator "?"⟩ :: vs ++ ⟨l, m, .mark ':'⟩ :: ws, by simp,
        .cond hw.startsAt (by simpa using hw) (by simpa using hwy) hwn, ?_, Nat.le_refl _⟩
      have : conditionalLevel < test.level := hlevel
      simp [Expr.isLayered, this, hl, hly, hln, hlevely, hleveln]

theorem parseInfixRest_succ (stop fuel least : Nat) (left : Expr) (ts : List Token) :
    parseInfixRest stop (fuel + 1) least left ts =
      match (next ts).bind infix? with
      | none => .ok (left, ts)
      | some (p, op) =>
        if p < least then .ok (left, ts)
        else parseInfix stop fuel (p + 1) (ts.drop 1) >>= fun (right, rest) =>
          parseInfixRest stop fuel least (op.join left right) rest := by
  conv => lhs; unfold parseInfixRest
  rfl

/-- An infix operator reads what stands on its two sides, and takes the level of its precedence. -/
theorem written_join {i j p : Nat} {op : Infix} {left right : Expr} {l : Lexeme}
    (hop : infix? l = some (p, op))
    (hleft : Written S left ts (⟨i, j, l⟩ :: us ++ rest)) (hright : Written S right us rest) :
    Written S (op.join left right) (ts ++ ⟨i, j, l⟩ :: us) rest := by
  have := infix?_eq_some hop
  cases op with
  | binary op =>
      obtain ⟨rfl, -, -⟩ := this
      exact .binary hleft.startsAt hleft hright
  | isIn =>
      obtain ⟨rfl, -⟩ := this
      exact .isIn hleft.startsAt hleft hright
  | instanceOf =>
      obtain ⟨rfl, -⟩ := this
      exact .instanceOf hleft.startsAt hleft hright

theorem infix?_le {l : Lexeme} {p : Nat} {op : Infix} (h : infix? l = some (p, op)) : p ≤ 10 := by
  have := infix?_eq_some h
  cases op with
  | binary op =>
      obtain ⟨-, rfl, -⟩ := this
      exact precedence_le op
  | isIn | instanceOf =>
      obtain ⟨-, rfl⟩ := this
      decide

/-- The left operand grows by one operator at a time. What was read behind the operator ended at one
of no higher precedence, so that the joined expression may stand on the left of that one. -/
theorem Sound.moreOperators_succ (ih : Sound stop fuel) {least : Nat} {left : Expr}
    (hl : left.isLayered) (hlevel : infixLevel least ≤ left.level)
    (hnext : ∀ p op, (next ts).bind infix? = some (p, op) → infixLevel p ≤ left.level)
    (h : parseInfixRest stop (fuel + 1) least left ts = .ok (e, rest)) :
    ReadsOn left ts e rest ∧ infixLevel least ≤ e.level ∧ EndsInfix least rest := by
  rw [parseInfixRest_succ] at h
  split at h
  · next hnone =>
      cases h
      refine ⟨⟨[], rfl, hl, fun vs hw => by simpa using hw⟩, hlevel, fun p op hop => ?_⟩
      rw [hnone] at hop
      cases hop
  · next p op hop =>
      split at h
      · next hlow =>
          cases h
          refine ⟨⟨[], rfl, hl, fun vs hw => by simpa using hw⟩, hlevel, fun p' op' hop' => ?_⟩
          rw [hop] at hop'
          cases hop'
          exact hlow
      · next hlow =>
          simp only [bind_eq_ok] at h
          obtain ⟨⟨right, ts₁⟩, hright, h⟩ := h
          obtain ⟨l, hlexeme, hinfix⟩ := Option.bind_eq_some_iff.1 hop
          obtain ⟨i, j, ts₂, rfl⟩ := next_eq_some hlexeme
          have hp := infix?_le hinfix
          obtain ⟨⟨us, hus, hwr, hlr, hlevelr⟩, hends⟩ := ih.operators (by omega) hright
          cases hus
          have hlayered : (op.join left right).isLayered := by
            rw [isLayered_join hinfix]
            have : infixLevel p < right.level := hlevelr
            simp [hl, hlr, this, hnext p op hop]
          have hjoined : ∀ p' op', (next ts₁).bind infix? = some (p', op') →
              infixLevel p' ≤ (op.join left right).level := by
            intro p' op' hop'
            have := hends p' op' hop'
            rw [level_join hinfix]
            exact Nat.add_le_add_right (Nat.le_of_lt_succ this) 2
          have hleast : infixLevel least ≤ (op.join left right).level := by
            rw [level_join hinfix]
            exact Nat.add_le_add_right (Nat.le_of_not_lt hlow) 2
          obtain ⟨⟨vs, rfl, hle, hwe⟩, hlevele, hendse⟩ := ih.moreOperators hlayered hleast hjoined h
          refine ⟨⟨⟨i, j, l⟩ :: us ++ vs, by simp, hle, fun ws hw => ?_⟩, hlevele, hendse⟩
          simpa using hwe _ (written_join hinfix hw hwr)

theorem Sound.operators_succ (ih : Sound stop fuel) {least : Nat} (hleast : least ≤ 11)
    (h : parseInfix stop (fuel + 1) least ts = .ok (e, rest)) :
    Reads (infixLevel least) ts e rest ∧ EndsInfix least rest := by
  unfold parseInfix at h
  simp only [bind_eq_ok] at h
  obtain ⟨⟨left, ts₁⟩, hleft, h⟩ := h
  obtain ⟨us, rfl, hw, hl, hlevel⟩ := ih.unary hleft
  have hunary : ∀ p ≤ 11, infixLevel p ≤ left.level := fun p hp =>
    Nat.le_trans (Nat.add_le_add_right hp 2) hlevel
  have hnext : ∀ p op, (next ts₁).bind infix? = some (p, op) → infixLevel p ≤ left.level := by
    intro p op hop
    obtain ⟨l, -, hinfix⟩ := Option.bind_eq_some_iff.1 hop
    exact hunary p (Nat.le_succ_of_le (infix?_le hinfix))
  obtain ⟨⟨vs, rfl, hle, hwe⟩, hlevele, hends⟩ := ih.moreOperators hl (hunary _ hleast) hnext h
  exact ⟨⟨us ++ vs, by simp, hwe _ hw, hle, hlevele⟩, hends⟩

theorem Sound.unary_succ (ih : Sound stop fuel)
    (h : parseUnary stop (fuel + 1) ts = .ok (e, rest)) : Reads prefixLevel ts e rest := by
  unfold parseUnary at h
  split at h
  · exact absurd h unexpected_ne_ok
  · next i j s ts₁ =>
      split at h
      · next op hop =>
          simp only [bind_eq_ok] at h
          obtain ⟨⟨operand, ts₂⟩, hoperand, h⟩ := h
          cases h
          obtain ⟨rfl, hpost⟩ := prefixTable_eq_some hop
          obtain ⟨us, rfl, hw, hl, hlevel⟩ := ih.unary hoperand
          exact ⟨⟨i, j, .operator (unarySymbol op)⟩ :: us, rfl, .before hpost hw,
            by simp [Expr.isLayered, hpost, hl, hlevel], by simp [Expr.level, hpost]⟩
      · exact absurd h unexpected_ne_ok
  · next i j ts₁ =>
      simp only [bind_eq_ok] at h
      obtain ⟨⟨operand, ts₂⟩, hoperand, h⟩ := h
      cases h
      obtain ⟨us, rfl, hw, hl, hlevel⟩ := ih.unary hoperand
      exact ⟨⟨i, j, .keyword "typeof"⟩ :: us, rfl, .typeOf hw,
        by simp [Expr.isLayered, hl, hlevel], Nat.le_refl _⟩
  · cases h
  · cases h
  · obtain ⟨us, rfl, hw, hl, hlevel⟩ := ih.behind h
    exact ⟨us, rfl, hw, hl, Nat.le_of_succ_le hlevel⟩

theorem Sound.behind_succ (ih : Sound stop fuel)
    (h : parsePostfix stop (fuel + 1) ts = .ok (e, rest)) : Reads postfixLevel ts e rest := by
  unfold parsePostfix at h
  simp only [bind_eq_ok] at h
  obtain ⟨⟨operand, ts₁⟩, hoperand, h⟩ := h
  obtain ⟨us, rfl, hw, hl, hlevel⟩ := ih.callMember hoperand
  split at h
  · next ha =>
      cases h
      obtain ⟨i, j, rfl⟩ := accept?_eq_some ha
      exact ⟨us ++ [⟨i, j, .operator "++"⟩], by simp, .behind rfl hw.startsAt hw,
        by simp [Expr.isLayered, UnaryOp.isPost, hl, hlevel], by simp [Expr.level, UnaryOp.isPost]⟩
  · next ha =>
      cases h
      obtain ⟨i, j, rfl⟩ := accept?_eq_some ha
      exact ⟨us ++ [⟨i, j, .operator "--"⟩], by simp, .behind rfl hw.startsAt hw,
        by simp [Expr.isLayered, UnaryOp.isPost, hl, hlevel], by simp [Expr.level, UnaryOp.isPost]⟩
  · cases h
    exact ⟨us, rfl, hw, hl, Nat.le_of_succ_le hlevel⟩

/-! Accesses, calls and what they start from. -/

theorem Sound.tails_succ (ih : Sound stop fuel) {calls : Bool} {left : Expr} (hl : left.isLayered)
    (hlevel : tightest ≤ left.level) (hfree : calls = false → left.isCallFree)
    (h : parseTails stop (fuel + 1) calls left ts = .ok (e, rest)) :
    ReadsOn left ts e rest ∧ tightest ≤ e.level ∧ (calls = false → e.isCallFree) ∧
      nextIs (.mark '.') rest = false ∧ nextIs (.mark '[') rest = false := by
  unfold parseTails at h
  split at h
  · next i j ts₁ =>
      simp only [bind_eq_ok] at h
      obtain ⟨⟨s, ts₂⟩, hname, h⟩ := h
      obtain ⟨t, rfl, ht⟩ := expectProperty_eq_ok hname
      have hlm : (Expr.member left.start left s).isLayered := by simp [Expr.isLayered, hl, hlevel]
      obtain ⟨⟨us, rfl, hle, hwe⟩, hend⟩ := ih.tails hlm (Nat.le_refl _) (fun hc => hfree hc) h
      refine ⟨⟨[⟨i, j, .mark '.'⟩, t] ++ us, by simp, hle, fun vs hw => ?_⟩, hend⟩
      simpa using hwe _ (.member hw.startsAt hw ht)
  · next i j ts₁ =>
      simp only [bind_eq_ok] at h
      obtain ⟨⟨key, ts₂⟩, hkey, ts₃, hclose, h⟩ := h
      obtain ⟨us, rfl, hwk, hlk, -⟩ := ih.expression hkey
      obtain ⟨k, l, rfl⟩ := expect_eq_ok hclose
      have hli : (Expr.index left.start left key).isLayered := by simp [Expr.isLayered, hl, hlevel, hlk]
      obtain ⟨⟨vs, rfl, hle, hwe⟩, hend⟩ := ih.tails hli (Nat.le_refl _) (fun hc => hfree hc) h
      refine ⟨⟨⟨i, j, .mark '['⟩ :: us ++ ⟨k, l, .mark ']'⟩ :: vs, by simp, hle, fun ws hw => ?_⟩, hend⟩
      simpa using hwe _ (.index hw.startsAt (by simpa using hw) hwk)
  · next i j ts₁ =>
      split at h
      · next hcalls =>
          simp only [bind_eq_ok] at h
          obtain ⟨⟨args, ts₂⟩, hargs, h⟩ := h
          obtain ⟨us, k, l, rfl, hwa, hla⟩ := ih.arguments hargs
          have hlc : (Expr.call left.start left args).isLayered := by
            simp [Expr.isLayered, hl, hlevel, hla]
          obtain ⟨⟨vs, rfl, hle, hwe⟩, hend⟩ := ih.tails hlc (Nat.le_refl _) (by simp [hcalls]) h
          refine ⟨⟨⟨i, j, .mark '('⟩ :: us ++ ⟨k, l, .mark ')'⟩ :: vs, by simp, hle, fun ws hw => ?_⟩,
            hend⟩
          simpa using hwe _ (.call hw.startsAt (by simpa using hw) hwa)
      · cases h
        exact ⟨⟨[], rfl, hl, fun vs hw => by simpa using hw⟩, hlevel, hfree, rfl, rfl⟩
  · next hdot hbracket _ =>
      cases h
      refine ⟨⟨[], rfl, hl, fun vs hw => by simpa using hw⟩, hlevel, hfree, ?_, ?_⟩
      · refine decide_eq_false fun heq => ?_
        obtain ⟨i, j, ts₁, rfl⟩ := next_eq_some heq
        exact hdot _ _ _ rfl
      · refine decide_eq_false fun heq => ?_
        obtain ⟨i, j, ts₁, rfl⟩ := next_eq_some heq
        exact hbracket _ _ _ rfl

theorem Sound.callMember_succ (ih : Sound stop fuel)
    (h : parseCallMember stop (fuel + 1) ts = .ok (e, rest)) : Reads tightest ts e rest := by
  unfold parseCallMember at h
  simp only [bind_eq_ok] at h
  obtain ⟨⟨left, ts₁⟩, hleft, h⟩ := h
  obtain ⟨⟨us, rfl, hw, hl, hlevel⟩, -⟩ := ih.head hleft
  obtain ⟨⟨vs, rfl, hle, hwe⟩, hlevele, -⟩ := ih.tails hl hlevel (by simp) h
  exact ⟨us ++ vs, by simp, hwe _ hw, hle, hlevele⟩

theorem Sound.head_succ (ih : Sound stop fuel)
    (h : parseHead stop (fuel + 1) ts = .ok (e, rest)) : Reads tightest ts e rest ∧ e.isCallFree := by
  unfold parseHead at h
  split at h
  · next hnew => exact ih.new hnew h
  · exact ih.primary h

theorem not_any_isTail (hdot : nextIs (.mark '.') rest = false) (hbracket : nextIs (.mark '[') rest = false)
    (hparen : nextIs (.mark '(') rest = false) : !(next rest).any isTail := by
  unfold nextIs at hdot hbracket hparen
  cases h : next rest with
  | none => rfl
  | some l => simp_all [isTail]

theorem Sound.new_succ (ih : Sound stop fuel) (hnew : nextIs (.keyword "new") ts)
    (h : parseNew stop (fuel + 1) ts = .ok (e, rest)) : Reads tightest ts e rest ∧ e.isCallFree := by
  obtain ⟨i, j, ts₁, rfl⟩ := next_eq_some (of_decide_eq_true hnew)
  unfold parseNew at h
  simp only [bind_eq_ok] at h
  obtain ⟨⟨head, ts₂⟩, hhead, ⟨target, ts₃⟩, htails, h⟩ := h
  obtain ⟨⟨us, hus, hw, hl, hlevel⟩, hfree⟩ := ih.head hhead
  cases hus
  obtain ⟨⟨vs, rfl, hlt, hwt⟩, -, hfreet, hdot, hbracket⟩ := ih.tails hl hlevel (fun _ => hfree) htails
  split at h
  · next ha =>
      cases h
      refine ⟨⟨⟨i, j, .keyword "new"⟩ :: (us ++ vs), by simp,
        .newBare (hwt _ hw) (not_any_isTail hdot hbracket (accept?_eq_none ha)), ?_, Nat.le_refl _⟩, rfl⟩
      simp [Expr.isLayered, areLayered, hfreet rfl, hlt]
  · next ha =>
      simp only [bind_eq_ok] at h
      obtain ⟨⟨args, ts₄⟩, hargs, h⟩ := h
      cases h
      obtain ⟨k, l, rfl⟩ := accept?_eq_some ha
      obtain ⟨ws, m, n, rfl, hwa, hla⟩ := ih.arguments hargs
      refine ⟨⟨⟨i, j, .keyword "new"⟩ :: (us ++ vs) ++ ⟨k, l, .mark '('⟩ :: ws ++ [⟨m, n, .mark ')'⟩],
        by simp, .new (by simpa using hwt _ hw) hwa, ?_, Nat.le_refl _⟩, rfl⟩
      simp [Expr.isLayered, hfreet rfl, hlt, hla]

theorem Sound.arguments_succ (ih : Sound stop fuel) {args : List Expr}
    (h : parseArguments stop (fuel + 1) ts = .ok (args, rest)) : ReadsItems false ')' ts args rest := by
  unfold parseArguments at h
  split at h
  · next ha =>
      cases h
      obtain ⟨i, j, rfl⟩ := accept?_eq_some ha
      exact ⟨[], i, j, rfl, .nil, rfl⟩
  · exact (ih.moreArguments h).1

theorem Sound.moreArguments_succ (ih : Sound stop fuel) {args : List Expr}
    (h : parseMoreArguments stop (fuel + 1) ts = .ok (args, rest)) :
    ReadsItems false ')' ts args rest ∧ args ≠ [] := by
  unfold parseMoreArguments at h
  simp only [bind_eq_ok] at h
  obtain ⟨⟨e, ts₁⟩, he, h⟩ := h
  obtain ⟨us, rfl, hw, hl, hlevel⟩ := ih.assignment he
  split at h
  · next ha =>
      cases h
      obtain ⟨i, j, rfl⟩ := accept?_eq_some ha
      exact ⟨⟨us, i, j, rfl, .one hw, by simp [areLayered, hl, hlevel]⟩, List.cons_ne_nil _ _⟩
  · simp only [bind_eq_ok] at h
    obtain ⟨ts₂, hcomma, ⟨more, ts₃⟩, hmore, h⟩ := h
    cases h
    obtain ⟨i, j, rfl⟩ := expect_eq_ok hcomma
    obtain ⟨⟨vs, k, l, rfl, hws, hls⟩, hne⟩ := ih.moreArguments hmore
    exact ⟨⟨us ++ ⟨i, j, .mark ','⟩ :: vs, k, l, by simp, hws.cons hw (.inr hne),
      by simp [areLayered, hl, hlevel, hls]⟩, List.cons_ne_nil _ _⟩

theorem Sound.items_succ (ih : Sound stop fuel) {items : List Expr}
    (h : parseItems stop (fuel + 1) ts = .ok (items, rest)) : ReadsItems true ']' ts items rest := by
  unfold parseItems at h
  split at h
  · next ha =>
      cases h
      obtain ⟨i, j, rfl⟩ := accept?_eq_some ha
      exact ⟨[], i, j, rfl, .nil, rfl⟩
  · simp only [bind_eq_ok] at h
    obtain ⟨⟨e, ts₁⟩, he, h⟩ := h
    obtain ⟨us, rfl, hw, hl, hlevel⟩ := ih.assignment he
    split at h
    · next ha =>
        simp only [bind_eq_ok] at h
        obtain ⟨⟨more, ts₂⟩, hmore, h⟩ := h
        cases h
        obtain ⟨i, j, rfl⟩ := accept?_eq_some ha
        obtain ⟨vs, k, l, rfl, hws, hls⟩ := ih.items hmore
        exact ⟨us ++ ⟨i, j, .mark ','⟩ :: vs, k, l, by simp, hws.cons hw (.inl rfl),
          by simp [areLayered, hl, hlevel, hls]⟩
    · simp only [bind_eq_ok] at h
      obtain ⟨ts₂, hclose, h⟩ := h
      cases h
      obtain ⟨i, j, rfl⟩ := expect_eq_ok hclose
      exact ⟨us, i, j, rfl, .one hw, by simp [areLayered, hl, hlevel]⟩

theorem Sound.props_succ (ih : Sound stop fuel) {props : List (PropertyKey × Expr)}
    (h : parseProps stop (fuel + 1) ts = .ok (props, rest)) : ReadsProps ts props rest := by
  unfold parseProps at h
  split at h
  · next ha =>
      cases h
      obtain ⟨i, j, rfl⟩ := accept?_eq_some ha
      exact ⟨[], i, j, rfl, .nil, rfl⟩
  · simp only [bind_eq_ok] at h
    obtain ⟨⟨key, ts₁⟩, hkey, ts₂, hcolon, ⟨value, ts₃⟩, hvalue, h⟩ := h
    obtain ⟨t, rfl, ht⟩ := parseKey_eq_ok hkey
    obtain ⟨k, l, rfl⟩ := expect_eq_ok hcolon
    obtain ⟨us, rfl, hw, hl, hlevel⟩ := ih.assignment hvalue
    split at h
    · next ha =>
        simp only [bind_eq_ok] at h
        obtain ⟨⟨more, ts₄⟩, hmore, h⟩ := h
        cases h
        obtain ⟨i, j, rfl⟩ := accept?_eq_some ha
        obtain ⟨vs, m, n, rfl, hws, hls⟩ := ih.props hmore
        exact ⟨t :: ⟨k, l, .mark ':'⟩ :: us ++ ⟨i, j, .mark ','⟩ :: vs, m, n, by simp,
          hws.cons (.prop ht hw) (.inl rfl), by simp [areLayeredProps, hl, hlevel, hls]⟩
    · simp only [bind_eq_ok] at h
      obtain ⟨ts₄, hclose, h⟩ := h
      cases h
      obtain ⟨i, j, rfl⟩ := expect_eq_ok hclose
      exact ⟨t :: ⟨k, l, .mark ':'⟩ :: us, i, j, rfl, .one (.prop ht hw),
        by simp [areLayeredProps, hl, hlevel]⟩

theorem Sound.primary_succ (ih : Sound stop fuel)
    (h : parsePrimary stop (fuel + 1) ts = .ok (e, rest)) :
    Reads tightest ts e rest ∧ e.isCallFree := by
  unfold parsePrimary at h
  split at h
  case h_8 i j ts₁ =>
      simp only [bind_eq_ok] at h
      obtain ⟨⟨f, ts₂⟩, hf, h⟩ := h
      cases h
      obtain ⟨us, rfl, hi, hl, hw⟩ := ih.function hf
      exact ⟨⟨⟨i, j, .keyword "function"⟩ :: us, rfl, .function (hw j) hi, hl, Nat.le_refl _⟩, rfl⟩
  case h_9 i j ts₁ =>
      simp only [bind_eq_ok] at h
      obtain ⟨⟨inner, ts₂⟩, hinner, ts₃, hclose, h⟩ := h
      cases h
      obtain ⟨us, rfl, hw, hl, -⟩ := ih.expression hinner
      obtain ⟨k, l, rfl⟩ := expect_eq_ok hclose
      exact ⟨⟨⟨i, j, .mark '('⟩ :: us ++ [⟨k, l, .mark ')'⟩], by simp, .parens hw, hl, Nat.le_refl _⟩, rfl⟩
  case h_10 i j ts₁ =>
      simp only [bind_eq_ok] at h
      obtain ⟨⟨items, ts₂⟩, hitems, h⟩ := h
      cases h
      obtain ⟨us, k, l, rfl, hw, hl⟩ := ih.items hitems
      exact ⟨⟨⟨i, j, .mark '['⟩ :: us ++ [⟨k, l, .mark ']'⟩], by simp, .array hw, hl, Nat.le_refl _⟩, rfl⟩
  case h_11 i j ts₁ =>
      simp only [bind_eq_ok] at h
      obtain ⟨⟨props, ts₂⟩, hprops, h⟩ := h
      cases h
      obtain ⟨us, k, l, rfl, hw, hl⟩ := ih.props hprops
      exact ⟨⟨⟨i, j, .mark '\x7b'⟩ :: us ++ [⟨k, l, .mark '\x7d'⟩], by simp, .object hw, hl,
        Nat.le_refl _⟩, rfl⟩
  case h_12 => exact absurd h unexpected_ne_ok
  case h_1 => cases h; exact ⟨⟨[_], rfl, .name, rfl, Nat.le_refl _⟩, rfl⟩
  case h_2 => cases h; exact ⟨⟨[_], rfl, .number, rfl, Nat.le_refl _⟩, rfl⟩
  case h_3 => cases h; exact ⟨⟨[_], rfl, .text, rfl, Nat.le_refl _⟩, rfl⟩
  case h_4 => cases h; exact ⟨⟨[_], rfl, .yes, rfl, Nat.le_refl _⟩, rfl⟩
  case h_5 => cases h; exact ⟨⟨[_], rfl, .no, rfl, Nat.le_refl _⟩, rfl⟩
  case h_6 => cases h; exact ⟨⟨[_], rfl, .null, rfl, Nat.le_refl _⟩, rfl⟩
  case h_7 => cases h; exact ⟨⟨[_], rfl, .this, rfl, Nat.le_refl _⟩, rfl⟩

/-! Programs. -/

theorem sound_zero (stop : Nat) : Sound stop 0 where
  program h := by
    unfold parseProgram at h
    split at h
    · cases h
      exact ⟨.nil, rfl⟩
    · exact absurd h unexpected_ne_ok
    · next heq _ => cases heq
  statement h := by simp [parseStatement] at h
  expressionStatement _ _ _ h := by simp [parseExpressionStatement] at h
  block h := by simp [parseBlock] at h
  decls h := by simp [parseDecls] at h
  init h := by simp [parseInit] at h
  loop h := by simp [parseLoop] at h
  loopInit h := by simp [parseLoopInit] at h
  option h := by simp [parseOptional] at h
  function h := by simp [parseFunction] at h
  expression h := by simp [parseExpression] at h
  commas h := by simp [parseCommas] at h
  assignment h := by simp [parseAssignment] at h
  conditional h := by simp [parseConditional] at h
  operators _ h := by simp [parseInfix] at h
  moreOperators _ _ _ h := by simp [parseInfixRest] at h
  unary h := by simp [parseUnary] at h
  behind h := by simp [parsePostfix] at h
  callMember h := by simp [parseCallMember] at h
  head h := by simp [parseHead] at h
  tails _ _ _ h := by simp [parseTails] at h
  new _ h := by simp [parseNew] at h
  arguments h := by simp [parseArguments] at h
  moreArguments h := by simp [parseMoreArguments] at h
  primary h := by simp [parsePrimary] at h
  items h := by simp [parseItems] at h
  props h := by simp [parseProps] at h

theorem sound (stop fuel : Nat) : Sound stop fuel := by
  induction fuel with
  | zero => exact sound_zero stop
  | succ fuel ih =>
      exact {
        program := ih.program_succ
        statement := ih.statement_succ
        expressionStatement := ih.expressionStatement_succ
        block := ih.block_succ
        decls := ih.decls_succ
        init := ih.init_succ
        loop := ih.loop_succ
        loopInit := ih.loopInit_succ
        option := ih.option_succ
        function := ih.function_succ
        expression := ih.expression_succ
        commas := ih.commas_succ
        assignment := ih.assignment_succ
        conditional := ih.conditional_succ
        operators := ih.operators_succ
        moreOperators := ih.moreOperators_succ
        unary := ih.unary_succ
        behind := ih.behind_succ
        callMember := ih.callMember_succ
        head := ih.head_succ
        tails := ih.tails_succ
        new := ih.new_succ
        arguments := ih.arguments_succ
        moreArguments := ih.moreArguments_succ
        primary := ih.primary_succ
        items := ih.items_succ
        props := ih.props_succ }

theorem exists_written {source : String} {body : List Stmt} (h : parse source = .ok body) :
    ∃ ts, tokenize source = .ok ts ∧ WrittenAll NoSemicolon body ts [] := by
  unfold parse at h
  simp only [bind_eq_ok] at h
  obtain ⟨ts, hts, h⟩ := h
  exact ⟨ts, hts, ((sound _ _).program h).1⟩

/-- The statements that are read are spelled by all the tokens of the source in their order, start where
their first tokens start, and have no operand that binds more loosely than its place allows. -/
theorem parse_written {source : String} {body : List Stmt} (h : parse source = .ok body) :
    ∃ ts, tokenize source = .ok ts ∧ WrittenAll NoSemicolon body ts [] ∧ Stmt.areLayered body := by
  unfold parse at h
  simp only [bind_eq_ok] at h
  obtain ⟨ts, hts, h⟩ := h
  exact ⟨ts, hts, (sound _ _).program h⟩

/-- Operators of several levels, with every token that may be left out or added. -/
theorem parse_written_operators :
    ∃ body ts, parse "x = -a.b * 2 - c - d ? new E : new F(); var g = [h,]" = .ok body ∧ body.length = 2 ∧
      tokenize "x = -a.b * 2 - c - d ? new E : new F(); var g = [h,]" = .ok ts ∧
      WrittenAll NoSemicolon body ts [] := by
  generalize hs : "x = -a.b * 2 - c - d ? new E : new F(); var g = [h,]" = source
  have hok : (parse source).toOption.any (fun body => body.length = 2) := by
    subst hs
    decide +kernel
  obtain ⟨body, h, hlength⟩ := exists_ok_of_any hok
  obtain ⟨ts, hts, hw, -⟩ := parse_written h
  exact ⟨body, ts, h, of_decide_eq_true hlength, hts, hw⟩

end TwinView.Script
