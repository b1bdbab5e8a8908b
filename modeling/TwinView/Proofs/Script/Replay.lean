import Mathlib.Tactic.SplitIfs
import TwinView.Proofs.Script.Completeness

/-!
Reading the same tokens in another place. What the parser makes of tokens does not depend on where they
stand in the text, nor on what follows, as long as it has not come to the end of them.
-/

namespace TwinView.Script

open Code

/-! Trees without places. -/

def PropertyKey.unplaced : PropertyKey → PropertyKey
  | .name s => .name s
  | .text _ s => .text 0 s
  | .number _ x => .number 0 x

mutual

def Expr.unplaced : Expr → Expr
  | .name _ s => .name 0 s
  | .number _ x => .number 0 x
  | .text _ s => .text 0 s
  | .bool _ b => .bool 0 b
  | .null _ => .null 0
  | .this _ => .this 0
  | .parens _ inner => .parens 0 inner.unplaced
  | .member _ target s => .member 0 target.unplaced s
  | .index _ target key => .index 0 target.unplaced key.unplaced
  | .call _ target args => .call 0 target.unplaced (Expr.allUnplaced args)
  | .new _ target args => .new 0 target.unplaced (Expr.allUnplaced args)
  | .unary _ op operand => .unary 0 op operand.unplaced
  | .typeOf _ operand => .typeOf 0 operand.unplaced
  | .binary _ op left right => .binary 0 op left.unplaced right.unplaced
  | .isIn _ key target => .isIn 0 key.unplaced target.unplaced
  | .instanceOf _ target type => .instanceOf 0 target.unplaced type.unplaced
  | .cond _ test yes no => .cond 0 test.unplaced yes.unplaced no.unplaced
  | .comma _ items => .comma 0 (Expr.allUnplaced items)
  | .object _ props => .object 0 (propsUnplaced props)
  | .array _ items => .array 0 (Expr.allUnplaced items)
  | .function _ ⟨name, params, body, _⟩ => .function 0 ⟨name, params, Stmt.allUnplaced body, 0⟩

def Expr.allUnplaced : List Expr → List Expr
  | [] => []
  | e :: rest => e.unplaced :: Expr.allUnplaced rest

def propsUnplaced : List (PropertyKey × Expr) → List (PropertyKey × Expr)
  | [] => []
  | (key, value) :: rest => (key.unplaced, value.unplaced) :: propsUnplaced rest

def optionUnplaced : Option Expr → Option Expr
  | none => none
  | some e => some e.unplaced

def declsUnplaced : List (DeclOf Expr) → List (DeclOf Expr)
  | [] => []
  | ⟨name, init, _⟩ :: rest => ⟨name, optionUnplaced init, 0⟩ :: declsUnplaced rest

def Stmt.unplaced : Stmt → Stmt
  | .expr _ e => .expr 0 e.unplaced
  | .var _ decls => .var 0 (declsUnplaced decls)
  | .ret _ value => .ret 0 (optionUnplaced value)
  | .block _ body => .block 0 (Stmt.allUnplaced body)
  | .loop _ init test update body =>
      .loop 0 (headUnplaced init) (optionUnplaced test) (optionUnplaced update) body.unplaced
  | .function _ ⟨name, params, body, _⟩ => .function 0 ⟨name, params, Stmt.allUnplaced body, 0⟩
  | .empty _ => .empty 0

def headUnplaced : Option Stmt → Option Stmt
  | none => none
  | some st => some st.unplaced

def Stmt.allUnplaced : List Stmt → List Stmt
  | [] => []
  | st :: rest => st.unplaced :: Stmt.allUnplaced rest

end

def functionUnplaced (f : Function) : Function :=
  { f with body := Stmt.allUnplaced f.body, start := 0 }

theorem unplaced_function (i : Nat) (f : Function) :
    (Expr.function i f).unplaced = .function 0 (functionUnplaced f) := by
  rw [Expr.unplaced]
  rfl

theorem unplaced_functionStmt (i : Nat) (f : Function) :
    (Stmt.function i f).unplaced = .function 0 (functionUnplaced f) := by
  rw [Stmt.unplaced]
  rfl

theorem isTarget_unplaced (e : Expr) : e.unplaced.isTarget = e.isTarget := by
  cases e with
  | function i f => rw [unplaced_function]; rfl
  | _ => simp only [Expr.unplaced, Expr.isTarget]

variable {more : List Lexeme} {ts ts' : List Token} {α β γ δ : Type} {stop stop' fuel fuel' : Nat}

def Ahead (more : List Lexeme) (ts ts' : List Token) : Prop :=
  ts'.map (·.lexeme) = ts.map (·.lexeme) ++ more

theorem Ahead.exists_ahead (more : List Lexeme) (ts : List Token) : ∃ ts', Ahead more ts ts' := by
  refine ⟨ts ++ more.map fun l => ⟨0, 0, l⟩, ?_⟩
  simp [Ahead, Function.comp_def]

theorem Ahead.cons_inv {i j : Nat} {l : Lexeme} (h : Ahead more (⟨i, j, l⟩ :: ts) ts') :
    ∃ i' j' us, ts' = ⟨i', j', l⟩ :: us ∧ Ahead more ts us := by
  cases ts' with
  | nil => simp [Ahead] at h
  | cons t us =>
      obtain ⟨i', j', l'⟩ := t
      obtain ⟨rfl, hus⟩ : l' = l ∧ _ := by simpa [Ahead] using h
      exact ⟨i', j', us, rfl, by simpa [Ahead] using hus⟩

/-- What is read from the tokens `ts`, if what is left satisfies `P`, is also read on the other side,
with the same view on it and the same tokens left. -/
def Replays (more : List Lexeme) (P : List Token → Prop) (view : α → γ) (ts : List Token)
    (x x' : Except Refusal (Parsed α)) : Prop :=
  ∀ a rest, x = .ok (a, rest) → P rest → ts ≠ [] ∧
    ∃ a' rest', x' = .ok (a', rest') ∧ view a' = view a ∧ Ahead more rest rest'

abbrev Left (ts : List Token) : Prop := ts ≠ []

namespace Replays

variable {P : List Token → Prop} {view : α → γ} {view' : β → δ} {x x' : Except Refusal (Parsed α)}
  {f f' : Parsed α → Except Refusal (Parsed β)}

theorem error {fault : Refusal} : Replays more P view ts (.error fault) x' := by
  intro a rest h
  cases h

theorem unexpected {ts₁ : List Token} : Replays more P view ts (Script.unexpected stop ts₁) x' :=
  fun _ _ h => absurd h unexpected_ne_ok

theorem pure {a a' : α} (hr : Ahead more ts ts') (hv : view a' = view a) :
    Replays more Left view ts (.ok (a, ts)) (.ok (a', ts')) := by
  rintro _ _ ⟨⟩ hP
  exact ⟨hP, a', ts', rfl, hv, hr⟩

theorem ended {a : α} : Replays more Left view ts (.ok (a, [])) x' := by
  rintro _ _ ⟨⟩ hP
  exact absurd rfl hP

theorem of_left (us : List Token) (hne : ts ≠ []) (h : Replays more P view us x x') :
    Replays more P view ts x x' := fun a rest hx hP => ⟨hne, (h a rest hx hP).2⟩

theorem cons {t : Token} (h : Replays more P view ts x x') : Replays more P view (t :: ts) x x' :=
  of_left ts (List.cons_ne_nil _ _) h

theorem of_nil {y' : Except Refusal (Parsed α)} (h : Replays more P view [] x y') :
    Replays more P view [] x x' := fun a rest hx hP => absurd rfl (h a rest hx hP).1

theorem weaken (h : Replays more (fun _ => True) view ts x x') : Replays more P view ts x x' :=
  fun a rest hx _ => h a rest hx True.intro

theorem bind (hx : Replays more Left view ts x x')
    (hf : ∀ a a' us us', view a' = view a → Ahead more us us' →
      Replays more P view' us (f (a, us)) (f' (a', us'))) :
    Replays more P view' ts (x >>= f) (x' >>= f') := by
  intro b rest h hP
  obtain ⟨⟨a, us⟩, ha, hb⟩ := bind_eq_ok.1 h
  -- something is left between the two, since the second reads on
  obtain ⟨us', hus⟩ := Ahead.exists_ahead more us
  obtain ⟨hne, -⟩ := hf a a us us' rfl hus b rest hb hP
  obtain ⟨hts, a', us', rfl, hv, hus⟩ := hx a us ha hne
  exact ⟨hts, (hf a a' us us' hv hus b rest hb hP).2⟩

theorem expect {c : Char} {g g' : List Token → Except Refusal (Parsed α)} (h : Ahead more ts ts')
    (hg : ∀ us us', Ahead more us us' → Replays more P view us (g us) (g' us')) :
    Replays more P view ts (expect stop c ts >>= g) (Script.expect stop' c ts' >>= g') := by
  intro a rest hx hP
  obtain ⟨us, hus, ha⟩ := bind_eq_ok.1 hx
  obtain ⟨i, j, rfl⟩ := expect_eq_ok hus
  obtain ⟨i', j', us', rfl, hus⟩ := h.cons_inv
  have hexpect : Script.expect stop' c (⟨i', j', .mark c⟩ :: us') = .ok us' := by
    simp [Script.expect, accept?]
  rw [hexpect]
  exact ⟨List.cons_ne_nil _ _, (hg us us' hus a rest ha hP).2⟩

theorem name {g g' : Parsed String → Except Refusal (Parsed α)} (h : Ahead more ts ts')
    (hg : ∀ s us us', Ahead more us us' → Replays more P view us (g (s, us)) (g' (s, us'))) :
    Replays more P view ts (expectName stop ts >>= g) (expectName stop' ts' >>= g') := by
  intro a rest hx hP
  obtain ⟨⟨s, us⟩, hus, ha⟩ := bind_eq_ok.1 hx
  obtain ⟨i, j, rfl⟩ := expectName_eq_ok hus
  obtain ⟨i', j', us', rfl, hus⟩ := h.cons_inv
  exact ⟨List.cons_ne_nil _ _, (hg s us us' hus a rest ha hP).2⟩

theorem property {g g' : Parsed String → Except Refusal (Parsed α)} (h : Ahead more ts ts')
    (hg : ∀ s us us', Ahead more us us' → Replays more P view us (g (s, us)) (g' (s, us'))) :
    Replays more P view ts (expectProperty stop ts >>= g) (expectProperty stop' ts' >>= g') := by
  intro a rest hx hP
  obtain ⟨⟨s, us⟩, hread, ha⟩ := bind_eq_ok.1 hx
  obtain ⟨⟨i, j, l⟩, rfl, hnamed⟩ := expectProperty_eq_ok hread
  obtain ⟨i', j', us', rfl, hus⟩ := h.cons_inv
  refine ⟨List.cons_ne_nil _ _, ?_⟩
  obtain rfl | rfl : l = .name s ∨ l = .keyword s := hnamed
  · exact (hg s us us' hus a rest ha hP).2
  · exact (hg s us us' hus a rest ha hP).2

theorem key {g g' : Parsed PropertyKey → Except Refusal (Parsed α)} (h : Ahead more ts ts')
    (hg : ∀ k k' us us', k'.unplaced = k.unplaced → Ahead more us us' →
      Replays more P view us (g (k, us)) (g' (k', us'))) :
    Replays more P view ts (parseKey stop ts >>= g) (parseKey stop' ts' >>= g') := by
  intro a rest hx hP
  obtain ⟨⟨k, us⟩, hread, ha⟩ := bind_eq_ok.1 hx
  obtain ⟨⟨i, j, l⟩, rfl, hkey⟩ := parseKey_eq_ok hread
  obtain ⟨i', j', us', rfl, hus⟩ := h.cons_inv
  refine ⟨List.cons_ne_nil _ _, ?_⟩
  cases k with
  | name s =>
      obtain rfl | rfl : l = .name s ∨ l = .keyword s := hkey
      · exact (hg _ _ us us' rfl hus a rest ha hP).2
      · exact (hg _ _ us us' rfl hus a rest ha hP).2
  | text n s =>
      obtain ⟨-, rfl⟩ := hkey
      exact (hg (.text n s) (.text i' s) us us' rfl hus a rest ha hP).2
  | number n x =>
      obtain ⟨-, rfl⟩ := hkey
      exact (hg (.number n x) (.number i' x) us us' rfl hus a rest ha hP).2

theorem accept {l : Lexeme} {y y' : Except Refusal (Parsed α)}
    {g g' : List Token → Except Refusal (Parsed α)} (h : Ahead more ts ts')
    (hnone : Replays more P view ts y y')
    (hsome : ∀ us us', Ahead more us us' → Replays more P view us (g us) (g' us')) :
    Replays more P view ts
      (match accept? l ts with
        | none => y
        | some us => g us)
      (match accept? l ts' with
        | none => y'
        | some us => g' us) := by
  cases ts with
  | nil =>
      intro a rest hx hP
      exact absurd rfl (hnone a rest hx hP).1
  | cons t us =>
      obtain ⟨i, j, l'⟩ := t
      obtain ⟨i', j', us', rfl, hus⟩ := h.cons_inv
      unfold accept?
      dsimp only
      split_ifs
      · exact (hsome us us' hus).cons
      · exact hnone

theorem acceptOr {l : Lexeme} {y y' : Except Refusal (Parsed α)}
    {g g' : List Token → Except Refusal (Parsed α)} (h : Ahead more ts ts')
    (hsome : ∀ us us', Ahead more us us' → Replays more P view us (g us) (g' us'))
    (hnone : Replays more P view ts y y') :
    Replays more P view ts
      (match accept? l ts with
        | some us => g us
        | none => y)
      (match accept? l ts' with
        | some us => g' us
        | none => y') := by
  have heq (o : Option (List Token)) (y : Except Refusal (Parsed α))
      (g : List Token → Except Refusal (Parsed α)) :
      (match o with
        | some us => g us
        | none => y) =
      match o with
        | none => y
        | some us => g us := by
    cases o <;> rfl
  rw [heq, heq]
  exact .accept h hnone hsome

theorem nextIs {l : Lexeme} {y y' z z' : Except Refusal (Parsed α)} (h : Ahead more ts ts')
    (hyes : Replays more P view ts y y') (hno : Replays more P view ts z z') :
    Replays more P view ts (if nextIs l ts then y else z) (if Script.nextIs l ts' then y' else z') := by
  cases ts with
  | nil =>
      intro a rest hx hP
      exact absurd rfl (hno a rest hx hP).1
  | cons t us =>
      obtain ⟨i, j, l'⟩ := t
      obtain ⟨i', j', us', rfl, hus⟩ := h.cons_inv
      have heq : Script.nextIs l (⟨i', j', l'⟩ :: us') = Script.nextIs l (⟨i, j, l'⟩ :: us) := rfl
      rw [heq]
      split_ifs
      · exact hyes
      · exact hno

theorem close (view' : β → δ) (g g' : α → β) (hx : Replays more P view ts x x')
    (hg : ∀ a a', view a' = view a → view' (g' a') = view' (g a)) :
    Replays more P view' ts (x >>= fun (a, us) => .ok (g a, us))
      (x' >>= fun (a, us) => .ok (g' a, us)) := by
  intro b rest h hP
  obtain ⟨⟨a, _⟩, ha, hb⟩ := bind_eq_ok.1 h
  cases hb
  obtain ⟨hts, a', us', rfl, hv, hus⟩ := hx a rest ha hP
  exact ⟨hts, g' a', us', rfl, hg a a' hv, hus⟩

end Replays

theorem Ahead.next_eq (h : Ahead more ts ts') (hne : ts ≠ []) : next ts' = next ts := by
  cases ts with
  | nil => exact absurd rfl hne
  | cons t us =>
      obtain ⟨i', j', us', rfl, -⟩ := h.cons_inv
      rfl

theorem Ahead.drop_one (h : Ahead more ts ts') (hne : ts ≠ []) : Ahead more (ts.drop 1) (ts'.drop 1) := by
  cases ts with
  | nil => exact absurd rfl hne
  | cons t us =>
      obtain ⟨i', j', us', rfl, hus⟩ := h.cons_inv
      exact hus

theorem ahead_skipSemicolon (h : Ahead more ts ts') (hne : skipSemicolon ts ≠ []) :
    Ahead more (skipSemicolon ts) (skipSemicolon ts') := by
  cases ts with
  | nil => exact absurd rfl hne
  | cons t us =>
      obtain ⟨i, j, l⟩ := t
      obtain ⟨i', j', us', rfl, hus⟩ := h.cons_inv
      unfold skipSemicolon accept?
      dsimp only
      split_ifs
      · exact hus
      · exact h

theorem Replays.semicolon {view : α → γ} {a a' : α} (h : Ahead more ts ts') (hv : view a' = view a) :
    Replays more Left view ts (.ok (a, skipSemicolon ts)) (.ok (a', skipSemicolon ts')) := by
  rintro _ _ ⟨⟩ hP
  refine ⟨?_, a', _, rfl, hv, ahead_skipSemicolon h hP⟩
  rintro rfl
  exact hP rfl

/-- What every parsing function makes of tokens it also makes of tokens that run ahead of them, with no
smaller a bound. Some tokens are left, except behind the brace that closes a block. -/
structure Replay (more : List Lexeme) (stop stop' fuel fuel' : Nat) : Prop where
  statement : ∀ {ts ts'}, Ahead more ts ts' → Replays more Left Stmt.unplaced ts
    (parseStatement stop fuel ts) (parseStatement stop' fuel' ts')
  expressionStatement : ∀ {ts ts'} (i i'), Ahead more ts ts' → Replays more Left Stmt.unplaced ts
    (parseExpressionStatement stop fuel i ts) (parseExpressionStatement stop' fuel' i' ts')
  block : ∀ {ts ts'}, Ahead more ts ts' → Replays more (fun _ => True) Stmt.allUnplaced ts
    (parseBlock stop fuel ts) (parseBlock stop' fuel' ts')
  decls : ∀ {ts ts'}, Ahead more ts ts' → Replays more Left declsUnplaced ts
    (parseDecls stop fuel ts) (parseDecls stop' fuel' ts')
  init : ∀ {ts ts'}, Ahead more ts ts' → Replays more Left optionUnplaced ts
    (parseInit stop fuel ts) (parseInit stop' fuel' ts')
  loop : ∀ {ts ts'} (i i'), Ahead more ts ts' → Replays more Left Stmt.unplaced ts
    (parseLoop stop fuel i ts) (parseLoop stop' fuel' i' ts')
  loopInit : ∀ {ts ts'}, Ahead more ts ts' → Replays more Left headUnplaced ts
    (parseLoopInit stop fuel ts) (parseLoopInit stop' fuel' ts')
  option : ∀ {ts ts'} (c), Ahead more ts ts' → Replays more Left optionUnplaced ts
    (parseOptional stop fuel c ts) (parseOptional stop' fuel' c ts')
  function : ∀ {ts ts'} (i i'), Ahead more ts ts' → Replays more (fun _ => True) functionUnplaced ts
    (parseFunction stop fuel i ts) (parseFunction stop' fuel' i' ts')
  expression : ∀ {ts ts'}, Ahead more ts ts' → Replays more Left Expr.unplaced ts
    (parseExpression stop fuel ts) (parseExpression stop' fuel' ts')
  commas : ∀ {ts ts'}, Ahead more ts ts' → Replays more Left Expr.allUnplaced ts
    (parseCommas stop fuel ts) (parseCommas stop' fuel' ts')
  assignment : ∀ {ts ts'}, Ahead more ts ts' → Replays more Left Expr.unplaced ts
    (parseAssignment stop fuel ts) (parseAssignment stop' fuel' ts')
  conditional : ∀ {ts ts'}, Ahead more ts ts' → Replays more Left Expr.unplaced ts
    (parseConditional stop fuel ts) (parseConditional stop' fuel' ts')
  operators : ∀ {ts ts'} (least), Ahead more ts ts' → Replays more Left Expr.unplaced ts
    (parseInfix stop fuel least ts) (parseInfix stop' fuel' least ts')
  moreOperators : ∀ {ts ts'} {e e' : Expr} (least), e'.unplaced = e.unplaced → Ahead more ts ts' →
    Replays more Left Expr.unplaced ts
      (parseInfixRest stop fuel least e ts) (parseInfixRest stop' fuel' least e' ts')
  unary : ∀ {ts ts'}, Ahead more ts ts' → Replays more Left Expr.unplaced ts
    (parseUnary stop fuel ts) (parseUnary stop' fuel' ts')
  behind : ∀ {ts ts'}, Ahead more ts ts' → Replays more Left Expr.unplaced ts
    (parsePostfix stop fuel ts) (parsePostfix stop' fuel' ts')
  callMember : ∀ {ts ts'}, Ahead more ts ts' → Replays more Left Expr.unplaced ts
    (parseCallMember stop fuel ts) (parseCallMember stop' fuel' ts')
  head : ∀ {ts ts'}, Ahead more ts ts' → Replays more Left Expr.unplaced ts
    (parseHead stop fuel ts) (parseHead stop' fuel' ts')
  tails : ∀ {ts ts'} {e e' : Expr} (calls), e'.unplaced = e.unplaced → Ahead more ts ts' →
    Replays more Left Expr.unplaced ts
      (parseTails stop fuel calls e ts) (parseTails stop' fuel' calls e' ts')
  new : ∀ {ts ts'}, ts ≠ [] → Ahead more ts ts' → Replays more Left Expr.unplaced ts
    (parseNew stop fuel ts) (parseNew stop' fuel' ts')
  arguments : ∀ {ts ts'}, Ahead more ts ts' → Replays more Left Expr.allUnplaced ts
    (parseArguments stop fuel ts) (parseArguments stop' fuel' ts')
  moreArguments : ∀ {ts ts'}, Ahead more ts ts' → Replays more Left Expr.allUnplaced ts
    (parseMoreArguments stop fuel ts) (parseMoreArguments stop' fuel' ts')
  primary : ∀ {ts ts'}, Ahead more ts ts' → Replays more Left Expr.unplaced ts
    (parsePrimary stop fuel ts) (parsePrimary stop' fuel' ts')
  items : ∀ {ts ts'}, Ahead more ts ts' → Replays more Left Expr.allUnplaced ts
    (parseItems stop fuel ts) (parseItems stop' fuel' ts')
  props : ∀ {ts ts'}, Ahead more ts ts' → Replays more Left propsUnplaced ts
    (parseProps stop fuel ts) (parseProps stop' fuel' ts')

namespace Replay

variable (ih : Replay more stop stop' fuel fuel')
include ih

theorem commas_succ (h : Ahead more ts ts') : Replays more Left Expr.allUnplaced ts
    (parseCommas stop (fuel + 1) ts) (parseCommas stop' (fuel' + 1) ts') := by
  unfold parseCommas
  refine .accept h (.pure h rfl) fun us us' hus => ?_
  refine (ih.assignment hus).bind fun e e' vs vs' he hvs => ?_
  refine (ih.commas hvs).bind fun es es' ws ws' hes hws => ?_
  exact .pure hws (by simp only [Expr.allUnplaced, he, hes])

theorem expression_succ (h : Ahead more ts ts') : Replays more Left Expr.unplaced ts
    (parseExpression stop (fuel + 1) ts) (parseExpression stop' (fuel' + 1) ts') := by
  unfold parseExpression
  refine (ih.assignment h).bind fun e e' us us' he hus => ?_
  refine .nextIs hus ?_ (.pure hus he)
  refine (ih.commas hus).bind fun es es' vs vs' hes hvs => .pure hvs ?_
  simp only [Expr.unplaced, Expr.allUnplaced, he, hes]

theorem assignment_succ (h : Ahead more ts ts') : Replays more Left Expr.unplaced ts
    (parseAssignment stop (fuel + 1) ts) (parseAssignment stop' (fuel' + 1) ts') := by
  unfold parseAssignment
  refine (ih.conditional h).bind fun e e' us us' he hus => ?_
  dsimp only
  by_cases hne : us = []
  · subst hne
    exact .ended
  · rw [hus.next_eq hne]
    split
    · exact .pure hus he
    · next op _ =>
        have htarget : e'.isTarget = e.isTarget := by
          rw [← isTarget_unplaced, he, isTarget_unplaced]
        rw [htarget]
        split_ifs
        · refine .of_left (us.drop 1) hne ?_
          refine (ih.assignment (hus.drop_one hne)).bind fun r r' vs vs' hr hvs => .pure hvs ?_
          simp only [Expr.unplaced, he, hr]
        · exact .error

theorem conditional_succ (h : Ahead more ts ts') : Replays more Left Expr.unplaced ts
    (parseConditional stop (fuel + 1) ts) (parseConditional stop' (fuel' + 1) ts') := by
  unfold parseConditional
  refine (ih.operators 1 h).bind fun t t' us us' ht hus => ?_
  refine .accept hus (.pure hus ht) fun vs vs' hvs => ?_
  refine (ih.assignment hvs).bind fun y y' ws ws' hy hws => ?_
  refine .expect hws fun xs xs' hxs => ?_
  refine (ih.assignment hxs).bind fun n n' zs zs' hn hzs => .pure hzs ?_
  simp only [Expr.unplaced, ht, hy, hn]

theorem operators_succ (least : Nat) (h : Ahead more ts ts') : Replays more Left Expr.unplaced ts
    (parseInfix stop (fuel + 1) least ts) (parseInfix stop' (fuel' + 1) least ts') := by
  unfold parseInfix
  exact (ih.unary h).bind fun _ _ _ _ he hus => ih.moreOperators least he hus

theorem moreOperators_succ {e e' : Expr} (least : Nat) (he : e'.unplaced = e.unplaced)
    (h : Ahead more ts ts') : Replays more Left Expr.unplaced ts
      (parseInfixRest stop (fuel + 1) least e ts) (parseInfixRest stop' (fuel' + 1) least e' ts') := by
  unfold parseInfixRest
  by_cases hne : ts = []
  · subst hne
    exact .ended
  · rw [h.next_eq hne]
    split
    · exact .pure h he
    · next precedence op _ =>
        split_ifs
        · exact .pure h he
        · refine .of_left (ts.drop 1) hne ?_
          refine (ih.operators (precedence + 1) (h.drop_one hne)).bind fun r r' us us' hr hus => ?_
          refine ih.moreOperators least ?_ hus
          cases op <;> simp only [Expr.unplaced, he, hr]

theorem callMember_succ (h : Ahead more ts ts') : Replays more Left Expr.unplaced ts
    (parseCallMember stop (fuel + 1) ts) (parseCallMember stop' (fuel' + 1) ts') := by
  unfold parseCallMember
  exact (ih.head h).bind fun _ _ _ _ he hus => ih.tails true he hus

theorem behind_succ (h : Ahead more ts ts') : Replays more Left Expr.unplaced ts
    (parsePostfix stop (fuel + 1) ts) (parsePostfix stop' (fuel' + 1) ts') := by
  unfold parsePostfix
  refine (ih.callMember h).bind fun e e' us us' he hus => ?_
  dsimp only
  cases us with
  | nil => exact .ended
  | cons t vs =>
      obtain ⟨i, j, l⟩ := t
      obtain ⟨i', j', vs', rfl, hvs⟩ := hus.cons_inv
      unfold accept?
      dsimp only
      by_cases hplus : l = .operator "++"
      · rw [if_pos hplus, if_pos hplus]
        exact Replays.cons (.pure hvs (by simp only [Expr.unplaced, he]))
      · rw [if_neg hplus, if_neg hplus]
        by_cases hminus : l = .operator "--"
        · rw [if_pos hminus, if_pos hminus]
          exact Replays.cons (.pure hvs (by simp only [Expr.unplaced, he]))
        · rw [if_neg hminus, if_neg hminus]
          exact .pure hus he

theorem head_succ (h : Ahead more ts ts') : Replays more Left Expr.unplaced ts
    (parseHead stop (fuel + 1) ts) (parseHead stop' (fuel' + 1) ts') := by
  unfold parseHead
  cases ts with
  | nil => exact .of_nil (ih.primary h)
  | cons t us => exact .nextIs h (ih.new (List.cons_ne_nil _ _) h) (ih.primary h)

theorem tails_succ {e e' : Expr} (calls : Bool) (he : e'.unplaced = e.unplaced) (h : Ahead more ts ts') :
    Replays more Left Expr.unplaced ts
      (parseTails stop (fuel + 1) calls e ts) (parseTails stop' (fuel' + 1) calls e' ts') := by
  unfold parseTails
  cases ts with
  | nil => exact .ended
  | cons t us =>
      obtain ⟨i, j, l⟩ := t
      obtain ⟨i', j', us', rfl, hus⟩ := h.cons_inv
      split
      · next heq =>
          cases heq
          refine Replays.cons (.property hus fun s vs vs' hvs => ih.tails calls ?_ hvs)
          simp only [Expr.unplaced, he]
      · next heq =>
          cases heq
          refine Replays.cons ((ih.expression hus).bind fun k k' vs vs' hk hvs => ?_)
          refine .expect hvs fun ws ws' hws => ih.tails calls ?_ hws
          simp only [Expr.unplaced, he, hk]
      · next heq =>
          cases heq
          dsimp only
          split_ifs
          · refine Replays.cons ((ih.arguments hus).bind fun as as' vs vs' ha hvs => ?_)
            refine ih.tails calls ?_ hvs
            simp only [Expr.unplaced, he, ha]
          · exact .pure h he
      · next hdot hindex hcall =>
          split
          · next heq => cases heq; exact absurd rfl (hdot _ _ _)
          · next heq => cases heq; exact absurd rfl (hindex _ _ _)
          · next heq => cases heq; exact absurd rfl (hcall _ _ _)
          · exact .pure h he

theorem new_succ (hne : ts ≠ []) (h : Ahead more ts ts') : Replays more Left Expr.unplaced ts
    (parseNew stop (fuel + 1) ts) (parseNew stop' (fuel' + 1) ts') := by
  unfold parseNew
  refine .of_left (ts.drop 1) hne ?_
  refine (ih.head (h.drop_one hne)).bind fun e e' us us' he hus => ?_
  refine (ih.tails false he hus).bind fun t t' vs vs' ht hvs => ?_
  refine .accept hvs (.pure hvs ?_) fun ws ws' hws => ?_
  · simp only [Expr.unplaced, Expr.allUnplaced, ht]
  · refine (ih.arguments hws).bind fun as as' xs xs' ha hxs => .pure hxs ?_
    simp only [Expr.unplaced, ht, ha]

theorem arguments_succ (h : Ahead more ts ts') : Replays more Left Expr.allUnplaced ts
    (parseArguments stop (fuel + 1) ts) (parseArguments stop' (fuel' + 1) ts') := by
  unfold parseArguments
  exact .acceptOr h (fun us us' hus => .pure hus rfl) (ih.moreArguments h)

theorem moreArguments_succ (h : Ahead more ts ts') : Replays more Left Expr.allUnplaced ts
    (parseMoreArguments stop (fuel + 1) ts) (parseMoreArguments stop' (fuel' + 1) ts') := by
  unfold parseMoreArguments
  refine (ih.assignment h).bind fun e e' us us' he hus => ?_
  refine .acceptOr hus (fun vs vs' hvs => .pure hvs ?_) (.expect hus fun vs vs' hvs => ?_)
  · simp only [Expr.allUnplaced, he]
  · refine (ih.moreArguments hvs).bind fun as as' ws ws' ha hws => .pure hws ?_
    simp only [Expr.allUnplaced, he, ha]

theorem items_succ (h : Ahead more ts ts') : Replays more Left Expr.allUnplaced ts
    (parseItems stop (fuel + 1) ts) (parseItems stop' (fuel' + 1) ts') := by
  unfold parseItems
  refine .acceptOr h (fun us us' hus => .pure hus rfl) ?_
  refine (ih.assignment h).bind fun e e' us us' he hus => ?_
  refine .acceptOr hus (fun vs vs' hvs => ?_) (.expect hus fun vs vs' hvs => .pure hvs ?_)
  · refine (ih.items hvs).bind fun as as' ws ws' ha hws => .pure hws ?_
    simp only [Expr.allUnplaced, he, ha]
  · simp only [Expr.allUnplaced, he]

theorem props_succ (h : Ahead more ts ts') : Replays more Left propsUnplaced ts
    (parseProps stop (fuel + 1) ts) (parseProps stop' (fuel' + 1) ts') := by
  unfold parseProps
  refine .acceptOr h (fun us us' hus => .pure hus rfl) ?_
  refine .key h fun k k' us us' hk hus => .expect hus fun vs vs' hvs => ?_
  refine (ih.assignment hvs).bind fun e e' ws ws' he hws => ?_
  refine .acceptOr hws (fun xs xs' hxs => ?_) (.expect hws fun xs xs' hxs => .pure hxs ?_)
  · refine (ih.props hxs).bind fun ps ps' ys ys' hp hys => .pure hys ?_
    simp only [propsUnplaced, hk, he, hp]
  · simp only [propsUnplaced, hk, he]

theorem unary_succ (h : Ahead more ts ts') : Replays more Left Expr.unplaced ts
    (parseUnary stop (fuel + 1) ts) (parseUnary stop' (fuel' + 1) ts') := by
  unfold parseUnary
  cases ts with
  | nil => exact .unexpected
  | cons t us =>
      obtain ⟨i, j, l⟩ := t
      obtain ⟨i', j', us', rfl, hus⟩ := h.cons_inv
      split
      · next heq => cases heq
      · next heq =>
          cases heq
          dsimp only
          split
          · refine Replays.cons ((ih.unary hus).bind fun e e' vs vs' he hvs => .pure hvs ?_)
            simp only [Expr.unplaced, he]
          · exact .unexpected
      · next heq =>
          cases heq
          refine Replays.cons ((ih.unary hus).bind fun e e' vs vs' he hvs => .pure hvs ?_)
          simp only [Expr.unplaced, he]
      · exact .error
      · exact .error
      · next hoperator htypeof hvoid hdelete =>
          split
          · next heq => cases heq
          · next heq => cases heq; exact absurd rfl (hoperator _ _ _ _)
          · next heq => cases heq; exact absurd rfl (htypeof _ _ _)
          · next heq => cases heq; exact absurd rfl (hvoid _ _ _)
          · next heq => cases heq; exact absurd rfl (hdelete _ _ _)
          · exact ih.behind h

theorem primary_succ (h : Ahead more ts ts') : Replays more Left Expr.unplaced ts
    (parsePrimary stop (fuel + 1) ts) (parsePrimary stop' (fuel' + 1) ts') := by
  unfold parsePrimary
  cases ts with
  | nil => exact .unexpected
  | cons t us =>
      obtain ⟨i, j, l⟩ := t
      obtain ⟨i', j', us', rfl, hus⟩ := h.cons_inv
      have hleaf {e e' : Expr} (he : e'.unplaced = e.unplaced) :
          Replays more Left Expr.unplaced (⟨i, j, l⟩ :: us) (.ok (e, us)) (.ok (e', us')) :=
        Replays.cons (.pure hus he)
      split
      · next heq => cases heq; exact hleaf rfl
      · next heq => cases heq; exact hleaf rfl
      · next heq => cases heq; exact hleaf rfl
      · next heq => cases heq; exact hleaf rfl
      · next heq => cases heq; exact hleaf rfl
      · next heq => cases heq; exact hleaf rfl
      · next heq => cases heq; exact hleaf rfl
      · next heq =>
          cases heq
          refine Replays.cons ((ih.function i i' hus).weaken.bind fun f f' vs vs' hf hvs => .pure hvs ?_)
          rw [unplaced_function, unplaced_function, hf]
      · next heq =>
          cases heq
          refine Replays.cons ((ih.expression hus).bind fun e e' vs vs' he hvs => ?_)
          refine .expect hvs fun ws ws' hws => .pure hws ?_
          simp only [Expr.unplaced, he]
      · next heq =>
          cases heq
          refine Replays.cons ((ih.items hus).bind fun es es' vs vs' he hvs => .pure hvs ?_)
          simp only [Expr.unplaced, he]
      · next heq =>
          cases heq
          refine Replays.cons ((ih.props hus).bind fun ps ps' vs vs' hp hvs => .pure hvs ?_)
          simp only [Expr.unplaced, hp]
      · exact .unexpected

/-! Statements. -/

theorem decls_succ (h : Ahead more ts ts') : Replays more Left declsUnplaced ts
    (parseDecls stop (fuel + 1) ts) (parseDecls stop' (fuel' + 1) ts') := by
  unfold parseDecls
  refine .name h fun s us us' hus => ?_
  refine (ih.init hus).bind fun o o' vs vs' ho hvs => ?_
  refine .accept hvs (.pure hvs (by simp only [declsUnplaced, ho])) fun ws ws' hws => ?_
  refine (ih.decls hws).bind fun ds ds' xs xs' hd hxs => .pure hxs ?_
  simp only [declsUnplaced, ho, hd]

theorem init_succ (h : Ahead more ts ts') : Replays more Left optionUnplaced ts
    (parseInit stop (fuel + 1) ts) (parseInit stop' (fuel' + 1) ts') := by
  unfold parseInit
  refine .accept h (.pure h rfl) fun us us' hus => ?_
  refine (ih.assignment hus).bind fun e e' vs vs' he hvs => .pure hvs ?_
  simp only [optionUnplaced, he]

theorem expressionStatement_succ (i i' : Nat) (h : Ahead more ts ts') :
    Replays more Left Stmt.unplaced ts (parseExpressionStatement stop (fuel + 1) i ts)
      (parseExpressionStatement stop' (fuel' + 1) i' ts') := by
  unfold parseExpressionStatement
  refine (ih.expression h).bind fun e e' us us' he hus => .semicolon hus ?_
  simp only [Stmt.unplaced, he]

theorem option_succ (c : Char) (h : Ahead more ts ts') : Replays more Left optionUnplaced ts
    (parseOptional stop (fuel + 1) c ts) (parseOptional stop' (fuel' + 1) c ts') := by
  unfold parseOptional
  refine .nextIs h (.pure h rfl) ?_
  refine (ih.expression h).bind fun e e' us us' he hus => .pure hus ?_
  simp only [optionUnplaced, he]

theorem loopInit_succ (h : Ahead more ts ts') : Replays more Left headUnplaced ts
    (parseLoopInit stop (fuel + 1) ts) (parseLoopInit stop' (fuel' + 1) ts') := by
  unfold parseLoopInit
  refine .nextIs h (.pure h rfl) (.acceptOr h (fun us us' hus => ?_) ?_)
  · refine (ih.decls hus).bind fun ds ds' vs vs' hd hvs => .pure hvs ?_
    simp only [headUnplaced, Stmt.unplaced, hd]
  · refine (ih.expression h).bind fun e e' us us' he hus => .pure hus ?_
    simp only [headUnplaced, Stmt.unplaced, he]

theorem loop_succ (i i' : Nat) (h : Ahead more ts ts') : Replays more Left Stmt.unplaced ts
    (parseLoop stop (fuel + 1) i ts) (parseLoop stop' (fuel' + 1) i' ts') := by
  unfold parseLoop
  refine .expect h fun us us' hus => ?_
  refine (ih.loopInit hus).bind fun o o' vs vs' ho hvs => .nextIs hvs .error ?_
  refine .expect hvs fun ws ws' hws => ?_
  refine (ih.option ';' hws).bind fun t t' xs xs' ht hxs => .expect hxs fun ys ys' hys => ?_
  refine (ih.option ')' hys).bind fun u u' zs zs' hu hzs => .expect hzs fun rs rs' hrs => ?_
  refine (ih.statement hrs).bind fun b b' qs qs' hb hqs => .pure hqs ?_
  simp only [Stmt.unplaced, ho, ht, hu, hb]

omit ih in
theorem functionName_ahead (h : Ahead more ts ts') (hne : ts ≠ []) :
    (functionName ts').1 = (functionName ts).1 ∧ Ahead more (functionName ts).2 (functionName ts').2 := by
  cases ts with
  | nil => exact absurd rfl hne
  | cons t us =>
      obtain ⟨i, j, l⟩ := t
      obtain ⟨i', j', us', rfl, hus⟩ := h.cons_inv
      cases l with
      | name s => exact ⟨rfl, hus⟩
      | mark | keyword | operator | text | number => exact ⟨rfl, h⟩

omit ih in
theorem parameterNames_ahead (hf : fuel ≤ fuel') (h : Ahead more ts ts') :
    Replays more Left id ts (parameterNames stop fuel ts) (parameterNames stop' fuel' ts') := by
  induction fuel generalizing fuel' ts ts' with
  | zero => exact .unexpected
  | succ fuel ihf =>
      obtain ⟨fuel', rfl⟩ := Nat.exists_eq_add_one_of_ne_zero (show fuel' ≠ 0 by omega)
      unfold parameterNames
      refine .name h fun s us us' hus => .acceptOr hus (fun vs vs' hvs => .pure hvs rfl) ?_
      refine .expect hus fun vs vs' hvs => ?_
      refine (ihf (Nat.le_of_succ_le_succ hf) hvs).bind fun ss ss' ws ws' hs hws => .pure hws ?_
      exact congrArg (s :: ·) hs

omit ih in
theorem parameters_ahead (h : Ahead more ts ts') :
    Replays more Left id ts (parameters stop ts) (parameters stop' ts') := by
  unfold parameters
  refine .acceptOr h (fun us us' hus => .pure hus rfl) (parameterNames_ahead ?_ h)
  have hlength := congrArg List.length h
  simp only [List.length_append, List.length_map] at hlength
  omega

theorem function_succ (i i' : Nat) (h : Ahead more ts ts') :
    Replays more (fun _ => True) functionUnplaced ts (parseFunction stop (fuel + 1) i ts)
      (parseFunction stop' (fuel' + 1) i' ts') := by
  rw [parseFunction_succ, parseFunction_succ]
  cases ts with
  | nil => exact .error
  | cons t us =>
      have hne : t :: us ≠ [] := List.cons_ne_nil _ _
      obtain ⟨hname, hus⟩ := functionName_ahead h hne
      rw [hname]
      refine .of_left (functionName (t :: us)).2 hne (.expect hus fun vs vs' hvs => ?_)
      refine (parameters_ahead hvs).bind fun ps ps' ws ws' hp hws => .expect hws fun xs xs' hxs => ?_
      obtain rfl : ps' = ps := hp
      refine (ih.block hxs).close functionUnplaced (fun b => ⟨(functionName (t :: us)).1, ps', b, i⟩)
        (fun b => ⟨(functionName (t :: us)).1, ps', b, i'⟩) fun b b' hb => ?_
      simp only [functionUnplaced, hb]

theorem block_succ (h : Ahead more ts ts') : Replays more (fun _ => True) Stmt.allUnplaced ts
    (parseBlock stop (fuel + 1) ts) (parseBlock stop' (fuel' + 1) ts') := by
  unfold parseBlock
  cases ts with
  | nil => exact .error
  | cons t us =>
      obtain ⟨i, j, l⟩ := t
      obtain ⟨i', j', us', rfl, hus⟩ := h.cons_inv
      split
      · next heq => cases heq
      · next heq =>
          cases heq
          rintro _ _ ⟨⟩ -
          exact ⟨List.cons_ne_nil _ _, _, us', rfl, rfl, hus⟩
      · next hclose =>
          split
          · next heq => cases heq
          · next heq => cases heq; exact absurd rfl (hclose _ _ _)
          · refine (ih.statement h).bind fun st st' vs vs' hst hvs => ?_
            refine (ih.block hvs).close Stmt.allUnplaced (st :: ·) (st' :: ·) fun b b' hb => ?_
            simp only [Stmt.allUnplaced, hst, hb]

def statementStarts : List Lexeme := [
  .mark '\x7b', .mark ';', .keyword "var", .keyword "function", .keyword "return", .keyword "for",
  .keyword "with"]

def unsupportedKeyword? : Lexeme → Option String
  | .keyword k => if unsupportedStatements.contains k then some k else none
  | _ => none

omit ih in
theorem parseStatement_of_not_starts {i j : Nat} {l : Lexeme} (hl : l ∉ statementStarts)
    (us : List Token) :
    parseStatement stop (fuel + 1) (⟨i, j, l⟩ :: us) =
      match unsupportedKeyword? l with
      | some k => .error ⟨.unsupported k, i⟩
      | none => parseExpressionStatement stop fuel i (⟨i, j, l⟩ :: us) := by
  unfold parseStatement
  dsimp only
  split
  · next heq => cases heq
  iterate 7
    next heq =>
      cases heq
      exact absurd (by decide) hl
  · next heq =>
      cases heq
      cases l with
      | keyword k =>
          unfold unsupportedKeyword?
          dsimp only
          split_ifs <;> rfl
      | mark | name | operator | text | number => rfl

theorem statement_succ (h : Ahead more ts ts') : Replays more Left Stmt.unplaced ts
    (parseStatement stop (fuel + 1) ts) (parseStatement stop' (fuel' + 1) ts') := by
  cases ts with
  | nil =>
      unfold parseStatement
      exact .unexpected
  | cons t us =>
      obtain ⟨i, j, l⟩ := t
      obtain ⟨i', j', us', rfl, hus⟩ := h.cons_inv
      by_cases hl : l ∈ statementStarts
      · simp only [statementStarts, List.mem_cons, List.not_mem_nil, or_false] at hl
        unfold parseStatement
        rcases hl with rfl | rfl | rfl | rfl | rfl | rfl | rfl
        · refine Replays.cons ((ih.block hus).weaken.bind fun b b' vs vs' hb hvs => .pure hvs ?_)
          simp only [Stmt.unplaced, hb]
        · exact Replays.cons (.pure hus rfl)
        · refine Replays.cons ((ih.decls hus).bind fun ds ds' vs vs' hd hvs => .semicolon hvs ?_)
          simp only [Stmt.unplaced, hd]
        · refine Replays.cons ((ih.function _ _ hus).weaken.bind fun f f' vs vs' hf hvs => .pure hvs ?_)
          rw [unplaced_functionStmt, unplaced_functionStmt, hf]
        · cases us with
          | nil => exact .ended
          | cons t vs =>
              obtain ⟨k, m, l⟩ := t
              obtain ⟨k', m', vs', rfl, hvs⟩ := hus.cons_inv
              have hstop (c : Char) : nextIs (.mark c) (⟨k', m', l⟩ :: vs') =
                  nextIs (.mark c) (⟨k, m, l⟩ :: vs) := rfl
              simp only [hstop, List.isEmpty_cons]
              split_ifs
              · exact Replays.cons (.semicolon hus rfl)
              · refine Replays.cons ((ih.expression hus).bind fun e e' ws ws' he hws => .semicolon hws ?_)
                simp only [Stmt.unplaced, optionUnplaced, he]
        · exact Replays.cons (ih.loop _ _ hus)
        · exact .error
      · rw [parseStatement_of_not_starts hl, parseStatement_of_not_starts hl]
        cases unsupportedKeyword? l with
        | some k => exact .error
        | none => exact ih.expressionStatement i i' h

end Replay

theorem replay_zero (more : List Lexeme) (stop stop' fuel' : Nat) : Replay more stop stop' 0 fuel' where
  statement _ := by unfold parseStatement; exact .unexpected
  expressionStatement _ _ _ := by unfold parseExpressionStatement; exact .unexpected
  block _ := by unfold parseBlock; exact .unexpected
  decls _ := by unfold parseDecls; exact .unexpected
  init _ := by unfold parseInit; exact .unexpected
  loop _ _ _ := by unfold parseLoop; exact .unexpected
  loopInit _ := by unfold parseLoopInit; exact .unexpected
  option _ _ := by unfold parseOptional; exact .unexpected
  function _ _ _ := by unfold parseFunction; exact .unexpected
  expression _ := by unfold parseExpression; exact .unexpected
  commas _ := by unfold parseCommas; exact .unexpected
  assignment _ := by unfold parseAssignment; exact .unexpected
  conditional _ := by unfold parseConditional; exact .unexpected
  operators _ _ := by unfold parseInfix; exact .unexpected
  moreOperators _ _ _ := by unfold parseInfixRest; exact .unexpected
  unary _ := by unfold parseUnary; exact .unexpected
  behind _ := by unfold parsePostfix; exact .unexpected
  callMember _ := by unfold parseCallMember; exact .unexpected
  head _ := by unfold parseHead; exact .unexpected
  tails _ _ _ := by unfold parseTails; exact .unexpected
  new _ _ := by unfold parseNew; exact .unexpected
  arguments _ := by unfold parseArguments; exact .unexpected
  moreArguments _ := by unfold parseMoreArguments; exact .unexpected
  primary _ := by unfold parsePrimary; exact .unexpected
  items _ := by unfold parseItems; exact .unexpected
  props _ := by unfold parseProps; exact .unexpected

theorem replay (more : List Lexeme) (stop stop' : Nat) (h : fuel ≤ fuel') :
    Replay more stop stop' fuel fuel' := by
  induction fuel generalizing fuel' with
  | zero => exact replay_zero more stop stop' fuel'
  | succ fuel ihf =>
      obtain ⟨fuel', rfl⟩ := Nat.exists_eq_add_one_of_ne_zero (show fuel' ≠ 0 by omega)
      have ih := ihf (Nat.le_of_succ_le_succ h)
      exact {
        statement := ih.statement_succ
        expressionStatement := ih.expressionStatement_succ
        block := ih.block_succ
        decls := ih.decls_succ
        init := ih.init_succ
        loop := ih.loop_succ
        loopInit := ih.loopInit_succ
        option := ih.option_succ
        function := ih.function_succ
        expression := ih.expression_succ
        commas := ih.commas_succ
        assignment := ih.assignment_succ
        conditional := ih.conditional_succ
        operators := ih.operators_succ
        moreOperators := ih.moreOperators_succ
        unary := ih.unary_succ
        behind := ih.behind_succ
        callMember := ih.callMember_succ
        head := ih.head_succ
        tails := ih.tails_succ
        new := ih.new_succ
        arguments := ih.arguments_succ
        moreArguments := ih.moreArguments_succ
        primary := ih.primary_succ
        items := ih.items_succ
        props := ih.props_succ }

/-- A source that is one function is read as that function also in front of other tokens. -/
theorem parseFunction_of_parse {source : String} {i : Nat} {f : Function} (hts : tokenize source = .ok ts)
    (h : parse source = .ok [.function i f]) :
    ∃ j us, ts = ⟨i, j, .keyword "function"⟩ :: us ∧
      ∀ stop' fuel' start us' rest, us'.map (·.lexeme) = us.map (·.lexeme) → 16 * ts.length + 30 ≤ fuel' →
        ∃ f', parseFunction stop' fuel' start (us' ++ rest) = .ok (f', rest) ∧
          functionUnplaced f' = functionUnplaced f := by
  simp only [parse, hts, ok_bind] at h
  generalize byteLength source.toList = stop at h
  rw [show 16 * (ts.length + 2) = 16 * ts.length + 30 + 1 + 1 by omega] at h
  generalize 16 * ts.length + 30 = fuel at h ⊢
  cases ts with
  | nil =>
      unfold parseProgram at h
      cases h
  | cons t us =>
      unfold parseProgram at h
      simp only [bind_eq_ok] at h
      obtain ⟨⟨s, rest⟩, hs, body, hbody, h⟩ := h
      cases h
      obtain rfl : rest = [] := by
        cases rest with
        | nil => rfl
        | cons t rest =>
            unfold parseProgram at hbody
            simp only [bind_eq_ok] at hbody
            obtain ⟨_, -, _, -, hbody⟩ := hbody
            cases hbody
      obtain ⟨vs, hvs, hw, -⟩ := (sound stop _).statement hs
      rw [List.append_nil] at hvs
      subst hvs
      obtain ⟨j, rfl⟩ : ∃ j, t = ⟨i, j, .keyword "function"⟩ := by
        cases hw with
        | function hf hi =>
            subst hi
            cases hf
            exact ⟨_, rfl⟩
      refine ⟨j, us, rfl, fun stop' fuel' start us' rest hus hfuel => ?_⟩
      unfold parseStatement at hs
      simp only [bind_eq_ok] at hs
      obtain ⟨⟨g, vs⟩, hg, hs⟩ := hs
      cases hs
      have hahead : Ahead (rest.map (·.lexeme)) us (us' ++ rest) := by rw [Ahead, List.map_append, hus]
      obtain ⟨-, f', rest', hf', hview, hrest⟩ :=
        (replay _ stop stop' hfuel).function _ start hahead _ _ hg True.intro
      -- as many tokens are left as there are in `rest`, with which the tokens end
      obtain ⟨vs, hvs, -⟩ := (sound stop' fuel').function hf'
      have hlength := congrArg List.length hrest
      simp only [List.length_append, List.length_map, List.length_nil, Nat.zero_add] at hlength
      obtain ⟨-, rfl⟩ := List.append_inj' hvs hlength.symm
      exact ⟨f', hf', hview⟩

end TwinView.Script
