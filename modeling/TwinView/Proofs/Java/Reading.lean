import TwinView.Java.Expression
import TwinView.Proofs.Script.Completeness

/-!
How Java expressions are read. Java groups its operators as scripts do, with one difference: the last
branch of a conditional is no assignment. Tokens are therefore read in one way only, since the tokens of
a script are.
-/

namespace TwinView.Java

open Code
open Script (infixLevel precedence conditionalLevel assignmentLevel prefixLevel postfixLevel tightest)

inductive Tree
  /-- A name or a keyword that is an expression. -/
  | word (s : String)
  | constant (s : String)
  | parens (inner : Tree)
  | select (target : Tree) (name : String)
  | call (target : Tree) (args : List Tree)
  | unary (op : UnaryOp) (operand : Tree)
  | binary (op : BinaryOp) (left right : Tree)
  | cond (test yes no : Tree)

/-- A piece of the text of an expression. -/
inductive Tok
  | word (s : String)
  | constant (s : String)
  | opening
  | closing
  | comma
  | dot
  | between (op : BinaryOp)
  /-- An operator in front of its operand, with or without a space behind it. -/
  | before (op : UnaryOp) (spaced : Bool)
  | behind (op : UnaryOp)
  | question
  | colon

def Tok.text : Tok → String
  | .word s | .constant s => s
  | .opening => "("
  | .closing => ")"
  | .comma => ", "
  | .dot => "."
  | .between op => binarySymbol op
  | .before op spaced => unarySymbol op ++ if spaced then " " else ""
  | .behind op => unarySymbol op
  | .question => " ? "
  | .colon => " : "

def textOf : List Tok → String
  | [] => ""
  | t :: rest => t.text ++ textOf rest

theorem textOf_append (ts us : List Tok) : textOf (ts ++ us) = textOf ts ++ textOf us := by
  induction ts with
  | nil => simp [textOf]
  | cons t ts ih => simp [textOf, ih, String.append_assoc]

/-- Whether a constant is written as a number. It has no methods: a point behind it would go on with
it. -/
def isNumeral (s : String) : Bool := s.toList.head?.any fun c => c = '-' || c.isDigit

namespace Tree

def level : Tree → Nat
  | .constant s => if isNumeral s then prefixLevel else tightest
  | .unary op _ => if op.isPost then postfixLevel else prefixLevel
  | .binary op _ _ => if op.isAssignment then assignmentLevel else infixLevel (precedence op)
  | .cond _ _ _ => conditionalLevel
  | _ => tightest

@[simp] theorem level_word (s : String) : (word s).level = tightest := rfl

@[simp] theorem level_parens (t : Tree) : (parens t).level = tightest := rfl

@[simp] theorem level_select (t : Tree) (name : String) : (select t name).level = tightest := rfl

@[simp] theorem level_call (t : Tree) (args : List Tree) : (call t args).level = tightest := rfl

/-- What an assignment can write to. -/
def isTarget : Tree → Bool
  | .word _ | .select _ _ => true
  | _ => false

mutual

/-- Whether every operand binds as tightly as its position requires. -/
def isLayered : Tree → Bool
  | .word _ | .constant _ => true
  | .parens inner => inner.isLayered
  | .select target _ => tightest ≤ target.level && target.isLayered
  | .call target args => tightest ≤ target.level && target.isLayered && areLayered args
  | .unary op operand =>
    (if op.isPost then tightest else prefixLevel) ≤ operand.level && operand.isLayered
  | .binary op left right =>
    (if op.isAssignment then left.isTarget && assignmentLevel ≤ right.level
      else infixLevel (precedence op) ≤ left.level && infixLevel (precedence op) < right.level) &&
    left.isLayered && right.isLayered
  | .cond test yes no =>
    conditionalLevel < test.level && assignmentLevel ≤ yes.level && conditionalLevel ≤ no.level &&
    test.isLayered && yes.isLayered && no.isLayered

def areLayered : List Tree → Bool
  | [] => true
  | t :: rest => assignmentLevel ≤ t.level && t.isLayered && areLayered rest

end

theorem assignmentLevel_le (t : Tree) : assignmentLevel ≤ t.level := by
  cases t with
  | unary op | constant s =>
      rw [level]
      split <;> decide
  | binary op =>
      rw [level, infixLevel]
      split <;> simp [assignmentLevel]
  | cond => exact (by decide : assignmentLevel ≤ conditionalLevel)
  | _ => exact (by decide : assignmentLevel ≤ tightest)

theorem tightest_le_of_isTarget {t : Tree} (h : t.isTarget) : tightest ≤ t.level := by
  cases t with
  | word | select => exact Nat.le_refl _
  | _ => cases h

mutual

def spell : Tree → List Tok
  | .word s => [.word s]
  | .constant s => [.constant s]
  | .parens inner => .opening :: inner.spell ++ [.closing]
  | .select target name => target.spell ++ [.dot, .word name]
  | .call target args => target.spell ++ .opening :: spellAll args ++ [.closing]
  | .unary op operand =>
    if op.isPost then operand.spell ++ [.behind op]
    else
      let clash := (unarySymbol op).toList.getLast?.any isSign &&
        (textOf operand.spell).toList.head?.any isSign
      .before op clash :: operand.spell
  | .binary op left right => left.spell ++ .between op :: right.spell
  | .cond test yes no => test.spell ++ .question :: yes.spell ++ .colon :: no.spell

def spellAll : List Tree → List Tok
  | [] => []
  | [t] => t.spell
  | t :: rest => t.spell ++ .comma :: spellAll rest

end

end Tree

mutual

/-- The pieces are an expression of at least some level, with this nesting. -/
inductive Phrase : Nat → Tree → List Tok → Prop
  | word {k s} (hk : k ≤ tightest) : Phrase k (.word s) [.word s]
  | constant {k s} (hk : k ≤ (Tree.constant s).level) : Phrase k (.constant s) [.constant s]
  | parens {k t ts} (hk : k ≤ tightest) (h : Phrase assignmentLevel t ts) :
      Phrase k (.parens t) (.opening :: ts ++ [.closing])
  | select {k t name ts} (hk : k ≤ tightest) (h : Phrase tightest t ts) :
      Phrase k (.select t name) (ts ++ [.dot, .word name])
  | call {k t args ts us} (hk : k ≤ tightest) (h : Phrase tightest t ts) (ha : Phrases args us) :
      Phrase k (.call t args) (ts ++ .opening :: us ++ [.closing])
  | before {k op spaced t ts} (hk : k ≤ prefixLevel) (hop : op.isPost = false)
      (h : Phrase prefixLevel t ts) : Phrase k (.unary op t) (.before op spaced :: ts)
  | behind {k op t ts} (hk : k ≤ postfixLevel) (hop : op.isPost) (h : Phrase tightest t ts) :
      Phrase k (.unary op t) (ts ++ [.behind op])
  | binary {k op l r ts us} (hk : k ≤ infixLevel (precedence op)) (hop : op.isAssignment = false)
      (hl : Phrase (infixLevel (precedence op)) l ts)
      (hr : Phrase (infixLevel (precedence op) + 1) r us) :
      Phrase k (.binary op l r) (ts ++ .between op :: us)
  | assignment {k op l r ts us} (hk : k ≤ assignmentLevel) (hop : op.isAssignment) (ht : l.isTarget)
      (hl : Phrase tightest l ts) (hr : Phrase assignmentLevel r us) :
      Phrase k (.binary op l r) (ts ++ .between op :: us)
  | cond {k a b c ts us vs} (hk : k ≤ conditionalLevel) (ha : Phrase (conditionalLevel + 1) a ts)
      (hb : Phrase assignmentLevel b us) (hc : Phrase conditionalLevel c vs) :
      Phrase k (.cond a b c) (ts ++ .question :: us ++ .colon :: vs)

inductive Phrases : List Tree → List Tok → Prop
  | nil : Phrases [] []
  | one {t ts} (h : Phrase assignmentLevel t ts) : Phrases [t] ts
  | more {t t' rest ts us} (h : Phrase assignmentLevel t ts) (hm : Phrases (t' :: rest) us) :
      Phrases (t :: t' :: rest) (ts ++ .comma :: us)

end

mutual

theorem phrase_spell {k : Nat} : ∀ t : Tree, t.isLayered → k ≤ t.level → Phrase k t t.spell
  | .word s, _, hk => .word hk
  | .constant s, _, hk => .constant hk
  | .parens inner, h, hk => .parens hk (phrase_spell inner h (Tree.assignmentLevel_le inner))
  | .select target name, h, hk => by
      simp only [Tree.isLayered, Bool.and_eq_true, decide_eq_true_eq] at h
      exact .select hk (phrase_spell target h.2 h.1)
  | .call target args, h, hk => by
      simp only [Tree.isLayered, Bool.and_eq_true, decide_eq_true_eq] at h
      exact .call hk (phrase_spell target h.1.2 h.1.1) (phrases_spellAll args h.2)
  | .unary op operand, h, hk => by
      simp only [Tree.isLayered, Bool.and_eq_true, decide_eq_true_eq] at h
      rw [Tree.level] at hk
      rw [Tree.spell]
      cases hop : op.isPost with
      | true =>
          simp only [hop, if_true] at h hk ⊢
          exact .behind hk hop (phrase_spell operand h.2 h.1)
      | false =>
          simp only [hop, Bool.false_eq_true, if_false] at h hk ⊢
          exact .before hk hop (phrase_spell operand h.2 h.1)
  | .binary op left right, h, hk => by
      simp only [Tree.isLayered, Bool.and_eq_true] at h
      rw [Tree.level] at hk
      cases hop : op.isAssignment with
      | true =>
          simp only [hop, if_true, Bool.and_eq_true, decide_eq_true_eq] at h hk
          obtain ⟨⟨⟨ht, hr⟩, hl⟩, hr'⟩ := h
          exact .assignment hk hop ht (phrase_spell left hl (Tree.tightest_le_of_isTarget ht))
            (phrase_spell right hr' hr)
      | false =>
          simp only [hop, Bool.false_eq_true, if_false, Bool.and_eq_true, decide_eq_true_eq] at h hk
          obtain ⟨⟨⟨hl, hr⟩, hl'⟩, hr'⟩ := h
          exact .binary hk hop (phrase_spell left hl' hl) (phrase_spell right hr' hr)
  | .cond test yes no, h, hk => by
      simp only [Tree.isLayered, Bool.and_eq_true, decide_eq_true_eq] at h
      obtain ⟨⟨⟨⟨⟨ht, hy⟩, hn⟩, ht'⟩, hy'⟩, hn'⟩ := h
      exact .cond hk (phrase_spell test ht' ht) (phrase_spell yes hy' hy) (phrase_spell no hn' hn)

theorem phrases_spellAll : ∀ args : List Tree, Tree.areLayered args → Phrases args (Tree.spellAll args)
  | [], _ => .nil
  | [t], h => by
      simp only [Tree.areLayered, Bool.and_eq_true, decide_eq_true_eq] at h
      exact .one (phrase_spell t h.1.2 h.1.1)
  | t :: t' :: rest, h => by
      rw [Tree.areLayered] at h
      simp only [Bool.and_eq_true, decide_eq_true_eq] at h
      exact .more (phrase_spell t h.1.2 h.1.1) (phrases_spellAll (t' :: rest) h.2)

end

mutual

theorem Phrase.isLayered {k : Nat} {t : Tree} {ts : List Tok} : Phrase k t ts → t.isLayered ∧ k ≤ t.level
  | .word hk | .constant hk => ⟨rfl, hk⟩
  | .parens hk h => ⟨h.isLayered.1, hk⟩
  | .select hk h => ⟨by simp [Tree.isLayered, h.isLayered.1, h.isLayered.2], hk⟩
  | .call hk h ha =>
      ⟨by simp [Tree.isLayered, h.isLayered.1, h.isLayered.2, ha.areLayered], hk⟩
  | .before hk hop h =>
      ⟨by simp [Tree.isLayered, hop, h.isLayered.1, h.isLayered.2], by simpa [Tree.level, hop] using hk⟩
  | .behind hk hop h =>
      ⟨by simp [Tree.isLayered, hop, h.isLayered.1, h.isLayered.2], by simpa [Tree.level, hop] using hk⟩
  | .binary hk hop hl hr => by
      have : infixLevel (precedence _) < Tree.level _ := hr.isLayered.2
      exact ⟨by simp [Tree.isLayered, hop, hl.isLayered.1, hl.isLayered.2, hr.isLayered.1, this],
        by simpa [Tree.level, hop] using hk⟩
  | .assignment hk hop ht hl hr =>
      ⟨by simp [Tree.isLayered, hop, ht, hl.isLayered.1, hr.isLayered.1, hr.isLayered.2],
        by simpa [Tree.level, hop] using hk⟩
  | .cond hk ha hb hc => by
      have : conditionalLevel < Tree.level _ := ha.isLayered.2
      exact ⟨by simp [Tree.isLayered, this, ha.isLayered.1, hb.isLayered.1, hb.isLayered.2,
        hc.isLayered.1, hc.isLayered.2], hk⟩

theorem Phrases.areLayered {args : List Tree} {ts : List Tok} : Phrases args ts → Tree.areLayered args
  | .nil => rfl
  | .one h => by simp [Tree.areLayered, h.isLayered.1, h.isLayered.2]
  | .more h hm => by
      rw [Tree.areLayered]
      simp [h.isLayered.1, h.isLayered.2, hm.areLayered]

end

mutual

def Tree.script : Tree → Script.Expr
  | .word s => .name 0 s
  | .constant s => .text 0 s
  | .parens inner => .parens 0 inner.script
  | .select target name => .member 0 target.script name
  | .call target args => .call 0 target.script (Tree.scripts args)
  | .unary op operand => .unary 0 op operand.script
  | .binary op left right => .binary 0 op left.script right.script
  | .cond test yes no => .cond 0 test.script yes.script no.script

def Tree.scripts : List Tree → List Script.Expr
  | [] => []
  | t :: rest => t.script :: Tree.scripts rest

end

def Tok.lexeme : Tok → Script.Lexeme
  | .word s => .name s
  | .constant s => .text s
  | .opening => .mark '('
  | .closing => .mark ')'
  | .comma => .mark ','
  | .dot => .mark '.'
  | .between op => .operator (Script.symbol op)
  | .before op _ | .behind op => .operator (Script.unarySymbol op)
  | .question => .operator "?"
  | .colon => .mark ':'

def scriptTokens (ts : List Tok) : List Script.Token := ts.map fun t => ⟨0, 0, t.lexeme⟩

theorem script_start (t : Tree) : t.script.start = 0 := by cases t <;> rfl

theorem level_le_script (t : Tree) : t.level ≤ t.script.level := by
  cases t with
  | constant s =>
      rw [Tree.level]
      split
      · exact (by decide : prefixLevel ≤ tightest)
      · exact Nat.le_refl _
  | _ => exact Nat.le_refl _

theorem isTarget_script {t : Tree} (h : t.isTarget) : t.script.isTarget := by
  cases t with
  | word | select => rfl
  | _ => cases h

theorem startsAt_scriptTokens {t : Tree} {ts : List Tok} {rest : List Script.Token}
    (h : Script.Written Script.Separate t.script (scriptTokens ts) rest) :
    Script.StartsAt 0 (scriptTokens ts) := script_start t ▸ h.startsAt

mutual

theorem isLayered_script : ∀ t : Tree, t.isLayered → t.script.isLayered
  | .word _, _ | .constant _, _ => rfl
  | .parens inner, h => isLayered_script inner h
  | .select target _, h => by
      simp only [Tree.isLayered, Bool.and_eq_true, decide_eq_true_eq] at h
      simp [Tree.script, Script.Expr.isLayered, isLayered_script target h.2,
        Nat.le_trans h.1 (level_le_script target)]
  | .call target args, h => by
      simp only [Tree.isLayered, Bool.and_eq_true, decide_eq_true_eq] at h
      simp [Tree.script, Script.Expr.isLayered, isLayered_script target h.1.2, areLayered_scripts args h.2,
        Nat.le_trans h.1.1 (level_le_script target)]
  | .unary op operand, h => by
      simp only [Tree.isLayered, Bool.and_eq_true, decide_eq_true_eq] at h
      simp [Tree.script, Script.Expr.isLayered, isLayered_script operand h.2,
        Nat.le_trans h.1 (level_le_script operand)]
  | .binary op left right, h => by
      simp only [Tree.isLayered, Bool.and_eq_true] at h
      rw [Tree.script, Script.Expr.isLayered, isLayered_script left h.1.2, isLayered_script right h.2]
      cases hop : op.isAssignment with
      | true =>
          simp only [hop, if_true, Bool.and_eq_true, decide_eq_true_eq] at h
          simp [isTarget_script h.1.1.1, Nat.le_trans h.1.1.2 (level_le_script right)]
      | false =>
          simp only [hop, Bool.false_eq_true, if_false, Bool.and_eq_true, decide_eq_true_eq] at h
          simp [Nat.le_trans h.1.1.1 (level_le_script left),
            Nat.lt_of_lt_of_le h.1.1.2 (level_le_script right)]
  | .cond test yes no, h => by
      simp only [Tree.isLayered, Bool.and_eq_true, decide_eq_true_eq] at h
      obtain ⟨⟨⟨⟨⟨ht, hy⟩, hn⟩, ht'⟩, hy'⟩, hn'⟩ := h
      have hn : assignmentLevel ≤ no.level := Nat.le_trans (by decide) hn
      simp [Tree.script, Script.Expr.isLayered, isLayered_script test ht', isLayered_script yes hy',
        isLayered_script no hn', Nat.lt_of_lt_of_le ht (level_le_script test),
        Nat.le_trans hy (level_le_script yes), Nat.le_trans hn (level_le_script no)]

theorem areLayered_scripts : ∀ args : List Tree, Tree.areLayered args → Script.areLayered (Tree.scripts args)
  | [], _ => rfl
  | t :: rest, h => by
      simp only [Tree.areLayered, Bool.and_eq_true, decide_eq_true_eq] at h
      simp [Tree.scripts, Script.areLayered, isLayered_script t h.1.2, areLayered_scripts rest h.2,
        Nat.le_trans h.1.1 (level_le_script t)]

end

theorem scriptTokens_append (ts us : List Tok) :
    scriptTokens (ts ++ us) = scriptTokens ts ++ scriptTokens us := List.map_append

mutual

theorem Phrase.written {k : Nat} {t : Tree} {ts : List Tok} (rest : List Script.Token) :
    Phrase k t ts → Script.Written Script.Separate t.script (scriptTokens ts) rest
  | .word _ => .name
  | .constant _ => .text
  | .parens _ h => by
      rw [scriptTokens_append]
      exact .parens (h.written _)
  | .select _ h => by
      rw [scriptTokens_append]
      exact .member (startsAt_scriptTokens (h.written [])) (h.written _) (.inl rfl)
  | .call _ h ha => by
      rw [scriptTokens_append, scriptTokens_append]
      exact .call (startsAt_scriptTokens (h.written [])) (h.written _) (ha.separated _)
  | .before _ hop h => .before hop (h.written rest)
  | .behind _ hop h => by
      rw [scriptTokens_append]
      exact .behind hop (startsAt_scriptTokens (h.written [])) (h.written _)
  | .binary _ _ hl hr => by
      rw [scriptTokens_append]
      exact .binary (startsAt_scriptTokens (hl.written [])) (hl.written _) (hr.written rest)
  | .assignment _ _ _ hl hr => by
      rw [scriptTokens_append]
      exact .binary (startsAt_scriptTokens (hl.written [])) (hl.written _) (hr.written rest)
  | .cond _ ha hb hc => by
      rw [scriptTokens_append, scriptTokens_append]
      exact .cond (startsAt_scriptTokens (ha.written [])) (ha.written _) (hb.written _) (hc.written rest)

theorem Phrases.separated {args : List Tree} {ts : List Tok} (rest : List Script.Token) :
    Phrases args ts →
      Script.Separated false (Script.Written Script.Separate) (Tree.scripts args) (scriptTokens ts) rest
  | .nil => .nil
  | .one h => .one (h.written rest)
  | .more h hm => by
      rw [scriptTokens_append]
      exact .more (h.written _) (hm.separated rest)

end

mutual

theorem script_injective : ∀ t t' : Tree, t.script = t'.script → t = t'
  | .word _, t', h => by
      cases t' <;> cases h
      rfl
  | .constant _, t', h => by
      cases t' <;> cases h
      rfl
  | .parens inner, t', h => by
      cases t' with
      | parens inner' =>
          simp only [Tree.script, Script.Expr.parens.injEq, true_and] at h
          rw [script_injective inner inner' h]
      | _ => cases h
  | .select target name, t', h => by
      cases t' with
      | select target' name' =>
          simp only [Tree.script, Script.Expr.member.injEq, true_and] at h
          rw [script_injective target target' h.1, h.2]
      | _ => cases h
  | .call target args, t', h => by
      cases t' with
      | call target' args' =>
          simp only [Tree.script, Script.Expr.call.injEq, true_and] at h
          rw [script_injective target target' h.1, scripts_injective args args' h.2]
      | _ => cases h
  | .unary op operand, t', h => by
      cases t' with
      | unary op' operand' =>
          simp only [Tree.script, Script.Expr.unary.injEq, true_and] at h
          rw [script_injective operand operand' h.2, h.1]
      | _ => cases h
  | .binary op left right, t', h => by
      cases t' with
      | binary op' left' right' =>
          simp only [Tree.script, Script.Expr.binary.injEq, true_and] at h
          rw [script_injective left left' h.2.1, script_injective right right' h.2.2, h.1]
      | _ => cases h
  | .cond test yes no, t', h => by
      cases t' with
      | cond test' yes' no' =>
          simp only [Tree.script, Script.Expr.cond.injEq, true_and] at h
          rw [script_injective test test' h.1, script_injective yes yes' h.2.1,
            script_injective no no' h.2.2]
      | _ => cases h

theorem scripts_injective : ∀ args args' : List Tree, Tree.scripts args = Tree.scripts args' → args = args'
  | [], args', h => by
      cases args' with
      | nil => rfl
      | cons => cases h
  | t :: rest, args', h => by
      cases args' with
      | nil => cases h
      | cons t' rest' =>
          simp only [Tree.scripts, List.cons.injEq] at h
          rw [script_injective t t' h.1, scripts_injective rest rest' h.2]

end

/-- The pieces of an expression are read in one way only. -/
theorem Phrase.unique {k k' : Nat} {t t' : Tree} {ts : List Tok} (h : Phrase k t ts)
    (h' : Phrase k' t' ts) : t = t' := by
  have hends : Script.Ends 0 [] := fun _ _ hn => by cases hn
  have hreads : ∀ {k t}, Phrase k t ts → Script.parseExpression 0 (16 * (scriptTokens ts).length + 9)
      (scriptTokens ts ++ []) = .ok (t.script, []) := fun h =>
    ((Script.complete 0 _).expr (Nat.lt_succ_self _) (h.written [])
      (isLayered_script _ h.isLayered.1)).expression _ hends (Nat.le_refl _)
  have hsame := (hreads h).symm.trans (hreads h')
  simp only [Except.ok.injEq, Prod.mk.injEq, and_true] at hsame
  exact script_injective t t' hsame

end TwinView.Java
