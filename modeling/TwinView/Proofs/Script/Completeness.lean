import TwinView.Proofs.Script.Soundness

/-!
What is written is read back: on the tokens of a layered tree, in front of anything that does not go on
with it, every parsing function gives that tree and stops where it ends. The induction is on the number
of tokens. Infix operators and accesses are read in a loop that joins them to the left; for these the
statement is that the loop gets to the tree, whatever follows.
-/

namespace TwinView.Script

open Code

variable {stop fuel n i j : Nat} {ts us vs rest : List Token} {e : Expr} {l : Lexeme}

/-! What follows. -/

/-- The level at which a lexeme goes on with the expression before it. -/
def joins : Lexeme → Option Nat
  | .mark ',' => some 0
  | .mark '.' | .mark '[' | .mark '(' => some tightest
  | .operator "?" => some conditionalLevel
  | .operator "++" | .operator "--" => some postfixLevel
  | l => if (assignment? l).isSome then some assignmentLevel else (infix? l).map fun x => infixLevel x.1

def Ends (level : Nat) (rest : List Token) : Prop :=
  ∀ l n, next rest = some l → joins l = some n → n < level

theorem Ends.mono {k m : Nat} (h : Ends k rest) (hle : k ≤ m) : Ends m rest :=
  fun l n hl hn => Nat.lt_of_lt_of_le (h l n hl hn) hle

theorem ends_cons {k m : Nat} (hl : joins l = some m) (hm : m < k) : Ends k (⟨i, j, l⟩ :: rest) := by
  intro l' n hl' hn
  cases hl'
  cases hl.symm.trans hn
  exact hm

theorem ends_cons_of_none {k : Nat} (hl : joins l = none) : Ends k (⟨i, j, l⟩ :: rest) := by
  intro l' n hl' hn
  cases hl'
  cases hl.symm.trans hn

theorem joins_operator {p : Nat} {op : Infix} (h : infix? l = some (p, op)) :
    joins l = some (infixLevel p) := by
  have := infix?_eq_some h
  cases op with
  | binary op =>
      obtain ⟨rfl, rfl, ha⟩ := this
      cases op with
      | assign | update => cases ha
      | and | or => rfl
      | arith op => cases op <;> rfl
      | compare op => cases op <;> rfl
  | isIn | instanceOf =>
      obtain ⟨rfl, rfl⟩ := this
      rfl

theorem joins_assignment {op : BinaryOp} (h : op.isAssignment) :
    joins (.operator (symbol op)) = some assignmentLevel := by
  cases op with
  | assign => rfl
  | update op => cases op <;> rfl
  | arith | and | or | compare => cases h

theorem Ends.nextIs_eq_false {k m : Nat} (h : Ends k rest) (hl : joins l = some m) (hk : k ≤ m) :
    nextIs l rest = false :=
  decide_eq_false fun hn => absurd (h l m hn hl) (Nat.not_lt.2 hk)

theorem accept?_of_nextIs (h : nextIs l ts = false) : accept? l ts = none := by
  cases ts with
  | nil => rfl
  | cons t ts =>
      have : t.lexeme ≠ l := fun heq => of_decide_eq_false h (congrArg some heq)
      rw [accept?, if_neg this]

theorem Ends.bind_assignment? (h : Ends assignmentLevel rest) : (next rest).bind assignment? = none := by
  cases ha : (next rest).bind assignment? with
  | none => rfl
  | some op =>
      obtain ⟨i, j, rest, rfl, hassign⟩ := next_assignment ha
      exact absurd (h _ _ rfl (joins_assignment hassign)) (Nat.lt_irrefl _)

theorem Ends.endsInfix {least : Nat} (h : Ends (infixLevel least) rest) : EndsInfix least rest := by
  intro p op hop
  obtain ⟨l, hl, hinfix⟩ := Option.bind_eq_some_iff.1 hop
  exact Nat.lt_of_add_lt_add_right (h l _ hl (joins_operator hinfix))

theorem Ends.not_any_isTail (h : Ends tightest rest) : !(next rest).any isTail :=
  Script.not_any_isTail (h.nextIs_eq_false rfl (Nat.le_refl _)) (h.nextIs_eq_false rfl (Nat.le_refl _))
    (h.nextIs_eq_false rfl (Nat.le_refl _))

/-- What may follow a statement without a semicolon. -/
def Separate (rest : List Token) : Prop := NoSemicolon rest ∧ Ends 0 rest

/-! What comes first. -/

def opensPrimary : Lexeme → Bool
  | .name _ | .number _ | .text _ => true
  | .keyword s => ["true", "false", "null", "this", "new", "function"].contains s
  | .mark c => ['(', '[', '\x7b'].contains c
  | .operator _ => false

def opensPrefix : Lexeme → Bool
  | .operator s => (prefixTable.lookup s).isSome
  | l => l = .keyword "typeof"

/-- The tokens start like an expression, and like an operand where it binds that tightly. -/
def Opens (e : Expr) (us : List Token) : Prop :=
  ∃ t vs, us = t :: vs ∧ (opensPrimary t.lexeme ∨ opensPrefix t.lexeme ∧ e.level < postfixLevel)

theorem Opens.append {e' : Expr} (h : Opens e' us) (hl : postfixLevel ≤ e.level → postfixLevel ≤ e'.level)
    (vs : List Token) : Opens e (us ++ vs) := by
  obtain ⟨t, us, rfl, ht⟩ := h
  refine ⟨t, us ++ vs, rfl, ht.imp_right fun hp => ⟨hp.1, ?_⟩⟩
  exact Nat.lt_of_not_le fun hle => absurd (hl hle) (Nat.not_le.2 hp.2)

theorem Opens.append_of_lt {e' : Expr} (h : Opens e' us) (hl : e.level < postfixLevel) (vs : List Token) :
    Opens e (us ++ vs) :=
  h.append (fun hle => absurd hle (Nat.not_le.2 hl)) vs

theorem level_binary_lt (i : Nat) (op : BinaryOp) (left right : Expr) :
    (Expr.binary i op left right).level < prefixLevel := by
  have := precedence_le op
  simp only [Expr.level, assignmentLevel, infixLevel, prefixLevel]
  split <;> omega

theorem Written.opens {S : List Token → Prop} (h : Written S e us rest) (hl : e.isLayered) :
    Opens e us := by
  induction hn : us.length using Nat.strongRecOn generalizing e us rest with | _ n ih
  subst hn
  cases h with
  | name | number | text | yes | no | null | this | newBare => exact ⟨_, _, rfl, .inl rfl⟩
  | parens | new | object | array => exact ⟨_, _, rfl, .inl rfl⟩
  | function h =>
      cases h
      exact ⟨_, _, rfl, .inl rfl⟩
  | before hop =>
      refine ⟨_, _, rfl, .inr ⟨?_, ?_⟩⟩
      · simp [opensPrefix, prefixTable_symbol hop]
      · simp [Expr.level, hop, prefixLevel, postfixLevel]
  | typeOf => exact ⟨_, _, rfl, .inr ⟨rfl, Nat.lt_succ_self _⟩⟩
  | member _ h =>
      simp only [Expr.isLayered, Bool.and_eq_true, decide_eq_true_eq] at hl
      exact (ih _ (by simp) h hl.2 rfl).append (fun _ => Nat.le_of_succ_le hl.1) _
  | index _ h =>
      simp only [Expr.isLayered, Bool.and_eq_true, decide_eq_true_eq] at hl
      rw [List.append_assoc]
      exact (ih _ (by simp) h hl.1.2 rfl).append (fun _ => Nat.le_of_succ_le hl.1.1) _
  | call _ h =>
      simp only [Expr.isLayered, Bool.and_eq_true, decide_eq_true_eq] at hl
      rw [List.append_assoc]
      exact (ih _ (by simp) h hl.1.2 rfl).append (fun _ => Nat.le_of_succ_le hl.1.1) _
  | behind hop _ h =>
      simp only [Expr.isLayered, hop, if_true, Bool.and_eq_true, decide_eq_true_eq] at hl
      exact (ih _ (by simp) h hl.2 rfl).append (fun _ => Nat.le_of_succ_le hl.1) _
  | binary _ h =>
      simp only [Expr.isLayered, Bool.and_eq_true] at hl
      exact (ih _ (by simp) h hl.1.2 rfl).append_of_lt
        (Nat.lt_succ_of_lt (level_binary_lt _ _ _ _)) _
  | isIn _ h =>
      simp only [Expr.isLayered, Bool.and_eq_true] at hl
      exact (ih _ (by simp) h hl.1.2 rfl).append_of_lt (by rw [Expr.level]; decide) _
  | instanceOf _ h =>
      simp only [Expr.isLayered, Bool.and_eq_true] at hl
      exact (ih _ (by simp) h hl.1.2 rfl).append_of_lt (by rw [Expr.level]; decide) _
  | cond _ h =>
      simp only [Expr.isLayered, Bool.and_eq_true] at hl
      rw [List.append_assoc]
      exact (ih _ (by simp) h hl.1.1.2 rfl).append_of_lt (by rw [Expr.level]; decide) _
  | comma _ h =>
      cases h with
      | nil | one => cases hl
      | last hl => cases hl
      | more h _ =>
          simp only [Expr.isLayered, areLayered, Bool.and_eq_true] at hl
          exact (ih _ (by simp) h hl.2.1.2 rfl).append_of_lt (by rw [Expr.level]; decide) _

theorem Opens.nextIs_eq_false (h : Opens e us) (hprimary : opensPrimary l = false)
    (hopens : opensPrefix l = false) (rest : List Token) : nextIs l (us ++ rest) = false := by
  obtain ⟨t, vs, rfl, ht⟩ := h
  refine decide_eq_false fun heq => ?_
  obtain rfl : t.lexeme = l := Option.some.inj heq
  rcases ht with ht | ⟨ht, -⟩
  · exact absurd (hprimary.symm.trans ht) Bool.false_ne_true
  · exact absurd (hopens.symm.trans ht) Bool.false_ne_true

theorem Opens.accept?_eq_none (h : Opens e us) (hprimary : opensPrimary l = false)
    (hopens : opensPrefix l = false) (rest : List Token) : accept? l (us ++ rest) = none :=
  accept?_of_nextIs (h.nextIs_eq_false hprimary hopens rest)

/-! What the parsing functions give. -/

def parseChain (stop fuel : Nat) (calls : Bool) (ts : List Token) : Except Refusal (Parsed Expr) :=
  parseHead stop fuel ts >>= fun (e, rest) => parseTails stop fuel calls e rest

/-- An expression is read back from its tokens. Sixteen calls for each token and some more are allowed,
the fewer the tighter the expression binds. -/
structure Parses (stop : Nat) (e : Expr) (us rest : List Token) : Prop where
  opens : Opens e us
  chain : ∀ fuel calls, tightest ≤ e.level → (calls = false → e.isCallFree) →
    16 * us.length + 2 ≤ fuel → ∃ fuel', fuel ≤ fuel' + us.length ∧
      parseChain stop fuel calls (us ++ rest) = parseTails stop fuel' calls e rest
  callMember : ∀ fuel, tightest ≤ e.level → Ends tightest rest → 16 * us.length + 3 ≤ fuel →
    parseCallMember stop fuel (us ++ rest) = .ok (e, rest)
  behind : ∀ fuel, postfixLevel ≤ e.level → Ends postfixLevel rest → 16 * us.length + 4 ≤ fuel →
    parsePostfix stop fuel (us ++ rest) = .ok (e, rest)
  unary : ∀ fuel, prefixLevel ≤ e.level → Ends prefixLevel rest → 16 * us.length + 5 ≤ fuel →
    parseUnary stop fuel (us ++ rest) = .ok (e, rest)
  operators : ∀ fuel {least}, 1 ≤ least → infixLevel least ≤ e.level → Ends prefixLevel rest →
    Ends (e.level + 1) rest → 16 * us.length + 6 ≤ fuel → ∃ fuel', fuel ≤ fuel' + us.length ∧
      parseInfix stop fuel least (us ++ rest) = parseInfixRest stop fuel' least e rest
  conditional : ∀ fuel, conditionalLevel ≤ e.level → Ends conditionalLevel rest →
    (e.level = conditionalLevel → Ends assignmentLevel rest) → 16 * us.length + 7 ≤ fuel →
    parseConditional stop fuel (us ++ rest) = .ok (e, rest)
  assignment : ∀ fuel, assignmentLevel ≤ e.level → Ends assignmentLevel rest →
    16 * us.length + 8 ≤ fuel → parseAssignment stop fuel (us ++ rest) = .ok (e, rest)
  expression : ∀ fuel, Ends 0 rest → 16 * us.length + 9 ≤ fuel →
    parseExpression stop fuel (us ++ rest) = .ok (e, rest)

/-- Everything of fewer than some tokens is read back. -/
structure Complete (stop n : Nat) : Prop where
  expr : ∀ {e us rest}, us.length < n → Written Separate e us rest → e.isLayered →
    Parses stop e us rest
  stmt : ∀ fuel {s us rest}, us.length < n → WrittenStmt Separate s us rest → s.isLayered →
    16 * us.length + 11 ≤ fuel → parseStatement stop fuel (us ++ rest) = .ok (s, rest)

@[simp] theorem ok_bind {ε α β : Type} (a : α) (f : α → Except ε β) : (Except.ok a >>= f) = f a := rfl

@[simp] theorem pure_eq_ok {ε α : Type} (a : α) : (pure a : Except ε α) = .ok a := rfl

@[simp] theorem accept?_cons_self (l : Lexeme) (ts : List Token) :
    accept? l (⟨i, j, l⟩ :: ts) = some ts := by simp [accept?]

@[simp] theorem accept?_cons_of_ne {l' : Lexeme} (h : l' ≠ l) (ts : List Token) :
    accept? l (⟨i, j, l'⟩ :: ts) = none := by simp [accept?, h]

@[simp] theorem expect_cons_self (c : Char) (ts : List Token) :
    expect stop c (⟨i, j, .mark c⟩ :: ts) = .ok ts := by simp [expect]

theorem StartsAt.unique (hi : StartsAt i ts) (hj : StartsAt j ts) : i = j := by
  obtain ⟨t, ts, rfl, rfl⟩ := hi
  obtain ⟨_, _, heq, rfl⟩ := hj
  cases heq
  rfl

theorem StartsAt.startOf_append (h : StartsAt i ts) (us : List Token) : startOf stop (ts ++ us) = i := by
  obtain ⟨t, ts, rfl, rfl⟩ := h
  rfl

theorem expectProperty_of_isNamed {s : String} {t : Token} (h : IsNamed s t) (ts : List Token) :
    expectProperty stop (t :: ts) = .ok (s, ts) := by
  obtain ⟨i, j, l⟩ := t
  obtain rfl | rfl : l = .name s ∨ l = .keyword s := h
  · rfl
  · rfl

theorem parseKey_of_isKey {key : PropertyKey} {t : Token} (h : IsKey key t) (ts : List Token) :
    parseKey stop (t :: ts) = .ok (key, ts) := by
  obtain ⟨i, j, l⟩ := t
  cases key with
  | name s =>
      obtain rfl | rfl : l = .name s ∨ l = .keyword s := h
      · rfl
      · rfl
  | text k s | number k s =>
      obtain ⟨rfl, rfl⟩ := h
      rfl

theorem accept?_of_isKey {key : PropertyKey} {t : Token} (h : IsKey key t) (c : Char) (ts : List Token) :
    accept? (.mark c) (t :: ts) = none := by
  obtain ⟨i, j, l⟩ := t
  cases key with
  | name s =>
      obtain rfl | rfl : l = .name s ∨ l = .keyword s := h
      · exact accept?_cons_of_ne (by simp) ts
      · exact accept?_cons_of_ne (by simp) ts
  | text k s | number k s =>
      obtain ⟨rfl, rfl⟩ := h
      exact accept?_cons_of_ne (by simp) ts

/-! Lists. -/

theorem Separated.cons_inv {α : Type} {loose : Bool} {W : α → List Token → List Token → Prop} {a : α}
    {as : List α} (h : Separated loose W (a :: as) us rest) :
    as = [] ∧ W a us rest ∨ ∃ ts i j vs, us = ts ++ ⟨i, j, .mark ','⟩ :: vs ∧
      W a ts (⟨i, j, .mark ','⟩ :: (vs ++ rest)) ∧ Separated loose W as vs rest ∧ (loose ∨ as ≠ []) := by
  cases h with
  | one h => exact .inl ⟨rfl, h⟩
  | last hl h => exact .inr ⟨_, _, _, [], rfl, h, .nil, .inl hl⟩
  | more h hm => exact .inr ⟨_, _, _, _, rfl, h, hm, .inr (List.cons_ne_nil _ _)⟩

theorem Separated.first {α : Type} {loose : Bool} {W : α → List Token → List Token → Prop} {a : α}
    {as : List α} (h : Separated loose W (a :: as) us rest) :
    ∃ ts vs rest', us = ts ++ vs ∧ W a ts rest' := by
  obtain ⟨rfl, hw⟩ | ⟨ts, i, j, vs, rfl, hw, -⟩ := h.cons_inv
  · exact ⟨us, [], _, (List.append_nil us).symm, hw⟩
  · exact ⟨ts, _, _, rfl, hw⟩

theorem Complete.items (ih : Complete stop n) (fuel : Nat) {items : List Expr} (hn : us.length < n)
    (h : Separated true (Written Separate) items us (⟨i, j, .mark ']'⟩ :: rest)) (hl : areLayered items)
    (hfuel : 16 * us.length + 9 ≤ fuel) :
    parseItems stop fuel (us ++ ⟨i, j, .mark ']'⟩ :: rest) = .ok (items, rest) := by
  induction items generalizing us fuel with
  | nil =>
      obtain ⟨fuel, rfl⟩ := Nat.exists_eq_add_one_of_ne_zero (show fuel ≠ 0 by omega)
      cases h
      simp [parseItems]
  | cons e items ihm =>
      obtain ⟨fuel, rfl⟩ := Nat.exists_eq_add_one_of_ne_zero (show fuel ≠ 0 by omega)
      rw [areLayered] at hl
      simp only [Bool.and_eq_true, decide_eq_true_eq] at hl
      obtain ⟨rfl, hw⟩ | ⟨ts, k, l, vs, rfl, hw, hs, -⟩ := h.cons_inv
      · have hparses := ih.expr hn hw hl.1.2
        have hfirst := hparses.opens.accept?_eq_none (l := .mark ']') rfl rfl
        have hitem := hparses.assignment fuel hl.1.1 (ends_cons_of_none rfl) (by omega)
        unfold parseItems
        simp [hfirst, hitem]
      · rw [List.length_append, List.length_cons] at hn hfuel
        have hparses := ih.expr (by omega) hw hl.1.2
        have hfirst := hparses.opens.accept?_eq_none (l := .mark ']') rfl rfl
        have hitem := hparses.assignment fuel hl.1.1 (ends_cons rfl (by decide)) (by omega)
        have hmore := ihm fuel (by omega) hs hl.2 (by omega)
        unfold parseItems
        simp [hfirst, hitem, hmore]

theorem Complete.props (ih : Complete stop n) (fuel : Nat) {props : List (PropertyKey × Expr)} (hn : us.length < n)
    (h : Separated true (WrittenProp Separate) props us (⟨i, j, .mark '\x7d'⟩ :: rest))
    (hl : areLayeredProps props) (hfuel : 16 * us.length + 9 ≤ fuel) :
    parseProps stop fuel (us ++ ⟨i, j, .mark '\x7d'⟩ :: rest) = .ok (props, rest) := by
  induction props generalizing us fuel with
  | nil =>
      obtain ⟨fuel, rfl⟩ := Nat.exists_eq_add_one_of_ne_zero (show fuel ≠ 0 by omega)
      cases h
      simp [parseProps]
  | cons prop props ihm =>
      obtain ⟨fuel, rfl⟩ := Nat.exists_eq_add_one_of_ne_zero (show fuel ≠ 0 by omega)
      rw [areLayeredProps.eq_def] at hl
      simp only [Bool.and_eq_true, decide_eq_true_eq] at hl
      obtain ⟨rfl, hw⟩ | ⟨ts, k, l, vs, rfl, hw, hs, -⟩ := h.cons_inv
      · cases hw with
        | prop hk hw =>
            rw [List.length_cons, List.length_cons] at hn hfuel
            have hvalue := (ih.expr (by omega) hw hl.1.2).assignment fuel hl.1.1 (ends_cons_of_none rfl)
              (by omega)
            unfold parseProps
            simp [accept?_of_isKey hk, parseKey_of_isKey hk, hvalue]
      · cases hw with
        | prop hk hw =>
            rw [List.length_append, List.length_cons, List.length_cons, List.length_cons] at hn hfuel
            have hvalue := (ih.expr (by omega) hw hl.1.2).assignment fuel hl.1.1
              (ends_cons rfl (by decide)) (by omega)
            have hmore := ihm fuel (by omega) hs hl.2 (by omega)
            unfold parseProps
            simp [accept?_of_isKey hk, parseKey_of_isKey hk, hvalue, hmore]

theorem Complete.moreArguments (ih : Complete stop n) (fuel : Nat) {args : List Expr} (hne : args ≠ [])
    (hn : us.length < n) (h : Separated false (Written Separate) args us (⟨i, j, .mark ')'⟩ :: rest))
    (hl : areLayered args) (hfuel : 16 * us.length + 9 ≤ fuel) :
    parseMoreArguments stop fuel (us ++ ⟨i, j, .mark ')'⟩ :: rest) = .ok (args, rest) := by
  induction args generalizing us fuel with
  | nil => exact absurd rfl hne
  | cons e args ihm =>
      obtain ⟨fuel, rfl⟩ := Nat.exists_eq_add_one_of_ne_zero (show fuel ≠ 0 by omega)
      rw [areLayered] at hl
      simp only [Bool.and_eq_true, decide_eq_true_eq] at hl
      obtain ⟨rfl, hw⟩ | ⟨ts, k, l, vs, rfl, hw, hs, hmore⟩ := h.cons_inv
      · have hitem := (ih.expr hn hw hl.1.2).assignment fuel hl.1.1 (ends_cons_of_none rfl) (by omega)
        unfold parseMoreArguments
        simp [hitem]
      · rw [List.length_append, List.length_cons] at hn hfuel
        have hitem := (ih.expr (by omega) hw hl.1.2).assignment fuel hl.1.1 (ends_cons rfl (by decide))
          (by omega)
        have hrest := ihm fuel (hmore.resolve_left Bool.false_ne_true) (by omega) hs hl.2
          (by omega)
        unfold parseMoreArguments
        simp [hitem, hrest]

theorem Complete.arguments (ih : Complete stop n) (fuel : Nat) {args : List Expr} (hn : us.length < n)
    (h : Separated false (Written Separate) args us (⟨i, j, .mark ')'⟩ :: rest)) (hl : areLayered args)
    (hfuel : 16 * us.length + 10 ≤ fuel) :
    parseArguments stop fuel (us ++ ⟨i, j, .mark ')'⟩ :: rest) = .ok (args, rest) := by
  obtain ⟨fuel, rfl⟩ := Nat.exists_eq_add_one_of_ne_zero (show fuel ≠ 0 by omega)
  cases args with
  | nil =>
      cases h
      simp [parseArguments]
  | cons e args =>
      have hmore := ih.moreArguments fuel (List.cons_ne_nil _ _) hn h hl (by omega)
      obtain ⟨ts, vs, rest', rfl, hw⟩ := h.first
      rw [areLayered] at hl
      simp only [Bool.and_eq_true] at hl
      have hfirst := (hw.opens hl.1.2).accept?_eq_none (l := .mark ')') rfl rfl
      rw [List.append_assoc] at hmore ⊢
      unfold parseArguments
      simp [hfirst, hmore]

theorem Complete.commas (ih : Complete stop n) (fuel : Nat) {items : List Expr} (hne : items ≠ [])
    (hn : us.length < n) (h : Separated false (Written Separate) items us rest) (hl : areLayered items)
    (hends : Ends 0 rest) (hfuel : 16 * us.length + 10 ≤ fuel) :
    parseCommas stop fuel (⟨i, j, .mark ','⟩ :: (us ++ rest)) = .ok (items, rest) := by
  induction items generalizing us fuel i j with
  | nil => exact absurd rfl hne
  | cons e items ihm =>
      obtain ⟨fuel, rfl⟩ := Nat.exists_eq_add_one_of_ne_zero (show fuel ≠ 0 by omega)
      rw [areLayered] at hl
      simp only [Bool.and_eq_true, decide_eq_true_eq] at hl
      obtain ⟨rfl, hw⟩ | ⟨ts, k, l, vs, rfl, hw, hs, hmore⟩ := h.cons_inv
      · have hitem := (ih.expr hn hw hl.1.2).assignment fuel hl.1.1 (hends.mono (Nat.zero_le _))
          (by omega)
        obtain ⟨fuel, rfl⟩ := Nat.exists_eq_add_one_of_ne_zero (show fuel ≠ 0 by omega)
        have hnone : accept? (.mark ',') rest = none :=
          accept?_of_nextIs (hends.nextIs_eq_false rfl (Nat.le_refl _))
        have hlast : parseCommas stop (fuel + 1) rest = .ok ([], rest) := by
          unfold parseCommas
          simp [hnone]
        unfold parseCommas
        simp [hitem, hlast]
      · rw [List.length_append, List.length_cons] at hn hfuel
        have hitem := (ih.expr (by omega) hw hl.1.2).assignment fuel hl.1.1 (ends_cons rfl (by decide))
          (by omega)
        have hrest := ihm fuel (i := k) (j := l) (hmore.resolve_left Bool.false_ne_true) (by omega)
          hs hl.2 (by omega)
        unfold parseCommas
        simp [hitem, hrest]

theorem Complete.init (ih : Complete stop n) (fuel : Nat) {decl : Decl} (hn : us.length < n)
    (h : WrittenDecl Separate decl us rest) (hl : areLayeredDecls [decl])
    (hends : Ends assignmentLevel rest) (hfuel : 16 * us.length ≤ fuel) :
    ∃ j ts, us = ⟨decl.start, j, .name decl.name⟩ :: ts ∧
      parseInit stop fuel (ts ++ rest) = .ok (decl.init, rest) := by
  cases h with
  | bare =>
      obtain ⟨fuel, rfl⟩ := Nat.exists_eq_add_one_of_ne_zero (show fuel ≠ 0 by simp at hfuel; omega)
      have hnone : accept? (.operator "=") rest = none :=
        accept?_of_nextIs (hends.nextIs_eq_false rfl (Nat.le_refl _))
      refine ⟨_, [], rfl, ?_⟩
      unfold parseInit
      simp [hnone]
  | init hw =>
      simp only [areLayeredDecls, Bool.and_eq_true, decide_eq_true_eq] at hl
      rw [List.length_cons, List.length_cons] at hn hfuel
      obtain ⟨fuel, rfl⟩ := Nat.exists_eq_add_one_of_ne_zero (show fuel ≠ 0 by omega)
      have hvalue := (ih.expr (by omega) hw hl.1.2).assignment fuel hl.1.1 hends (by omega)
      refine ⟨_, _, rfl, ?_⟩
      unfold parseInit
      simp [hvalue]

theorem Complete.decls (ih : Complete stop n) (fuel : Nat) {decls : List Decl} (hne : decls ≠ [])
    (hn : us.length < n) (h : Separated false (WrittenDecl Separate) decls us rest)
    (hl : areLayeredDecls decls) (hends : Ends 0 rest) (hfuel : 16 * us.length + 9 ≤ fuel) :
    parseDecls stop fuel (us ++ rest) = .ok (decls, rest) := by
  induction decls generalizing us fuel with
  | nil => exact absurd rfl hne
  | cons decl decls ihm =>
      obtain ⟨fuel, rfl⟩ := Nat.exists_eq_add_one_of_ne_zero (show fuel ≠ 0 by omega)
      rw [areLayeredDecls_cons, Bool.and_eq_true] at hl
      obtain ⟨rfl, hw⟩ | ⟨ts, k, l, vs, rfl, hw, hs, hmore⟩ := h.cons_inv
      · obtain ⟨j, ts, rfl, hinit⟩ := ih.init fuel hn hw hl.1 (hends.mono (Nat.zero_le _)) (by omega)
        have hnone : accept? (.mark ',') rest = none :=
          accept?_of_nextIs (hends.nextIs_eq_false rfl (Nat.le_refl _))
        unfold parseDecls
        simp [startOf, expectName, hinit, hnone]
      · rw [List.length_append, List.length_cons] at hn hfuel
        obtain ⟨j, ts, rfl, hinit⟩ := ih.init fuel (by omega) hw hl.1 (ends_cons rfl (by decide)) (by omega)
        have hrest := ihm fuel (hmore.resolve_left Bool.false_ne_true) (by omega) hs hl.2 (by omega)
        unfold parseDecls
        simp [startOf, expectName, hinit, hrest]

/-! Functions and blocks. -/

theorem functionName_append {name : Option String} (h : IsFunctionName name us) (ts : List Token) :
    functionName (us ++ ⟨i, j, .mark '('⟩ :: ts) = (name, ⟨i, j, .mark '('⟩ :: ts) := by
  cases name with
  | none =>
      obtain rfl : us = [] := h
      rfl
  | some s =>
      obtain ⟨k, l, rfl⟩ := h
      rfl

theorem parameterNames_append (fuel : Nat) {params : List String} (hne : params ≠ [])
    (h : Separated false IsParameter params us []) (hfuel : us.length < fuel) :
    parameterNames stop fuel (us ++ ⟨i, j, .mark ')'⟩ :: rest) = .ok (params, rest) := by
  induction params generalizing us fuel with
  | nil => exact absurd rfl hne
  | cons s params ihm =>
      obtain ⟨fuel, rfl⟩ := Nat.exists_eq_add_one_of_ne_zero (show fuel ≠ 0 by omega)
      obtain ⟨rfl, k, l, rfl⟩ | ⟨ts, k, l, vs, rfl, ⟨m, o, rfl⟩, hs, hmore⟩ := h.cons_inv
      · simp [parameterNames, expectName]
      · simp only [List.length_append, List.length_cons] at hfuel
        have hrest := ihm fuel (hmore.resolve_left Bool.false_ne_true) hs (by omega)
        simp [parameterNames, expectName, hrest]

theorem parameters_append {params : List String} (h : Separated false IsParameter params us []) :
    parameters stop (us ++ ⟨i, j, .mark ')'⟩ :: rest) = .ok (params, rest) := by
  cases params with
  | nil =>
      cases h
      simp [parameters]
  | cons s params =>
      have hnames : parameterNames stop _ (us ++ ⟨i, j, .mark ')'⟩ :: rest) = _ :=
        parameterNames_append ((us ++ ⟨i, j, .mark ')'⟩ :: rest).length + 1) (List.cons_ne_nil _ _) h
          (by simp only [List.length_append]; omega)
      obtain ⟨ts, vs, rest', rfl, k, l, rfl⟩ := h.first
      unfold parameters
      rw [hnames]
      rfl

theorem WrittenStmt.first {S : List Token → Prop} {s : Stmt} (h : WrittenStmt S s us rest)
    (hl : s.isLayered) : ∃ t ts, us = t :: ts ∧ t.lexeme ≠ .mark '\x7d' := by
  cases h with
  | @expr _ _ _ us _ _ hw =>
      have hfirst := (hw.opens hl).nextIs_eq_false (l := .mark '\x7d') rfl rfl us
      obtain ⟨t, ts, rfl, -⟩ := hw.opens hl
      exact ⟨t, ts ++ us, rfl, fun heq => of_decide_eq_false hfirst (congrArg some heq)⟩
  | var | retBare | ret | block | loop | empty => exact ⟨_, _, rfl, by simp⟩
  | function hw =>
      cases hw
      exact ⟨_, _, rfl, by simp⟩

theorem parseBlock_cons {t : Token} (ht : t.lexeme ≠ .mark '\x7d') (ts : List Token) :
    parseBlock stop (fuel + 1) (t :: ts) = (parseStatement stop fuel (t :: ts) >>= fun (s, ts) =>
      parseBlock stop fuel ts >>= fun (body, ts) => .ok (s :: body, ts)) := by
  conv => lhs; unfold parseBlock
  split
  · next heq => cases heq
  · next heq =>
      cases heq
      exact absurd rfl ht
  · rfl

theorem Complete.block (ih : Complete stop n) (fuel : Nat) {body : List Stmt} (hn : us.length < n)
    (h : WrittenAll Separate body us (⟨i, j, .mark '\x7d'⟩ :: rest)) (hl : Stmt.areLayered body)
    (hfuel : 16 * us.length + 12 ≤ fuel) :
    parseBlock stop fuel (us ++ ⟨i, j, .mark '\x7d'⟩ :: rest) = .ok (body, rest) := by
  induction body generalizing us fuel with
  | nil =>
      obtain ⟨fuel, rfl⟩ := Nat.exists_eq_add_one_of_ne_zero (show fuel ≠ 0 by omega)
      cases h
      simp [parseBlock]
  | cons s body ihm =>
      obtain ⟨fuel, rfl⟩ := Nat.exists_eq_add_one_of_ne_zero (show fuel ≠ 0 by omega)
      rw [Stmt.areLayered, Bool.and_eq_true] at hl
      cases h with
      | cons hs hb =>
          obtain ⟨t, ts, rfl, ht⟩ := hs.first hl.1
          simp only [List.length_append, List.length_cons] at hn hfuel
          have hstmt := ih.stmt fuel (by simp only [List.length_cons]; omega) hs hl.1
            (by simp only [List.length_cons]; omega)
          have hrest := ihm fuel (by omega) hb hl.2 (by omega)
          rw [List.cons_append] at hstmt
          rw [List.append_assoc, List.cons_append, parseBlock_cons ht, hstmt]
          simp [hrest]

theorem Complete.function (ih : Complete stop n) (fuel : Nat) {f : Function} (hn : us.length ≤ n)
    (h : WrittenFunction Separate f us rest) (hl : Stmt.areLayered f.body)
    (hfuel : 16 * us.length ≤ fuel) :
    ∃ j ts, us = ⟨f.start, j, .keyword "function"⟩ :: ts ∧
      parseFunction stop fuel f.start (ts ++ rest) = .ok (f, rest) := by
  cases h with
  | function hname hparams hbody =>
      simp only [List.length_append, List.length_cons] at hn hfuel
      obtain ⟨fuel, rfl⟩ := Nat.exists_eq_add_one_of_ne_zero (show fuel ≠ 0 by omega)
      have hblock := ih.block fuel (by omega) hbody hl (by omega)
      refine ⟨_, _, rfl, ?_⟩
      rw [parseFunction_succ]
      simp [functionName_append hname, parameters_append hparams, hblock]

/-! Accesses, calls and what they start from. -/

theorem parseCallMember_succ (stop fuel : Nat) (ts : List Token) :
    parseCallMember stop (fuel + 1) ts = parseChain stop fuel true ts := by
  unfold parseCallMember
  rfl

theorem parseNew_succ (stop fuel : Nat) (t : Token) (ts : List Token) :
    parseNew stop (fuel + 1) (t :: ts) = (parseChain stop fuel false ts >>= fun (target, ts) =>
      match accept? (.mark '(') ts with
      | none => .ok (.new t.start target [], ts)
      | some ts => parseArguments stop fuel ts >>= fun (args, ts) => .ok (.new t.start target args, ts)) := by
  unfold parseNew parseChain
  rw [bind_assoc]
  rfl

theorem parseTails_of_not_tail {calls : Bool} (h : !(next rest).any isTail) :
    parseTails stop (fuel + 1) calls e rest = .ok (e, rest) := by
  unfold parseTails
  split
  · cases h
  · cases h
  · cases h
  · rfl

theorem parseHead_of_primary (hnew : nextIs (.keyword "new") ts = false)
    (h : parsePrimary stop fuel ts = .ok (e, rest)) : parseHead stop (fuel + 1) ts = .ok (e, rest) := by
  unfold parseHead
  simp [hnew, h]

theorem parseHead_new (ts : List Token) :
    parseHead stop (fuel + 1) (⟨i, j, .keyword "new"⟩ :: ts) =
      parseNew stop fuel (⟨i, j, .keyword "new"⟩ :: ts) := by
  unfold parseHead
  rfl

theorem level_of_isCallFree (h : e.isCallFree) : tightest ≤ e.level := by
  cases e with
  | member | index => exact Nat.le_refl _
  | call => cases h
  | _ => exact Nat.le_of_eq (of_decide_eq_true h).symm

def isHead : Expr → Bool
  | .member _ _ _ | .index _ _ _ | .call _ _ _ => false
  | e => e.level = tightest

theorem Expr.level_le (e : Expr) : e.level ≤ tightest := by
  cases e with
  | binary => exact Nat.le_of_lt (Nat.lt_trans (level_binary_lt _ _ _ _) (by decide))
  | unary i op =>
      rw [Expr.level]
      split <;> decide
  | cond | comma | isIn | instanceOf | typeOf =>
      rw [Expr.level]
      decide
  | _ => exact Nat.le_refl _

theorem access_of_not_isHead (hlevel : tightest ≤ e.level) (h : ¬isHead e) :
    (∃ i target s, e = .member i target s) ∨ (∃ i target key, e = .index i target key) ∨
      ∃ i target args, e = .call i target args := by
  cases e with
  | member i target s => exact .inl ⟨i, target, s, rfl⟩
  | index i target key => exact .inr (.inl ⟨i, target, key, rfl⟩)
  | call i target args => exact .inr (.inr ⟨i, target, args, rfl⟩)
  | _ => exact absurd (decide_eq_true (Nat.le_antisymm (Expr.level_le _) hlevel)) h

theorem Complete.head (ih : Complete stop n) (fuel : Nat) (hn : us.length ≤ n)
    (h : Written Separate e us rest) (hl : e.isLayered) (hhead : isHead e)
    (hfuel : 16 * us.length + 2 ≤ fuel) : parseHead stop fuel (us ++ rest) = .ok (e, rest) := by
  obtain ⟨fuel, rfl⟩ : ∃ f, fuel = f + 1 + 1 := ⟨fuel - 2, by omega⟩
  cases h with
  | member | index | call => cases hhead
  | before hop | behind hop =>
      simp only [isHead, Expr.level, hop, decide_eq_true_eq] at hhead
      cases hhead
  | typeOf | isIn | instanceOf | cond | comma => cases hhead
  | binary =>
      exact absurd (of_decide_eq_true hhead) (Nat.ne_of_lt (Nat.lt_trans (level_binary_lt _ _ _ _) (by decide)))
  | name | number | text | yes | no | null | this =>
      refine parseHead_of_primary rfl ?_
      simp [parsePrimary]
  | parens hw =>
      simp only [List.length_append, List.length_cons] at hn hfuel
      have hinner := (ih.expr (by omega) hw hl).expression fuel (ends_cons_of_none rfl) (by omega)
      refine parseHead_of_primary rfl ?_
      unfold parsePrimary
      simp [hinner]
  | new ht ha =>
      simp only [Expr.isLayered, Bool.and_eq_true] at hl
      simp only [List.length_append, List.length_cons] at hn hfuel
      obtain ⟨f, hf, hchain⟩ := (ih.expr (by omega) ht hl.1.2).chain fuel false
        (level_of_isCallFree hl.1.1) (fun _ => hl.1.1) (by omega)
      obtain ⟨f, rfl⟩ := Nat.exists_eq_add_one_of_ne_zero (show f ≠ 0 by omega)
      have hargs := ih.arguments fuel (by omega) ha hl.2 (by omega)
      simp only [List.cons_append, List.append_assoc, List.nil_append] at hchain ⊢
      rw [parseHead_new, parseNew_succ, hchain]
      unfold parseTails
      simp [hargs]
  | newBare ht hr =>
      simp only [Expr.isLayered, Bool.and_eq_true] at hl
      rw [List.length_cons] at hn hfuel
      obtain ⟨f, hf, hchain⟩ := (ih.expr (by omega) ht hl.1.2).chain fuel false
        (level_of_isCallFree hl.1.1) (fun _ => hl.1.1) (by omega)
      obtain ⟨f, rfl⟩ := Nat.exists_eq_add_one_of_ne_zero (show f ≠ 0 by omega)
      have hparen : accept? (.mark '(') rest = none := by
        refine accept?_of_nextIs (decide_eq_false fun heq => ?_)
        rw [heq] at hr
        cases hr
      rw [List.cons_append, parseHead_new, parseNew_succ, hchain, parseTails_of_not_tail hr]
      simp [hparen]
  | object hs =>
      simp only [List.length_append, List.length_cons] at hn hfuel
      have hprops := ih.props fuel (by omega) hs hl (by omega)
      refine parseHead_of_primary rfl ?_
      unfold parsePrimary
      simp [hprops]
  | array hs =>
      simp only [List.length_append, List.length_cons] at hn hfuel
      have hitems := ih.items fuel (by omega) hs hl (by omega)
      refine parseHead_of_primary rfl ?_
      unfold parsePrimary
      simp [hitems]
  | function hf hi =>
      subst hi
      obtain ⟨j, ts, rfl, hfunction⟩ := ih.function fuel hn hf hl (by omega)
      refine parseHead_of_primary rfl ?_
      unfold parsePrimary
      simp [hfunction]

/-- Behind what they start from, accesses and calls are joined to the left one by one. -/
theorem Complete.chain (ih : Complete stop n) (fuel : Nat) (calls : Bool) (hn : us.length ≤ n)
    (h : Written Separate e us rest) (hl : e.isLayered) (hlevel : tightest ≤ e.level)
    (hfree : calls = false → e.isCallFree) (hfuel : 16 * us.length + 2 ≤ fuel) :
    ∃ fuel', fuel ≤ fuel' + us.length ∧
      parseChain stop fuel calls (us ++ rest) = parseTails stop fuel' calls e rest := by
  by_cases hhead : isHead e
  · refine ⟨fuel, Nat.le_add_right _ _, ?_⟩
    unfold parseChain
    simp [ih.head fuel hn h hl hhead hfuel]
  · obtain ⟨i, target, s, rfl⟩ | ⟨i, target, key, rfl⟩ | ⟨i, target, args, rfl⟩ :=
      access_of_not_isHead hlevel hhead
    · cases h with
      | member hi ht hname =>
          obtain rfl := hi.unique ht.startsAt
          simp only [Expr.isLayered, Bool.and_eq_true, decide_eq_true_eq] at hl
          simp only [List.length_append, List.length_cons, List.length_nil] at hn hfuel ⊢
          obtain ⟨f, hf, hchain⟩ := (ih.expr (by omega) ht hl.2).chain fuel calls hl.1 hfree (by omega)
          obtain ⟨f, rfl⟩ := Nat.exists_eq_add_one_of_ne_zero (show f ≠ 0 by omega)
          refine ⟨f, by omega, ?_⟩
          simp only [List.cons_append, List.append_assoc, List.nil_append]
          rw [hchain]
          conv => lhs; unfold parseTails
          simp [expectProperty_of_isNamed hname]
    · cases h with
      | index hi ht hk =>
          obtain rfl := hi.unique ht.startsAt
          simp only [Expr.isLayered, Bool.and_eq_true, decide_eq_true_eq] at hl
          simp only [List.length_append, List.length_cons, List.length_nil] at hn hfuel ⊢
          obtain ⟨f, hf, hchain⟩ := (ih.expr (by omega) ht hl.1.2).chain fuel calls hl.1.1 hfree (by omega)
          obtain ⟨f, rfl⟩ := Nat.exists_eq_add_one_of_ne_zero (show f ≠ 0 by omega)
          have hkey := (ih.expr (by omega) hk hl.2).expression f (ends_cons_of_none rfl) (by omega)
          refine ⟨f, by omega, ?_⟩
          simp only [List.cons_append, List.append_assoc, List.nil_append] at hchain ⊢
          rw [hchain]
          conv => lhs; unfold parseTails
          simp [hkey]
    · cases h with
      | call hi ht ha =>
          obtain rfl := hi.unique ht.startsAt
          simp only [Expr.isLayered, Bool.and_eq_true, decide_eq_true_eq] at hl
          simp only [List.length_append, List.length_cons, List.length_nil] at hn hfuel ⊢
          have hcalls : calls = true := by
            cases calls with
            | true => rfl
            | false => cases hfree rfl
          subst hcalls
          obtain ⟨f, hf, hchain⟩ := (ih.expr (by omega) ht hl.1.2).chain fuel true hl.1.1
            (fun hc => by cases hc) (by omega)
          obtain ⟨f, rfl⟩ := Nat.exists_eq_add_one_of_ne_zero (show f ≠ 0 by omega)
          have hargs := ih.arguments f (by omega) ha hl.2 (by omega)
          refine ⟨f, by omega, ?_⟩
          simp only [List.cons_append, List.append_assoc, List.nil_append] at hchain ⊢
          rw [hchain]
          conv => lhs; unfold parseTails
          simp [hargs]

theorem Complete.callMember (ih : Complete stop n) (fuel : Nat) (hn : us.length ≤ n)
    (h : Written Separate e us rest) (hl : e.isLayered) (hlevel : tightest ≤ e.level)
    (hends : Ends tightest rest) (hfuel : 16 * us.length + 3 ≤ fuel) :
    parseCallMember stop fuel (us ++ rest) = .ok (e, rest) := by
  obtain ⟨fuel, rfl⟩ := Nat.exists_eq_add_one_of_ne_zero (show fuel ≠ 0 by omega)
  obtain ⟨f, hf, hchain⟩ := ih.chain fuel true hn h hl hlevel (fun hc => by cases hc) (by omega)
  obtain ⟨f, rfl⟩ := Nat.exists_eq_add_one_of_ne_zero (show f ≠ 0 by omega)
  rw [parseCallMember_succ, hchain, parseTails_of_not_tail hends.not_any_isTail]

/-! Operators. -/

theorem precedence_pos {op : BinaryOp} (h : op.isAssignment = false) : 1 ≤ precedence op := by
  cases op with
  | assign | update => cases h
  | and | or => decide
  | arith op => cases op <;> decide
  | compare op => cases op <;> decide

theorem level_binary {op : BinaryOp} (h : op.isAssignment = false) (left right : Expr) :
    (Expr.binary i op left right).level = infixLevel (precedence op) := by
  simp [Expr.level, h]

theorem eq_unary_of_level (hlevel : prefixLevel ≤ e.level) (hlt : e.level < tightest) :
    (∃ i op operand, e = .unary i op operand) ∨ ∃ i operand, e = .typeOf i operand := by
  cases e with
  | unary i op operand => exact .inl ⟨i, op, operand, rfl⟩
  | typeOf i operand => exact .inr ⟨i, operand, rfl⟩
  | binary => exact absurd hlevel (Nat.not_le.2 (level_binary_lt _ _ _ _))
  | _ => simp [Expr.level, tightest, prefixLevel, infixLevel, wordPrecedence, conditionalLevel] at hlevel hlt

theorem eq_of_level_lt (h : e.level < infixLevel 1) :
    (∃ i test yes no, e = .cond i test yes no) ∨
    (∃ i op left right, e = .binary i op left right ∧ op.isAssignment) ∨ ∃ i items, e = .comma i items := by
  cases e with
  | cond i test yes no => exact .inl ⟨i, test, yes, no, rfl⟩
  | comma i items => exact .inr (.inr ⟨i, items, rfl⟩)
  | binary i op left right =>
      cases hop : op.isAssignment with
      | true => exact .inr (.inl ⟨i, op, left, right, rfl, hop⟩)
      | false =>
          rw [level_binary hop] at h
          exact absurd (precedence_pos hop) (Nat.not_le.2 (Nat.lt_of_add_lt_add_right h))
  | unary i op =>
      rw [Expr.level] at h
      split at h <;> exact absurd h (by decide)
  | _ => simp [Expr.level, tightest, prefixLevel, infixLevel, wordPrecedence] at h

theorem Written.join_inv {S : List Token → Prop} (h : Written S e us rest)
    (hlow : infixLevel 1 ≤ e.level) (hhigh : e.level < prefixLevel) :
    ∃ op left right p l i j ts vs, e = Infix.join left right op ∧ infix? l = some (p, op) ∧
      us = ts ++ ⟨i, j, l⟩ :: vs ∧ Written S left ts (⟨i, j, l⟩ :: (vs ++ rest)) ∧
      Written S right vs rest := by
  cases h with
  | @binary i j k op left right ts vs _ hi hl hr =>
      obtain rfl := hi.unique hl.startsAt
      cases hop : op.isAssignment with
      | true => simp [Expr.level, hop, assignmentLevel, infixLevel] at hlow
      | false => exact ⟨.binary op, left, right, _, _, j, k, ts, vs, rfl, infix?_symbol hop, rfl, hl, hr⟩
  | isIn hi hl hr =>
      obtain rfl := hi.unique hl.startsAt
      exact ⟨.isIn, _, _, _, _, _, _, _, _, rfl, rfl, rfl, hl, hr⟩
  | instanceOf hi hl hr =>
      obtain rfl := hi.unique hl.startsAt
      exact ⟨.instanceOf, _, _, _, _, _, _, _, _, rfl, rfl, rfl, hl, hr⟩
  | before hop | behind hop => simp [Expr.level, hop, postfixLevel, prefixLevel] at hhigh
  | _ => simp [Expr.level, conditionalLevel, infixLevel, tightest, prefixLevel] at hlow hhigh

theorem parsePostfix_succ (h : parseCallMember stop fuel ts = .ok (e, rest))
    (hends : Ends postfixLevel rest) : parsePostfix stop (fuel + 1) ts = .ok (e, rest) := by
  have hplus := accept?_of_nextIs (hends.nextIs_eq_false (l := .operator "++") rfl (Nat.le_refl _))
  have hminus := accept?_of_nextIs (hends.nextIs_eq_false (l := .operator "--") rfl (Nat.le_refl _))
  unfold parsePostfix
  simp [h, hplus, hminus]

theorem Complete.behind (ih : Complete stop n) (fuel : Nat) (hn : us.length ≤ n)
    (h : Written Separate e us rest) (hl : e.isLayered) (hlevel : postfixLevel ≤ e.level)
    (hends : Ends postfixLevel rest) (hfuel : 16 * us.length + 4 ≤ fuel) :
    parsePostfix stop fuel (us ++ rest) = .ok (e, rest) := by
  obtain ⟨fuel, rfl⟩ := Nat.exists_eq_add_one_of_ne_zero (show fuel ≠ 0 by omega)
  rcases Nat.lt_or_ge e.level tightest with hlt | hge
  · obtain ⟨i, op, operand, rfl⟩ | ⟨i, operand, rfl⟩ :=
      eq_unary_of_level (Nat.le_of_succ_le hlevel) hlt
    · cases h with
      | before hop => simp [Expr.level, hop, postfixLevel, prefixLevel] at hlevel
      | behind hop hi hw =>
          obtain rfl := hi.unique hw.startsAt
          simp only [Expr.isLayered, hop, if_true, Bool.and_eq_true, decide_eq_true_eq] at hl
          simp only [List.length_append, List.length_cons, List.length_nil] at hn hfuel
          cases op with
          | postIncrement | postDecrement =>
              have hoperand := (ih.expr (by omega) hw hl.2).callMember fuel hl.1
                (ends_cons rfl (Nat.lt_succ_self _)) (by omega)
              rw [List.append_assoc]
              simp only [unarySymbol] at hoperand ⊢
              unfold parsePostfix
              simp [hoperand]
          | _ => cases hop
    · simp [Expr.level, postfixLevel, prefixLevel] at hlevel
  · exact parsePostfix_succ (ih.callMember fuel hn h hl hge (hends.mono (Nat.le_succ _)) (by omega)) hends

theorem parseUnary_of_opensPrimary {t : Token} (ht : opensPrimary t.lexeme) (ts : List Token) :
    parseUnary stop (fuel + 1) (t :: ts) = parsePostfix stop fuel (t :: ts) := by
  unfold parseUnary
  split
  · next heq => cases heq
  · next heq =>
      cases heq
      cases ht
  · next heq =>
      cases heq
      cases ht
  · next heq =>
      cases heq
      cases ht
  · next heq =>
      cases heq
      cases ht
  · rfl

theorem Complete.unary (ih : Complete stop n) (fuel : Nat) (hn : us.length ≤ n)
    (h : Written Separate e us rest) (hl : e.isLayered) (hlevel : prefixLevel ≤ e.level)
    (hends : Ends prefixLevel rest) (hfuel : 16 * us.length + 5 ≤ fuel) :
    parseUnary stop fuel (us ++ rest) = .ok (e, rest) := by
  obtain ⟨fuel, rfl⟩ := Nat.exists_eq_add_one_of_ne_zero (show fuel ≠ 0 by omega)
  rcases Nat.lt_or_ge e.level postfixLevel with hlt | hge
  · obtain ⟨i, op, operand, rfl⟩ | ⟨i, operand, rfl⟩ := eq_unary_of_level hlevel (Nat.lt_succ_of_lt hlt)
    · cases h with
      | before hop hw =>
          simp only [Expr.isLayered, hop, Bool.and_eq_true, decide_eq_true_eq] at hl
          rw [List.length_cons] at hn hfuel
          have hoperand := (ih.expr (by omega) hw hl.2).unary fuel hl.1 hends (by omega)
          unfold parseUnary
          simp [prefixTable_symbol hop, hoperand]
      | behind hop => simp [Expr.level, hop] at hlt
    · cases h with
      | typeOf hw =>
          simp only [Expr.isLayered, Bool.and_eq_true, decide_eq_true_eq] at hl
          rw [List.length_cons] at hn hfuel
          have hoperand := (ih.expr (by omega) hw hl.2).unary fuel hl.1 hends (by omega)
          unfold parseUnary
          simp [hoperand]
  · have hbehind := ih.behind fuel hn h hl hge (hends.mono (Nat.le_succ _)) (by omega)
    obtain ⟨t, vs, rfl, ht | ht⟩ := h.opens hl
    · exact (parseUnary_of_opensPrimary ht _).trans hbehind
    · exact absurd ht.2 (Nat.not_lt.2 hge)

theorem parseInfixRest_of_endsInfix {least : Nat} (h : EndsInfix least rest) :
    parseInfixRest stop (fuel + 1) least e rest = .ok (e, rest) := by
  rw [parseInfixRest_succ]
  split
  · rfl
  · next p op hop => rw [if_pos (h p op hop)]

theorem parseInfix_of_rest {least : Nat} (h : ∃ fuel', fuel ≤ fuel' + us.length ∧
      parseInfix stop fuel least (us ++ rest) = parseInfixRest stop fuel' least e rest)
    (hends : EndsInfix least rest) (hfuel : us.length < fuel) :
    parseInfix stop fuel least (us ++ rest) = .ok (e, rest) := by
  obtain ⟨f, hf, h⟩ := h
  obtain ⟨f, rfl⟩ := Nat.exists_eq_add_one_of_ne_zero (show f ≠ 0 by omega)
  rw [h, parseInfixRest_of_endsInfix hends]

/-- Infix operators of at least some precedence are joined to the left one by one. The operand on the
right of the last one ends where a looser operator follows, or one of the same precedence. -/
theorem Complete.operators (ih : Complete stop n) (fuel : Nat) {least : Nat} (hn : us.length ≤ n)
    (h : Written Separate e us rest) (hl : e.isLayered) (hleast : 1 ≤ least)
    (hlevel : infixLevel least ≤ e.level) (hunary : Ends prefixLevel rest)
    (hends : Ends (e.level + 1) rest) (hfuel : 16 * us.length + 6 ≤ fuel) :
    ∃ fuel', fuel ≤ fuel' + us.length ∧
      parseInfix stop fuel least (us ++ rest) = parseInfixRest stop fuel' least e rest := by
  rcases Nat.lt_or_ge e.level prefixLevel with hlt | hge
  · have hlow : infixLevel 1 ≤ e.level := Nat.le_trans (Nat.add_le_add_right hleast 2) hlevel
    obtain ⟨op, left, right, p, l, i, j, ts, vs, rfl, hop, rfl, hwl, hwr⟩ := h.join_inv hlow hlt
    rw [isLayered_join hop] at hl
    rw [level_join hop] at hlevel hends
    simp only [Bool.and_eq_true, decide_eq_true_eq] at hl
    simp only [List.length_append, List.length_cons] at hn hfuel ⊢
    have hp : infixLevel p < prefixLevel := Nat.add_lt_add_right (Nat.lt_succ_of_le (infix?_le hop)) 2
    obtain ⟨f, hf, hleft⟩ := (ih.expr (by omega) hwl hl.1.2).operators fuel hleast
      (Nat.le_trans hlevel hl.1.1.1) (ends_cons (joins_operator hop) hp)
      (ends_cons (joins_operator hop) (Nat.lt_succ_of_le hl.1.1.1)) (by omega)
    obtain ⟨f, rfl⟩ := Nat.exists_eq_add_one_of_ne_zero (show f ≠ 0 by omega)
    have hright := parseInfix_of_rest ((ih.expr (by omega) hwr hl.2).operators f (Nat.le_add_left 1 p)
      hl.1.1.2 hunary (hends.mono (Nat.le_succ_of_le hl.1.1.2)) (by omega)) hends.endsInfix (by omega)
    refine ⟨f, by omega, ?_⟩
    rw [List.append_assoc, List.cons_append, hleft, parseInfixRest_succ]
    have hnext : (next (⟨i, j, l⟩ :: (vs ++ rest))).bind infix? = some (p, op) := hop
    have hlow : ¬p < least := Nat.not_lt.2 (Nat.le_of_add_le_add_right hlevel)
    simp [hnext, hlow, hright]
  · obtain ⟨t, vs, rfl, -⟩ := h.opens hl
    obtain ⟨fuel, rfl⟩ := Nat.exists_eq_add_one_of_ne_zero (show fuel ≠ 0 by omega)
    have hoperand := ih.unary fuel hn h hl hge hunary (by omega)
    refine ⟨fuel, by rw [List.length_cons]; omega, ?_⟩
    unfold parseInfix
    simp only [hoperand, ok_bind]

theorem Complete.conditional (ih : Complete stop n) (fuel : Nat) (hn : us.length ≤ n)
    (h : Written Separate e us rest) (hl : e.isLayered) (hlevel : conditionalLevel ≤ e.level)
    (hends : Ends conditionalLevel rest) (hlast : e.level = conditionalLevel → Ends assignmentLevel rest)
    (hfuel : 16 * us.length + 7 ≤ fuel) :
    parseConditional stop fuel (us ++ rest) = .ok (e, rest) := by
  obtain ⟨fuel, rfl⟩ := Nat.exists_eq_add_one_of_ne_zero (show fuel ≠ 0 by omega)
  rcases Nat.lt_or_ge e.level (infixLevel 1) with hlt | hge
  · obtain ⟨i, test, yes, no, rfl⟩ | ⟨i, op, left, right, rfl, hop⟩ | ⟨i, items, rfl⟩ := eq_of_level_lt hlt
    · cases h with
      | cond hi ht hy hw =>
          obtain rfl := hi.unique ht.startsAt
          simp only [Expr.isLayered, Bool.and_eq_true, decide_eq_true_eq] at hl
          obtain ⟨⟨⟨⟨⟨hlt, hly⟩, hln⟩, hlt'⟩, hly'⟩, hln'⟩ := hl
          simp only [List.length_append, List.length_cons] at hn hfuel
          simp only [List.cons_append, List.append_assoc] at ht hy ⊢
          have htest := parseInfix_of_rest ((ih.expr (by omega) ht hlt').operators fuel (Nat.le_refl 1) hlt
            (ends_cons rfl (by decide)) (ends_cons rfl (Nat.lt_succ_of_lt hlt)) (by omega))
            (Ends.endsInfix (ends_cons rfl (by decide))) (by omega)
          have hyes := (ih.expr (by omega) hy hly').assignment fuel hly (ends_cons_of_none rfl) (by omega)
          have hno := (ih.expr (by omega) hw hln').assignment fuel hln (hlast rfl) (by omega)
          unfold parseConditional
          simp [htest, hyes, hno]
    · simp [Expr.level, hop, assignmentLevel, conditionalLevel] at hlevel
    · simp [Expr.level, conditionalLevel] at hlevel
  · have htest := parseInfix_of_rest (ih.operators fuel hn h hl (Nat.le_refl 1) hge
      (hends.mono (by decide)) (hends.mono (Nat.le_succ_of_le hlevel)) (by omega))
      (hends.mono (Nat.le_succ conditionalLevel)).endsInfix (by omega)
    have hnone := accept?_of_nextIs (hends.nextIs_eq_false (l := .operator "?") rfl (Nat.le_refl _))
    unfold parseConditional
    simp [htest, hnone]

theorem level_of_isTarget (h : e.isTarget) : e.level = tightest := by
  cases e with
  | name | member | index => rfl
  | _ => cases h

theorem Complete.assignment (ih : Complete stop n) (fuel : Nat) (hn : us.length ≤ n)
    (h : Written Separate e us rest) (hl : e.isLayered) (hlevel : assignmentLevel ≤ e.level)
    (hends : Ends assignmentLevel rest) (hfuel : 16 * us.length + 8 ≤ fuel) :
    parseAssignment stop fuel (us ++ rest) = .ok (e, rest) := by
  obtain ⟨fuel, rfl⟩ := Nat.exists_eq_add_one_of_ne_zero (show fuel ≠ 0 by omega)
  rcases Nat.lt_or_ge e.level conditionalLevel with hlt | hge
  · obtain ⟨i, test, yes, no, rfl⟩ | ⟨i, op, left, right, rfl, hop⟩ | ⟨i, items, rfl⟩ :=
      eq_of_level_lt (Nat.lt_succ_of_lt hlt)
    · exact absurd hlt (Nat.lt_irrefl _)
    · cases h with
      | binary hi hw hr =>
          obtain rfl := hi.unique hw.startsAt
          simp only [Expr.isLayered, hop, if_true, Bool.and_eq_true, decide_eq_true_eq] at hl
          obtain ⟨⟨⟨htarget, hlr⟩, hl⟩, hlr'⟩ := hl
          simp only [List.length_append, List.length_cons] at hn hfuel
          rw [List.cons_append] at hw
          have htight := level_of_isTarget htarget
          have hleft := (ih.expr (by omega) hw hl).conditional fuel (by rw [htight]; decide)
            (ends_cons (joins_assignment hop) (by decide)) (by rw [htight]; intro hc; cases hc) (by omega)
          have hright := (ih.expr (by omega) hr hlr').assignment fuel hlr hends (by omega)
          rw [List.append_assoc]
          unfold parseAssignment
          simp [hleft, htarget, hright, next, assignment?_symbol hop]
    · cases hlevel
  · have hcond := ih.conditional fuel hn h hl hge (hends.mono (by decide)) (fun _ => hends) (by omega)
    unfold parseAssignment
    simp [hcond, hends.bind_assignment?]

theorem Complete.expression (ih : Complete stop n) (fuel : Nat) (hn : us.length ≤ n)
    (h : Written Separate e us rest) (hl : e.isLayered) (hends : Ends 0 rest)
    (hfuel : 16 * us.length + 9 ≤ fuel) : parseExpression stop fuel (us ++ rest) = .ok (e, rest) := by
  obtain ⟨fuel, rfl⟩ := Nat.exists_eq_add_one_of_ne_zero (show fuel ≠ 0 by omega)
  rcases Nat.lt_or_ge e.level assignmentLevel with hlt | hge
  · obtain ⟨i, test, yes, no, rfl⟩ | ⟨i, op, left, right, rfl, hop⟩ | ⟨i, items, rfl⟩ :=
      eq_of_level_lt (Nat.lt_of_lt_of_le hlt (by decide))
    · exact absurd hlt (by rw [Expr.level]; decide)
    · simp [Expr.level, hop] at hlt
    · cases h with
      | comma hi hs =>
          cases items with
          | nil => cases hl
          | cons first items =>
              simp only [Expr.isLayered, areLayered, Bool.and_eq_true, decide_eq_true_eq] at hl
              obtain ⟨rfl, -⟩ | ⟨ts, k, l, vs, rfl, hw, hs, hmore⟩ := hs.cons_inv
              · exact absurd hl.1 (Nat.not_succ_le_self 1)
              · obtain rfl := hi.unique (hw.startsAt.append _)
                simp only [List.length_append, List.length_cons] at hn hfuel
                have hfirst := (ih.expr (by omega) hw hl.2.1.2).assignment fuel hl.2.1.1
                  (ends_cons rfl (by decide)) (by omega)
                have hrest := ih.commas fuel (i := k) (j := l) (hmore.resolve_left Bool.false_ne_true)
                  (by omega) hs hl.2.2 hends (by omega)
                rw [List.append_assoc, List.cons_append]
                unfold parseExpression
                simp [hfirst, hrest, nextIs, next]
  · have hassign := ih.assignment fuel hn h hl hge (hends.mono (Nat.zero_le _)) (by omega)
    have hcomma := hends.nextIs_eq_false (l := .mark ',') rfl (Nat.le_refl _)
    unfold parseExpression
    simp [hassign, hcomma]

theorem Complete.parses (ih : Complete stop n) (hn : us.length ≤ n) (h : Written Separate e us rest)
    (hl : e.isLayered) : Parses stop e us rest where
  opens := h.opens hl
  chain fuel calls := ih.chain fuel calls hn h hl
  callMember fuel := ih.callMember fuel hn h hl
  behind fuel := ih.behind fuel hn h hl
  unary fuel := ih.unary fuel hn h hl
  operators fuel := ih.operators fuel hn h hl
  conditional fuel := ih.conditional fuel hn h hl
  assignment fuel := ih.assignment fuel hn h hl
  expression fuel := ih.expression fuel hn h hl

/-! Statements. -/

theorem Ended.ends (h : Ended Separate us rest) : Ends 0 (us ++ rest) := by
  cases h with
  | semicolon => exact ends_cons_of_none rfl
  | bare h => exact h.2

theorem skipSemicolon_of_ended {S : List Token → Prop} (hS : S rest → NoSemicolon rest)
    (h : Ended S us rest) : skipSemicolon (us ++ rest) = rest := by
  cases h with
  | semicolon => simp [skipSemicolon]
  | bare h => simp [skipSemicolon, accept?_of_nextIs (hS h)]

theorem noSemicolon_of_endsBlock (h : endsBlock rest) : NoSemicolon rest := by
  obtain rfl | h := h
  · rfl
  · refine decide_eq_false fun heq => ?_
    cases heq.symm.trans (of_decide_eq_true h)

theorem isStop_of_ended (h : Ended endsBlock us rest) :
    ((us ++ rest).isEmpty || nextIs (.mark ';') (us ++ rest) || nextIs (.mark '\x7d') (us ++ rest)) = true := by
  cases h with
  | semicolon => rfl
  | bare h =>
      obtain rfl | h := h
      · rfl
      · simp [h]

theorem Opens.ne_nil (h : Opens e us) : us ≠ [] := by
  obtain ⟨t, vs, rfl, -⟩ := h
  exact List.cons_ne_nil _ _

theorem parseStatement_of_opens {t : Token} (ht : opensPrimary t.lexeme ∨ opensPrefix t.lexeme)
    (hb : t.lexeme ≠ .mark '\x7b') (hf : t.lexeme ≠ .keyword "function") (ts : List Token) :
    parseStatement stop (fuel + 1) (t :: ts) = parseExpressionStatement stop fuel t.start (t :: ts) := by
  obtain ⟨i, j, l⟩ := t
  unfold parseStatement
  cases l with
  | name | number | text | operator => rfl
  | mark c =>
      have hc : ∀ c ∈ ['(', '[', '\x7b'], c ≠ '\x7b' → c = '(' ∨ c = '[' := by simp
      have hm : c = '(' ∨ c = '[' :=
        hc c (by simpa [opensPrimary, opensPrefix] using ht) fun h => hb (congrArg _ h)
      rcases hm with rfl | rfl
      · rfl
      · rfl
  | keyword k =>
      have hk : ∀ k ∈ ["true", "false", "null", "this", "new", "function", "typeof"], k ≠ "function" →
          k ∈ ["true", "false", "null", "this", "new", "typeof"] := by decide
      have hm := hk k (by simpa [opensPrimary, opensPrefix, or_assoc] using ht) fun h => hf (congrArg _ h)
      simp only [List.mem_cons, List.not_mem_nil, or_false] at hm
      rcases hm with rfl | rfl | rfl | rfl | rfl | rfl <;> rfl

theorem Complete.option (ih : Complete stop n) (fuel : Nat) {o : Option Expr} {c : Char}
    (hc : c = ';' ∨ c = ')') (hn : us.length < n)
    (h : WrittenOption Separate o us (⟨i, j, .mark c⟩ :: rest)) (hl : isLayeredOption o)
    (hfuel : 16 * us.length + 10 ≤ fuel) :
    parseOptional stop fuel c (us ++ ⟨i, j, .mark c⟩ :: rest) = .ok (o, ⟨i, j, .mark c⟩ :: rest) := by
  obtain ⟨fuel, rfl⟩ := Nat.exists_eq_add_one_of_ne_zero (show fuel ≠ 0 by omega)
  cases h with
  | none => simp [parseOptional, nextIs, next]
  | some hw =>
      have hparses := ih.expr hn hw hl
      have hfirst : nextIs (.mark c) (us ++ ⟨i, j, .mark c⟩ :: rest) = false := by
        rcases hc with rfl | rfl
        · exact hparses.opens.nextIs_eq_false rfl rfl _
        · exact hparses.opens.nextIs_eq_false rfl rfl _
      have hends : Ends 0 (⟨i, j, .mark c⟩ :: rest) := by
        rcases hc with rfl | rfl
        · exact ends_cons_of_none rfl
        · exact ends_cons_of_none rfl
      have hexpr := hparses.expression fuel hends (by omega)
      unfold parseOptional
      simp [hfirst, hexpr]

theorem Complete.loopInit (ih : Complete stop n) (fuel : Nat) {init : Option Stmt} (hn : us.length < n)
    (h : WrittenInit Separate init us (⟨i, j, .mark ';'⟩ :: rest)) (hl : ∀ s ∈ init, s.isLayered)
    (hfuel : 16 * us.length + 10 ≤ fuel) :
    parseLoopInit stop fuel (us ++ ⟨i, j, .mark ';'⟩ :: rest) = .ok (init, ⟨i, j, .mark ';'⟩ :: rest) := by
  obtain ⟨fuel, rfl⟩ := Nat.exists_eq_add_one_of_ne_zero (show fuel ≠ 0 by omega)
  cases h with
  | none => simp [parseLoopInit, nextIs, next]
  | expr hi hw =>
      have hparses := ih.expr hn hw (hl _ rfl)
      have hsemicolon := hparses.opens.nextIs_eq_false (l := .mark ';') rfl rfl
      have hvar := hparses.opens.accept?_eq_none (l := .keyword "var") rfl rfl
      have hexpr := hparses.expression fuel (ends_cons_of_none rfl) (by omega)
      unfold parseLoopInit
      simp [hsemicolon, hvar, hexpr, hi.startOf_append]
  | var hs =>
      have hl := hl _ rfl
      simp only [Stmt.isLayered, Bool.and_eq_true, Bool.not_eq_true', List.isEmpty_eq_false_iff] at hl
      rw [List.length_cons] at hn hfuel
      have hdecls := ih.decls fuel hl.1 (by omega) hs hl.2 (ends_cons_of_none rfl) (by omega)
      unfold parseLoopInit
      simp [nextIs, next, hdecls, startOf]

theorem Complete.expressionStatement (ih : Complete stop n) (fuel : Nat) {start : Nat}
    (hn : ts.length ≤ n) (hi : StartsAt start ts) (h : Written Separate e ts (us ++ rest)) (hl : e.isLayered)
    (hb : nextIs (.mark '\x7b') ts = false) (hf : nextIs (.keyword "function") ts = false)
    (hend : Ended Separate us rest) (hfuel : 16 * ts.length + 11 ≤ fuel) :
    parseStatement stop fuel (ts ++ us ++ rest) = .ok (.expr start e, rest) := by
  obtain ⟨fuel, rfl⟩ : ∃ f, fuel = f + 1 + 1 := ⟨fuel - 2, by omega⟩
  have hexpr := ih.expression fuel hn h hl hend.ends (by omega)
  have hskip := skipSemicolon_of_ended And.left hend
  obtain ⟨t, vs, rfl, ht⟩ := h.opens hl
  obtain ⟨_, _, heq, rfl⟩ := hi
  cases heq
  rw [List.append_assoc, List.cons_append]
  rw [parseStatement_of_opens (ht.imp_right And.left)
    (fun heq => of_decide_eq_false hb (congrArg some heq))
    (fun heq => of_decide_eq_false hf (congrArg some heq))]
  rw [List.cons_append] at hexpr
  unfold parseExpressionStatement
  simp [hexpr, hskip]

theorem Complete.loop (ih : Complete stop n) (fuel : Nat) {init : Option Stmt} {test update : Option Expr}
    {body : Stmt} {k l m o p q start : Nat} {ws : List Token}
    (hn : ts.length + us.length + vs.length + ws.length < n)
    (hi : WrittenInit Separate init ts (⟨i, j, .mark ';'⟩ :: us ++ ⟨k, l, .mark ';'⟩ :: vs ++
      ⟨m, o, .mark ')'⟩ :: ws ++ rest))
    (ht : WrittenOption Separate test us (⟨k, l, .mark ';'⟩ :: vs ++ ⟨m, o, .mark ')'⟩ :: ws ++ rest))
    (hu : WrittenOption Separate update vs (⟨m, o, .mark ')'⟩ :: ws ++ rest))
    (hb : WrittenStmt Separate body ws rest) (hl : (Stmt.loop start init test update body).isLayered)
    (hfuel : 16 * (ts.length + us.length + vs.length + ws.length) + 12 ≤ fuel) :
    parseLoop stop fuel start (⟨p, q, .mark '('⟩ :: (ts ++ ⟨i, j, .mark ';'⟩ :: (us ++ ⟨k, l, .mark ';'⟩ ::
      (vs ++ ⟨m, o, .mark ')'⟩ :: (ws ++ rest))))) = .ok (.loop start init test update body, rest) := by
  obtain ⟨fuel, rfl⟩ := Nat.exists_eq_add_one_of_ne_zero (show fuel ≠ 0 by omega)
  have hlayered : (∀ s ∈ init, s.isLayered) ∧ isLayeredOption test ∧ isLayeredOption update ∧
      body.isLayered := by
    cases init with
    | none => simpa [Stmt.isLayered, and_assoc] using hl
    | some s => simpa [Stmt.isLayered, and_assoc] using hl
  obtain ⟨hli, hlt, hlu, hlb⟩ := hlayered
  simp only [List.cons_append, List.append_assoc] at hi ht hu
  have hinit := ih.loopInit fuel (by omega) hi hli (by omega)
  have htest := ih.option fuel (.inl rfl) (by omega) ht hlt (by omega)
  have hupdate := ih.option fuel (.inr rfl) (by omega) hu hlu (by omega)
  have hbody := ih.stmt fuel (by omega) hb hlb (by omega)
  unfold parseLoop
  simp [hinit, htest, hupdate, hbody, nextIs, next]

theorem Complete.statement (ih : Complete stop n) (fuel : Nat) {s : Stmt} (hn : us.length ≤ n)
    (h : WrittenStmt Separate s us rest) (hl : s.isLayered) (hfuel : 16 * us.length + 11 ≤ fuel) :
    parseStatement stop fuel (us ++ rest) = .ok (s, rest) := by
  cases h with
  | expr hi hw hb hf hend =>
      simp only [List.length_append] at hn hfuel
      exact ih.expressionStatement fuel (by omega) hi hw hl hb hf hend (by omega)
  | var hs hend =>
      obtain ⟨fuel, rfl⟩ := Nat.exists_eq_add_one_of_ne_zero (show fuel ≠ 0 by omega)
      simp only [Stmt.isLayered, Bool.and_eq_true, Bool.not_eq_true', List.isEmpty_eq_false_iff] at hl
      simp only [List.length_append, List.length_cons] at hn hfuel
      have hdecls := ih.decls fuel hl.1 (by omega) hs hl.2 hend.ends (by omega)
      unfold parseStatement
      simp [hdecls, startOf, skipSemicolon_of_ended And.left hend]
  | retBare hend =>
      obtain ⟨fuel, rfl⟩ := Nat.exists_eq_add_one_of_ne_zero (show fuel ≠ 0 by omega)
      have hstops := isStop_of_ended hend
      unfold parseStatement
      simp only [List.cons_append, hstops, if_true, skipSemicolon_of_ended noSemicolon_of_endsBlock hend]
      rfl
  | ret hw hend =>
      obtain ⟨fuel, rfl⟩ := Nat.exists_eq_add_one_of_ne_zero (show fuel ≠ 0 by omega)
      simp only [List.length_append, List.length_cons] at hn hfuel
      have hparses := ih.expr (by omega) hw hl
      have hsemicolon := hparses.opens.nextIs_eq_false (l := .mark ';') rfl rfl
      have hbrace := hparses.opens.nextIs_eq_false (l := .mark '\x7d') rfl rfl
      have hexpr := hparses.expression fuel hend.ends (by omega)
      unfold parseStatement
      simp [hparses.opens.ne_nil, hsemicolon, hbrace, hexpr, startOf, skipSemicolon_of_ended And.left hend]
  | block hbody =>
      obtain ⟨fuel, rfl⟩ := Nat.exists_eq_add_one_of_ne_zero (show fuel ≠ 0 by omega)
      simp only [List.length_append, List.length_cons] at hn hfuel
      have hblock := ih.block fuel (by omega) hbody hl (by omega)
      unfold parseStatement
      simp [hblock, startOf]
  | loop hi ht hu hb =>
      obtain ⟨fuel, rfl⟩ := Nat.exists_eq_add_one_of_ne_zero (show fuel ≠ 0 by omega)
      simp only [List.length_append, List.length_cons] at hn hfuel
      unfold parseStatement
      simp only [List.cons_append, List.append_assoc]
      exact ih.loop fuel (by omega) hi ht hu hb hl (by omega)
  | function hf hi =>
      obtain ⟨fuel, rfl⟩ := Nat.exists_eq_add_one_of_ne_zero (show fuel ≠ 0 by omega)
      subst hi
      obtain ⟨j, ts, rfl, hfunction⟩ := ih.function fuel hn hf hl (by omega)
      unfold parseStatement
      simp [hfunction, startOf]
  | empty =>
      obtain ⟨fuel, rfl⟩ := Nat.exists_eq_add_one_of_ne_zero (show fuel ≠ 0 by omega)
      simp [parseStatement, startOf]

/-! Programs. -/

theorem complete (stop n : Nat) : Complete stop n := by
  induction n with
  | zero => exact ⟨fun h => absurd h (Nat.not_lt_zero _), fun _ _ _ _ h => absurd h (Nat.not_lt_zero _)⟩
  | succ n ih =>
      exact ⟨fun h => ih.parses (Nat.le_of_lt_succ h),
        fun fuel _ _ _ h => ih.statement fuel (Nat.le_of_lt_succ h)⟩

theorem parseProgram_of_writtenAll {body : List Stmt} (h : WrittenAll Separate body ts [])
    (hl : Stmt.areLayered body) (hfuel : 16 * ts.length + 12 ≤ fuel) :
    parseProgram stop fuel ts = .ok body := by
  induction body generalizing ts fuel with
  | nil =>
      cases h
      simp [parseProgram]
  | cons s body ihm =>
      obtain ⟨fuel, rfl⟩ := Nat.exists_eq_add_one_of_ne_zero (show fuel ≠ 0 by omega)
      rw [Stmt.areLayered, Bool.and_eq_true] at hl
      cases h with
      | cons hs hb =>
          obtain ⟨t, ts, rfl, -⟩ := hs.first hl.1
          simp only [List.length_append, List.length_cons] at hfuel
          have hstmt := (complete stop _).stmt fuel (Nat.lt_succ_self _) hs hl.1
            (by simp only [List.length_cons]; omega)
          have hrest := ihm hb hl.2 (show _ ≤ fuel by omega)
          rw [List.append_nil] at hstmt
          unfold parseProgram
          simp only [List.cons_append]  at hstmt ⊢
          simp [hstmt, hrest]

/-- A program is read back from its tokens, with or without the ones that may be left out. -/
theorem parse_of_written {source : String} {body : List Stmt} (hts : tokenize source = .ok ts)
    (h : WrittenAll Separate body ts []) (hl : Stmt.areLayered body) : parse source = .ok body := by
  have hbody : parseProgram (byteLength source.toList) _ ts = .ok body :=
    parseProgram_of_writtenAll h hl (show _ ≤ 16 * (ts.length + 2) by omega)
  simp [parse, hts, hbody]

def differences : List Stmt :=
  [.expr 0 (.binary 0 (.arith .subtract)
    (.binary 0 (.arith .subtract) (.name 0 "a") (.name 4 "b")) (.name 8 "c"))]

def differenceTokens : List Token :=
  [⟨0, 1, .name "a"⟩, ⟨2, 3, .operator "-"⟩, ⟨4, 5, .name "b"⟩, ⟨6, 7, .operator "-"⟩, ⟨8, 9, .name "c"⟩]

theorem parse_of_written_differences :
    tokenize "a - b - c" = .ok differenceTokens ∧ parse "a - b - c" = .ok differences := by
  have hleft : ∀ rest, Written Separate (.binary 0 (.arith .subtract) (.name 0 "a") (.name 4 "b"))
      [⟨0, 1, .name "a"⟩, ⟨2, 3, .operator "-"⟩, ⟨4, 5, .name "b"⟩] rest :=
    fun _ => .binary (startsAt_cons _ _) .name .name
  have hends : Separate [] := ⟨rfl, fun _ _ h => by cases h⟩
  have hw : WrittenAll Separate differences differenceTokens [] :=
    .cons (.expr (startsAt_cons _ _) (.binary (startsAt_cons _ _) (hleft _) .name) rfl rfl (.bare hends)) .nil
  generalize hs : "a - b - c" = source
  have hok : (tokenize source).toOption.any (· = differenceTokens) := by
    subst hs
    decide +kernel
  obtain ⟨ts, h, hts⟩ := exists_ok_of_any hok
  obtain rfl := of_decide_eq_true hts
  exact ⟨h, parse_of_written h hw rfl⟩

end TwinView.Script
