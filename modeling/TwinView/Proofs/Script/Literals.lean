import Mathlib.Data.List.Forall2
import TwinView.Proofs.Script.Replay

/-!
Lexemes that spell a value: string literals, `null`, `true`, functions, and arrays and objects of them.
They are read as the value wherever they stand, as long as what follows does not go on with it.
-/

namespace TwinView.Script

variable {e : Expr} {es : List Expr} {ls : List Lexeme} {lss : List (List Lexeme)} {stop fuel : Nat}
  {ts us vs rest : List Token}

/-- Wherever these lexemes stand, the parser takes them for the expression, up to offsets. -/
structure Operand (e : Expr) (ls : List Lexeme) : Prop where
  opens : ∃ l ls', ls = l :: ls' ∧ opensPrimary l ∧ l ≠ .keyword "new"
  parses : ∀ stop fuel ts rest, ts.map (·.lexeme) = ls → 16 * ls.length + 40 ≤ fuel →
    ∃ e', parsePrimary stop fuel (ts ++ rest) = .ok (e', rest) ∧ e'.unplaced = e

theorem cons_of_map {l : Lexeme} (h : ts.map (·.lexeme) = l :: ls) :
    ∃ i j us, ts = ⟨i, j, l⟩ :: us ∧ us.map (·.lexeme) = ls := by
  obtain ⟨⟨i, j, l'⟩, us, rfl, rfl, hus⟩ := List.map_eq_cons_iff.1 h
  exact ⟨i, j, us, rfl, hus⟩

theorem one_of_map {l : Lexeme} (h : ts.map (·.lexeme) = [l]) : ∃ i j, ts = [⟨i, j, l⟩] := by
  obtain ⟨i, j, us, rfl, hus⟩ := cons_of_map h
  obtain rfl := List.map_eq_nil_iff.1 hus
  exact ⟨i, j, rfl⟩

theorem parseAssignment_of_callMember {t : Token} (ht : opensPrimary t.lexeme)
    (h : parseCallMember stop (fuel + 1) (t :: ts) = .ok (e, rest)) (hends : Ends assignmentLevel rest) :
    parseAssignment stop (fuel + 6) (t :: ts) = .ok (e, rest) := by
  have hpostfix := parsePostfix_succ h (hends.mono (by decide))
  have hunary := (parseUnary_of_opensPrimary ht ts).trans hpostfix
  have hoperators : parseInfix stop (fuel + 4) 1 (t :: ts) = .ok (e, rest) := by
    unfold parseInfix
    rw [hunary]
    exact parseInfixRest_of_endsInfix (hends.mono (by decide)).endsInfix
  have hquestion : accept? (.operator "?") rest = none :=
    accept?_of_nextIs (hends.nextIs_eq_false (m := conditionalLevel) rfl (by decide))
  have hconditional : parseConditional stop (fuel + 5) (t :: ts) = .ok (e, rest) := by
    unfold parseConditional
    simp [hoperators, hquestion]
  unfold parseAssignment
  simp [hconditional, hends.bind_assignment?]

theorem parseCallMember_of_primary {t : Token} (hnew : t.lexeme ≠ .keyword "new")
    (h : parsePrimary stop fuel (t :: ts) = .ok (e, rest)) :
    parseCallMember stop (fuel + 2) (t :: ts) = parseTails stop (fuel + 1) true e rest := by
  have hhead : parseHead stop (fuel + 1) (t :: ts) = .ok (e, rest) := by
    refine parseHead_of_primary (decide_eq_false fun hnext => ?_) h
    exact hnew (Option.some.inj hnext)
  rw [parseCallMember_succ, parseChain, hhead, ok_bind]

theorem Operand.assignment (h : Operand e ls) (stop : Nat) (hts : ts.map (·.lexeme) = ls)
    (hends : Ends assignmentLevel rest) (hfuel : 16 * ls.length + 47 ≤ fuel) :
    ∃ e', parseAssignment stop fuel (ts ++ rest) = .ok (e', rest) ∧ e'.unplaced = e := by
  obtain ⟨fuel, rfl⟩ := Nat.exists_eq_add_of_le' (show 7 ≤ fuel by omega)
  obtain ⟨e', hprimary, he⟩ := h.parses stop fuel ts rest hts (by omega)
  obtain ⟨l, ls', rfl, hl, hnew⟩ := h.opens
  obtain ⟨i, j, us, rfl, -⟩ := cons_of_map hts
  have hcall := parseCallMember_of_primary hnew hprimary
  rw [parseTails_of_not_tail (hends.mono (by decide)).not_any_isTail] at hcall
  exact ⟨e', parseAssignment_of_callMember hl hcall hends, he⟩

theorem Operand.accept?_mark {c : Char} (h : Operand e ls) (hc : opensPrimary (.mark c) = false)
    (hts : ts.map (·.lexeme) = ls) : accept? (.mark c) (ts ++ rest) = none := by
  obtain ⟨l, ls', rfl, hl, -⟩ := h.opens
  obtain ⟨i, j, us, rfl, -⟩ := cons_of_map hts
  refine accept?_cons_of_ne ?_ _
  rintro rfl
  rw [hc] at hl
  cases hl

theorem operand_token {l : Lexeme} (hopens : opensPrimary l) (hnew : l ≠ .keyword "new")
    (h : ∀ stop fuel i j rest, ∃ e', parsePrimary stop (fuel + 1) (⟨i, j, l⟩ :: rest) = .ok (e', rest) ∧
      e'.unplaced = e) : Operand e [l] where
  opens := ⟨_, _, rfl, hopens, hnew⟩
  parses stop fuel ts rest hts hfuel := by
    obtain ⟨i, j, rfl⟩ := one_of_map hts
    obtain ⟨fuel, rfl⟩ := Nat.exists_eq_add_one_of_ne_zero (show fuel ≠ 0 by omega)
    exact h stop fuel i j rest

theorem operand_name (s : String) : Operand (.name 0 s) [.name s] :=
  operand_token rfl (by simp) fun _ _ i _ _ => ⟨.name i s, by unfold parsePrimary; rfl, rfl⟩

theorem operand_text (s : String) : Operand (.text 0 s) [.text s] :=
  operand_token rfl (by simp) fun _ _ i _ _ => ⟨.text i s, by unfold parsePrimary; rfl, rfl⟩

theorem operand_null : Operand (.null 0) [.keyword "null"] :=
  operand_token rfl (by simp) fun _ _ i _ _ => ⟨.null i, by unfold parsePrimary; rfl, rfl⟩

theorem operand_true : Operand (.bool 0 true) [.keyword "true"] :=
  operand_token rfl (by simp) fun _ _ i _ _ => ⟨.bool i true, by unfold parsePrimary; rfl, rfl⟩

theorem operand_false : Operand (.bool 0 false) [.keyword "false"] :=
  operand_token rfl (by simp) fun _ _ i _ _ => ⟨.bool i false, by unfold parsePrimary; rfl, rfl⟩

theorem operand_function {source : String} {i : Nat} {f : Function} (hsource : tokenize source = .ok ts)
    (h : parse source = .ok [.function i f]) :
    Operand (.function 0 (functionUnplaced f)) (ts.map (·.lexeme)) := by
  obtain ⟨j, us, rfl, hfunction⟩ := parseFunction_of_parse hsource h
  refine ⟨⟨_, _, rfl, rfl, by simp⟩, fun stop fuel ts rest hts hfuel => ?_⟩
  obtain ⟨fuel, rfl⟩ := Nat.exists_eq_add_one_of_ne_zero (show fuel ≠ 0 by omega)
  obtain ⟨i', j', us', rfl, hus'⟩ := cons_of_map hts
  rw [List.length_map] at hfuel
  obtain ⟨f', hf', hview⟩ := hfunction stop fuel i' us' rest hus' (by omega)
  refine ⟨.function i' f', ?_, by rw [unplaced_function, hview]⟩
  unfold parsePrimary
  simp [hf']

def further (lss : List (List Lexeme)) : List Lexeme := lss.flatMap (.mark ',' :: ·)

theorem cons_of_further {close : List Lexeme} (h : vs.map (·.lexeme) = further (ls :: lss) ++ close) :
    ∃ i j us vs', vs = ⟨i, j, .mark ','⟩ :: (us ++ vs') ∧ us.map (·.lexeme) = ls ∧
      vs'.map (·.lexeme) = further lss ++ close := by
  have hcons : further (ls :: lss) ++ close = .mark ',' :: (ls ++ (further lss ++ close)) := by
    simp [further]
  obtain ⟨i, j, vs, rfl, hvs⟩ := cons_of_map (h.trans hcons)
  obtain ⟨us, vs', rfl, hus, hvs'⟩ := List.map_eq_append_iff.1 hvs
  exact ⟨i, j, us, vs', rfl, hus, hvs'⟩

/-- Behind an item of a list comes a comma or what closes it. -/
theorem ends_further {c : Char} (hc : joins (.mark c) = none)
    (hvs : vs.map (·.lexeme) = further lss ++ [.mark c]) (rest : List Token) :
    Ends assignmentLevel (vs ++ rest) := by
  cases lss with
  | nil =>
      obtain ⟨i, j, rfl⟩ := one_of_map hvs
      exact ends_cons_of_none hc
  | cons ls lss =>
      obtain ⟨i, j, us, vs, rfl, -⟩ := cons_of_further hvs
      exact ends_cons rfl (by decide)

theorem parseItems_of_operands (stop : Nat) (rest : List Token) (h : Operand e ls)
    (hes : List.Forall₂ Operand es lss) (hus : us.map (·.lexeme) = ls)
    (hvs : vs.map (·.lexeme) = further lss ++ [.mark ']'])
    (hfuel : 16 * (us.length + vs.length) + 48 ≤ fuel) :
    ∃ items, parseItems stop fuel (us ++ (vs ++ rest)) = .ok (items, rest) ∧
      Expr.allUnplaced items = e :: es := by
  induction hes generalizing e ls us vs fuel with
  | nil =>
      obtain ⟨fuel, rfl⟩ := Nat.exists_eq_add_one_of_ne_zero (show fuel ≠ 0 by omega)
      obtain ⟨e', he, hview⟩ := h.assignment stop hus (ends_further rfl hvs rest)
        (show _ ≤ fuel by rw [← hus, List.length_map]; omega)
      obtain ⟨k, l, rfl⟩ := one_of_map hvs
      refine ⟨[e'], ?_, by rw [Expr.allUnplaced, hview, Expr.allUnplaced]⟩
      unfold parseItems
      rw [h.accept?_mark rfl hus, he]
      simp
  | cons h₂ hes ih =>
      obtain ⟨fuel, rfl⟩ := Nat.exists_eq_add_one_of_ne_zero (show fuel ≠ 0 by omega)
      obtain ⟨e', he, hview⟩ := h.assignment stop hus (ends_further rfl hvs rest)
        (show _ ≤ fuel by rw [← hus, List.length_map]; omega)
      obtain ⟨k, l, us₂, vs, rfl, hus₂, hvs⟩ := cons_of_further hvs
      simp only [List.length_cons, List.length_append] at hfuel
      obtain ⟨items, hitems, hviews⟩ := ih h₂ hus₂ hvs (show _ ≤ fuel by omega)
      refine ⟨e' :: items, ?_, by rw [Expr.allUnplaced, hview, hviews]⟩
      unfold parseItems
      rw [h.accept?_mark rfl hus, he]
      simp [hitems]

theorem operand_emptyArray : Operand (.array 0 []) [.mark '[', .mark ']'] where
  opens := ⟨_, _, rfl, rfl, by simp⟩
  parses stop fuel ts rest hts hfuel := by
    obtain ⟨i, j, us, rfl, hus⟩ := cons_of_map hts
    obtain ⟨k, l, rfl⟩ := one_of_map hus
    obtain ⟨fuel, rfl⟩ := Nat.exists_eq_add_of_le' (show 2 ≤ fuel by omega)
    refine ⟨.array i [], ?_, by rw [Expr.unplaced, Expr.allUnplaced]⟩
    unfold parsePrimary parseItems
    simp

theorem operand_array (h : Operand e ls) (hes : List.Forall₂ Operand es lss) :
    Operand (.array 0 (e :: es)) (.mark '[' :: (ls ++ (further lss ++ [.mark ']']))) where
  opens := ⟨_, _, rfl, rfl, by simp⟩
  parses stop fuel ts rest hts hfuel := by
    obtain ⟨i, j, us', rfl, hus'⟩ := cons_of_map hts
    rw [List.length_cons, ← hus', List.length_map] at hfuel
    obtain ⟨us, vs, rfl, hus, hvs⟩ := List.map_eq_append_iff.1 hus'
    obtain ⟨fuel, rfl⟩ := Nat.exists_eq_add_one_of_ne_zero (show fuel ≠ 0 by omega)
    rw [List.length_append] at hfuel
    obtain ⟨items, hitems, hviews⟩ := parseItems_of_operands stop rest h hes hus hvs
      (show _ ≤ fuel by omega)
    refine ⟨.array i items, ?_, by rw [Expr.unplaced, hviews]⟩
    unfold parsePrimary
    simp [hitems]

/-- Wherever the lexeme stands, the parser takes it for the key, up to offsets. -/
def IsKeyLexeme (key : PropertyKey) (l : Lexeme) : Prop :=
  ∀ stop i j rest, ∃ key', parseKey stop (⟨i, j, l⟩ :: rest) = .ok (key', rest) ∧ key'.unplaced = key

theorem isKeyLexeme_name (s : String) : IsKeyLexeme (.name s) (.name s) :=
  fun _ _ _ _ => ⟨.name s, rfl, rfl⟩

theorem isKeyLexeme_text (s : String) : IsKeyLexeme (.text 0 s) (.text s) :=
  fun _ i _ _ => ⟨.text i s, rfl, rfl⟩

theorem not_isKeyLexeme_mark {key : PropertyKey} {c : Char} : ¬ IsKeyLexeme key (.mark c) := by
  intro h
  obtain ⟨key', h, -⟩ := h 0 0 0 []
  cases h

/-- A key and a value that the parser takes for the property, wherever they stand. -/
def IsEntry (p : PropertyKey × Expr) (ls : List Lexeme) : Prop :=
  ∃ l ls', ls = l :: .mark ':' :: ls' ∧ IsKeyLexeme p.1 l ∧ Operand p.2 ls'

variable {p : PropertyKey × Expr} {ps : List (PropertyKey × Expr)}

/-- A property up to its value, which is read in front of a comma or of what closes the object. -/
theorem parseProps_of_entry (stop : Nat) (h : IsEntry p ls) (hus : us.map (·.lexeme) = ls)
    (hends : Ends assignmentLevel rest) (hfuel : 16 * us.length + 47 ≤ fuel) :
    ∃ key value, (key.unplaced, value.unplaced) = p ∧ parseProps stop (fuel + 1) (us ++ rest) =
      match accept? (.mark ',') rest with
      | some ts => parseProps stop fuel ts >>= fun (props, ts) => .ok ((key, value) :: props, ts)
      | none => expect stop '\x7d' rest >>= fun ts => .ok ([(key, value)], ts) := by
  obtain ⟨lexeme, ls', rfl, hlexeme, hvalue⟩ := h
  obtain ⟨i, j, us', rfl, hus'⟩ := cons_of_map hus
  obtain ⟨k, l, vs, rfl, hvs⟩ := cons_of_map hus'
  simp only [List.length_cons] at hfuel
  obtain ⟨value, he, hview⟩ := hvalue.assignment stop hvs hends
    (show _ ≤ fuel by rw [← hvs, List.length_map]; omega)
  obtain ⟨key, hkey, hkeyView⟩ := hlexeme stop i j (⟨k, l, .mark ':'⟩ :: (vs ++ rest))
  have hopen : accept? (.mark '\x7d') (⟨i, j, lexeme⟩ :: ⟨k, l, .mark ':'⟩ :: (vs ++ rest)) = none := by
    refine accept?_cons_of_ne ?_ _
    rintro rfl
    exact not_isKeyLexeme_mark hlexeme
  refine ⟨key, value, by rw [hkeyView, hview], ?_⟩
  simp only [List.cons_append]
  conv => lhs; unfold parseProps
  cases hcomma : accept? (.mark ',') rest with
  | none => simp [hopen, hkey, he, hcomma]
  | some ts => simp [hopen, hkey, he, hcomma]

theorem parseProps_of_entries (stop : Nat) (rest : List Token) (h : IsEntry p ls)
    (hps : List.Forall₂ IsEntry ps lss) (hus : us.map (·.lexeme) = ls)
    (hvs : vs.map (·.lexeme) = further lss ++ [.mark '\x7d'])
    (hfuel : 16 * (us.length + vs.length) + 48 ≤ fuel) :
    ∃ props, parseProps stop fuel (us ++ (vs ++ rest)) = .ok (props, rest) ∧ propsUnplaced props = p :: ps := by
  induction hps generalizing p ls us vs fuel with
  | nil =>
      obtain ⟨fuel, rfl⟩ := Nat.exists_eq_add_one_of_ne_zero (show fuel ≠ 0 by omega)
      obtain ⟨key, value, hview, hfirst⟩ := parseProps_of_entry stop h hus (ends_further rfl hvs rest)
        (show _ ≤ fuel by omega)
      obtain ⟨k, l, rfl⟩ := one_of_map hvs
      refine ⟨[(key, value)], ?_, by rw [propsUnplaced, hview, propsUnplaced]⟩
      rw [hfirst]
      simp
  | cons h₂ hps ih =>
      obtain ⟨fuel, rfl⟩ := Nat.exists_eq_add_one_of_ne_zero (show fuel ≠ 0 by omega)
      obtain ⟨key, value, hview, hfirst⟩ := parseProps_of_entry stop h hus (ends_further rfl hvs rest)
        (show _ ≤ fuel by omega)
      obtain ⟨k, l, us₂, vs, rfl, hus₂, hvs⟩ := cons_of_further hvs
      simp only [List.length_cons, List.length_append] at hfuel
      obtain ⟨props, hprops, hviews⟩ := ih h₂ hus₂ hvs (show _ ≤ fuel by omega)
      refine ⟨(key, value) :: props, ?_, by rw [propsUnplaced, hview, hviews]⟩
      rw [hfirst]
      simp [hprops]

theorem operand_emptyObject : Operand (.object 0 []) [.mark '\x7b', .mark '\x7d'] where
  opens := ⟨_, _, rfl, rfl, by simp⟩
  parses stop fuel ts rest hts hfuel := by
    obtain ⟨i, j, us, rfl, hus⟩ := cons_of_map hts
    obtain ⟨k, l, rfl⟩ := one_of_map hus
    obtain ⟨fuel, rfl⟩ := Nat.exists_eq_add_of_le' (show 2 ≤ fuel by omega)
    refine ⟨.object i [], ?_, by rw [Expr.unplaced, propsUnplaced]⟩
    unfold parsePrimary parseProps
    simp

theorem operand_entries (h : IsEntry p ls) (hps : List.Forall₂ IsEntry ps lss) :
    Operand (.object 0 (p :: ps)) (.mark '\x7b' :: (ls ++ (further lss ++ [.mark '\x7d']))) where
  opens := ⟨_, _, rfl, rfl, by simp⟩
  parses stop fuel ts rest hts hfuel := by
    obtain ⟨i, j, us', rfl, hus'⟩ := cons_of_map hts
    rw [List.length_cons, ← hus', List.length_map] at hfuel
    obtain ⟨us, vs, rfl, hus, hvs⟩ := List.map_eq_append_iff.1 hus'
    obtain ⟨fuel, rfl⟩ := Nat.exists_eq_add_one_of_ne_zero (show fuel ≠ 0 by omega)
    rw [List.length_append] at hfuel
    obtain ⟨props, hprops, hviews⟩ := parseProps_of_entries stop rest h hps hus hvs
      (show _ ≤ fuel by omega)
    refine ⟨.object i props, ?_, by rw [Expr.unplaced, hviews]⟩
    unfold parsePrimary
    simp [hprops]

def Property (p : String × Expr) (ls : List Lexeme) : Prop :=
  ∃ ls', ls = .text p.1 :: .mark ':' :: ls' ∧ Operand p.2 ls'

def objectOf (ps : List (String × Expr)) : Expr :=
  .object 0 (ps.map fun p => (.text 0 p.1, p.2))

theorem Property.entry {p : String × Expr} (h : Property p ls) : IsEntry (.text 0 p.1, p.2) ls := by
  obtain ⟨ls', rfl, hvalue⟩ := h
  exact ⟨_, ls', rfl, isKeyLexeme_text p.1, hvalue⟩

theorem operand_object {p : String × Expr} {ps : List (String × Expr)} (h : Property p ls)
    (hps : List.Forall₂ Property ps lss) :
    Operand (objectOf (p :: ps)) (.mark '\x7b' :: (ls ++ (further lss ++ [.mark '\x7d']))) :=
  operand_entries h.entry (List.forall₂_map_left_iff.2 (hps.imp fun _ _ => Property.entry))

theorem parsePrimary_parens {k l : Nat} (i j : Nat)
    (h : parseAssignment stop fuel (us ++ ⟨k, l, .mark ')'⟩ :: rest) = .ok (e, ⟨k, l, .mark ')'⟩ :: rest)) :
    parsePrimary stop (fuel + 2) (⟨i, j, .mark '('⟩ :: (us ++ ⟨k, l, .mark ')'⟩ :: rest)) =
      .ok (.parens i e, rest) := by
  have hexpression : parseExpression stop (fuel + 1) (us ++ ⟨k, l, .mark ')'⟩ :: rest) =
      .ok (e, ⟨k, l, .mark ')'⟩ :: rest) := by
    unfold parseExpression
    simp only [h]
    rfl
  unfold parsePrimary
  simp [hexpression]

theorem parseProgram_of_expression {t : Token} (ht : opensPrimary t.lexeme) (hb : t.lexeme ≠ .mark '\x7b')
    (hf : t.lexeme ≠ .keyword "function") (h : parseExpression stop fuel (t :: ts) = .ok (e, [])) :
    parseProgram stop (fuel + 3) (t :: ts) = .ok [.expr t.start e] := by
  have hstatement : parseStatement stop (fuel + 2) (t :: ts) = .ok (.expr t.start e, []) := by
    rw [parseStatement_of_opens (.inl ht) hb hf]
    unfold parseExpressionStatement
    simp only [h]
    rfl
  unfold parseProgram
  simp only [hstatement]
  unfold parseProgram
  rfl

theorem parse_parens {text : String} (h : Operand e ls) (hts : tokenize text = .ok ts)
    (hlexemes : ts.map (·.lexeme) = .mark '(' :: (ls ++ [.mark ')'])) :
    ∃ i j e', parse text = .ok [.expr i (.parens j e')] ∧ e'.unplaced = e := by
  obtain ⟨i, j, us', rfl, hus'⟩ := cons_of_map hlexemes
  obtain ⟨us, vs, rfl, hus, hvs⟩ := List.map_eq_append_iff.1 hus'
  obtain ⟨k, l, rfl⟩ := one_of_map hvs
  obtain ⟨fuel, hfuel⟩ : ∃ fuel, 16 * ((⟨i, j, .mark '('⟩ :: (us ++ [⟨k, l, .mark ')'⟩])).length + 2) =
      fuel + 13 ∧ 16 * ls.length + 47 ≤ fuel := by
    rw [← hus]
    simp only [List.length_cons, List.length_append, List.length_map, List.length_nil]
    exact ⟨16 * us.length + 51, by omega, by omega⟩
  obtain ⟨e', hinner, hview⟩ := h.assignment (byteLength text.toList) hus
    (show Ends assignmentLevel [⟨k, l, .mark ')'⟩] from ends_cons_of_none rfl) hfuel.2
  have hends : Ends assignmentLevel [] := fun _ _ hnext => by cases hnext
  have hcall := parseCallMember_of_primary (by simp) (parsePrimary_parens i j hinner)
  rw [parseTails_of_not_tail (hends.mono (by decide)).not_any_isTail] at hcall
  have hassignment := parseAssignment_of_callMember rfl hcall hends
  have hexpression : parseExpression (byteLength text.toList) (fuel + 10)
      (⟨i, j, .mark '('⟩ :: (us ++ [⟨k, l, .mark ')'⟩])) = .ok (.parens i e', []) := by
    unfold parseExpression
    simp only [hassignment]
    rfl
  refine ⟨i, i, e', ?_, hview⟩
  rw [parse, hts]
  show parseProgram _ _ _ = _
  rw [hfuel.1]
  exact parseProgram_of_expression rfl (by simp) (by simp) hexpression

end TwinView.Script
