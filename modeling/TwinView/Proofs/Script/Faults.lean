import TwinView.Proofs.Script.Leftovers
import TwinView.Proofs.Text.Positions

/-!
Where a source is refused. The scanner blames an offset between two characters, the parser and the
compiler blame the start of a token or the end of the source; so the place of every refusal is one of the
source, with the line and the column that are counted from its start.
-/

namespace TwinView.Script

open Text Code

variable {α β : Type} {here start stop fuel i : Nat} {cs rest taken : List Char} {r : Refusal}
  {t : Token} {left : Rest} {ts all : List Token} {behind : α → List Token} {behind' : β → List Token}

/-! The scanner. -/

/-- The offset lies between two characters of a text whose first one lies at `here`, or at its end. -/
def IsBoundary (here : Nat) (cs : List Char) (i : Nat) : Prop :=
  ∃ before after, cs = before ++ after ∧ i = here + byteLength before

theorem isBoundary_here (here : Nat) (cs : List Char) : IsBoundary here cs here := ⟨[], cs, rfl, rfl⟩

theorem Takes.isBoundary (h : Takes here cs taken left) (hi : IsBoundary left.offset left.chars i) :
    IsBoundary here cs i := by
  obtain ⟨before, after, hchars, rfl⟩ := hi
  refine ⟨taken ++ before, after, by rw [h.chars, hchars, List.append_assoc], ?_⟩
  rw [h.offset, byteLength_append, Nat.add_assoc]

theorem IsBoundary.cons {c : Char} (h : IsBoundary (here + c.utf8Size) cs i) :
    IsBoundary here (c :: cs) i :=
  (Takes.nil.cons c).isBoundary h

theorem IsBoundary.ascii {c : Char} (hc : c ≤ '\x7F') (h : IsBoundary (here + 1) cs i) :
    IsBoundary here (c :: cs) i :=
  (Takes.nil.ascii hc).isBoundary h

theorem isBoundary_of_skip {mode : Between} (h : skip mode here cs = .error r) :
    IsBoundary here cs r.index ∨ mode = .blockComment r.index := by
  fun_induction skip mode here cs with
  | case1 =>
      cases h
      exact .inr rfl
  | case2 | case6 | case7 => cases h
  | case3 here c rest _ ih => exact .inl ((ih h).resolve_right (by simp)).cons
  | case4 here rest _ ih =>
      exact .inl (.ascii (by decide) (.ascii (by decide) ((ih h).resolve_right (by simp))))
  | case5 here rest _ ih =>
      obtain hi | hi := ih h
      · exact .inl (.ascii (by decide) (.ascii (by decide) hi))
      · cases hi
        exact .inl (isBoundary_here _ _)
  | case8 here c rest ih =>
      refine .inl ((ih h).resolve_right fun hmode => ?_).cons
      split at hmode <;> cases hmode
  | case9 _ here rest ih =>
      exact .inl (.ascii (by decide) (.ascii (by decide) ((ih h).resolve_right (by simp))))
  | case10 _ here rest _ ih => exact (ih h).imp_left (.ascii (by decide))
  | case11 _ here c rest _ ih => exact (ih h).imp_left .cons

theorem isBoundary_of_scanExponent (h : scanExponent here cs = .error r) : IsBoundary here cs r.index := by
  unfold scanExponent at h
  split at h
  · cases h
  · next c rest =>
      split at h
      · next hc =>
          obtain ⟨sign, hsign⟩ := takes_splitSign (here + 1) rest
          dsimp only at h
          split at h
          · cases h
            exact .ascii (le_of_isExponent hc) (hsign.isBoundary (isBoundary_here _ _))
          · cases h
      · cases h

theorem isBoundary_of_scanDecimal (h : scanDecimal start cs = .error r) : IsBoundary start cs r.index := by
  unfold scanDecimal at h
  obtain ⟨part, hpart, -⟩ := takes_splitFraction (start + (cs.takeWhile isDigit).length)
    (cs.dropWhile isDigit)
  have hfront : Takes start cs (cs.takeWhile isDigit ++ part) _ := .run (fun _ => le_of_isDigit) hpart
  dsimp only at h
  obtain he | ⟨⟨n, r'⟩, he, h⟩ := bind_eq_error.1 h
  · exact hfront.isBoundary (isBoundary_of_scanExponent he)
  · obtain ⟨taken, ht⟩ := takes_of_scanExponent he
    dsimp only at h
    split at h
    · cases h
      exact (hfront.append ht).isBoundary (isBoundary_here _ _)
    · cases h

/-- A text that does not end is refused at its start, a malformed escape where it stands. -/
theorem isBoundary_of_scanText {quote : Char} {skipped : Nat}
    (h : scanText quote start skipped here cs = .error r) :
    IsBoundary here cs r.index ∨ r.index = start := by
  fun_induction scanText quote start skipped here cs with
  | case1 | case3 | case7 =>
      cases h
      exact .inr rfl
  | case2 _ here c rest ih => exact (ih h).imp_left .cons
  | case4 => cases h
  | case5 here rest _ _ _ _ _ ih =>
      obtain hs | ⟨_, -, h⟩ := bind_eq_error.1 h
      · exact (ih hs).imp_left (.ascii (by decide))
      · cases h
  | case6 here rest =>
      cases h
      exact .inl (isBoundary_here _ _)
  | case8 here c rest _ _ _ ih =>
      obtain hs | ⟨_, -, h⟩ := bind_eq_error.1 h
      · exact (ih hs).imp_left .cons
      · cases h

theorem isBoundary_of_scanToken {c : Char} (h : scanToken start c rest = .error r) :
    IsBoundary start (c :: rest) r.index := by
  unfold scanToken at h
  split at h
  · cases h
  · split at h
    · unfold scanNumber scanHex at h
      dsimp only at h
      split at h
      · split at h
        · cases h
          exact isBoundary_here _ _
        · cases h
      · split at h
        · cases h
          exact isBoundary_here _ _
        · cases h
      · exact isBoundary_of_scanDecimal h
    · split at h
      · cases h
      · split at h
        · next hq =>
            have hascii : c ≤ '\x7F' := by
              rcases (by simpa [isQuote] using hq : c = '\'' ∨ c = '"') with rfl | rfl <;> decide
            obtain hs | ⟨_, -, h⟩ := bind_eq_error.1 h
            · obtain hi | hi := isBoundary_of_scanText hs
              · exact hi.ascii hascii
              · exact hi ▸ isBoundary_here _ _
            · cases h
        · unfold scanOperator at h
          split at h
          · cases h
          · cases h
            exact isBoundary_here _ _

theorem isBoundary_of_scans (h : Scans here cs (.error r)) : IsBoundary here cs r.index := by
  generalize ho : Except.error r = outcome at h
  induction h with
  | badGap h =>
      cases ho
      exact (isBoundary_of_skip h).resolve_right (by simp)
  | badToken h ht =>
      cases ho
      obtain ⟨gap, hgap, -⟩ := skipped_of_skip h
      exact hgap.isBoundary (isBoundary_of_scanToken ht)
  | done => cases ho
  | @token _ _ _ _ _ _ _ outcome h ht _ ih =>
      cases outcome with
      | error r' =>
          cases ho
          obtain ⟨gap, hgap, -⟩ := skipped_of_skip h
          obtain ⟨-, -, slice, -, hslice, -⟩ := scanned_scanToken ht
          exact (hgap.append hslice).isBoundary (ih rfl)
      | ok => cases ho

/-! The parser. -/

/-- What is refused is one of the tokens, or the end of the source; otherwise some of the tokens are left. -/
def Stays (stop : Nat) (all : List Token) (behind : α → List Token) : Except Refusal α → Prop
  | .error r => r.index = stop ∨ HasStart all r.index
  | .ok a => behind a ⊆ all

abbrev StaysBehind (stop : Nat) (all : List Token) (x : Except Refusal (Parsed α)) : Prop :=
  Stays stop all Prod.snd x

theorem Stays.bind {x : Except Refusal α} {f : α → Except Refusal β} (hx : Stays stop all behind x)
    (hf : ∀ a, x = .ok a → behind a ⊆ all → Stays stop all behind' (f a)) :
    Stays stop all behind' (x >>= f) := by
  cases x with
  | error r => exact hx
  | ok a => exact hf a rfl hx

theorem stays_unexpected (h : ts ⊆ all) : Stays stop all behind (unexpected stop ts) := by
  cases ts with
  | nil => exact .inl rfl
  | cons t ts => exact .inr ⟨t, h List.mem_cons_self, rfl⟩

theorem stays_startOf {fault : ScriptFault} (h : ts ⊆ all) :
    Stays stop all behind (.error ⟨fault, startOf stop ts⟩) := by
  cases ts with
  | nil => exact .inl rfl
  | cons t ts => exact .inr ⟨t, h List.mem_cons_self, rfl⟩

theorem subset_of_cons (h : t :: ts ⊆ all) : ts ⊆ all := fun _ ht => h (List.mem_cons_of_mem _ ht)

theorem subset_of_accept {l : Lexeme} {rest : List Token} (h : ts ⊆ all) (ha : accept? l ts = some rest) :
    rest ⊆ all := by
  obtain ⟨i, j, rfl⟩ := accept?_eq_some ha
  exact subset_of_cons h

theorem subset_drop (h : ts ⊆ all) (k : Nat) : ts.drop k ⊆ all := fun _ ht => h (List.mem_of_mem_drop ht)

theorem subset_skipSemicolon (h : ts ⊆ all) : skipSemicolon ts ⊆ all := by
  obtain ⟨us, hus, -⟩ := ended_skipSemicolon ts
  intro t ht
  refine h ?_
  rw [hus]
  exact List.mem_append_right us ht

theorem stays_expect (h : ts ⊆ all) (c : Char) : Stays stop all id (expect stop c ts) := by
  unfold expect
  split
  · next ha => exact subset_of_accept h ha
  · exact .inl rfl
  · next t ts _ => exact .inr ⟨t, h List.mem_cons_self, rfl⟩

theorem stays_expectName (h : ts ⊆ all) : StaysBehind stop all (expectName stop ts) := by
  unfold expectName
  split
  · exact subset_of_cons h
  · exact stays_unexpected h

theorem stays_expectProperty (h : ts ⊆ all) : StaysBehind stop all (expectProperty stop ts) := by
  unfold expectProperty
  split
  · exact subset_of_cons h
  · exact subset_of_cons h
  · exact stays_unexpected h

theorem stays_parseKey (h : ts ⊆ all) : StaysBehind stop all (parseKey stop ts) := by
  unfold parseKey
  split
  iterate 4 exact subset_of_cons h
  exact stays_unexpected h

theorem stays_parameterNames (h : ts ⊆ all) : StaysBehind stop all (parameterNames stop fuel ts) := by
  induction fuel generalizing ts with
  | zero => exact stays_unexpected h
  | succ fuel ih =>
      unfold parameterNames
      refine (stays_expectName h).bind fun _ _ h => ?_
      dsimp only
      split
      · next ha => exact subset_of_accept h ha
      · refine (stays_expect h ',').bind fun _ _ h => ?_
        exact (ih h).bind fun _ _ h => h

/-- What the parsing functions refuse, and what they leave, with some bound of the recursion. -/
structure AllStay (stop : Nat) (all : List Token) (fuel : Nat) : Prop where
  program : ∀ {ts}, ts ⊆ all → Stays stop all (fun _ => []) (parseProgram stop fuel ts)
  statement : ∀ {ts}, ts ⊆ all → StaysBehind stop all (parseStatement stop fuel ts)
  expressionStatement : ∀ {start ts}, ts ⊆ all →
    StaysBehind stop all (parseExpressionStatement stop fuel start ts)
  block : ∀ {ts}, ts ⊆ all → StaysBehind stop all (parseBlock stop fuel ts)
  decls : ∀ {ts}, ts ⊆ all → StaysBehind stop all (parseDecls stop fuel ts)
  init : ∀ {ts}, ts ⊆ all → StaysBehind stop all (parseInit stop fuel ts)
  loop : ∀ {start ts}, ts ⊆ all → StaysBehind stop all (parseLoop stop fuel start ts)
  loopInit : ∀ {ts}, ts ⊆ all → StaysBehind stop all (parseLoopInit stop fuel ts)
  option : ∀ {c ts}, ts ⊆ all → StaysBehind stop all (parseOptional stop fuel c ts)
  function : ∀ {start ts}, ts ⊆ all → StaysBehind stop all (parseFunction stop fuel start ts)
  expression : ∀ {ts}, ts ⊆ all → StaysBehind stop all (parseExpression stop fuel ts)
  commas : ∀ {ts}, ts ⊆ all → StaysBehind stop all (parseCommas stop fuel ts)
  assignment : ∀ {ts}, ts ⊆ all → StaysBehind stop all (parseAssignment stop fuel ts)
  conditional : ∀ {ts}, ts ⊆ all → StaysBehind stop all (parseConditional stop fuel ts)
  operators : ∀ {least ts}, ts ⊆ all → StaysBehind stop all (parseInfix stop fuel least ts)
  moreOperators : ∀ {least left ts}, ts ⊆ all →
    StaysBehind stop all (parseInfixRest stop fuel least left ts)
  unary : ∀ {ts}, ts ⊆ all → StaysBehind stop all (parseUnary stop fuel ts)
  behind : ∀ {ts}, ts ⊆ all → StaysBehind stop all (parsePostfix stop fuel ts)
  callMember : ∀ {ts}, ts ⊆ all → StaysBehind stop all (parseCallMember stop fuel ts)
  head : ∀ {ts}, ts ⊆ all → StaysBehind stop all (parseHead stop fuel ts)
  tails : ∀ {calls left ts}, ts ⊆ all → StaysBehind stop all (parseTails stop fuel calls left ts)
  new : ∀ {ts}, ts ⊆ all → StaysBehind stop all (parseNew stop fuel ts)
  arguments : ∀ {ts}, ts ⊆ all → StaysBehind stop all (parseArguments stop fuel ts)
  moreArguments : ∀ {ts}, ts ⊆ all → StaysBehind stop all (parseMoreArguments stop fuel ts)
  primary : ∀ {ts}, ts ⊆ all → StaysBehind stop all (parsePrimary stop fuel ts)
  items : ∀ {ts}, ts ⊆ all → StaysBehind stop all (parseItems stop fuel ts)
  props : ∀ {ts}, ts ⊆ all → StaysBehind stop all (parseProps stop fuel ts)

namespace AllStay

/-! Statements. -/

theorem program_succ (ih : AllStay stop all fuel) (h : ts ⊆ all) :
    Stays stop all (fun _ => []) (parseProgram stop (fuel + 1) ts) := by
  unfold parseProgram
  split
  · exact List.nil_subset _
  · exact stays_unexpected h
  · next heq _ =>
      cases heq
      refine (ih.statement h).bind fun _ _ h => ?_
      exact (ih.program h).bind fun _ _ _ => List.nil_subset _

theorem statement_succ (ih : AllStay stop all fuel) (h : ts ⊆ all) :
    StaysBehind stop all (parseStatement stop (fuel + 1) ts) := by
  unfold parseStatement
  dsimp only
  split
  · exact .inl rfl
  · exact (ih.block (subset_of_cons h)).bind fun _ _ h => h
  · exact subset_of_cons h
  · exact (ih.decls (subset_of_cons h)).bind fun _ _ h => subset_skipSemicolon h
  · exact (ih.function (subset_of_cons h)).bind fun _ _ h => h
  · split
    · exact subset_skipSemicolon (subset_of_cons h)
    · exact (ih.expression (subset_of_cons h)).bind fun _ _ h => subset_skipSemicolon h
  · exact ih.loop (subset_of_cons h)
  · exact stays_startOf h
  · split
    · split
      · exact stays_startOf h
      · exact ih.expressionStatement h
    · exact ih.expressionStatement h

theorem expressionStatement_succ (ih : AllStay stop all fuel) (h : ts ⊆ all) :
    StaysBehind stop all (parseExpressionStatement stop (fuel + 1) start ts) := by
  unfold parseExpressionStatement
  exact (ih.expression h).bind fun _ _ h => subset_skipSemicolon h

theorem block_succ (ih : AllStay stop all fuel) (h : ts ⊆ all) :
    StaysBehind stop all (parseBlock stop (fuel + 1) ts) := by
  unfold parseBlock
  split
  · exact .inl rfl
  · exact subset_of_cons h
  · refine (ih.statement h).bind fun _ _ h => ?_
    exact (ih.block h).bind fun _ _ h => h

theorem decls_succ (ih : AllStay stop all fuel) (h : ts ⊆ all) :
    StaysBehind stop all (parseDecls stop (fuel + 1) ts) := by
  unfold parseDecls
  refine (stays_expectName h).bind fun _ _ h => ?_
  refine (ih.init h).bind fun _ _ h => ?_
  dsimp only
  split
  · exact h
  · next ha => exact (ih.decls (subset_of_accept h ha)).bind fun _ _ h => h

theorem init_succ (ih : AllStay stop all fuel) (h : ts ⊆ all) :
    StaysBehind stop all (parseInit stop (fuel + 1) ts) := by
  unfold parseInit
  split
  · exact h
  · next ha => exact (ih.assignment (subset_of_accept h ha)).bind fun _ _ h => h

theorem loop_succ (ih : AllStay stop all fuel) (h : ts ⊆ all) :
    StaysBehind stop all (parseLoop stop (fuel + 1) start ts) := by
  unfold parseLoop
  refine (stays_expect h '(').bind fun _ _ h => ?_
  refine (ih.loopInit h).bind fun _ _ h => ?_
  dsimp only
  split
  · exact stays_startOf h
  · refine (stays_expect h ';').bind fun _ _ h => ?_
    refine (ih.option h).bind fun _ _ h => ?_
    refine (stays_expect h ';').bind fun _ _ h => ?_
    refine (ih.option h).bind fun _ _ h => ?_
    refine (stays_expect h ')').bind fun _ _ h => ?_
    exact (ih.statement h).bind fun _ _ h => h

theorem loopInit_succ (ih : AllStay stop all fuel) (h : ts ⊆ all) :
    StaysBehind stop all (parseLoopInit stop (fuel + 1) ts) := by
  unfold parseLoopInit
  split
  · exact h
  · dsimp only
    split
    · next ha => exact (ih.decls (subset_of_accept h ha)).bind fun _ _ h => h
    · exact (ih.expression h).bind fun _ _ h => h

theorem option_succ (ih : AllStay stop all fuel) {c : Char} (h : ts ⊆ all) :
    StaysBehind stop all (parseOptional stop (fuel + 1) c ts) := by
  unfold parseOptional
  split
  · exact h
  · exact (ih.expression h).bind fun _ _ h => h

theorem function_succ (ih : AllStay stop all fuel) (h : ts ⊆ all) :
    StaysBehind stop all (parseFunction stop (fuel + 1) start ts) := by
  have hname : (functionName ts).2 ⊆ all := by
    unfold functionName
    split
    · exact subset_of_cons h
    · exact h
  have hparams {us : List Token} (h : us ⊆ all) : StaysBehind stop all (parameters stop us) := by
    unfold parameters
    split
    · next ha => exact subset_of_accept h ha
    · exact stays_parameterNames h
  rw [parseFunction_succ]
  refine (stays_expect hname '(').bind fun _ _ h => ?_
  refine (hparams h).bind fun _ _ h => ?_
  refine (stays_expect h '\x7b').bind fun _ _ h => ?_
  exact (ih.block h).bind fun _ _ h => h

/-! Expressions. -/

theorem expression_succ (ih : AllStay stop all fuel) (h : ts ⊆ all) :
    StaysBehind stop all (parseExpression stop (fuel + 1) ts) := by
  unfold parseExpression
  refine (ih.assignment h).bind fun _ _ h => ?_
  dsimp only
  split
  · exact (ih.commas h).bind fun _ _ h => h
  · exact h

theorem commas_succ (ih : AllStay stop all fuel) (h : ts ⊆ all) :
    StaysBehind stop all (parseCommas stop (fuel + 1) ts) := by
  unfold parseCommas
  split
  · exact h
  · next ha =>
      refine (ih.assignment (subset_of_accept h ha)).bind fun _ _ h => ?_
      exact (ih.commas h).bind fun _ _ h => h

/-- What is no target of an assignment is refused at its first token. -/
theorem assignment_succ (ih : AllStay stop all fuel) (h : ts ⊆ all) :
    StaysBehind stop all (parseAssignment stop (fuel + 1) ts) := by
  unfold parseAssignment
  refine (ih.conditional h).bind fun ⟨left, rest⟩ hleft hrest => ?_
  dsimp only at hrest ⊢
  split
  · exact hrest
  · split
    · exact (ih.assignment (subset_drop hrest 1)).bind fun _ _ h => h
    · obtain ⟨us, rfl, hw, -⟩ := (sound stop fuel).conditional hleft
      exact .inr (hw.startsAt.hasStart.mono fun t ht => h (List.mem_append_left rest ht))

theorem conditional_succ (ih : AllStay stop all fuel) (h : ts ⊆ all) :
    StaysBehind stop all (parseConditional stop (fuel + 1) ts) := by
  unfold parseConditional
  refine (ih.operators h).bind fun _ _ h => ?_
  dsimp only
  split
  · exact h
  · next ha =>
      refine (ih.assignment (subset_of_accept h ha)).bind fun _ _ h => ?_
      refine (stays_expect h ':').bind fun _ _ h => ?_
      exact (ih.assignment h).bind fun _ _ h => h

theorem operators_succ (ih : AllStay stop all fuel) {least : Nat} (h : ts ⊆ all) :
    StaysBehind stop all (parseInfix stop (fuel + 1) least ts) := by
  unfold parseInfix
  exact (ih.unary h).bind fun _ _ h => ih.moreOperators h

theorem moreOperators_succ (ih : AllStay stop all fuel) {least : Nat} {left : Expr} (h : ts ⊆ all) :
    StaysBehind stop all (parseInfixRest stop (fuel + 1) least left ts) := by
  unfold parseInfixRest
  split
  · exact h
  · split
    · exact h
    · exact (ih.operators (subset_drop h 1)).bind fun _ _ h => ih.moreOperators h

theorem unary_succ (ih : AllStay stop all fuel) (h : ts ⊆ all) :
    StaysBehind stop all (parseUnary stop (fuel + 1) ts) := by
  unfold parseUnary
  split
  · exact .inl rfl
  · split
    · exact (ih.unary (subset_of_cons h)).bind fun _ _ h => h
    · exact stays_unexpected h
  · exact (ih.unary (subset_of_cons h)).bind fun _ _ h => h
  · exact stays_startOf h
  · exact stays_startOf h
  · exact ih.behind h

theorem behind_succ (ih : AllStay stop all fuel) (h : ts ⊆ all) :
    StaysBehind stop all (parsePostfix stop (fuel + 1) ts) := by
  unfold parsePostfix
  refine (ih.callMember h).bind fun _ _ h => ?_
  dsimp only
  split
  · next ha => exact subset_of_accept h ha
  · next ha => exact subset_of_accept h ha
  · exact h

theorem callMember_succ (ih : AllStay stop all fuel) (h : ts ⊆ all) :
    StaysBehind stop all (parseCallMember stop (fuel + 1) ts) := by
  unfold parseCallMember
  exact (ih.head h).bind fun _ _ h => ih.tails h

theorem head_succ (ih : AllStay stop all fuel) (h : ts ⊆ all) :
    StaysBehind stop all (parseHead stop (fuel + 1) ts) := by
  unfold parseHead
  split
  · exact ih.new h
  · exact ih.primary h

theorem tails_succ (ih : AllStay stop all fuel) {calls : Bool} {left : Expr} (h : ts ⊆ all) :
    StaysBehind stop all (parseTails stop (fuel + 1) calls left ts) := by
  unfold parseTails
  split
  · exact (stays_expectProperty (subset_of_cons h)).bind fun _ _ h => ih.tails h
  · refine (ih.expression (subset_of_cons h)).bind fun _ _ h => ?_
    exact (stays_expect h ']').bind fun _ _ h => ih.tails h
  · split
    · exact (ih.arguments (subset_of_cons h)).bind fun _ _ h => ih.tails h
    · exact h
  · exact h

theorem new_succ (ih : AllStay stop all fuel) (h : ts ⊆ all) :
    StaysBehind stop all (parseNew stop (fuel + 1) ts) := by
  unfold parseNew
  refine (ih.head (subset_drop h 1)).bind fun _ _ h => ?_
  refine (ih.tails h).bind fun _ _ h => ?_
  dsimp only
  split
  · exact h
  · next ha => exact (ih.arguments (subset_of_accept h ha)).bind fun _ _ h => h

theorem arguments_succ (ih : AllStay stop all fuel) (h : ts ⊆ all) :
    StaysBehind stop all (parseArguments stop (fuel + 1) ts) := by
  unfold parseArguments
  split
  · next ha => exact subset_of_accept h ha
  · exact ih.moreArguments h

theorem moreArguments_succ (ih : AllStay stop all fuel) (h : ts ⊆ all) :
    StaysBehind stop all (parseMoreArguments stop (fuel + 1) ts) := by
  unfold parseMoreArguments
  refine (ih.assignment h).bind fun _ _ h => ?_
  dsimp only
  split
  · next ha => exact subset_of_accept h ha
  · refine (stays_expect h ',').bind fun _ _ h => ?_
    exact (ih.moreArguments h).bind fun _ _ h => h

theorem primary_succ (ih : AllStay stop all fuel) (h : ts ⊆ all) :
    StaysBehind stop all (parsePrimary stop (fuel + 1) ts) := by
  unfold parsePrimary
  split
  iterate 7 exact subset_of_cons h
  · exact (ih.function (subset_of_cons h)).bind fun _ _ h => h
  · refine (ih.expression (subset_of_cons h)).bind fun _ _ h => ?_
    exact (stays_expect h ')').bind fun _ _ h => h
  · exact (ih.items (subset_of_cons h)).bind fun _ _ h => h
  · exact (ih.props (subset_of_cons h)).bind fun _ _ h => h
  · exact stays_unexpected h

theorem items_succ (ih : AllStay stop all fuel) (h : ts ⊆ all) :
    StaysBehind stop all (parseItems stop (fuel + 1) ts) := by
  unfold parseItems
  split
  · next ha => exact subset_of_accept h ha
  · refine (ih.assignment h).bind fun _ _ h => ?_
    dsimp only
    split
    · next ha => exact (ih.items (subset_of_accept h ha)).bind fun _ _ h => h
    · exact (stays_expect h ']').bind fun _ _ h => h

theorem props_succ (ih : AllStay stop all fuel) (h : ts ⊆ all) :
    StaysBehind stop all (parseProps stop (fuel + 1) ts) := by
  unfold parseProps
  split
  · next ha => exact subset_of_accept h ha
  · refine (stays_parseKey h).bind fun _ _ h => ?_
    refine (stays_expect h ':').bind fun _ _ h => ?_
    refine (ih.assignment h).bind fun _ _ h => ?_
    dsimp only
    split
    · next ha => exact (ih.props (subset_of_accept h ha)).bind fun _ _ h => h
    · exact (stays_expect h '\x7d').bind fun _ _ h => h

end AllStay

theorem allStay_zero (stop : Nat) (all : List Token) : AllStay stop all 0 where
  program h := by
    unfold parseProgram
    split
    · exact List.nil_subset _
    · exact stays_unexpected h
    · next heq _ => cases heq
  statement h := by simpa only [parseStatement] using stays_unexpected h
  expressionStatement h := by simpa only [parseExpressionStatement] using stays_unexpected h
  block h := by simpa only [parseBlock] using stays_unexpected h
  decls h := by simpa only [parseDecls] using stays_unexpected h
  init h := by simpa only [parseInit] using stays_unexpected h
  loop h := by simpa only [parseLoop] using stays_unexpected h
  loopInit h := by simpa only [parseLoopInit] using stays_unexpected h
  option h := by simpa only [parseOptional] using stays_unexpected h
  function h := by simpa only [parseFunction] using stays_unexpected h
  expression h := by simpa only [parseExpression] using stays_unexpected h
  commas h := by simpa only [parseCommas] using stays_unexpected h
  assignment h := by simpa only [parseAssignment] using stays_unexpected h
  conditional h := by simpa only [parseConditional] using stays_unexpected h
  operators h := by simpa only [parseInfix] using stays_unexpected h
  moreOperators h := by simpa only [parseInfixRest] using stays_unexpected h
  unary h := by simpa only [parseUnary] using stays_unexpected h
  behind h := by simpa only [parsePostfix] using stays_unexpected h
  callMember h := by simpa only [parseCallMember] using stays_unexpected h
  head h := by simpa only [parseHead] using stays_unexpected h
  tails h := by simpa only [parseTails] using stays_unexpected h
  new h := by simpa only [parseNew] using stays_unexpected h
  arguments h := by simpa only [parseArguments] using stays_unexpected h
  moreArguments h := by simpa only [parseMoreArguments] using stays_unexpected h
  primary h := by simpa only [parsePrimary] using stays_unexpected h
  items h := by simpa only [parseItems] using stays_unexpected h
  props h := by simpa only [parseProps] using stays_unexpected h

theorem allStay (stop : Nat) (all : List Token) (fuel : Nat) : AllStay stop all fuel := by
  induction fuel with
  | zero => exact allStay_zero stop all
  | succ fuel ih =>
      exact {
        program := ih.program_succ
        statement := ih.statement_succ
        expressionStatement := ih.expressionStatement_succ
        block := ih.block_succ
        decls := ih.decls_succ
        init := ih.init_succ
        loop := ih.loop_succ
        loopInit := ih.loopInit_succ
        option := ih.option_succ
        function := ih.function_succ
        expression := ih.expression_succ
        commas := ih.commas_succ
        assignment := ih.assignment_succ
        conditional := ih.conditional_succ
        operators := ih.operators_succ
        moreOperators := ih.moreOperators_succ
        unary := ih.unary_succ
        behind := ih.behind_succ
        callMember := ih.callMember_succ
        head := ih.head_succ
        tails := ih.tails_succ
        new := ih.new_succ
        arguments := ih.arguments_succ
        moreArguments := ih.moreArguments_succ
        primary := ih.primary_succ
        items := ih.items_succ
        props := ih.props_succ }

/-! Sources. -/

variable {source : String} {names : Names}

theorem isBoundary_of_hasStart (hts : tokenize source = .ok ts) (h : HasStart ts i) :
    IsBoundary 0 source.toList i := by
  obtain ⟨t, ht, rfl⟩ := h
  obtain ⟨-, before, slice, after, hsource, -, hstart, -⟩ := ((tokenize_tiles source).2 ts hts).2.2 t ht
  exact ⟨before, slice ++ after, hsource, hstart⟩

theorem isBoundary_tokenize (h : tokenize source = .error r) : IsBoundary 0 source.toList r.index :=
  isBoundary_of_scans (h ▸ scans_tokenize source)

theorem isBoundary_parse (h : parse source = .error r) : IsBoundary 0 source.toList r.index := by
  unfold parse at h
  obtain h | ⟨ts, hts, h⟩ := bind_eq_error.1 h
  · exact isBoundary_tokenize h
  · have hstays := (allStay (byteLength source.toList) ts (16 * (ts.length + 2))).program
      (List.Subset.refl ts)
    rw [h] at hstays
    obtain hend | hstart := hstays
    · exact ⟨source.toList, [], by simp, by rw [hend, Nat.zero_add]⟩
    · exact isBoundary_of_hasStart hts hstart

theorem isBoundary_compile (h : (compile names source).1 = .error r) :
    IsBoundary 0 source.toList r.index := by
  unfold compile at h
  cases hp : parse source with
  | error e =>
      rw [hp] at h
      cases h
      exact isBoundary_parse hp
  | ok program =>
      obtain ⟨ts, hts, hw⟩ := exists_written hp
      have hrefuses := (leaves_compileProgram program hw (inOrder_of_tokenize hts)).refuses { names }
      rw [hp] at h
      dsimp only at h
      generalize (compileProgram program).run.run { names } = y at h hrefuses
      obtain ⟨y, s⟩ := y
      cases y with
      | ok methods => cases h
      | error e =>
          cases h
          exact isBoundary_of_hasStart hts (hrefuses r rfl)

/-- Whatever refuses a source, the scanner, the parser or the compiler, the error has its place in the
source: between two of its characters or at its end, on the line and in the column that are counted from
its start. -/
theorem refusals_lie_inside (source : String) (names : Names) (r : Refusal)
    (h : tokenize source = .error r ∨ parse source = .error r ∨ (compile names source).1 = .error r) :
    ∃ before after, source.toList = before ++ after ∧ r.toError source = .script r.fault
      ⟨byteLength before, 1 + before.count '\n', (Position.lastLine before).length⟩ ∧
      byteLength before ≤ source.utf8ByteSize ∧ String.Pos.Raw.IsValid source ⟨byteLength before⟩ := by
  have hboundary : IsBoundary 0 source.toList r.index := by
    obtain h | h | h := h
    · exact isBoundary_tokenize h
    · exact isBoundary_parse h
    · exact isBoundary_compile h
  obtain ⟨before, after, hsource, hi⟩ := hboundary
  rw [Nat.zero_add] at hi
  refine ⟨before, after, hsource, ?_, ?_, ?_⟩
  · rw [Refusal.toError, hi, Position.locate_eq_after hsource, Position.after_start]
  · rw [← byteLength_toList, hsource, byteLength_append]
    exact Nat.le_add_right _ _
  · refine String.Pos.Raw.isValid_iff_exists_append.2 ⟨String.ofList before, String.ofList after, ?_, ?_⟩
    · rw [← String.ofList_append, ← hsource, String.ofList_toList]
    · rw [String.rawEndPos, ← byteLength_toList, String.toList_ofList]

/-- The source is refused at a place with the line and the column that are counted up to it. -/
def RefusedAt (source : String) (fault : ScriptFault) (place : Position) : Prop :=
  ∃ before after r, source.toList = before ++ after ∧ (compile {} source).1 = .error r ∧
    r.toError source = .script fault place ∧
    place = ⟨byteLength before, 1 + before.count '\n', (Position.lastLine before).length⟩

/-- The scanner refuses behind a character of two bytes, the parser at the end, and the compiler on the
third line. -/
theorem refusals_lie_inside_everywhere :
    RefusedAt "é 'a" .unterminatedString ⟨3, 1, 2⟩ ∧ RefusedAt "é +\n" .unexpectedEnd ⟨5, 2, 0⟩ ∧
      RefusedAt "function()\x7b\n é = 1;\n this; \x7d" .thisReference ⟨22, 3, 1⟩ := by
  have hall (source : String) (fault : ScriptFault) (place : Position)
      (hrefused : (match (compile {} source).1 with
        | .ok _ => false
        | .error r => decide (r.toError source = .script fault place)) = true) :
      RefusedAt source fault place := by
    cases h : (compile {} source).1 with
    | ok t => simp [h] at hrefused
    | error r =>
        have herror : r.toError source = .script fault place := by simpa [h] using hrefused
        obtain ⟨before, after, hsource, hplace, -⟩ := refusals_lie_inside source {} r (.inr (.inr h))
        exact ⟨before, after, r, hsource, h, herror, (Error.script.inj (herror.symm.trans hplace)).2⟩
  exact ⟨hall _ _ _ (by decide), hall _ _ _ (by decide +kernel), hall _ _ _ (by decide +kernel)⟩

end TwinView.Script
