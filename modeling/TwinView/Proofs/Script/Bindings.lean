import Mathlib.Data.List.Induction
import TwinView.Proofs.Script.Literals

/-!
Statements that bind dotted names: the declaration of a namespace, and what is bound to the call of a
function with at most one argument. A program of such statements is read back from its lexemes.
-/

namespace TwinView.Script

open Code

variable {e : Expr} {st : Stmt} {sts : List Stmt} {ls : List Lexeme} {lss : List (List Lexeme)}
  {stop fuel : Nat} {ts us rest : List Token} {s : String} {ss : List String}

def pathExpr (s : String) (ss : List String) : Expr := ss.foldl (.member 0) (.name 0 s)

def pathLexemes (s : String) (ss : List String) : List Lexeme :=
  .name s :: ss.flatMap fun part => [.mark '.', .name part]

/-- The tokens spell an expression that can be assigned to, whatever follows. -/
structure IsPath (e : Expr) (ts : List Token) : Prop where
  starts : StartsAt e.start ts
  written : ∀ rest, Written Separate e ts rest
  target : e.isTarget
  layered : e.isLayered

theorem isPath_of_lexemes (h : ts.map (·.lexeme) = pathLexemes s ss) :
    ∃ e, IsPath e ts ∧ e.unplaced = pathExpr s ss := by
  induction ss using List.reverseRecOn generalizing ts with
  | nil =>
      obtain ⟨i, j, rfl⟩ := one_of_map h
      exact ⟨.name i s, ⟨startsAt_cons _ _, fun _ => .name, rfl, rfl⟩, rfl⟩
  | append_singleton ss part ih =>
      rw [pathLexemes, List.flatMap_append, ← List.cons_append] at h
      obtain ⟨us, vs, rfl, hus, hvs⟩ := List.map_eq_append_iff.1 h
      obtain ⟨j, k, vs', rfl, hvs'⟩ := cons_of_map hvs
      obtain ⟨l, m, rfl⟩ := one_of_map hvs'
      obtain ⟨e, he, hview⟩ := ih hus
      refine ⟨.member e.start e part, ⟨he.starts.append _,
        fun rest => .member he.starts (he.written _) (.inl rfl), rfl, ?_⟩, ?_⟩
      · simp [Expr.isLayered, level_of_isTarget he.target, he.layered]
      · rw [Expr.unplaced, hview, pathExpr, pathExpr, List.foldl_append]
        rfl

/-- Wherever these lexemes stand, the parser takes them for the statement, up to offsets. -/
structure Sentence (st : Stmt) (ls : List Lexeme) : Prop where
  ne_nil : ls ≠ []
  parses : ∀ stop fuel ts rest, ts.map (·.lexeme) = ls → 16 * ls.length + 11 ≤ fuel →
    ∃ st', parseStatement stop fuel (ts ++ rest) = .ok (st', rest) ∧ st'.unplaced = st

theorem parseProgram_of_sentences (stop : Nat) (h : List.Forall₂ Sentence sts lss)
    (hts : ts.map (·.lexeme) = lss.flatten) (hfuel : 16 * ts.length + 12 ≤ fuel) :
    ∃ program, parseProgram stop fuel ts = .ok program ∧ Stmt.allUnplaced program = sts := by
  induction h generalizing ts fuel with
  | nil =>
      obtain rfl := List.map_eq_nil_iff.1 hts
      refine ⟨[], ?_, by rw [Stmt.allUnplaced]⟩
      unfold parseProgram
      rfl
  | @cons st ls sts lss h _ ih =>
      obtain ⟨us, vs, rfl, hus, hvs⟩ := List.map_eq_append_iff.1 hts
      have hlength : us.length = ls.length := by rw [← hus, List.length_map]
      have hpos := List.length_pos_iff.2 h.ne_nil
      rw [List.length_append] at hfuel
      obtain ⟨fuel, rfl⟩ := Nat.exists_eq_add_one_of_ne_zero (show fuel ≠ 0 by omega)
      obtain ⟨st', hst, hview⟩ := h.parses stop fuel us vs hus (by omega)
      obtain ⟨program, hprogram, hviews⟩ := ih hvs (show _ ≤ fuel by omega)
      refine ⟨st' :: program, ?_, by rw [Stmt.allUnplaced, hview, hviews]⟩
      obtain ⟨t, us, rfl⟩ := List.exists_cons_of_ne_nil (List.length_pos_iff.1 (hlength ▸ hpos))
      unfold parseProgram
      simp only [List.cons_append] at hst ⊢
      simp [hst, hprogram]

theorem parse_of_sentences {text : String} (hts : tokenize text = .ok ts)
    (h : List.Forall₂ Sentence sts lss) (hlexemes : ts.map (·.lexeme) = lss.flatten) :
    ∃ program, parse text = .ok program ∧ Stmt.allUnplaced program = sts := by
  obtain ⟨program, hprogram, hview⟩ := parseProgram_of_sentences (byteLength text.toList) h hlexemes
    (show _ ≤ 16 * (ts.length + 2) by omega)
  exact ⟨program, by simp [parse, hts, hprogram], hview⟩

/-- Wherever these lexemes stand, in front of what does not go on with an assignment, the parser takes
them for the expression, up to offsets. -/
def Assigned (e : Expr) (ls : List Lexeme) : Prop :=
  ∀ stop fuel ts rest, ts.map (·.lexeme) = ls → Ends assignmentLevel rest → 16 * ls.length + 8 ≤ fuel →
    ∃ e', parseAssignment stop fuel (ts ++ rest) = .ok (e', rest) ∧ e'.unplaced = e

/-- Binds a dotted name: one part is declared, several are assigned to. -/
def bindStmt (s : String) (ss : List String) (value : Expr) : Stmt :=
  if ss.isEmpty then .var 0 [⟨s, some value, 0⟩] else .expr 0 (.binary 0 .assign (pathExpr s ss) value)

def bindLexemes (s : String) (ss : List String) (ls : List Lexeme) : List Lexeme :=
  (if ss.isEmpty then [.keyword "var"] else []) ++
    (pathLexemes s ss ++ .operator "=" :: (ls ++ [.mark ';']))

theorem sentence_declare {value : Expr} (h : Assigned value ls) :
    Sentence (bindStmt s [] value) (bindLexemes s [] ls) where
  ne_nil := List.cons_ne_nil _ _
  parses stop fuel ts rest hts hfuel := by
    obtain ⟨i, j, ts₁, rfl, hts₁⟩ := cons_of_map hts
    obtain ⟨k, l, ts₂, rfl, hts₂⟩ := cons_of_map hts₁
    obtain ⟨m, n, ts₃, rfl, hts₃⟩ := cons_of_map hts₂
    obtain ⟨us, vs, rfl, hus, hvs⟩ := List.map_eq_append_iff.1 hts₃
    obtain ⟨o, p, rfl⟩ := one_of_map hvs
    rw [← hts, List.length_map] at hfuel
    simp only [List.length_cons, List.length_append, List.length_nil] at hfuel
    obtain ⟨fuel, rfl⟩ := Nat.exists_eq_add_of_le' (show 3 ≤ fuel by omega)
    obtain ⟨e, he, hview⟩ := h stop fuel us (⟨o, p, .mark ';'⟩ :: rest) hus (ends_cons_of_none rfl)
      (by rw [← hus, List.length_map]; omega)
    refine ⟨.var i [⟨s, some e, k⟩], ?_, by
      simp [Stmt.unplaced, declsUnplaced, optionUnplaced, hview, bindStmt]⟩
    have hinit : parseInit stop (fuel + 1) (⟨m, n, .operator "="⟩ :: (us ++ ⟨o, p, .mark ';'⟩ :: rest)) =
        .ok (some e, ⟨o, p, .mark ';'⟩ :: rest) := by
      unfold parseInit
      simp [he]
    have hdecls : parseDecls stop (fuel + 2)
        (⟨k, l, .name s⟩ :: ⟨m, n, .operator "="⟩ :: (us ++ ⟨o, p, .mark ';'⟩ :: rest)) =
        .ok ([⟨s, some e, k⟩], ⟨o, p, .mark ';'⟩ :: rest) := by
      unfold parseDecls
      simp [expectName, hinit, startOf]
    unfold parseStatement
    simp [hdecls, skipSemicolon, startOf]

theorem sentence_assign {value : Expr} {part : String} (h : Assigned value ls) :
    Sentence (bindStmt s (part :: ss) value) (bindLexemes s (part :: ss) ls) where
  ne_nil := List.cons_ne_nil _ _
  parses stop fuel ts rest hts hfuel := by
    have hsplit : ts.map (·.lexeme) =
        pathLexemes s (part :: ss) ++ .operator "=" :: (ls ++ [.mark ';']) := hts
    obtain ⟨us, ts₁, rfl, hus, hts₁⟩ := List.map_eq_append_iff.1 hsplit
    obtain ⟨i, j, ts₂, rfl, hts₂⟩ := cons_of_map hts₁
    obtain ⟨vs, ws, rfl, hvs, hws⟩ := List.map_eq_append_iff.1 hts₂
    obtain ⟨k, l, rfl⟩ := one_of_map hws
    obtain ⟨path, hpath, hpathView⟩ := isPath_of_lexemes hus
    rw [← hts, List.length_map] at hfuel
    simp only [List.length_cons, List.length_append, List.length_nil] at hfuel
    obtain ⟨fuel, rfl⟩ := Nat.exists_eq_add_of_le' (show 4 ≤ fuel by omega)
    obtain ⟨e, he, hview⟩ := h stop fuel vs (⟨k, l, .mark ';'⟩ :: rest) hvs (ends_cons_of_none rfl)
      (by rw [← hvs, List.length_map]; omega)
    have htight := level_of_isTarget hpath.target
    have hparses := (complete stop _).expr (Nat.lt_succ_self _)
      (hpath.written (⟨i, j, .operator "="⟩ :: (vs ++ ⟨k, l, .mark ';'⟩ :: rest))) hpath.layered
    have hconditional := hparses.conditional fuel (by rw [htight]; decide) (ends_cons rfl (by decide))
      (by rw [htight]; intro hc; cases hc) (by omega)
    have hassignment : parseAssignment stop (fuel + 1)
        (us ++ ⟨i, j, .operator "="⟩ :: (vs ++ ⟨k, l, .mark ';'⟩ :: rest)) =
        .ok (.binary path.start .assign path e, ⟨k, l, .mark ';'⟩ :: rest) := by
      unfold parseAssignment
      simp [hconditional, hpath.target, next, assignment?, assignmentTable, he]
    have hexpression : parseExpression stop (fuel + 2)
        (us ++ ⟨i, j, .operator "="⟩ :: (vs ++ ⟨k, l, .mark ';'⟩ :: rest)) =
        .ok (.binary path.start .assign path e, ⟨k, l, .mark ';'⟩ :: rest) := by
      unfold parseExpression
      simp only [hassignment]
      rfl
    have hstatement (m : Nat) : parseExpressionStatement stop (fuel + 3) m
        (us ++ ⟨i, j, .operator "="⟩ :: (vs ++ ⟨k, l, .mark ';'⟩ :: rest)) =
        .ok (.expr m (.binary path.start .assign path e), rest) := by
      unfold parseExpressionStatement
      simp only [hexpression]
      rfl
    obtain ⟨m, n, us, rfl, -⟩ := cons_of_map hus
    refine ⟨.expr m (.binary path.start .assign path e), ?_, ?_⟩
    · have htokens : ⟨m, n, .name s⟩ :: us ++ ⟨i, j, .operator "="⟩ :: (vs ++ [⟨k, l, .mark ';'⟩]) ++ rest =
          ⟨m, n, .name s⟩ :: (us ++ ⟨i, j, .operator "="⟩ :: (vs ++ ⟨k, l, .mark ';'⟩ :: rest)) := by simp
      rw [htokens]
      exact (parseStatement_of_opens (.inl rfl) (by simp) (by simp) _).trans (hstatement m)
    · rw [Stmt.unplaced, Expr.unplaced, hpathView, hview]
      rfl

theorem sentence_bind {value : Expr} (h : Assigned value ls) :
    Sentence (bindStmt s ss value) (bindLexemes s ss ls) := by
  cases ss with
  | nil => exact sentence_declare h
  | cons part ss => exact sentence_assign h

def orEmpty (s : String) (ss : List String) : Expr := .binary 0 .or (pathExpr s ss) (.object 0 [])

theorem assigned_orEmpty (s : String) (ss : List String) :
    Assigned (orEmpty s ss) (pathLexemes s ss ++ [.operator "||", .mark '\x7b', .mark '\x7d']) := by
  intro stop fuel ts rest hts hends hfuel
  obtain ⟨us, vs, rfl, hus, hvs⟩ := List.map_eq_append_iff.1 hts
  obtain ⟨j, k, vs₁, rfl, hvs₁⟩ := cons_of_map hvs
  obtain ⟨l, m, vs₂, rfl, hvs₂⟩ := cons_of_map hvs₁
  obtain ⟨n, o, rfl⟩ := one_of_map hvs₂
  obtain ⟨e, he, hview⟩ := isPath_of_lexemes hus
  have hwritten : Written Separate (.binary e.start .or e (.object l []))
      (us ++ [⟨j, k, .operator "||"⟩, ⟨l, m, .mark '\x7b'⟩, ⟨n, o, .mark '\x7d'⟩]) rest :=
    .binary he.starts (he.written _) (.object .nil)
  have hlayered : (Expr.binary e.start .or e (.object l [])).isLayered := by
    rw [Expr.isLayered, level_of_isTarget he.target, he.layered]
    rfl
  rw [← hts, List.length_map] at hfuel
  refine ⟨.binary e.start .or e (.object l []), ?_, ?_⟩
  · exact ((complete stop _).expr (Nat.lt_succ_self _) hwritten hlayered).assignment fuel
      (show assignmentLevel ≤ 3 by decide) hends hfuel
  · rw [Expr.unplaced, hview, Expr.unplaced, propsUnplaced, orEmpty]

/-- What may stand in a list, and spells nothing if it takes no place there. -/
def ListEntry : Option Expr → List Lexeme → Prop
  | none, ls => ls = []
  | some e, ls => Operand e ls

def callOf (name : String) (args : List Expr) : Expr := .call 0 (.name 0 name) args

theorem assigned_call {name : String} {arg : Option Expr} (h : ListEntry arg ls) :
    Assigned (callOf name arg.toList) (.name name :: .mark '(' :: (ls ++ [.mark ')'])) := by
  intro stop fuel ts rest hts hends hfuel
  obtain ⟨i, j, ts₁, rfl, hts₁⟩ := cons_of_map hts
  obtain ⟨k, l, ts₂, rfl, hts₂⟩ := cons_of_map hts₁
  obtain ⟨us, vs, rfl, hus, hvs⟩ := List.map_eq_append_iff.1 hts₂
  obtain ⟨m, n, rfl⟩ := one_of_map hvs
  rw [← hts, List.length_map] at hfuel
  simp only [List.length_cons, List.length_append, List.length_nil] at hfuel
  obtain ⟨fuel, rfl⟩ := Nat.exists_eq_add_of_le' (show 9 ≤ fuel by omega)
  obtain ⟨args, hargs, hview⟩ : ∃ args, parseArguments stop (fuel + 2) (us ++ ⟨m, n, .mark ')'⟩ :: rest) =
      .ok (args, rest) ∧ Expr.allUnplaced args = arg.toList := by
    cases arg with
    | none =>
        obtain rfl := List.map_eq_nil_iff.1 (hus.trans h)
        refine ⟨[], ?_, by rw [Expr.allUnplaced]; rfl⟩
        unfold parseArguments
        simp
    | some e =>
        have h : Operand e ls := h
        have hends : Ends assignmentLevel (⟨m, n, .mark ')'⟩ :: rest) := ends_cons_of_none rfl
        obtain ⟨e', he, hview⟩ := h.assignment stop hus hends
          (show _ ≤ fuel by rw [← hus, List.length_map]; omega)
        refine ⟨[e'], ?_, by rw [Expr.allUnplaced, hview, Expr.allUnplaced]; rfl⟩
        unfold parseArguments
        rw [h.accept?_mark rfl hus]
        unfold parseMoreArguments
        simp [he]
  have hname : parsePrimary stop (fuel + 2)
      (⟨i, j, .name name⟩ :: ⟨k, l, .mark '('⟩ :: (us ++ ⟨m, n, .mark ')'⟩ :: rest)) =
      .ok (.name i name, ⟨k, l, .mark '('⟩ :: (us ++ ⟨m, n, .mark ')'⟩ :: rest)) := by
    unfold parsePrimary
    rfl
  have htails : parseTails stop (fuel + 3) true (.name i name)
      (⟨k, l, .mark '('⟩ :: (us ++ ⟨m, n, .mark ')'⟩ :: rest)) =
      .ok (.call i (.name i name) args, rest) := by
    unfold parseTails
    simp only [hargs, ok_bind, if_true]
    exact parseTails_of_not_tail (hends.mono (by decide)).not_any_isTail
  have hcall := (parseCallMember_of_primary (by simp) hname).trans htails
  refine ⟨.call i (.name i name) args, ?_, by rw [Expr.unplaced, hview, Expr.unplaced, callOf]⟩
  rw [List.cons_append, List.cons_append, List.append_assoc]
  exact parseAssignment_of_callMember rfl hcall hends

def dotted? : Expr → Option String
  | .name _ s => some s
  | .member _ target s => (dotted? target).map (· ++ "." ++ s)
  | _ => none

/-- The dotted name that a statement binds to a call of a function, with the arguments of the call. -/
def binding? (function : String) : Stmt → Option (String × List Expr)
  | .var _ [⟨name, some (.call _ (.name _ f) args), _⟩] => if f = function then some (name, args) else none
  | .expr _ (.binary _ .assign target (.call _ (.name _ f) args)) =>
      if f = function then (dotted? target).map (·, args) else none
  | _ => none

theorem binding?_call {name function : String} {args : List Expr}
    (h : dotted? (pathExpr s ss) = some name) :
    binding? function (bindStmt s ss (callOf function args)) = some (name, args) := by
  cases ss with
  | nil =>
      cases h
      simp [bindStmt, callOf, binding?]
  | cons part ss => simp [bindStmt, callOf, binding?, h]

theorem binding?_orEmpty (function s : String) (ss : List String) :
    binding? function (bindStmt s ss (orEmpty s ss)) = none := by
  cases ss <;> rfl

end TwinView.Script
