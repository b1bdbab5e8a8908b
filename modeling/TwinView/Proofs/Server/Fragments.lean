import TwinView.Proofs.Script.Leaves
import TwinView.Proofs.Server.Extends
import TwinView.Proofs.Server.Meaning

/-!
The code of a block in a class is its code on its own: where the class has the methods that were added
for it, the two are the same but for the numbers.
-/

namespace TwinView.Server

open Code

variable {ν : Type} {d d' : Draft}

def Knows (find : String → Option Method) (known : List Method) : Prop :=
  ∀ m ∈ known, find m.name = some m

theorem Knows.mono {find : String → Option Method} {known known' : List Method}
    (h : Knows find known') (hs : known ⊆ known') : Knows find known := fun m hm => h m (hs hm)

mutual

theorem codeCalls_of_isScriptCode {known : String → Prop} :
    ∀ e : Expr, e.IsScriptCode known → codeCalls e = []
  | .prim _ _, _ | .var _ _ _, _ | .this _, _ | .typeRef _ _, _ | .extra _ _, _ => rfl
  | .property target key _, h => by
      rw [codeCalls, codeCalls_of_isScriptCode target h.2.1, codeCalls_of_isScriptCode key h.2.2,
        List.append_nil]
  | .field _ _ _ _, h => h.1.elim
  | .binary _ left right _, h => by
      rw [codeCalls, codeCalls_of_isScriptCode left h.2.1, codeCalls_of_isScriptCode right h.2.2,
        List.append_nil]
  | .unary _ operand _, h => codeCalls_of_isScriptCode operand h.2
  | .ternary test yes no _, h => by
      rw [codeCalls, codeCalls_of_isScriptCode test h.2.1, codeCalls_of_isScriptCode yes h.2.2.1,
        codeCalls_of_isScriptCode no h.2.2.2, List.append_nil, List.append_nil]
  | .invoke _ target method args _, h => by
      have hm : unnumbered method ≠ "code_" := by
        have hmem : method ∈ Expr.scriptMethods := h.1
        revert hmem
        generalize method = name
        intro hmem
        simp only [Expr.scriptMethods, List.mem_cons, List.not_mem_nil, or_false] at hmem
        rcases hmem with rfl | rfl | rfl | rfl | rfl | rfl | rfl | rfl | rfl | rfl | rfl | rfl | rfl |
          rfl | rfl <;> decide
      rw [codeCalls, if_neg hm, codeCalls_of_isScriptCode target h.2.1,
        codeCallsOf_of_allScriptCode args h.2.2, List.append_nil, List.append_nil]
  | .create _ _ _, h => h.1.elim
  | .array _ _ items _, h => codeCallsOf_of_allScriptCode items h.2
  | .cast _ operand _, h => codeCalls_of_isScriptCode operand h.2

theorem codeCallsOf_of_allScriptCode {known : String → Prop} :
    ∀ es : List Expr, Expr.AllScriptCode known es → codeCallsOf es = []
  | [], _ => rfl
  | e :: rest, h => by
      rw [codeCallsOf, codeCalls_of_isScriptCode e h.1, codeCallsOf_of_allScriptCode rest h.2,
        List.append_nil]

end

theorem body_of_inline? {m : Method} {e : Expr} (h : m.inline? = some e) :
    m.body = [.ret (some e)] := by
  unfold Method.inline? at h
  split at h
  · next hbody =>
      split at h
      · rw [hbody, h]
      · cases h
  · cases h

/-- An expression that is used in place of a call refers to nothing but what is known. -/
theorem isScriptCode_of_inline? {n : Names} {source : String} {t : Script.Compiled} {m : Method}
    {rest : List Method} {e : Expr} (h : (Script.compile n source).1 = .ok t)
    (hm : t.methods = m :: rest) (he : m.inline? = some e) :
    e.IsScriptCode (Script.Known n.locals) := by
  obtain ⟨program, s, -, hy, -⟩ := Script.yields_of_compile h
  have hbody := body_of_inline? he
  rw [hm] at hy
  have hall := Script.compileProgram_refers_head program _ m rest s rfl hy (by
    simp [hbody, Script.NoDecls, Stmt.allOf, Stmt.withInner, Script.IsDecl])
  have := hall (.ret (some e)) (by simp [hbody, Stmt.allOf, Stmt.withInner])
  simpa [Script.IsScriptStmt] using this

/-- What the expression of a block calls: methods of scripts, or the method with its code. -/
def IsFragment (e : Expr) : Prop :=
  ∀ result target method args p, e = .invoke result target method args p →
    method ∈ Expr.scriptMethods ∨ unnumbered method = "code_"

/-- The expression has the code that a block has on its own. -/
structure CodeIs (known : List Method) (e : Expr) (blk : CodeBlock) : Prop where
  shape : IsFragment e
  same : ∃ e₀ ms₀, aloneCode? blk = some (e₀, ms₀) ∧ e.unnumber = e₀.unnumber ∧
    ∀ find, Knows find known → (termOf find e).bodies = (termOf (findIn ms₀) e₀).bodies

theorem CodeIs.mono {known known' : List Method} {e : Expr} {blk : CodeBlock}
    (h : CodeIs known e blk) (hs : known ⊆ known') : CodeIs known' e blk := by
  obtain ⟨e₀, ms₀, ha, hu, hb⟩ := h.same
  exact ⟨h.shape, e₀, ms₀, ha, hu, fun find hk => hb find (hk.mono hs)⟩

theorem codeCalls_params : codeCallsOf (renderParams.map Param.ref) = [] := rfl

/-- A call of a method with code: its body is what counts. -/
theorem bodies_call {find : String → Option Method} {m : Method} (hf : find m.name = some m)
    (hn : unnumbered m.name = "code_") :
    (termOf find (.invokeSelf m.returns m.name (renderParams.map Param.ref))).bodies =
      [Stmt.unnumberAll m.body] := by
  have hcalls : codeCalls (.invokeSelf m.returns m.name (renderParams.map Param.ref)) = [m.name] := by
    simp [Expr.invokeSelf, Expr.invokeOn, Expr.self, codeCalls, hn, codeCalls_params]
  simp [termOf, hcalls, hf]

theorem unnumbered_of_compile {n : Names} {source : String} {t : Script.Compiled}
    (h : (Script.compile n source).1 = .ok t) : ∀ m ∈ t.methods, unnumbered m.name = "code_" := by
  obtain ⟨program, s, -, hy, -⟩ := Script.yields_of_compile h
  exact Script.compileProgram_unnumbered program _ _ _ hy

theorem aloneCode?_eq_some {b : CodeBlock} {p : Expr × List Method} (h : aloneCode? b = some p) :
    ∃ t m rest, (Script.compile {} (clientCode b)).1 = .ok t ∧ t.hasExtras = false ∧
      t.methods = m :: rest ∧ p = inlined m rest := by
  unfold aloneCode? at h
  split at h
  · cases h
  · next t ht =>
      split at h
      · next m rest hq hm =>
          cases h
          exact ⟨t, m, rest, ht, hq, hm, rfl⟩
      · cases h

theorem findIn_head (m : Method) (rest : List Method) : findIn (m :: rest) m.name = some m := by
  simp [findIn]

/-- Methods that are the same but for the numbers are inlined to the same code. -/
theorem codeIs_inlined {n : Names} {b : CodeBlock} {t t' : Script.Compiled} {m m' : Method}
    {rest rest' : List Method} (ht : (Script.compile {} (clientCode b)).1 = .ok t)
    (hm : t.methods = m :: rest) (ht' : (Script.compile n (clientCode b)).1 = .ok t')
    (hm' : t'.methods = m' :: rest') (ha : aloneCode? b = some (inlined m rest))
    (hs : m.unnumber = m'.unnumber) :
    CodeIs (inlined m' rest').2 (inlined m' rest').1 b := by
  have hinline : m.inline?.map Expr.unnumber = m'.inline?.map Expr.unnumber := by
    rw [← Method.inline?_unnumber, hs, Method.inline?_unnumber]
  cases he : m.inline? with
  | some e =>
      obtain ⟨e', he', hu⟩ : ∃ e', m'.inline? = some e' ∧ e'.unnumber = e.unnumber := by
        rw [he] at hinline
        obtain ⟨e', he', hu⟩ := Option.map_eq_some_iff.1 hinline.symm
        exact ⟨e', he', hu⟩
      have hcode := isScriptCode_of_inline? ht hm he
      have hcode' := isScriptCode_of_inline? ht' hm' he'
      rw [inlined, he] at ha
      rw [inlined, he']
      refine ⟨?_, e, rest, ha, hu, fun find _ => ?_⟩
      · rintro result target method args p rfl
        exact Or.inl hcode'.1
      · simp [termOf, codeCalls_of_isScriptCode e hcode, codeCalls_of_isScriptCode e' hcode']
  | none =>
      have he' : m'.inline? = none := by
        rw [he] at hinline
        exact Option.map_eq_none_iff.1 hinline.symm
      have hname : unnumbered m.name = "code_" :=
        unnumbered_of_compile ht m (by rw [hm]; exact List.mem_cons_self)
      have hname' : unnumbered m'.name = "code_" :=
        unnumbered_of_compile ht' m' (by rw [hm']; exact List.mem_cons_self)
      have hreturns : m.unnumber.returns = m'.unnumber.returns := congrArg Method.returns hs
      have hbody : m.unnumber.body = m'.unnumber.body := congrArg Method.body hs
      simp only [Method.unnumber] at hreturns hbody
      rw [inlined, he] at ha
      rw [inlined, he']
      refine ⟨?_, _, _, ha, ?_, fun find hk => ?_⟩
      · intro result target method args p h
        cases h
        exact Or.inr hname'
      · rw [Expr.unnumber_invokeSelf, Expr.unnumber_invokeSelf, hreturns, hname, hname']
      · rw [bodies_call (hk m' List.mem_cons_self) hname', bodies_call (findIn_head m rest) hname,
          hbody]

-- comparing two ways to write a result must not run the compiler
attribute [local irreducible] Script.compile

/-- A block that can be understood on its own is accepted everywhere, with the same code. -/
theorem runs_fragment?_alone (hd : Tidy d) {b : CodeBlock} (ha : isAlone b) {canDefer : Bool}
    {r : Except Error Fragment} (h : Runs (fragment? b canDefer) d r d') :
    ∃ e added, r = .ok { expr := e, hybrid := false } ∧ d' = d.afterCode b added false ∧
      Script.NewNames d.names d'.names (added.map (·.name)) ∧ CodeIs added e b := by
  obtain ⟨p, hp⟩ := Option.isSome_iff_exists.1 ha
  obtain ⟨t, m, rest, ht, hq, hm, rfl⟩ := aloneCode?_eq_some hp
  obtain ⟨t', ht', hq', hs⟩ := Script.compile_alone hd.renamed ht hq
  rw [Script.SameMethods, hm, List.map_cons] at hs
  obtain ⟨e, -, -, hnone⟩ | ⟨t'', m', rest', ht'', hm', rfl, rfl⟩ := runs_fragment? h
  · rw [hnone t' ht'] at hs
    cases hs
  · cases ht'.symm.trans ht''
    rw [hq', Bool.false_and]
    rw [hm', List.map_cons] at hs
    have hnew := Script.compile_newNames ht'
    rw [hm'] at hnew
    exact ⟨_, _, rfl, rfl, newNames_sublist hnew ((sublist_inlined m' rest').map _),
      codeIs_inlined ht hm ht' hm' hp (List.cons.inj hs).1⟩

/-- Something around an expression that looks at no number and calls no code of its own. -/
structure Wraps (around : Expr → Expr) : Prop where
  unnumber : ∀ e, (around e).unnumber = around e.unnumber
  calls : ∀ e, codeCalls (around e) = codeCalls e

theorem wraps_id : Wraps id := ⟨fun _ => rfl, fun _ => rfl⟩

theorem calls_helper (result : Ty) {method : String} (h : unnumbered method ≠ "code_") (e : Expr) :
    codeCalls (.invokeHelper result method [e]) = codeCalls e := by
  simp [Expr.invokeHelper, Expr.invokeOn, Expr.dataHelper, codeCalls, codeCallsOf, h]

theorem wraps_ensureCollection : Wraps Expr.ensureCollection where
  unnumber := Expr.unnumber_ensureCollection
  calls := by
    intro e
    unfold Expr.ensureCollection
    split
    · rfl
    · exact calls_helper _ (by decide) e

theorem wraps_ensureMap : Wraps Expr.ensureMap where
  unnumber := Expr.unnumber_ensureMap
  calls := by
    intro e
    unfold Expr.ensureMap
    split
    · rfl
    · exact calls_helper _ (by decide) e

theorem wholeExpr_eq (e : Expr) :
    wholeExpr e = if e.resultType = .int then e else .cast .int e.ensureNumber false := by
  cases h : e.resultType <;> simp [wholeExpr, Expr.ensureNumber, h, Ty.isNumber, Ty.kind]

theorem mapExpr_eq : mapExpr = Expr.ensureMap := rfl

theorem listExpr_eq : listExpr = Expr.ensureCollection := rfl

theorem wraps_wholeExpr : Wraps wholeExpr where
  unnumber := by
    intro e
    rw [wholeExpr_eq, wholeExpr_eq, Expr.resultType_unnumber]
    split
    · rfl
    · simp [Expr.unnumber]
  calls := by
    intro e
    rw [wholeExpr_eq]
    split
    · rfl
    · unfold Expr.ensureNumber
      split
      · rfl
      · exact calls_helper .double (by decide) e

theorem blockTerm_eq {blk : CodeBlock} {e : Expr} {ms : List Method}
    (h : aloneCode? blk = some (e, ms)) (around : Expr → Expr) :
    blockTerm around blk = termOf (findIn ms) (around e) := by
  unfold blockTerm
  rw [h]

theorem CodeIs.termOf_eq {known : List Method} {e : Expr} {blk : CodeBlock} (h : CodeIs known e blk)
    {find : String → Option Method} (hk : Knows find known) {around : Expr → Expr}
    (hw : Wraps around) : termOf find (around e) = blockTerm around blk := by
  obtain ⟨e₀, ms₀, ha, hu, hb⟩ := h.same
  have hbodies := hb find hk
  simp only [termOf] at hbodies
  rw [blockTerm_eq ha]
  simp only [termOf, hw.unnumber, hw.calls, hu, hbodies]

variable {s : Settings} {b : Binding ν}

theorem written_congr {find find' : String → Option Method} {e e' : Expr} (method : String)
    (h : termOf find e = termOf find' e') : written find b method e = written find' b method e' := by
  have hu : e.unnumber = e'.unnumber := congrArg Term.expr h
  have hprim (value : Primitive) (p : Bool) (he : e = .prim value p) : e' = .prim value p := by
    subst he
    cases e' <;> simp_all [Expr.unnumber]
  have hprim' (value : Primitive) (p : Bool) (he : e' = .prim value p) : e = .prim value p := by
    subst he
    cases e <;> simp_all [Expr.unnumber]
  unfold written
  split
  · next c p =>
      obtain rfl := hprim _ _ rfl
      dsimp only
      rw [h]
  · next text p =>
      obtain rfl := hprim _ _ rfl
      dsimp only
      rw [h]
  · next hchar htext =>
      split
      · next c p => exact absurd (hprim' _ _ rfl) (hchar _ _)
      · next text p => exact absurd (hprim' _ _ rfl) (htext _ _)
      · rw [h]

def outputOf (b : Binding ν) (find : String → Option Method) : Stmt → List (Event ν)
  | .expr (.invoke _ _ method [_, e] _) _ => written find b method e
  | _ => []

/-- Writing the code that a block has on its own puts out its value. -/
theorem outputOf_writeValue {block : CodeBlock} {e : Expr} {ms : List Method}
    (h : aloneCode? (unwrapMarkup block) = some (e, ms)) :
    outputOf b (findIn ms) (writeValue s block e) = valueOutput s b block := by
  have hbare (t : Ty) : (t.isBoolean || t.isNumber || (t.isScalar && t ≠ .char)) = isBare t := by
    cases t <;> rfl
  unfold valueOutput writeValue
  rw [h]
  cases hk : block.kind with
  | markup =>
      rw [if_pos rfl]
      cases e with
      | prim value p => cases value <;> rfl
      | _ => rfl
  | expression | statement =>
      rw [if_neg nofun]
      unfold writeSafe
      dsimp only
      rw [hbare]
      cases e with
      | prim value p => cases value <;> rfl
      | _ => dsimp only; split <;> rfl

/-- The value of a block is written in the class as it is written on its own. -/
theorem CodeIs.output {known : List Method} {e : Expr} {block : CodeBlock}
    (h : CodeIs known e (unwrapMarkup block)) {find : String → Option Method}
    (hk : Knows find known) : outputOf b find (writeValue s block e) = valueOutput s b block := by
  obtain ⟨e₀, ms₀, ha, hu, hb⟩ := h.same
  have hterm : termOf find e = termOf (findIn ms₀) e₀ := by
    have hbodies := hb find hk
    simp only [termOf] at hbodies
    simp only [termOf, hu, hbodies]
  have htype : e.resultType = e₀.resultType := by
    rw [← Expr.resultType_unnumber, hu, Expr.resultType_unnumber]
  have hprim : e.primitive? = e₀.primitive? := by
    rw [← Expr.primitive?_unnumber, hu, Expr.primitive?_unnumber]
  rw [← outputOf_writeValue ha]
  unfold writeValue
  split
  · exact written_congr "write" hterm
  · unfold writeSafe
    dsimp only
    rw [htype, hprim]
    split
    · exact written_congr "write" hterm
    · split
      · rfl
      · exact written_congr "htmlEncode" hterm

theorem simpleStep_writeValue (find : String → Option Method) (w : World ν) (σ : Store ν)
    (block : CodeBlock) (e : Expr) :
    simpleStep find w b σ (writeValue s block e) =
      some (outputOf b find (writeValue s block e), σ) := by
  unfold writeValue
  split
  · rfl
  · unfold writeSafe
    dsimp only
    split
    · rfl
    · split <;> rfl

end TwinView.Server
