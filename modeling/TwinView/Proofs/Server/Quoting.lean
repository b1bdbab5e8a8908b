import TwinView.Proofs.Markup.References
import TwinView.Proofs.Server.Additions

/-!
What is written between the quotes of an attribute whose value is known. A text is encoded as the value
of an attribute. A block that is a constant is encoded as content, where a quotation mark may stand as
it is: in an attribute it ends the value.
-/

namespace TwinView.Server

open Code

variable {s : Settings} {d d' d₁ : Draft} {e : Element} {p p' : Pending} {name v : String} {value : Node}
  {before after : List (String × Option Node)} {encode : String → String}

/-- Where the text of an attribute comes from: the template, or a block that is evaluated to it, whose
value may depend on the environment for all that is known. -/
inductive Source
  | template
  | block (isHybrid : Bool)

/-- The value of an attribute is the text `v`. -/
inductive HasText (names : Names) (v : String) : Node → Source → Prop
  | template {position : Option Position} : HasText names v (.text .literal v position) .template
  | block {b : CodeBlock} {parens extras : Bool} (hk : b.kind = .expression)
      (h : evaluated? names b = some (.prim (.text v) parens, extras)) :
      HasText names v (.code b) (.block extras)

/-- The text that is written between the quotes of an attribute. If the value may be undefined, it is in
a variable, and the inherited method, which makes `encode` of a text, encodes it when it is written. -/
inductive Quotes (encode : String → String) (name : String) : List Piece → String → Prop
  | known (text : String) : Quotes encode name (attributePieces name (spell text)) text
  | variable (x : String) (origin : Origin) {v : String} {parens : Bool} {ps : List Piece}
      (h : ∀ truth page, perform truth ps page = if truth (isUndefined (.variableRef .object x)) then page
        else page.write (attributePieces name [.stmt (writeEncoded (.variableRef .object x) origin)])) :
      Quotes encode name
        (.stmt (.var { type := .object, name := x, init := some (.prim (.text v) parens) }) :: ps) (encode v)

/-- The text stays between its quotes, and is read as `v`. -/
structure StaysQuoted (text v : String) : Prop where
  quote : '"' ∉ text.toList
  decoded : Markup.decode Markup.Place.quotedValue.entityNames text = v

def Source.text (s : Settings) (encode : String → String) (v : String) : Source → String
  | .template => Markup.encode .quotedValue true v
  | .block false => Markup.literal s.encodeNonAscii v
  | .block true => encode v

/-- When the text of an attribute stays between its quotes. For a value that may be undefined this is up
to the inherited method. -/
def Source.Safe (encode : String → String) (v : String) : Source → Prop
  | .template => True
  | .block false => '"' ∉ v.toList
  | .block true => StaysQuoted (encode v) v

theorem staysQuoted_text (source : Source) :
    StaysQuoted (source.text s encode v) v ↔ source.Safe encode v := by
  match source with
  | .template =>
      have hdecoded : Markup.decode Markup.Place.quotedValue.entityNames
          (Markup.encode .quotedValue true v) = v :=
        (Markup.readsAs_encode (by decide) (fun _ _ => id) v).decoded
      have hquote : '"' ∉ (Markup.encode .quotedValue true v).toList :=
        fun hmem => ((Markup.mem_encode (by decide) hmem).2.2 rfl).1 rfl
      exact iff_of_true ⟨hquote, hdecoded⟩ True.intro
  | .block false =>
      have hdecoded : Markup.decode Markup.Place.quotedValue.entityNames
          (Markup.literal s.encodeNonAscii v) = v :=
        (Markup.readsAs_encode (by decide) (fun _ _ => Markup.lookup_entityNames .quotedValue) v).decoded
      constructor
      · exact fun h hmem => h.quote (Markup.quote_mem_literal.2 hmem)
      · exact fun h => ⟨fun hmem => h (Markup.quote_mem_literal.1 hmem), hdecoded⟩
  | .block true => exact Iff.rfl

theorem writeValue_text {b : CodeBlock} (hk : b.kind = .expression) (v : String) (parens : Bool) :
    writeValue s b (.prim (.text v) parens) =
      write (.text (Markup.literal s.encodeNonAscii v)) (.value b) := by
  rw [writeValue, if_neg (by simp [hk])]
  rfl

theorem writeValue_variable {b : CodeBlock} (hk : b.kind = .expression) (x : String) :
    writeValue s b (.variableRef .object x) = writeEncoded (.variableRef .object x) (.value b) := by
  rw [writeValue, if_neg (by simp [hk])]
  rfl

theorem prints_hybrid {b : CodeBlock} (hk : b.kind = .expression) {parens : Bool} {f : Expr → Pending} :
    Prints False (do
      flush
      let x ← declare .object "val_" (.prim (.text v) parens)
      addCondition (isDefined x) (putAttribute name (writeValue s b x))
      return f x) (fun _ ps => Quotes encode name ps (encode v)) False := by
  refine .after spells_flush ((prints_declare _ _ _).bind ?_)
  rintro _ _ ⟨x, rfl, rfl⟩
  refine (prints_addCondition (spells_putAttribute _ _).prints).bind ?_
  rintro _ ps ⟨_, rfl, hps⟩
  refine (Prints.pure ?_).forget
  rw [List.append_nil]
  refine .variable x (.value b) fun truth page => ?_
  have htest : page.holds truth (isDefined (.variableRef .object x)) =
      !truth (isUndefined (.variableRef .object x)) := rfl
  have hplain : Plain (attributePieces name [.stmt (writeEncoded (.variableRef .object x) (.value b))]) :=
    ((plain_spell _).append fun _ _ => rfl).append (plain_spell _)
  rw [List.append_eq, List.nil_append, hps, htest, writeValue_variable hk]
  cases truth (isUndefined (.variableRef .object x)) with
  | true => rfl
  | false => exact hplain truth page

theorem quotes_buildPlain {source : Source} (hd : d.frames ≠ []) (hv : HasText d.names v value source)
    (hr : Runs (buildPlain s e p name value) d p' d') :
    ∃ ps, Continues d ps d' ∧ Quotes encode name ps (source.text s encode v) := by
  cases hv with
  | template =>
      obtain ⟨_, d₁, hput, hpure⟩ := runs_bind.1 hr
      obtain ⟨-, rfl⟩ := runs_pure.1 hpure
      obtain ⟨_, hps, -, rfl⟩ := (spells_put _).prints d () d' hd False.elim hput
      refine ⟨_, hps, ?_⟩
      rw [Markup.wholeAttribute, spell_append, spell_append]
      exact .known _
  | @block b parens extras hk h =>
      have hb : unwrapMarkup b = b := if_neg (by simp [hk])
      unfold buildPlain at hr
      dsimp only at hr
      rw [hb] at hr
      obtain ⟨r, d₁, hfragment, hrest⟩ := runs_bind.1 hr
      obtain ⟨_, hfirst, -, rfl⟩ := prints_fragment? (i := False) b true d r d₁ hd False.elim hfragment
      obtain ⟨hnone, -⟩ | ⟨_, _, hsome, rfl⟩ := runs_fragment?_evaluated hfragment
      · rw [h] at hnone
        cases hnone
      cases h.symm.trans hsome
      cases extras with
      | false =>
          obtain ⟨_, d₂, hput, hpure⟩ := runs_bind.1 hrest
          obtain ⟨-, rfl⟩ := runs_pure.1 hpure
          obtain ⟨_, hps, -, rfl⟩ := (spells_putAttribute _ _).prints d₁ () d' hfirst.opened False.elim hput
          refine ⟨_, hfirst.trans hps, ?_⟩
          rw [writeValue_text hk]
          exact .known _
      | true =>
          obtain ⟨_, hps, -, hquotes⟩ := prints_hybrid hk d₁ p' d' hfirst.opened False.elim hrest
          exact ⟨_, hfirst.trans hps, hquotes⟩

theorem exists_quotes {source : Source} (hd : d.frames ≠ [])
    (hflag : Vocabulary.isFlagAttribute name = false) (hlink : e.isLinkAttribute name = false)
    (hattributes : e.attributes = before ++ (name, some value) :: after)
    (hbefore : Runs (buildUpTo s e before) d p d₁) (hv : HasText d₁.names v value source)
    (hr : Runs (buildElement s e (buildEach s e.children)) d () d') :
    ∃ ps behind, Continues d₁ (ps ++ behind) d' ∧ Quotes encode name ps (source.text s encode v) := by
  obtain ⟨p₁, d₁', p₂, d₂, p₃, d₃, hbefore', hone, hafter, -, hbehind⟩ :=
    runs_buildElement_split hattributes hr
  cases hbefore.symm.trans hbefore'
  obtain ⟨_, hupTo, -, -⟩ := inserts_buildUpTo before d p d₁ hd False.elim hbefore
  have hplain : Runs (buildPlain s e p name value) d₁ p₂ d₂ := by
    simpa [buildAttributes, hflag, hlink] using hone
  obtain ⟨ps, hps, hquotes⟩ := quotes_buildPlain hupTo.opened hv hplain
  obtain ⟨qs, hqs, -, -⟩ := inserts_buildAttributes p₂ after d₂ p₃ d₃ hps.opened False.elim hafter
  obtain ⟨qs', hqs', -, -⟩ :=
    inserts_buildBehind p₃ d₃ () d' hqs.opened False.elim hbehind
  exact ⟨ps, qs ++ qs', hps.trans (hqs.trans hqs'), hquotes⟩

/-- The known text of an attribute stays between its quotes if it comes from the template; a constant
does just if it has no quotation mark, and a constant in a variable just if the inherited method makes
it so. -/
theorem staysQuoted_iff_safe {source : Source} (hd : d.frames ≠ [])
    (hflag : Vocabulary.isFlagAttribute name = false) (hlink : e.isLinkAttribute name = false)
    (hattributes : e.attributes = before ++ (name, some value) :: after)
    (hbefore : Runs (buildUpTo s e before) d p d₁) (hv : HasText d₁.names v value source)
    (hr : Runs (buildElement s e (buildEach s e.children)) d () d') (encode : String → String) :
    ∃ ps behind text, Continues d₁ (ps ++ behind) d' ∧ Quotes encode name ps text ∧
      (StaysQuoted text v ↔ source.Safe encode v) := by
  obtain ⟨ps, behind, hcontinues, hquotes⟩ := exists_quotes hd hflag hlink hattributes hbefore hv hr
  exact ⟨ps, behind, _, hcontinues, hquotes, staysQuoted_text source⟩

def constantBlock (code : String) : CodeBlock := { kind := .expression, value := code }

def constantTitle (code : String) : Element where
  tag := "p"
  attributes := [("title", some (.code (constantBlock code)))]

def isConstant (v : String) : Option (Expr × Bool) → Bool
  | some (.prim (.text text) _, false) => text.toList == v.toList
  | _ => false

theorem hasText_constantBlock {names : Names} {code : String}
    (h : isConstant v (evaluated? names (constantBlock code))) :
    HasText names v (.code (constantBlock code)) (.block false) := by
  unfold isConstant at h
  split at h
  · next text parens heq =>
      obtain rfl : text = v := String.toList_inj.1 (beq_iff_eq.1 h)
      exact .block rfl heq
  · cases h

def inTag (tag : String) : Draft := { inView with buffer := inView.buffer ++ Markup.openTag tag }

theorem runs_inTag (code : String) : Runs (buildUpTo {} (constantTitle code) []) inView {} (inTag "p") := by
  have hscript : (constantTitle code).isTag "script" = false := by
    change Text.sameIgnoringCase "p" "script" = false
    decide +kernel
  unfold buildUpTo
  rw [hscript]
  rfl

theorem staysQuoted_iff_safe_title : ∃ d', Runs (buildElement {} (constantTitle "'ab'") (buildEach {} []))
    inView () d' ∧ HasText (inTag "p").names "ab" (.code (constantBlock "'ab'")) (.block false) ∧
    ∀ encode : String → String, ∃ ps behind text, Continues (inTag "p") (ps ++ behind) d' ∧
      Quotes encode "title" ps text ∧ StaysQuoted text "ab" := by
  obtain ⟨d', hr⟩ : ∃ d', Runs (buildElement {} (constantTitle "'ab'") (buildEach {} [])) inView () d' :=
    exists_runs_buildElement (by decide +kernel)
  have hv : HasText (inTag "p").names "ab" (.code (constantBlock "'ab'")) (.block false) :=
    hasText_constantBlock (by decide +kernel)
  refine ⟨d', hr, hv, fun encode => ?_⟩
  obtain ⟨ps, behind, text, hcontinues, hquotes, hiff⟩ := staysQuoted_iff_safe (List.cons_ne_nil _ _)
    (by decide +kernel) (by decide +kernel) rfl (runs_inTag "'ab'") hv hr encode
  exact ⟨ps, behind, text, hcontinues, hquotes, hiff.2 (by simp [Source.Safe])⟩

/-- A quotation mark in a constant ends the value. -/
theorem not_staysQuoted_title : ∃ d', Runs (buildElement {} (constantTitle "'a\"b'") (buildEach {} []))
    inView () d' ∧ HasText (inTag "p").names "a\"b" (.code (constantBlock "'a\"b'")) (.block false) ∧
    ∀ encode : String → String, ∃ ps behind text, Continues (inTag "p") (ps ++ behind) d' ∧
      Quotes encode "title" ps text ∧ ¬ StaysQuoted text "a\"b" := by
  obtain ⟨d', hr⟩ : ∃ d', Runs (buildElement {} (constantTitle "'a\"b'") (buildEach {} [])) inView () d' :=
    exists_runs_buildElement (by decide +kernel)
  have hv : HasText (inTag "p").names "a\"b" (.code (constantBlock "'a\"b'")) (.block false) :=
    hasText_constantBlock (by decide +kernel)
  refine ⟨d', hr, hv, fun encode => ?_⟩
  obtain ⟨ps, behind, hcontinues, hquotes⟩ := exists_quotes (List.cons_ne_nil _ _) (by decide +kernel)
    (by decide +kernel) rfl (runs_inTag "'a\"b'") hv hr
  refine ⟨ps, behind, _, hcontinues, hquotes, ?_⟩
  rw [staysQuoted_text]
  simp [Source.Safe]

end TwinView.Server
