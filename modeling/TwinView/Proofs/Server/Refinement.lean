import TwinView.Proofs.Server.Loops
import TwinView.Proofs.Server.Nodes

/-!
A class renders what its template means. The nodes of a plain template are taken one after the other;
what each of them adds to the class puts out what the node means, wherever it stands.
-/

namespace TwinView.Server

open Code

variable {ν α β : Type} {w : World ν} {s : Settings} {known known' : List Method} {mode : TextMode}
  {d d' : Draft} {out out' : Binding ν → List (Event ν)} {i j k : Prop}

theorem shows_return (a : α) : Shows w known mode i (pure a) silent False fun _ a' => a' = a :=
  (Shows.pure (Q := fun _ a' => a' = a) rfl).weaken (fun h => h) False.elim fun _ _ h => h

theorem Puts.andReturn {x : Build Unit} (h : Puts w known mode i x out j) (a : α) :
    Shows w known mode i (x >>= fun _ => pure a) out False fun _ a' => a' = a :=
  (h.bind fun _ _ _ _ => shows_return a).congr fun _ => List.append_nil _

theorem puts_buildLiteral (value : String) :
    Puts w known mode i (buildLiteral s value) (fun _ => chars (literalMarkup s mode value)) False := by
  refine shows_get_bind fun d hd => ?_
  rw [hd.mode]
  cases mode with
  | raw => exact puts_put _
  | preformatted => exact puts_put _
  | normal => exact puts_put _

theorem says_comment (value : String) : Says w known [.comment value] silent :=
  fun _ _ _ σ => ⟨σ, .single rfl⟩

theorem puts_buildText {kind : TextKind} (value : String) (hk : kind ≠ .unknown) :
    Puts w known mode i (buildText s value kind) (fun _ => chars (textMarkup s mode value kind))
      False := by
  cases kind with
  | literal => exact puts_buildLiteral value
  | unknown => exact absurd rfl hk
  | comment => exact puts_put _
  | docType => exact puts_put _
  | codeComment =>
      refine puts_flush.andThen fun known' _ _ _ => ?_
      exact (puts_add (says_comment value)).forget

theorem says_writeValue {e : Expr} {block : CodeBlock} (h : CodeIs known e (unwrapMarkup block)) :
    Says w known [writeValue s block e] fun b => valueOutput s b block := by
  intro find hk b σ
  dsimp only
  rw [← h.output hk]
  exact ⟨σ, .single (simpleStep_writeValue find w σ block e)⟩

theorem puts_buildBlock {block : CodeBlock} (ha : isAlone (unwrapMarkup block)) :
    Puts w known mode i (buildBlock s block) (fun b => valueOutput s b block) True := by
  refine (shows_fragment? ha true).andThen fun known' r _ hr => ?_
  obtain ⟨e, rfl, hcode⟩ := hr
  refine puts_flush.andThen fun known'' _ hsub _ => ?_
  exact puts_add (says_writeValue (hcode.mono hsub))

theorem puts_putAttribute {name : String} {stmt : Stmt} (h : Says w known [stmt] out) :
    Puts w known mode i (putAttribute name stmt) (fun b =>
      chars (Markup.openAttribute name) ++ out b ++ chars Markup.closeAttribute) False := by
  refine ((puts_put _).bind fun known₁ _ hs₁ _ => puts_flush.andThen fun known₂ _ hs₂ _ =>
    (puts_add (h.mono (List.Subset.trans hs₁ hs₂))).bind fun known₃ _ _ _ => puts_put _).congr
    fun b => ?_
  rw [List.append_assoc]

theorem isPlainAttribute_some {e : Element} {name : String} {value : Node}
    (h : isPlainAttribute e name (some value)) :
    (∃ text position, value = .text .literal text position) ∨
      ∃ block, value = .code block ∧ block.kind = .expression ∧ isAlone block := by
  unfold isPlainAttribute at h
  rw [Bool.and_eq_true] at h
  match value, h.2 with
  | .text .literal text position, _ => exact Or.inl ⟨text, position, rfl⟩
  | .code block, h =>
      simp only [Bool.and_eq_true, decide_eq_true_eq] at h
      exact Or.inr ⟨block, rfl, h⟩

theorem flagMarkup_eq (s : Settings) (name : String) : flagMarkup s name = flagText s name := by
  unfold flagMarkup flagText
  split <;> rfl

theorem shows_buildFlag {p : Pending} {name : String} {e : Element} {value : Node}
    (hf : Vocabulary.isFlagAttribute name) (hv : isPlainAttribute e name (some value)) :
    Shows w known mode i (buildFlag s p name value) (fun b => attributeOutput s w b name (some value))
      False fun _ p' => p' = p := by
  obtain ⟨text, position, rfl⟩ | ⟨block, rfl, -, ha⟩ := isPlainAttribute_some hv
  · simp only [buildFlag, attributeOutput, hf, if_true, flagMarkup_eq]
    split
    · exact (puts_put _).andReturn p
    · exact shows_return p
  · simp only [buildFlag, attributeOutput, hf, if_true, flagMarkup_eq]
    refine (shows_fragment? ha false).andThen fun known₁ r _ hr => ?_
    obtain ⟨test, rfl, hcode⟩ := hr
    refine puts_flush.andThen fun known₂ _ hs₂ _ => ?_
    exact (puts_addCondition (hcode.mono hs₂).decides (puts_put _)).andReturn p

theorem shows_buildPlain {p : Pending} {name : String} {e : Element} {value : Node}
    (hf : ¬ Vocabulary.isFlagAttribute name) (hv : isPlainAttribute e name (some value)) :
    Shows w known mode i (buildPlain s e p name value)
      (fun b => attributeOutput s w b name (some value)) False fun _ p' => p' = p := by
  obtain ⟨text, position, rfl⟩ | ⟨block, rfl, hkind, ha⟩ := isPlainAttribute_some hv
  · simp only [buildPlain, attributeOutput, hf, Bool.false_eq_true, if_false]
    exact (puts_put _).andReturn p
  · have hb : unwrapMarkup block = block := by
      rw [unwrapMarkup, if_neg]
      rw [hkind]
      decide
    simp only [buildPlain, attributeOutput, hf, Bool.false_eq_true, if_false]
    refine (shows_fragment? (hb.symm ▸ ha) true).andThen fun known₁ r _ hr => ?_
    obtain ⟨value, rfl, hcode⟩ := hr
    exact (puts_putAttribute (says_writeValue hcode)).andReturn p

theorem shows_buildAttributes {p : Pending} {e : Element} {attributes : List (String × Option Node)}
    (h : attributes.all fun a => isPlainAttribute e a.1 a.2) :
    Shows w known mode i (buildAttributes s e p attributes)
      (fun b => attributes.flatMap fun a => attributeOutput s w b a.1 a.2) False fun _ p' => p' = p := by
  induction attributes generalizing known i with
  | nil => exact shows_return p
  | cons a rest ih =>
      rw [List.all_cons, Bool.and_eq_true] at h
      obtain ⟨ha, hrest⟩ := h
      obtain ⟨name, value⟩ := a
      cases value with
      | none => exact (puts_put _).bind fun _ _ _ _ => ih hrest
      | some value =>
          have hlink : ¬ e.isLinkAttribute name := by
            intro hlink
            simp [isPlainAttribute, hlink] at ha
          by_cases hf : Vocabulary.isFlagAttribute name
          · simp only [buildAttributes, hf, if_true]
            refine (shows_buildFlag hf ha).bind fun _ p' _ hp => ?_
            rw [hp]
            exact ih hrest
          · simp only [buildAttributes, hf, hlink]
            refine (shows_buildPlain hf ha).bind fun _ p' _ hp => ?_
            rw [hp]
            exact ih hrest

theorem puts_inMode (mode : TextMode) {mode' : TextMode} {body : Build Unit}
    (h : Puts w known mode' i body out j) :
    Puts w known mode i (do
      modify fun d => { d with mode := mode' }
      body
      modify fun d => { d with mode }) out j := by
  intro d u d' hd hcalm hi hr
  simp only [runs_bind, runs_modify] at hr
  obtain ⟨_, _, rfl, _, e, he, rfl⟩ := hr
  obtain ⟨new, added, hs, hj, -⟩ := h { d with mode := mode' } () e
    ⟨hd.toNamed, hd.renamed, hd.call⟩ ⟨rfl, hcalm.scripts⟩ hi he
  refine ⟨new, added, ⟨?_, ⟨rfl, hs.calm.scripts⟩, hs.members, hs.runs⟩, hj, True.intro⟩
  have htidy := hs.ext.tidy
  exact ⟨hs.ext.frames, hs.ext.names, hs.ext.kept, hs.ext.known, hs.ext.className,
    ⟨htidy.toNamed, htidy.renamed, htidy.call⟩⟩

/-- The node puts out what it means, wherever it stands. -/
def Faithful (w : World ν) (s : Settings) (n : Node) : Prop :=
  ∀ known mode, Puts w known mode False (buildNode s n) (fun b => nodeOutput s w mode b n) False

theorem eachOutput_eq (b : Binding ν) (ns : List Node) :
    eachOutput s w mode b ns = ns.map (nodeOutput s w mode b) := by
  induction ns with
  | nil => rfl
  | cons n rest ih => rw [eachOutput, ih, List.map_cons]

theorem puts_runAll {ns : List Node} (h : ∀ n ∈ ns, Faithful w s n) (known : List Method)
    (mode : TextMode) :
    Puts w known mode False (runAll (ns.map (buildNode s)))
      (fun b => (ns.map (nodeOutput s w mode b)).flatten) False := by
  induction ns generalizing known with
  | nil => exact .pure True.intro
  | cons n rest ih =>
      refine (h n List.mem_cons_self known mode).bind fun known' _ _ _ => ?_
      exact ih (fun n hn => h n (List.mem_cons_of_mem _ hn)) known'

theorem puts_buildChildren {ns : List Node} (h : ∀ n ∈ ns, Faithful w s n) (known : List Method)
    (mode : TextMode) :
    Puts w known mode False (buildChildren s (ns.zip (ns.map (buildNode s))))
      (fun b => (shownChildren s mode (ns.zip (ns.map (nodeOutput s w mode b)))).flatten) False := by
  refine shows_get_bind fun d hd => ?_
  simp only [hd.mode, shownChildren, zip_map_self]
  split
  · simp only [trimEdges_map, List.map_map]
    exact puts_runAll (fun n hn => h n (trimEdges_subset _ _ hn)) known mode
  · simp only [List.map_map]
    exact puts_runAll h known mode

theorem puts_buildContent {e : Element} (h : ∀ n ∈ e.children, Faithful w s n) :
    Puts w known mode i (buildContent s e (e.children.map (buildNode s))) (fun b =>
      chars Markup.closeTag ++
        (shownChildren s (contentMode e mode)
          (e.children.zip (e.children.map (nodeOutput s w (contentMode e mode) b)))).flatten ++
        chars (Markup.endTag e.tag)) False := by
  unfold buildContent
  refine ((puts_put _).bind fun known₁ _ _ _ => ?_).congr fun b => (List.append_assoc _ _ _).symm
  refine shows_get_bind fun d hd => ?_
  rw [hd.mode]
  have hchildren := puts_inMode mode (puts_buildChildren h known₁ (contentMode e mode))
  have hrest (known₂ : List Method) : Puts w known₂ mode False (do
      if (← get).hasScripts && e.isTag "body" then
        ensureExtras true
        put s.newline
      put (Markup.endTag e.tag)) (fun _ => chars (Markup.endTag e.tag)) False := by
    refine shows_get_bind fun d hd => ?_
    rw [hd.scripts]
    exact puts_put _
  have := hchildren.bind fun known₂ _ _ _ => hrest known₂
  simpa only [bind_assoc] using this

theorem puts_buildTagged {e : Element} (h : ∀ n ∈ e.children, Faithful w s n)
    (ha : e.attributes.all fun a => isPlainAttribute e a.1 a.2) :
    Puts w known mode i (buildTagged s e (e.children.map (buildNode s))) (fun b =>
      chars (Markup.openTag e.tag) ++ (e.attributes.flatMap fun a => attributeOutput s w b a.1 a.2) ++
        if e.canHaveChildren then
          chars Markup.closeTag ++
            (shownChildren s (contentMode e mode)
              (e.children.zip (e.children.map (nodeOutput s w (contentMode e mode) b)))).flatten ++
            chars (Markup.endTag e.tag)
        else chars (if s.xhtmlStyle then Markup.closeVoidTag else Markup.closeTag)) False := by
  unfold buildTagged
  refine ((puts_put _).bind fun known₁ _ _ _ => ?_).congr fun b => (List.append_assoc _ _ _).symm
  refine (shows_buildAttributes ha).bind fun known₂ p _ hp => ?_
  subst hp
  dsimp only
  rw [if_pos (by rfl)]
  split
  · exact puts_buildContent h
  · exact puts_put _

theorem shows_inMethodFrame :
    Shows w known mode i inMethodFrame silent i fun _ (_ : Bool) => True :=
  shows_get_bind fun _ _ => .pure True.intro

mutual

theorem puts_buildNode : ∀ n : Node, isPlain n → Faithful w s n
  | .text kind value _, h => fun known mode => by
      unfold isPlain at h
      unfold buildNode nodeOutput
      exact puts_buildText value (by simpa using h)
  | .code block, h => fun known mode => by
      unfold isPlain at h
      unfold buildNode nodeOutput
      rw [Bool.and_eq_true] at h
      exact (puts_buildBlock h.2).forget
  | .element ⟨tag, attributes, children, position⟩, h => fun known mode => by
      unfold isPlain at h
      unfold buildNode nodeOutput
      simp only [Bool.and_eq_true, Bool.not_eq_true'] at h
      obtain ⟨⟨⟨hscript, -⟩, ha⟩, hc⟩ := h
      simp only [eachOutput_eq, buildEach_eq, buildElement, hscript]
      exact puts_buildTagged (e := ⟨tag, attributes, children, position⟩)
        (puts_buildEach children hc) ha
  | .choice ⟨branches, _⟩, h => fun known mode => by
      unfold isPlain at h
      unfold buildNode nodeOutput
      refine puts_flush.andThen fun known₁ _ _ _ => ?_
      refine shows_inMethodFrame.andThen fun known₂ inherited _ _ => ?_
      refine (shows_buildBranches branches h known₂ mode inherited).andThen fun known₃ built _ hb => ?_
      exact (puts_addAll hb).forget
  | .branch ⟨test, children, _⟩, h => fun known mode => by
      unfold isPlain at h
      unfold buildNode nodeOutput
      rw [Bool.and_eq_true] at h
      obtain ⟨ht, hc⟩ := h
      simp only [eachOutput_eq, buildEach_eq]
      have hbody := puts_runAll (puts_buildEach children hc)
      refine puts_flush.andThen fun known₁ _ _ _ => ?_
      cases test with
      | some test =>
          rw [Option.all_some] at ht
          refine (shows_requiredExpr ht).andThen fun known₂ e _ he => ?_
          exact (puts_addCondition he.decides (hbody known₂ mode).anywhere).forget
      | none =>
          exact (puts_addCondition decides_true
            (hbody known₁ mode).anywhere).forget
  | .loop ⟨each, within, count, data, children, position⟩, h => fun known mode => by
      unfold isPlain at h
      unfold buildNode nodeOutput
      rw [Bool.and_eq_true] at h
      obtain ⟨hl, hc⟩ := h
      simp only [eachOutput_eq, buildEach_eq]
      split
      · next he =>
          rw [List.isEmpty_iff.1 he]
          exact (Shows.pure True.intro).congr fun b => by simp
      · have hbody := puts_runAll (puts_buildEach children hc) known mode
        refine (shows_buildRenderMethod hbody.anywhere).andThen fun known₁ render _ hr => ?_
        exact (puts_buildLoopHead hl hr).forget
  | .view _, h | .call _, h | .part _, h => by
      unfold isPlain at h
      cases h

theorem puts_buildEach : ∀ ns : List Node, arePlain ns → ∀ n ∈ ns, Faithful w s n
  | [], _ => by simp
  | n :: rest, h => by
      unfold arePlain at h
      rw [Bool.and_eq_true] at h
      have hfirst := puts_buildNode n h.1
      have hrest := puts_buildEach rest h.2
      exact List.forall_mem_cons.2 ⟨hfirst, hrest⟩

/-- The branches of a plain choice put out the first one that is open. -/
theorem shows_buildBranches : ∀ branches : List Branch, isPlainChoice branches →
    ∀ known mode inherited, Shows w known mode True (buildBranches s inherited branches) silent True
      fun known' built => Says w known' (chain built) fun b => choiceOutput s w mode b branches
  | [], _ => fun known mode inherited => by
      unfold buildBranches
      simp only [choiceOutput]
      exact .pure says_nil
  | ⟨some test, children, _⟩ :: rest, h => fun known mode inherited => by
      unfold isPlainChoice at h
      simp only [Bool.and_eq_true] at h
      obtain ⟨⟨ht, hc⟩, hrest⟩ := h
      unfold buildBranches
      simp only [choiceOutput, eachOutput_eq, buildEach_eq]
      refine (shows_requiredExpr ht).andThen fun known₁ e _ he => ?_
      have hchildren := puts_runAll (puts_buildEach children hc) known₁ mode
      refine (shows_inFrame hchildren.anywhere).andThen fun known₂ body hs₂ hbody => ?_
      refine (shows_buildBranches rest hrest known₂ mode false).andThen fun known₃ built hs₃ hb => ?_
      exact .pure (says_cond (he.decides.mono (List.Subset.trans hs₂ hs₃)) (hbody.mono hs₃) hb)
  | ⟨none, children, _⟩ :: rest, h => fun known mode inherited => by
      unfold isPlainChoice at h
      rw [Bool.and_eq_true] at h
      obtain ⟨hlast, hc⟩ := h
      unfold buildBranches
      simp only [choiceOutput, eachOutput_eq, buildEach_eq]
      have hchildren := puts_runAll (puts_buildEach children hc) known mode
      refine (shows_inFrame hchildren.anywhere).andThen fun known₁ body _ hbody => ?_
      rw [List.isEmpty_iff.1 hlast]
      refine .pure ?_
      rw [chain, chain, List.append_nil]
      exact hbody

end

theorem says_buildView {v : View} {c : ClassDecl} (hp : isPlainView v) (hb : buildView s v = .ok c) :
    ∃ m known, c.findMethod? "render" = some m ∧ Knows c.findMethod? known ∧
      Says w known m.body fun b => viewOutput s w b v := by
  obtain ⟨package, name, d', hrun, rfl⟩ := runs_buildView hb
  obtain ⟨render, e', hr, hpromote⟩ := runs_bind.1 hrun
  obtain rfl := runs_promote.1 hpromote
  have hd := tidy_view package name
  have hbody : Puts w [] .normal True (runAll (buildEach s v.children))
      (fun b => viewOutput s w b v) False := by
    simp only [buildEach_eq, viewOutput, eachOutput_eq]
    exact (puts_runAll (puts_buildEach v.children hp) _ _).anywhere
  obtain ⟨stmts, known, hext, -, -, ⟨hmem, -, -⟩, hknown, hsays⟩ :=
    runs_method_of_puts hd ⟨rfl, rfl⟩ hbody hr
  have hdistinct := hext.tidy.distinct_promoted render
  refine ⟨asRender (renderMethod render stmts), known, ?_, ?_, hsays⟩
  · refine ClassOf.findMethod?_of_mem (m := asRender (renderMethod render stmts)) hdistinct ?_
    exact ClassOf.mem_modifyFirst_self (f := asRender) hext.tidy.distinct hmem
  · intro m hm
    obtain ⟨hmem, -, -, hne⟩ := hknown m hm
    exact ClassOf.findMethod?_of_mem hdistinct (ClassOf.mem_modifyFirst_of_ne hmem hne)

/-- A class renders what its view means, and nothing else. -/
theorem renders_iff_viewOutput {v : View} {c : ClassDecl} (w : World ν) (b : Binding ν)
    (out : List (Event ν)) (hp : isPlainView v) (hb : buildView s v = .ok c) :
    Renders c w b out ↔ out = viewOutput s w b v := by
  obtain ⟨m, known, hm, hk, hsays⟩ := says_buildView (w := w) hp hb
  obtain ⟨σ, hexec⟩ := hsays c.findMethod? hk b []
  constructor
  · rintro ⟨m', σ', hm', hexec'⟩
    cases hm.symm.trans hm'
    exact (hexec'.deterministic hexec).1
  · rintro rfl
    exact ⟨m, σ, hm, hexec⟩

def nameList : View where
  name := "V"
  children := [
    .text .docType " html" none,
    .element {
      tag := "ul"
      attributes := [("class", some (.text .literal "\"x\"" none)), ("hidden", none),
        ("disabled", some (.text .literal "1" none)),
        ("title", some (.code { kind := .expression, value := "data.title" }))]
      children := [.text .literal "\n" none, .loop {
        each := some (.code { kind := .expression, value := "data" })
        children := [.element { tag := "li", children := [
          .choice { branches := [
            { test := some { kind := .expression, value := "data.isNew" }
              children := [.text .literal "new <b" none] },
            { children := [.text .literal "old \t x" none] }] },
          .code { kind := .expression, value := "data.name" }] }] }] },
    .code { kind := .expression, value := "1" }, .code { kind := .expression, value := "\"<&\"" },
    .code { kind := .markup, value := "data.html" },
    .element { tag := "pre", children := [.text .literal " a\n b" none] },
    .text .comment "a-->b" none, .element { tag := "br" }]

def twoNames : World String := {
  (default : World String) with
  truth := fun t b =>
    match t.expr with
    | .prim (.bool value) _ => value
    | _ => b.data = "Ann"
  items := fun _ _ => ["Ann", "Bob"]
  truth_true := fun _ => rfl }

/-- An item of output as it can be read: of a value, how it is written, for which name and what it is. -/
def Event.picture : Event String → List Char
  | .char c => [c]
  | .value method t b =>
    let read :=
      match t.expr with
      | .property _ (.prim (.text name) _) _ => name
      | .prim known _ => known.toText
      | _ => "?"
    ("[" ++ method ++ " " ++ b.data ++ " " ++ read ++ "]").toList

def shownSettings : Settings := { normalizeWhitespace := true, xhtmlStyle := true }

theorem renders_iff_viewOutput_nameList :
    ∃ c, buildView shownSettings nameList = .ok c ∧ isPlainView nameList ∧
      (∀ (w : World String) (b : Binding String) (out : List (Event String)),
        Renders c w b out ↔ out = viewOutput shownSettings w b nameList) ∧
      ∀ out, Renders c twoNames ⟨"page", 0, 1, none⟩ out → out.flatMap Event.picture =
        ["<!DOCTYPE html>", "<ul class=\"&quot;x&quot;\" hidden", " disabled=\"disabled\"",
          " title=\"[htmlEncode page title]\">", "<li>new &lt;b[htmlEncode Ann name]</li>",
          "<li>old x[htmlEncode Bob name]</li>", "</ul>", "[write page 1]&lt;&amp;",
          "[write page html]", "<pre> a\n b</pre>", "<!--a--&gt;b-->", "<br />"].flatMap
          String.toList := by
  have hp : isPlainView nameList := by decide +kernel
  have hok : (buildView shownSettings nameList).isOk := by decide +kernel
  obtain ⟨c, h⟩ := exists_ok hok
  have hrenders (w : World String) (b : Binding String) (out : List (Event String)) :=
    renders_iff_viewOutput w b out hp h
  refine ⟨c, h, hp, hrenders, fun out hout => ?_⟩
  rw [(hrenders _ _ _).1 hout]
  decide +kernel

end TwinView.Server
