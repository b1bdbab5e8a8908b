import TwinView.Proofs.Server.Calls
import TwinView.Proofs.Server.Deferral
import TwinView.Proofs.Server.Setup

/-!
Attributes that depend on the environment. The server evaluates such an attribute, and a script behind
the element has the client evaluate it again where the value is undefined. A flag is left out: it is
written on a condition, and no script comes back to it.
-/

namespace TwinView.Server

open Code

variable {α β : Type} {s : Settings} {d d' : Draft} {new : List Stmt} {e : Element} {id : ElementId}
  {p p' : Pending} {name : String} {block : CodeBlock}

/-- A draft in which statements can be added. -/
structure Draft.Open (d : Draft) : Prop extends Tidy d where
  frames : d.frames ≠ []

theorem Draft.Open.extends (hd : d.Open) (h : Extends d new d') : d'.Open :=
  ⟨h.tidy, frames_ne_nil h hd.frames⟩

theorem Follows.extends {i j : Prop} {Q : List Member → α → β → Prop} {x : Build α} {f : Walk β} {a : α}
    (h : Follows [] d.isUnconditional i x f j Q) (hd : d.Open) (hi : i → d.hasCall = false)
    (hr : Runs x d a d') : ∃ new, Extends d new d' := by
  let watch : Watch := { names := d.names, armed := d.needsExtras, scripts := d.hasScripts }
  have hagrees : Agrees watch d := ⟨⟨fun _ => rfl, hd.renamed, hd.renamed⟩, rfl, rfl⟩
  obtain ⟨new, _, ht, -⟩ := h d a d' watch hd.toTidy hagrees hd.frames rfl hi hr
  exact ⟨new, ht.ext⟩

theorem Draft.Open.opened (hd : d.Open) (ofMethod : Bool) : (d.opened ofMethod).Open :=
  ⟨hd.toTidy.opened ofMethod, List.cons_ne_nil _ _⟩

theorem pieces_flushed {f : Draft} {ofMethod : Bool} (h : Extends (d.opened ofMethod) new f) :
    pieces (new ++ f.flushed) = f.contents := by
  have htop : f.top = new := top_extendTop (d := d.opened ofMethod) (List.cons_ne_nil _ _) h.frames
  unfold Draft.flushed Draft.contents
  split
  · next hb => simp [htop, hb]
  · simp [htop, Draft.pending, pieceOf_markup]

/-- A condition around what a builder leaves in a frame of its own. -/
theorem extends_addCondition {test : Expr} {body : Build Unit} (hr : Runs (addCondition test body) d () d')
    (hbody : ∀ f, Runs body (d.opened false) () f → ∃ new, Extends (d.opened false) new f) :
    ∃ f stmts, Runs body (d.opened false) () f ∧ pieces stmts = f.contents ∧
      Extends d [.cond test stmts []] d' := by
  obtain ⟨stmts, g, hin, hadd⟩ := runs_bind.1 hr
  obtain ⟨f, hf, hclose⟩ := runs_inFrame.1 hin
  obtain ⟨new, hext⟩ := hbody f hf
  rw [close_of_extends hext] at hclose
  cases hclose
  have hclosed := extends_closedTo hext
  refine ⟨f, _, hf, pieces_flushed hext, ?_⟩
  rw [runs_modify.1 hadd, ← List.nil_append [Stmt.cond _ _ _]]
  exact hclosed.trans (.add hclosed.tidy _)

/-- The call of a script that evaluates attributes on the client and sets them at their element. -/
def attributeCall (attributes : List (String × Client.Data)) (n : Nat) (id : ElementId) : List Piece :=
  scriptCall ((Client.Data.object attributes).write .compact .script 1) (boundValues n) id.pieces ++
    spell ",1);"

/-- Somewhere in what the draft renders the client evaluates the attributes. -/
def Draft.Calls (d : Draft) (attributes : List (String × Client.Data)) (n : Nat) : Prop :=
  ∃ before id behind, d.contents = before ++ attributeCall attributes n id ++ behind

/-- The statements have a branch for an undefined value of the attribute, in which the client evaluates
its code. -/
def FinishedIn (stmts : List Stmt) (h : Hybrid) : Prop :=
  ∃ body, .cond (isUndefined h.value) body [] ∈ stmts ∧ ∃ setup id,
    pieces body = setup ++ attributeCall [(h.name, .snippet h.code)] h.arity id

theorem FinishedIn.mono {stmts stmts' : List Stmt} {h : Hybrid} (hf : FinishedIn stmts h)
    (hs : stmts ⊆ stmts') : FinishedIn stmts' h := by
  obtain ⟨body, hmem, hcall⟩ := hf
  exact ⟨body, hs hmem, hcall⟩

theorem contents_of_extends (hd : d.frames ≠ []) (hb : d.buffer = "") (h : Extends d new d') :
    ∃ behind, d'.contents = d.contents ++ behind := by
  refine ⟨pieces new ++ spell d'.buffer, ?_⟩
  rw [Draft.contents, Draft.contents, top_extendTop hd h.frames, hb]
  simp

theorem contents_flush (hd : d.frames ≠ []) : d.flush.contents = d.contents := by
  obtain ⟨ps, hholds, -, rfl⟩ := spells_flush d () d.flush hd False.elim (runs_modify.2 rfl)
  rw [hholds.contents, List.append_nil]

theorem contents_putAttributeCall {attributes : List (String × Client.Data)} {n : Nat}
    (hd : d.frames ≠ []) (hr : Runs (putAttributeCall attributes id n) d () d') :
    ∃ setup, d'.contents = setup ++ attributeCall attributes n id := by
  obtain ⟨_, hheld, -, setup, -, rfl⟩ := fills_putAttributeCall attributes id n d () d' hd False.elim hr
  exact ⟨d.contents ++ setup, by rw [hheld.contents, List.append_assoc, attributeCall]⟩

theorem extends_declare {type : Ty} {stem : String} {init value : Expr} (hd : d.Open)
    (hr : Runs (declare type stem init) d value d') :
    ∃ v, value = .variableRef type v ∧ Extends d [.var { type, name := v, init := some init }] d' := by
  obtain ⟨rfl, rfl⟩ := runs_declare.1 hr
  have hext := extends_fresh hd.toTidy stem
  exact ⟨_, rfl, hext.trans (.add hext.tidy _)⟩

theorem extends_noteScript (hd : d.Open) (hr : Runs noteScript d () d') : Extends d [] d' := by
  obtain rfl := runs_modify.1 hr
  exact extends_flags hd.toTidy rfl rfl rfl hd.call

/-- The call of a hybrid attribute is the last thing in its branch. -/
theorem contents_hybridCall {opened : Option Expr} {h : Hybrid} (hd : d.Open) (hcall : d.hasCall = false)
    (hr : Runs (hybridCall s id opened h) d () d') :
    ∃ setup, d'.contents = setup ++ attributeCall [(h.name, .snippet h.code)] h.arity id := by
  cases opened with
  | none => exact contents_putAttributeCall hd.frames hr
  | some flag =>
      obtain ⟨_, d₁, hnote, hopening⟩ := runs_bind.1 hr
      obtain ⟨tag, d₂, htag, hadding⟩ := runs_bind.1 hopening
      obtain ⟨_, d₃, hadd, hcalling⟩ := runs_bind.1 hadding
      have hopen := hd.extends (extends_noteScript hd hnote)
      obtain rfl := runs_modify.1 hnote
      obtain ⟨new, hext⟩ := (quiet_openTag (s := s) flag).extends hopen (fun _ => hcall)
        (runs_bind.2 ⟨tag, d₂, htag, hadd⟩)
      exact contents_putAttributeCall (hopen.extends hext).frames hcalling

theorem finished_buildHybridCalls {opened : Option Expr} {hs : List Hybrid} (hd : d.Open)
    (hr : Runs (buildHybridCalls s id opened hs) d () d') :
    ∃ new, Extends d new d' ∧ (∀ h ∈ hs, FinishedIn new h) ∧
      ∃ behind, d'.contents = d.contents ++ behind := by
  induction hs generalizing d with
  | nil =>
      obtain ⟨-, rfl⟩ := runs_pure.1 hr
      exact ⟨[], .refl hd.toTidy, by simp, [], (List.append_nil _).symm⟩
  | cons h rest ih =>
      obtain ⟨_, d₁, hflush, hfirst⟩ := runs_bind.1 hr
      obtain ⟨_, d₂, hcond, hbehind⟩ := runs_bind.1 hfirst
      obtain rfl := runs_modify.1 hflush
      have hflushed := Extends.flush hd.toTidy
      have hopened := (hd.extends hflushed).opened false
      have hidle : (d.flush.opened false).hasCall = false :=
        Bool.eq_false_iff.2 fun hc => hopened.call hc (buffer_flush d)
      obtain ⟨f, stmts, hf, hpieces, hext⟩ := extends_addCondition hcond fun f hf =>
        (follows_hybridCall h).extends hopened (fun _ => hidle) hf
      obtain ⟨new, hrest, hfinished, -⟩ := ih (hd.extends (hflushed.trans hext)) hbehind
      refine ⟨_, hflushed.trans (hext.trans hrest), List.forall_mem_cons.2 ⟨?_, fun h' hh => ?_⟩, ?_⟩
      · obtain ⟨setup, hcontents⟩ := contents_hybridCall hopened hidle hf
        exact ⟨stmts, by simp, setup, id, hpieces.trans hcontents⟩
      · refine (hfinished h' hh).mono fun stmt hs => ?_
        simp [hs]
      · rw [← contents_flush hd.frames]
        exact contents_of_extends (hd.extends hflushed).frames (buffer_flush d) (hext.trans hrest)

/-- Behind an element the client evaluates what has been left to it, and each hybrid attribute has its
branch. -/
theorem finished_buildPending (hd : d.Open) (hr : Runs (buildPending s p id) d () d') :
    ∃ new, Extends d new d' ∧ (∀ h ∈ p.hybrids, FinishedIn new h) ∧
      (p.deferred ≠ [] → d'.Calls p.deferred p.arity) := by
  unfold buildPending at hr
  split at hr
  · next hnone =>
      obtain ⟨flag, d₁, hdeclare, hcalls⟩ := runs_bind.1 hr
      obtain ⟨_, d₂, hhybrids, hclose⟩ := runs_bind.1 hcalls
      obtain ⟨new₁, hext₁⟩ := (quiet_declare _ _ _).extends hd False.elim hdeclare
      have hopen₁ := hd.extends hext₁
      obtain ⟨new₂, hext₂, hfinished, -⟩ := finished_buildHybridCalls hopen₁ hhybrids
      have hopen₂ := hopen₁.extends hext₂
      obtain ⟨f, stmts, -, -, hext₃⟩ := extends_addCondition hclose fun f hf =>
        ⟨[], extends_put (hopen₂.opened false).toTidy hf⟩
      refine ⟨_, hext₁.trans (hext₂.trans hext₃), fun h hh => ?_, fun hsome => ?_⟩
      · refine (hfinished h hh).mono fun stmt hs => ?_
        simp [hs]
      · exact absurd (List.isEmpty_iff.1 hnone) hsome
  · obtain ⟨_, d₁, hnote, htagging⟩ := runs_bind.1 hr
    obtain ⟨_, d₂, htag, hcalling⟩ := runs_bind.1 htagging
    obtain ⟨_, d₃, hcall, hrest⟩ := runs_bind.1 hcalling
    obtain ⟨_, d₄, hhybrids, hclose⟩ := runs_bind.1 hrest
    have hext₁ := extends_noteScript hd hnote
    have hopen₁ := hd.extends hext₁
    obtain ⟨new₂, hext₂⟩ := quiet_putScriptTag.extends hopen₁ False.elim htag
    have hopen₂ := hopen₁.extends hext₂
    obtain ⟨new₃, hext₃⟩ := (follows_putAttributeCall p.deferred id p.arity).extends hopen₂ False.elim hcall
    have hopen₃ := hopen₂.extends hext₃
    obtain ⟨new₄, hext₄, hfinished, between, hbetween⟩ := finished_buildHybridCalls hopen₃ hhybrids
    have hext₅ := extends_put (hopen₃.extends hext₄).toTidy hclose
    refine ⟨_, hext₁.trans (hext₂.trans (hext₃.trans (hext₄.trans hext₅))), fun h hh => ?_, fun _ => ?_⟩
    · refine (hfinished h hh).mono fun stmt hs => ?_
      simp [hs]
    · obtain ⟨before, hbefore⟩ := contents_putAttributeCall hopen₂.frames hcall
      obtain ⟨_, hheld, -, rfl⟩ := spells_put _ d₄ () d' (hopen₃.extends hext₄).frames False.elim hclose
      exact ⟨before, id, between ++ spell _, by
        rw [hheld.contents, hbetween, hbefore, List.append_assoc (before ++ _)]⟩

theorem buildAttributes_append (xs ys : List (String × Option Node)) :
    buildAttributes s e p (xs ++ ys) = buildAttributes s e p xs >>= fun p => buildAttributes s e p ys := by
  induction xs generalizing p with
  | nil => simp [buildAttributes]
  | cons a rest ih =>
      obtain ⟨name, value⟩ := a
      cases value with
      | none => simp [buildAttributes, ih]
      | some n =>
          simp only [List.cons_append, buildAttributes, ih]
          split_ifs <;> simp only [bind_assoc]

theorem buildUpTo_append (xs ys : List (String × Option Node)) :
    buildUpTo s e (xs ++ ys) = buildUpTo s e xs >>= fun p => buildAttributes s e p ys := by
  unfold buildUpTo
  split
  · simp only [buildAttributes_append, bind_assoc]
  · simp only [buildAttributes_append, bind_assoc]

theorem extends_buildAttributes {attributes : List (String × Option Node)} (hd : d.Open)
    (hr : Runs (buildAttributes s e p attributes) d p' d') : ∃ new, Extends d new d' :=
  (follows_buildAttributes (l := ⟨!p.deferred.isEmpty, p.hybrids.length⟩) ⟨rfl, rfl⟩ attributes).extends
    hd False.elim hr

theorem extends_buildUpTo {attributes : List (String × Option Node)} (hd : d.Open)
    (hr : Runs (buildUpTo s e attributes) d p d') : ∃ new, Extends d new d' := by
  have hfollows {known : List Member} {steady : Bool} :
      Follows known steady False (do
        put (Markup.openTag e.tag)
        buildAttributes s e {} attributes) (watchAttributes e {} attributes) False
        fun _ p l => Leaves p l :=
    (quiet_put _).bind fun _ _ _ _ => follows_buildAttributes ⟨rfl, rfl⟩ attributes
  unfold buildUpTo at hr
  split at hr
  · exact (follows_noteScript.bind fun _ _ _ _ _ => (follows_ensureExtras true).bind
      fun _ _ _ _ _ => hfollows).extends hd False.elim hr
  · exact hfollows.extends hd False.elim hr

/-- The script behind an element is the last thing that an element with pending attributes adds. -/
theorem finished_buildBehind (hd : d.Open)
    (hr : Runs (buildBehind s e (buildEach s e.children) p) d () d') :
    ∃ new, Extends d new d' ∧ (∀ h ∈ p.hybrids, FinishedIn new h) ∧
      (p.deferred ≠ [] → d'.Calls p.deferred p.arity) := by
  have hbody (d d' : Draft) (hd : d.Open) (hr : Runs (buildBody s e (buildEach s e.children)) d () d') :
      ∃ new, Extends d new d' := by
    unfold buildBody at hr
    split at hr
    · rw [buildEach_eq] at hr
      exact (follows_buildContent (tracked_buildEach e.children)).extends hd False.elim hr
    · exact ⟨[], extends_put hd.toTidy hr⟩
  unfold buildBehind at hr
  split at hr
  · next hp =>
      obtain ⟨hnone, hnohybrids⟩ : p.deferred = [] ∧ p.hybrids = [] := by
        simpa [Pending.isEmpty] using hp
      obtain ⟨new, hext⟩ := hbody d d' hd hr
      exact ⟨new, hext, by simp [hnohybrids], fun h => absurd hnone h⟩
  · obtain ⟨id, d₁, hid, hrest⟩ := runs_bind.1 hr
    obtain ⟨_, d₂, hcontent, hpending⟩ := runs_bind.1 hrest
    obtain ⟨new₁, hext₁⟩ := (quiet_buildElementId e p).extends hd False.elim hid
    have hopen₁ := hd.extends hext₁
    obtain ⟨new₂, hext₂⟩ := hbody d₁ d₂ hopen₁ hcontent
    obtain ⟨new₃, hext₃, hfinished, hcalls⟩ := finished_buildPending (hopen₁.extends hext₂) hpending
    refine ⟨_, hext₁.trans (hext₂.trans hext₃), fun h hh => (hfinished h hh).mono fun stmt hs => ?_, hcalls⟩
    simp [hs]

/-- The block of an attribute as it is compiled, for the server and for the client. -/
def attributeBlock (name : String) (block : CodeBlock) : CodeBlock :=
  if Vocabulary.isFlagAttribute name then block else unwrapMarkup block

/-- The value of a block on the server, and whether it depends on the environment. -/
def evaluated? (names : Names) (b : CodeBlock) : Option (Expr × Bool) :=
  match (Script.compile names (clientCode b)).1 with
  | .error _ => none
  | .ok t =>
    match t.methods with
    | [] => none
    | m :: rest => some ((inlined m rest).1, t.hasExtras)

theorem runs_fragment?_evaluated {b : CodeBlock} {canDefer : Bool} {r : Except Error Fragment}
    (h : Runs (fragment? b canDefer) d r d') :
    (evaluated? d.names b = none ∧ ∃ e, r = .error e) ∨
      ∃ value extras, evaluated? d.names b = some (value, extras) ∧
        r = .ok { expr := value, hybrid := extras && canDefer } := by
  unfold evaluated?
  obtain ⟨e, rfl, -, hnone⟩ | ⟨t, m, rest, ht, hm, rfl, -⟩ := runs_fragment? h
  · refine .inl ⟨?_, e, rfl⟩
    split
    · rfl
    · next t ht => rw [hnone t ht]
  · exact .inr ⟨_, _, by rw [ht]; simp only [hm], rfl⟩

/-- A flag that the server evaluates leaves nothing to the client, whatever it depends on. -/
theorem flag_of_evaluated {value : Expr} {extras : Bool} (h : evaluated? d.names block = some (value, extras))
    (hr : Runs (buildFlag s p name (.code block)) d p' d') : p' = p := by
  unfold buildFlag at hr
  obtain ⟨r, d₁, hfragment, hrest⟩ := runs_bind.1 hr
  obtain ⟨hnone, -⟩ | ⟨_, _, -, rfl⟩ := runs_fragment?_evaluated hfragment
  · rw [h] at hnone
    cases hnone
  · obtain ⟨_, d₂, -, hadd⟩ := runs_bind.1 hrest
    obtain ⟨_, d₃, -, hpure⟩ := runs_bind.1 hadd
    exact (runs_pure.1 hpure).1

/-- An attribute whose value depends on the environment is declared, and left to the client where it is
undefined. -/
theorem plain_of_evaluated {value : Expr} (hd : d.Open)
    (h : evaluated? d.names (unwrapMarkup block) = some (value, true))
    (hr : Runs (buildPlain s e p name (.code block)) d p' d') :
    ∃ v new, Extends d new d' ∧ .var { type := .object, name := v, init := some value } ∈ new ∧
      p' = { p with hybrids := p.hybrids ++ [{
        value := .variableRef .object v
        name, code := clientCode (unwrapMarkup block), arity := (unwrapMarkup block).arity }] } := by
  unfold buildPlain at hr
  obtain ⟨r, d₁, hfragment, hrest⟩ := runs_bind.1 hr
  have hext₁ := extends_fragment? hd.toTidy hfragment
  obtain ⟨hnone, -⟩ | ⟨_, _, hsome, rfl⟩ := runs_fragment?_evaluated hfragment
  · rw [h] at hnone
    cases hnone
  · cases h.symm.trans hsome
    obtain ⟨_, d₂, hflush, hdeclaring⟩ := runs_bind.1 hrest
    obtain ⟨_, d₃, hdeclare, hcond⟩ := runs_bind.1 hdeclaring
    obtain ⟨_, d₄, hadd, hpure⟩ := runs_bind.1 hcond
    obtain ⟨rfl, rfl⟩ := runs_pure.1 hpure
    obtain rfl := runs_modify.1 hflush
    have hext₂ := hext₁.trans (Extends.flush hext₁.tidy)
    obtain ⟨v, rfl, hext₃⟩ := extends_declare (hd.extends hext₂) hdeclare
    have hext := hext₂.trans hext₃
    obtain ⟨f, stmts, -, -, hext₄⟩ := extends_addCondition hadd fun f hf =>
      (quiet_putAttribute fun _ => sumsIn_writeValue block _).extends ((hd.extends hext).opened false)
        False.elim hf
    exact ⟨v, _, hext.trans hext₄, by simp, rfl⟩

/-- A block that is not linked to is a flag or is written as it is. -/
theorem runs_codeAttribute (hlink : e.isLinkAttribute name = false)
    (hr : Runs (buildAttributes s e p [(name, some (.code block))]) d p' d') :
    (Vocabulary.isFlagAttribute name ∧ attributeBlock name block = block ∧
        Runs (buildFlag s p name (.code block)) d p' d') ∨
      (Vocabulary.isFlagAttribute name = false ∧ attributeBlock name block = unwrapMarkup block ∧
        Runs (buildPlain s e p name (.code block)) d p' d') := by
  simp only [buildAttributes, bind_pure, hlink] at hr
  unfold attributeBlock
  cases hf : Vocabulary.isFlagAttribute name with
  | true =>
      rw [if_pos hf] at hr
      exact .inl ⟨rfl, rfl, hr⟩
  | false =>
      rw [if_neg (by simp [hf])] at hr
      exact .inr ⟨rfl, rfl, hr⟩

theorem deferred_of_refused (hlink : e.isLinkAttribute name = false)
    (h : evaluated? d.names (attributeBlock name block) = none)
    (hr : Runs (buildAttributes s e p [(name, some (.code block))]) d p' d') :
    p' = p.defer name (attributeBlock name block) := by
  obtain ⟨-, hb, hr⟩ | ⟨-, hb, hr⟩ := runs_codeAttribute hlink hr
  all_goals
    rw [hb] at h ⊢
    obtain ⟨r, d₁, hfragment, hrest⟩ := runs_bind.1 hr
    obtain ⟨-, _, rfl⟩ | ⟨_, _, hsome, -⟩ := runs_fragment?_evaluated hfragment
    · exact (runs_pure.1 hrest).1
    · cases h.symm.trans hsome

structure Pending.Lacks (p : Pending) (name : String) : Prop where
  deferred : ∀ a ∈ p.deferred, a.1 ≠ name
  hybrids : ∀ h ∈ p.hybrids, h.name ≠ name

theorem Pending.Lacks.step {other : String} (hne : other ≠ name) (hp : p.Lacks name)
    (h : Pending.Step other p p') : p'.Lacks name := by
  cases h with
  | written => exact hp
  | deferred b =>
      refine ⟨fun a ha => ?_, hp.hybrids⟩
      rcases mem_of_mem_put ha with ha | rfl
      · exact hp.deferred a ha
      · exact hne
  | hybrid value b =>
      refine ⟨hp.deferred, fun h hh => ?_⟩
      rcases List.mem_append.1 hh with hh | hh
      · exact hp.hybrids h hh
      · rw [List.mem_singleton.1 hh]
        exact hne

theorem Pending.Step.mem_hybrids {other : String} {h : Hybrid} (hs : Pending.Step other p p')
    (hh : h ∈ p.hybrids) : h ∈ p'.hybrids := by
  cases hs with
  | written => exact hh
  | deferred b => exact hh
  | hybrid value b => exact List.mem_append_left _ hh

theorem Pending.Step.mem_deferred {other : String} {data : Client.Data} (hne : other ≠ name)
    (hs : Pending.Step other p p') (ha : (name, data) ∈ p.deferred) : (name, data) ∈ p'.deferred := by
  cases hs with
  | written => exact ha
  | deferred b => exact mem_put_of_ne hne ha
  | hybrid value b => exact ha

/-- A value of an attribute that may turn out to be undefined, in a variable. -/
def hybridOf (v name : String) (b : CodeBlock) : Hybrid where
  value := .variableRef .object v
  name
  code := clientCode b
  arity := b.arity

/-- What becomes of the block of the attribute on the server, behind the attributes before it. -/
def EvaluatesTo (s : Settings) (e : Element) (d : Draft) (name : String) (block : CodeBlock)
    (r : Option (Expr × Bool)) : Prop :=
  ∃ before after p d₁, e.attributes = before ++ (name, some (.code block)) :: after ∧
    Runs (buildUpTo s e before) d p d₁ ∧ evaluated? d₁.names (attributeBlock name block) = r

/-- Behind the element the client evaluates the attribute: always, with what is deferred, or where the
value of the server is undefined. -/
def EvaluatedAgain (s : Settings) (e : Element) (d d' : Draft) (name : String) (b : CodeBlock)
    (value : Expr) : Prop :=
  ∃ p d₁ new, Runs (buildUpTo s e e.attributes) d p d₁ ∧ Extends d new d' ∧
    ((name, .snippet (clientCode b)) ∈ p.deferred ∧ d'.Calls p.deferred p.arity ∨
      ∃ v, .var { type := .object, name := v, init := some value } ∈ new ∧
        hybridOf v name b ∈ p.hybrids ∧ FinishedIn new (hybridOf v name b))

variable {before after : List (String × Option Node)} {a : String × Option Node} {value : Expr}

theorem runs_buildUpTo_split : Runs (buildUpTo s e (before ++ a :: after)) d p d' ↔
    ∃ p₁ d₁ p₂ d₂, Runs (buildUpTo s e before) d p₁ d₁ ∧ Runs (buildAttributes s e p₁ [a]) d₁ p₂ d₂ ∧
      Runs (buildAttributes s e p₂ after) d₂ p d' := by
  rw [List.append_cons, buildUpTo_append, buildUpTo_append]
  simp only [runs_bind]
  constructor
  · rintro ⟨p₂, d₂, ⟨p₁, d₁, hbefore, ha⟩, hafter⟩
    exact ⟨p₁, d₁, p₂, d₂, hbefore, ha, hafter⟩
  · rintro ⟨p₁, d₁, p₂, d₂, hbefore, ha, hafter⟩
    exact ⟨p₂, d₂, ⟨p₁, d₁, hbefore, ha⟩, hafter⟩

/-- What is pending before an element does is what its attributes keep up. -/
theorem results_buildUpTo {I : Pending → Prop} {attributes : List (String × Option Node)}
    (hstep : ∀ a ∈ attributes, ∀ p p', Pending.Step a.1 p p' → I p → I p') (h : I {}) :
    Results (buildUpTo s e attributes) I := by
  unfold buildUpTo
  split
  · exact .seq fun _ => .seq fun _ => .seq fun _ => results_buildAttributes hstep h
  · exact .seq fun _ => results_buildAttributes hstep h

theorem others_ne (h : e.attributes = before ++ a :: after) (hnames : (e.attributes.map (·.1)).Nodup) :
    ∀ other ∈ before ++ after, other.1 ≠ a.1 := by
  rw [h, List.map_append, List.map_cons] at hnames
  have hfree := (List.nodup_cons.1 (List.nodup_middle.1 hnames)).1
  rw [← List.map_append] at hfree
  exact fun other hother hname => hfree (List.mem_map.2 ⟨other, hother, hname⟩)

theorem runs_buildElement_split (h : e.attributes = before ++ a :: after) {children : List (Build Unit)}
    (hr : Runs (buildElement s e children) d () d') :
    ∃ p₁ d₁ p₂ d₂ p d₃, Runs (buildUpTo s e before) d p₁ d₁ ∧ Runs (buildAttributes s e p₁ [a]) d₁ p₂ d₂ ∧
      Runs (buildAttributes s e p₂ after) d₂ p d₃ ∧ Runs (buildUpTo s e e.attributes) d p d₃ ∧
        Runs (buildBehind s e children p) d₃ () d' := by
  rw [buildElement_eq] at hr
  obtain ⟨p, d₃, hattrs, hbehind⟩ := runs_bind.1 hr
  have hruns := hattrs
  rw [h] at hruns
  obtain ⟨p₁, d₁, p₂, d₂, hbefore, hone, hafter⟩ := runs_buildUpTo_split.1 hruns
  exact ⟨p₁, d₁, p₂, d₂, p, d₃, hbefore, hone, hafter, hattrs, hbehind⟩

theorem evaluatedAgain_of_refused (hd : d.Open) (hlink : e.isLinkAttribute name = false)
    (hnames : (e.attributes.map (·.1)).Nodup) (h : EvaluatesTo s e d name block none)
    (hr : Runs (buildElement s e (buildEach s e.children)) d () d') :
    EvaluatedAgain s e d d' name (attributeBlock name block) value := by
  obtain ⟨before, after, p₁, d₁, hattributes, hbefore, hvalue⟩ := h
  obtain ⟨p₁', d₁', p₂, d₂, p, d₃, hbefore', hone, hafter, hattrs, hbehind⟩ :=
    runs_buildElement_split hattributes hr
  cases hbefore.symm.trans hbefore'
  obtain ⟨new₁, hext₁⟩ := extends_buildUpTo hd hattrs
  obtain ⟨new₂, hext₂, -, hcalls⟩ := finished_buildBehind (hd.extends hext₁) hbehind
  have hmem : (name, .snippet (clientCode (attributeBlock name block))) ∈ p.deferred := by
    refine results_buildAttributes
      (I := fun p => (name, .snippet (clientCode (attributeBlock name block))) ∈ p.deferred)
      (fun a ha _ _ hs => hs.mem_deferred (others_ne hattributes hnames a (List.mem_append_right _ ha)))
      ?_ d₂ p d₃ hafter
    rw [deferred_of_refused hlink hvalue hone]
    exact mem_put_self _ _ _
  exact ⟨p, d₃, _, hattrs, hext₁.trans hext₂, .inl ⟨hmem, hcalls (List.ne_nil_of_mem hmem)⟩⟩

/-- An attribute that depends on the environment is evaluated on the client where the server has no value
for it. -/
theorem evaluatedAgain_of_not_flag (hd : d.Open) (hlink : e.isLinkAttribute name = false)
    (hflag : Vocabulary.isFlagAttribute name = false) (h : EvaluatesTo s e d name block (some (value, true)))
    (hr : Runs (buildElement s e (buildEach s e.children)) d () d') :
    EvaluatedAgain s e d d' name (attributeBlock name block) value := by
  obtain ⟨before, after, p₁, d₁, hattributes, hbefore, hvalue⟩ := h
  obtain ⟨p₁', d₁', p₂, d₂, p, d₃, hbefore', hone, hafter, hattrs, hbehind⟩ :=
    runs_buildElement_split hattributes hr
  cases hbefore.symm.trans hbefore'
  obtain ⟨new₁, hext₁⟩ := extends_buildUpTo hd hbefore
  have hopen₁ := hd.extends hext₁
  obtain ⟨hf, -, -⟩ | ⟨-, hb, hplain⟩ := runs_codeAttribute hlink hone
  · rw [hflag] at hf
    cases hf
  · rw [hb] at hvalue ⊢
    obtain ⟨v, new₂, hext₂, hvar, rfl⟩ := plain_of_evaluated hopen₁ hvalue hplain
    have hopen₂ := hopen₁.extends hext₂
    obtain ⟨new₃, hext₃⟩ := extends_buildAttributes hopen₂ hafter
    obtain ⟨new₄, hext₄, hfinished, -⟩ := finished_buildBehind (hopen₂.extends hext₃) hbehind
    have hmem : hybridOf v name (unwrapMarkup block) ∈ p.hybrids :=
      results_buildAttributes (I := fun p => hybridOf v name (unwrapMarkup block) ∈ p.hybrids)
        (fun _ _ _ _ hs => hs.mem_hybrids) (List.mem_append_right _ List.mem_cons_self) d₂ p d₃ hafter
    refine ⟨p, d₃, _, hattrs, hext₁.trans (hext₂.trans (hext₃.trans hext₄)), .inr ⟨v, ?_, hmem, ?_⟩⟩
    · simp [hvar]
    · refine (hfinished _ hmem).mono fun stmt hs => ?_
      simp [hs]

theorem not_evaluatedAgain_of_flag (hlink : e.isLinkAttribute name = false)
    (hnames : (e.attributes.map (·.1)).Nodup) (hflag : Vocabulary.isFlagAttribute name)
    (h : EvaluatesTo s e d name block (some (value, true))) :
    ¬ EvaluatedAgain s e d d' name (attributeBlock name block) value := by
  obtain ⟨before, after, p₁, d₁, hattributes, hbefore, hvalue⟩ := h
  have hothers := others_ne hattributes hnames
  rintro ⟨p, d₃, new, hattrs, -, hagain⟩
  rw [hattributes] at hattrs
  obtain ⟨p₁', d₁', p₂, d₂, hbefore', hone, hafter⟩ := runs_buildUpTo_split.1 hattrs
  cases hbefore.symm.trans hbefore'
  have hlacks : p₁.Lacks name :=
    results_buildUpTo (I := fun p => p.Lacks name)
      (fun a ha _ _ hs hp => hp.step (hothers a (List.mem_append_left _ ha)) hs)
      ⟨by simp, by simp⟩ d p₁ d₁ hbefore
  obtain ⟨-, hb, hone⟩ | ⟨hf, -, -⟩ := runs_codeAttribute hlink hone
  · rw [hb] at hvalue
    cases flag_of_evaluated hvalue hone
    have hlacks' : p.Lacks name :=
      results_buildAttributes (I := fun p => p.Lacks name)
        (fun a ha _ _ hs hp => hp.step (hothers a (List.mem_append_right _ ha)) hs) hlacks d₂ p d₃ hafter
    obtain ⟨hmem, -⟩ | ⟨v, -, hmem, -⟩ := hagain
    · exact hlacks'.deferred _ hmem rfl
    · exact hlacks'.hybrids _ hmem rfl
  · rw [hflag] at hf
    cases hf

/-- An attribute whose value depends on the environment is evaluated again on the client just if it is
not a flag. -/
theorem evaluatedAgain_iff_not_flag (hd : d.Open) (hlink : e.isLinkAttribute name = false)
    (hnames : (e.attributes.map (·.1)).Nodup) (h : EvaluatesTo s e d name block (some (value, true)))
    (hr : Runs (buildElement s e (buildEach s e.children)) d () d') :
    EvaluatedAgain s e d d' name (attributeBlock name block) value ↔
      Vocabulary.isFlagAttribute name = false := by
  constructor
  · intro hagain
    rw [← Bool.not_eq_true]
    exact fun hflag => not_evaluatedAgain_of_flag hlink hnames hflag h hagain
  · exact fun hflag => evaluatedAgain_of_not_flag hd hlink hflag h hr

def readBlock : CodeBlock := { kind := .expression, value := "foo" }

/-- An element with one attribute, the value of which is read from the environment. -/
def readAttribute (tag name : String) : Element where
  tag
  attributes := [(name, some (.code readBlock))]

def inView : Draft := (Draft.withMethod { target := viewClass none "V" }).flush.opened true

theorem open_inView : inView.Open :=
  ⟨(Extends.flush (tidy_withMethod (tidy_view none "V"))).tidy.opened true, List.cons_ne_nil _ _⟩

theorem attributeBlock_readBlock (name : String) : attributeBlock name readBlock = readBlock := by
  unfold attributeBlock
  split <;> rfl

theorem evaluated?_readBlock : ∃ value, evaluated? inView.names readBlock = some (value, true) := by
  have hany : (evaluated? inView.names readBlock).any (·.2) := by decide +kernel
  obtain ⟨⟨value, extras⟩, hsome, hextras⟩ := (Option.any_eq_true _ _).1 hany
  cases hextras
  exact ⟨value, hsome⟩

theorem evaluatesTo_readAttribute {tag : String} (hs : (readAttribute tag name).isTag "script" = false) :
    ∃ value, EvaluatesTo {} (readAttribute tag name) inView name readBlock (some (value, true)) := by
  obtain ⟨value, hvalue⟩ := evaluated?_readBlock
  refine ⟨value, [], [], {}, { inView with buffer := inView.buffer ++ Markup.openTag tag }, rfl, ?_, ?_⟩
  · unfold buildUpTo
    rw [hs]
    rfl
  · rw [attributeBlock_readBlock]
    exact hvalue

theorem exists_runs_buildElement (h : ((buildElement s e (buildEach s e.children)).run d).isOk) :
    ∃ d', Runs (buildElement s e (buildEach s e.children)) d () d' := by
  obtain ⟨_, d', hr⟩ := exists_runs h
  exact ⟨d', hr⟩

/-- A title is evaluated again where the server has no value for it. -/
theorem evaluatedAgain_iff_not_flag_title :
    ∃ d' value, Runs (buildElement {} (readAttribute "p" "title") (buildEach {} [])) inView () d' ∧
      EvaluatesTo {} (readAttribute "p" "title") inView "title" readBlock (some (value, true)) ∧
      EvaluatedAgain {} (readAttribute "p" "title") inView d' "title" readBlock value := by
  obtain ⟨d', hr⟩ : ∃ d', Runs (buildElement {} (readAttribute "p" "title") (buildEach {} [])) inView () d' :=
    exists_runs_buildElement (by decide +kernel)
  obtain ⟨value, hvalue⟩ : ∃ value, EvaluatesTo {} (readAttribute "p" "title") inView "title" readBlock
      (some (value, true)) := evaluatesTo_readAttribute (by decide +kernel)
  have hagain := (evaluatedAgain_iff_not_flag open_inView (by decide +kernel) (by decide) hvalue hr).2
    (by decide +kernel)
  rw [attributeBlock_readBlock] at hagain
  exact ⟨d', value, hr, hvalue, hagain⟩

/-- The check mark of a box is not, though it is read from the environment as well. -/
theorem not_evaluatedAgain_checked :
    (readAttribute "input" "checked").isLinkAttribute "checked" = false ∧
      ∃ d' value, Runs (buildElement {} (readAttribute "input" "checked") (buildEach {} [])) inView () d' ∧
        EvaluatesTo {} (readAttribute "input" "checked") inView "checked" readBlock (some (value, true)) ∧
        ¬ EvaluatedAgain {} (readAttribute "input" "checked") inView d' "checked" readBlock value := by
  obtain ⟨d', hr⟩ : ∃ d', Runs (buildElement {} (readAttribute "input" "checked") (buildEach {} []))
      inView () d' := exists_runs_buildElement (by decide +kernel)
  obtain ⟨value, hvalue⟩ : ∃ value, EvaluatesTo {} (readAttribute "input" "checked") inView "checked"
      readBlock (some (value, true)) := evaluatesTo_readAttribute (by decide +kernel)
  have hnot : ¬ EvaluatedAgain {} (readAttribute "input" "checked") inView d' "checked"
      (attributeBlock "checked" readBlock) value :=
    not_evaluatedAgain_of_flag (by decide +kernel) (by decide) (by decide +kernel) hvalue
  rw [attributeBlock_readBlock] at hnot
  exact ⟨by decide +kernel, d', value, hr, hvalue, hnot⟩

end TwinView.Server
