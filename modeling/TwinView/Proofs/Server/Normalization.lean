import Mathlib.Tactic.SplitIfs
import TwinView.Proofs.Server.Nodes
import TwinView.Proofs.Server.Runs
import TwinView.Proofs.Template.Literals

/-!
Normalization of blanks on the server. A template whose attributes have no code can be normalized before it
is built: building it with normalization is building the normalized template without. Text keeps its blanks
inside `pre`, `script` and `style`; attributes are never touched, and void elements have no children.
-/

namespace TwinView.Server

open Code

variable {α β : Type} {s : Settings} {kept : Bool} {e : Element} {n : Node}

def keepsBlanks (e : Element) : Bool := e.isTag "script" || e.isTag "style" || e.isTag "pre"

mutual

def normalizedNode (kept : Bool) : Node → Node
  | .text .literal value position => .text .literal (shownAs kept value) position
  | .element ⟨tag, attributes, children, position⟩ =>
    let e : Element := ⟨tag, attributes, children, position⟩
    let kept := kept || keepsBlanks e
    let shown := trimmed kept (isEdgeText ·.1) (normalizedNodes kept children)
    .element { e with children := if e.canHaveChildren then shown.map (·.2) else [] }
  | n => n

def normalizedNodes (kept : Bool) : List Node → List (Node × Node)
  | [] => []
  | n :: rest => (n, normalizedNode kept n) :: normalizedNodes kept rest

end

theorem normalizedNodes_eq (ns : List Node) :
    normalizedNodes kept ns = ns.map fun n => (n, normalizedNode kept n) := by
  induction ns with
  | nil => rfl
  | cons n rest ih => rw [normalizedNodes, ih, List.map_cons]

def normalizedChildren (kept : Bool) (children : List Node) : List Node :=
  (trimmed kept isEdgeText children).map (normalizedNode kept)

theorem normalizedNode_element (kept : Bool) (e : Element) :
    normalizedNode kept (.element e) = .element { e with
      children := if e.canHaveChildren then normalizedChildren (kept || keepsBlanks e) e.children else [] } := by
  obtain ⟨tag, attributes, children, position⟩ := e
  simp only [normalizedNode, normalizedNodes_eq, trimmed_map, List.map_map, normalizedChildren,
    Function.comp_def]

def Draft.keeps (d : Draft) : Bool := d.mode ≠ .normal

def KeepsMode (x : Build α) : Prop := ∀ d a d', Runs x d a d' → d'.mode = d.mode

/-- The builders do the same where blanks are kept or not, and leave that as it is. -/
def SameIn (kept : Bool) (x y : Build α) : Prop :=
  ∀ d : Draft, d.keeps = kept → x.run d = y.run d ∧ ∀ a d', Runs x d a d' → d'.keeps = kept

theorem KeepsMode.keeps {x : Build α} (h : KeepsMode x) {d : Draft} (hd : d.keeps = kept) :
    ∀ a d', Runs x d a d' → d'.keeps = kept := fun a d' hr => by
  rw [Draft.keeps, h d a d' hr, ← hd, Draft.keeps]

theorem KeepsMode.sameIn {x : Build α} (h : KeepsMode x) : SameIn kept x x := fun _ hd => ⟨rfl, h.keeps hd⟩

theorem SameIn.bind {x y : Build α} {f g : α → Build β} (hx : SameIn kept x y)
    (hf : ∀ d a d', Runs x d a d' → SameIn kept (f a) (g a)) : SameIn kept (x >>= f) (y >>= g) := by
  intro d hd
  obtain ⟨hrun, hkeeps⟩ := hx d hd
  constructor
  · rw [StateT.run_bind, StateT.run_bind, ← hrun]
    cases hr : x.run d with
    | error _ => rfl
    | ok r => exact (hf d r.1 r.2 hr r.2 (hkeeps r.1 r.2 hr)).1
  · intro b d' hr
    obtain ⟨a, e, ha, hb⟩ := runs_bind.1 hr
    exact (hf d a e ha e (hkeeps a e ha)).2 b d' hb

theorem SameIn.seq {x y : Build Unit} {f g : Unit → Build β} (hx : SameIn kept x y)
    (hf : SameIn kept (f ()) (g ())) : SameIn kept (x >>= f) (y >>= g) :=
  hx.bind fun _ _ _ _ => hf

theorem SameIn.ite {c : Prop} [Decidable c] {x y x' y' : Build α} (h : c → SameIn kept x y)
    (h' : ¬ c → SameIn kept x' y') : SameIn kept (if c then x else x') (if c then y else y') := by
  by_cases hc : c
  · rw [if_pos hc, if_pos hc]
    exact h hc
  · rw [if_neg hc, if_neg hc]
    exact h' hc

theorem keepsMode_modify {f : Draft → Draft} (h : ∀ d, (f d).mode = d.mode) : KeepsMode (modify f) := by
  intro d a d' hr
  rw [runs_modify.1 hr, h]

theorem keepsMode_pure (a : α) : KeepsMode (pure a : Build α) := by
  intro d b d' hr
  rw [(runs_pure.1 hr).2]

theorem KeepsMode.bind {x : Build α} {f : α → Build β} (hx : KeepsMode x) (hf : ∀ a, KeepsMode (f a)) :
    KeepsMode (x >>= f) := by
  intro d b d' hr
  obtain ⟨a, e, ha, hb⟩ := runs_bind.1 hr
  rw [hf a e b d' hb, hx d a e ha]

theorem keepsMode_put (markup : String) : KeepsMode (put markup) := keepsMode_modify fun _ => rfl

theorem mode_add (d : Draft) (stmt : Stmt) : (d.add stmt).mode = d.mode := by
  unfold Draft.add
  split <;> rfl

theorem mode_flush (d : Draft) : d.flush.mode = d.mode := by
  unfold Draft.flush
  split
  · rfl
  · exact mode_add d _

theorem keepsMode_flush : KeepsMode flush := keepsMode_modify mode_flush

theorem keepsMode_add (stmt : Stmt) : KeepsMode (add stmt) := keepsMode_modify fun d => mode_add d stmt

theorem keepsMode_noteScript : KeepsMode noteScript := keepsMode_modify fun _ => rfl

theorem keepsMode_get : KeepsMode get := by
  intro d e d' hr
  rw [(runs_get.1 hr).2]

theorem KeepsMode.ite {c : Prop} [Decidable c] {x y : Build α} (hx : KeepsMode x) (hy : KeepsMode y) :
    KeepsMode (if c then x else y) := by
  split
  · exact hx
  · exact hy

theorem keepsMode_ensureExtras (inMarkup : Bool) : KeepsMode (ensureExtras inMarkup) := by
  refine keepsMode_get.bind fun _ => .ite ?_ (keepsMode_pure _)
  refine keepsMode_flush.bind fun _ => (keepsMode_add _).bind fun _ => keepsMode_modify fun d => ?_
  split <;> rfl

theorem keepsMode_putAttribute (name : String) (stmt : Stmt) : KeepsMode (putAttribute name stmt) :=
  (keepsMode_put _).bind fun _ => keepsMode_flush.bind fun _ => (keepsMode_add _).bind fun _ =>
    keepsMode_put _

/-- The builder adds nothing to what is pending, and leaves the mode as it is. -/
def KeepsPending (p : Pending) (x : Build Pending) : Prop :=
  ∀ d p' d', Runs x d p' d' → p' = p ∧ d'.mode = d.mode

theorem keepsPending_pure (p : Pending) : KeepsPending p (pure p) := by
  intro d p' d' hr
  obtain ⟨rfl, rfl⟩ := runs_pure.1 hr
  exact ⟨rfl, rfl⟩

theorem KeepsMode.pending {x : Build Unit} {y : Unit → Build Pending} {p : Pending} (hx : KeepsMode x)
    (hy : KeepsPending p (y ())) : KeepsPending p (x >>= y) := by
  intro d p' d' hr
  obtain ⟨_, e, hfirst, hrest⟩ := runs_bind.1 hr
  obtain ⟨rfl, hmode⟩ := hy e p' d' hrest
  exact ⟨rfl, hmode.trans (hx d () e hfirst)⟩

theorem keepsPending_buildFlag (p : Pending) (name value : String) (position : Option Position) :
    KeepsPending p (buildFlag s p name (.text .literal value position)) := by
  unfold buildFlag
  dsimp only
  split_ifs
  · exact (keepsMode_put _).pending (keepsPending_pure p)
  · exact keepsPending_pure p

theorem keepsPending_buildAttributes {p : Pending} {attributes : List (String × Option Node)}
    (h : ∀ a ∈ attributes, (fixedText? a.2).isSome) : KeepsPending p (buildAttributes s e p attributes) := by
  induction attributes with
  | nil => exact keepsPending_pure p
  | cons a rest ih =>
      obtain ⟨ha, hrest⟩ := List.forall_mem_cons.1 h
      have hthen {x : Build Pending} (hx : KeepsPending p x) :
          KeepsPending p (x >>= fun p => buildAttributes s e p rest) := by
        intro d p' d' hr
        obtain ⟨_, d₁, hfirst, hmore⟩ := runs_bind.1 hr
        obtain ⟨rfl, hmode⟩ := hx d _ d₁ hfirst
        obtain ⟨rfl, hmode'⟩ := ih hrest d₁ p' d' hmore
        exact ⟨rfl, hmode'.trans hmode⟩
      obtain ⟨name, value⟩ := a
      cases value with
      | none => exact (keepsMode_put _).pending (ih hrest)
      | some n =>
          obtain ⟨text, htext⟩ := Option.isSome_iff_exists.1 ha
          obtain ⟨value, position, rfl, -⟩ := exists_of_fixedText? htext
          unfold buildAttributes
          split_ifs
          · exact hthen (keepsPending_buildFlag p name value position)
          · exact hthen ((keepsMode_putAttribute _ _).pending (keepsPending_pure p))
          · exact hthen ((keepsMode_put _).pending (keepsPending_pure p))

/-- Normalization makes no difference to attributes, nor do the children of their element. -/
theorem buildAttributes_verbatim (p : Pending) (children : List Node) (attributes : List (String × Option Node)) :
    buildAttributes s.verbatim { e with children } p attributes = buildAttributes s e p attributes := by
  have hflag (p : Pending) (name : String) (n : Node) :
      buildFlag s.verbatim p name n = buildFlag s p name n := by
    cases n <;> rfl
  have hlink (p : Pending) (name : String) (n : Node) :
      buildLink s.verbatim { e with children } p name n = buildLink s e p name n := by
    cases n <;> rfl
  have hplain (p : Pending) (name : String) (n : Node) :
      buildPlain s.verbatim { e with children } p name n = buildPlain s e p name n := by
    cases n <;> rfl
  induction attributes generalizing p with
  | nil => rfl
  | cons a rest ih =>
      obtain ⟨name, value⟩ := a
      cases value with
      | none => simp only [buildAttributes, ih]
      | some n =>
          simp only [buildAttributes, ih, hflag, hlink, hplain]
          rfl

theorem keepsMode_buildLiteral (value : String) : KeepsMode (buildLiteral s value) :=
  keepsMode_get.bind fun d => by split <;> exact keepsMode_put _

theorem run_buildLiteral (s : Settings) (value : String) (d : Draft) : (buildLiteral s value).run d =
    (match d.mode with
      | .raw => put value
      | .preformatted => put (Markup.literal s.encodeNonAscii value)
      | .normal => put (Markup.literal s.encodeNonAscii
          (if s.normalizeWhitespace && value ≠ "" then Markup.normalize value else value))).run d :=
  rfl

theorem sameIn_buildLiteral (hs : s.normalizeWhitespace = true) (kept : Bool) (value : String) :
    SameIn kept (buildLiteral s value) (buildLiteral s.verbatim (shownAs kept value)) := by
  intro d hd
  refine ⟨?_, (keepsMode_buildLiteral value).keeps hd⟩
  subst hd
  rw [run_buildLiteral, run_buildLiteral]
  cases hmode : d.mode with
  | raw | preformatted => simp [shownAs, Draft.keeps, hmode, Settings.verbatim]
  | normal =>
      by_cases hvalue : value = "" <;> simp [shownAs, Draft.keeps, hmode, Settings.verbatim, hs, hvalue]

theorem sameIn_runAll {γ : Type} {xs : List γ} {f g : γ → Build Unit}
    (h : ∀ x ∈ xs, SameIn kept (f x) (g x)) : SameIn kept (runAll (xs.map f)) (runAll (xs.map g)) := by
  induction xs with
  | nil => exact (keepsMode_pure ()).sameIn
  | cons x rest ih =>
      obtain ⟨hx, hrest⟩ := List.forall_mem_cons.1 h
      exact hx.seq (ih hrest)

theorem run_buildChildren {d : Draft} (hd : d.keeps = kept) (children : List Node) :
    (buildChildren s (children.zip (buildEach s children))).run d =
      (runAll ((trimmed (kept || !s.normalizeWhitespace) isEdgeText children).map (buildNode s))).run d := by
  have hrun : (buildChildren s (children.zip (buildEach s children))).run d =
      (if s.normalizeWhitespace && d.mode = .normal then
        runAll ((Markup.trimEdges (isEdgeText ·.1) (children.zip (buildEach s children))).map (·.2))
      else runAll ((children.zip (buildEach s children)).map (·.2))).run d := rfl
  rw [hrun, buildEach_eq, zip_map_self, trimEdges_map, List.map_map, List.map_map]
  subst hd
  cases hnormalize : s.normalizeWhitespace <;> cases hmode : d.mode <;>
    simp [Draft.keeps, hmode, trimmed, Function.comp_def]

theorem sameIn_buildChildren (hs : s.normalizeWhitespace = true) (kept : Bool) {children : List Node}
    (h : ∀ n ∈ children, SameIn kept (buildNode s n) (buildNode s.verbatim (normalizedNode kept n))) :
    SameIn kept (buildChildren s (children.zip (buildEach s children)))
      (buildChildren s.verbatim ((normalizedChildren kept children).zip
        (buildEach s.verbatim (normalizedChildren kept children)))) := by
  have hall : SameIn kept (runAll ((trimmed kept isEdgeText children).map (buildNode s)))
      (runAll ((normalizedChildren kept children).map (buildNode s.verbatim))) := by
    rw [normalizedChildren, List.map_map]
    exact sameIn_runAll fun n hn => h n (trimmed_subset kept _ _ hn)
  intro d hd
  have hleft := run_buildChildren (s := s) hd children
  have hright := run_buildChildren (s := s.verbatim) hd (normalizedChildren kept children)
  rw [hs, Bool.not_true, Bool.or_false] at hleft
  rw [show s.verbatim.normalizeWhitespace = false from rfl, Bool.not_false, Bool.or_true] at hright
  unfold Runs
  rw [hleft, hright]
  exact hall d hd

theorem keeps_contentMode (e : Element) (d : Draft) :
    Draft.keeps { d with mode := contentMode e d.mode } = (d.keeps || keepsBlanks e) := by
  unfold Draft.keeps contentMode keepsBlanks
  dsimp only
  split_ifs with hraw hpre
  · simp [hraw]
  · simp [hpre]
  · simp [Bool.eq_false_iff.2 hraw, Bool.eq_false_iff.2 hpre]

theorem SameIn.inContent {x y : Build Unit} (h : SameIn (kept || keepsBlanks e) x y) :
    SameIn kept (inContent e x) (inContent e y) := by
  intro d hd
  obtain ⟨hrun, -⟩ := h { d with mode := contentMode e d.mode } (by rw [keeps_contentMode, hd])
  have hinside (z : Build Unit) : (Server.inContent e z).run d =
      z.run { d with mode := contentMode e d.mode } >>= fun r => .ok ((), { r.2 with mode := d.mode }) := rfl
  refine ⟨by rw [hinside, hinside, hrun], fun a d' hr => ?_⟩
  unfold Runs at hr
  rw [hinside] at hr
  cases hx : x.run { d with mode := contentMode e d.mode } with
  | error _ =>
      rw [hx] at hr
      cases hr
  | ok r =>
      rw [hx] at hr
      cases hr
      exact hd

theorem keepsMode_endContent : KeepsMode (endContent s e) :=
  keepsMode_get.bind fun _ => by
    split
    · exact (keepsMode_ensureExtras _).bind fun _ => (keepsMode_put _).bind fun _ => keepsMode_put _
    · exact keepsMode_put _

theorem sameIn_buildElement {children : List Node} {xs ys : List (Build Unit)}
    (hattributes : ∀ a ∈ e.attributes, (fixedText? a.2).isSome)
    (hcontent : e.canHaveChildren →
      SameIn kept (buildContent s e xs) (buildContent s.verbatim { e with children } ys)) :
    SameIn kept (buildElement s e xs) (buildElement s.verbatim { e with children } ys) := by
  have hbehind := SameIn.ite (c := e.canHaveChildren = true) hcontent fun _ =>
    (keepsMode_put (if s.xhtmlStyle then Markup.closeVoidTag else Markup.closeTag)).sameIn
  have htagged : SameIn kept (buildTagged s e xs) (buildTagged s.verbatim { e with children } ys) := by
    have hpending : KeepsPending {} (buildAttributes s e {} e.attributes) :=
      keepsPending_buildAttributes hattributes
    have hsame : SameIn kept (buildAttributes s e {} e.attributes)
        (buildAttributes s.verbatim { e with children } {} e.attributes) := by
      rw [buildAttributes_verbatim]
      exact KeepsMode.sameIn fun d p d' hr => (hpending d p d' hr).2
    refine (keepsMode_put _).sameIn.seq (hsame.bind fun d p d' hr => ?_)
    obtain ⟨rfl, -⟩ := hpending d p d' hr
    exact hbehind
  unfold buildElement
  refine SameIn.ite (c := e.isTag "script" = true) (fun _ => ?_) fun _ => htagged
  exact keepsMode_noteScript.sameIn.seq ((keepsMode_ensureExtras true).sameIn.seq htagged)

theorem sameIn_buildContent (hs : s.normalizeWhitespace = true)
    (h : ∀ n ∈ e.children, ∀ kept, SameIn kept (buildNode s n) (buildNode s.verbatim (normalizedNode kept n))) :
    SameIn kept (buildContent s e (buildEach s e.children))
      (buildContent s.verbatim { e with children := normalizedChildren (kept || keepsBlanks e) e.children }
        (buildEach s.verbatim (normalizedChildren (kept || keepsBlanks e) e.children))) := by
  have hinside := SameIn.inContent (sameIn_buildChildren hs (kept || keepsBlanks e) fun n hn => h n hn _)
  rw [buildContent_eq, buildContent_eq]
  exact (keepsMode_put _).sameIn.seq (hinside.seq keepsMode_endContent.sameIn)

theorem sameIn_buildNode (hs : s.normalizeWhitespace = true) (h : IsLiteral n) (kept : Bool) :
    SameIn kept (buildNode s n) (buildNode s.verbatim (normalizedNode kept n)) := by
  induction h generalizing kept with
  | text value position => exact sameIn_buildLiteral hs kept value
  | element hattributes hchildren ih =>
      next e =>
      rw [normalizedNode_element]
      refine sameIn_buildElement hattributes fun hcan => ?_
      rw [if_pos hcan]
      exact sameIn_buildContent hs ih

theorem keepsMode_freshName (stem : String) : KeepsMode (freshName stem) := by
  intro d a d' hr
  cases runs_modifyGet.1 hr
  rfl

theorem keepsMode_close : KeepsMode (modifyGet Draft.close) := by
  intro d a d' hr
  have hclose := runs_modifyGet.1 hr
  unfold Draft.close at hclose
  split at hclose <;> cases hclose <;> rfl

theorem keepsMode_addMember (m : Member) : KeepsMode (addMember m) := keepsMode_modify fun _ => rfl

theorem keepsMode_promote (name : String) : KeepsMode (promote name) := keepsMode_modify fun _ => rfl

theorem SameIn.inFrame {x y : Build Unit} (ofMethod : Bool) (h : SameIn kept x y) :
    SameIn kept (inFrame ofMethod x) (inFrame ofMethod y) := by
  rw [inFrame_eq, inFrame_eq]
  refine SameIn.seq (keepsMode_modify ?_).sameIn ?_
  · exact fun _ => rfl
  · exact h.seq (keepsMode_flush.bind fun _ => keepsMode_close).sameIn

theorem SameIn.buildRenderMethod {x y : Build Unit} (h : SameIn kept x y) :
    SameIn kept (buildRenderMethod x) (buildRenderMethod y) := by
  refine (keepsMode_freshName _).sameIn.bind fun _ name _ _ => ?_
  refine (keepsMode_addMember _).sameIn.seq (keepsMode_flush.sameIn.seq ((h.inFrame true).bind ?_))
  intro _ stmts _ _
  refine SameIn.seq (keepsMode_modify ?_).sameIn (keepsMode_pure name).sameIn
  exact fun _ => rfl

def normalizedView (v : View) : View := { v with children := v.children.map (normalizedNode false) }

/-- Normalizing a template without code first makes no difference to the class of its view. -/
theorem buildView_normalized (hs : s.normalizeWhitespace = true) {v : View} (h : ∀ n ∈ v.children, IsLiteral n) :
    buildView s v = buildView s.verbatim (normalizedView v) := by
  have hchildren : SameIn false (runAll (buildEach s v.children))
      (runAll (buildEach s.verbatim (normalizedView v).children)) := by
    rw [buildEach_eq, buildEach_eq, normalizedView, List.map_map]
    exact sameIn_runAll fun n hn => sameIn_buildNode hs (h n hn) false
  have hview := hchildren.buildRenderMethod.bind fun _ name _ _ => (keepsMode_promote name).sameIn
  have hrun := fun package name => (hview { target := viewClass package name } rfl).1
  unfold buildView
  dsimp only
  rw [hrun]
  rfl

end TwinView.Server
