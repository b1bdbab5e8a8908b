import TwinView.Proofs.Client.Normalization
import TwinView.Proofs.Client.Trees
import TwinView.Proofs.Server.Elements

/-!
Flags in the two outputs. What an element renders starts with its begin tag, in which each attribute has a
part; on the client the attributes are the members of an object. A flag that has no value or a text is in
the begin tag if the object turns it on, and the other way round, unless the text is empty: the server
leaves out such a flag, and the client turns it on like any other.
-/

namespace TwinView

namespace Client

variable {s : Settings} {verbatim : Bool} {name : String}

/-- Under the name the object of attributes holds true or null. -/
def TurnsOn (s : Settings) (verbatim : Bool) (values : List (String × Value)) (name : String) : Prop :=
  ∃ entry ∈ values, writeText s verbatim entry.1 = stringLiteral name ∧
    (writeValue s verbatim entry.2 = "true" ∨ writeValue s verbatim entry.2 = "null")

theorem unblanked_of_isFlagAttribute (h : Vocabulary.isFlagAttribute name) :
    ∀ c ∈ name.toList, Markup.isCollapsible c = false := by
  have hletters : ∀ flag ∈ Vocabulary.flagAttributes, ∀ c ∈ flag.toList, Markup.isCollapsible c = false := by
    decide
  intro c hc
  have hlower : c.toLower ∈ (Text.lowerAscii name).toList := by
    rw [Text.lowerAscii, String.toList_map]
    exact List.mem_map_of_mem hc
  have hplain := hletters _ (List.contains_iff_mem.1 h) _ hlower
  refine Bool.eq_false_iff.2 fun hblank => ?_
  -- a blank is its own lower case
  simp only [Markup.isCollapsible, Bool.or_eq_true, decide_eq_true_eq] at hblank
  obtain ((((rfl | rfl) | rfl) | rfl) | rfl) | rfl := hblank <;> cases hplain

/-- A flag that is not decided by code is on, whatever its value. -/
theorem attributeValue_of_fixed {value : Option Node} {text : Option String}
    (hflag : Vocabulary.isFlagAttribute name) (hfixed : fixedText? value = some text) :
    attributeValue s name value = .on := by
  unfold attributeValue
  split
  · cases hfixed
  · exact if_pos hflag

theorem turnsOn_of_fixed {attributes : List (String × Option Node)} {value : Option Node}
    {text : Option String} (hmem : (name, value) ∈ attributes) (hflag : Vocabulary.isFlagAttribute name)
    (hfixed : fixedText? value = some text) :
    TurnsOn s verbatim (attributes.map fun (name, value) => (name, attributeValue s name value)) name := by
  refine ⟨(name, .on), ?_, ?_, .inl rfl⟩
  · rw [← attributeValue_of_fixed (s := s) hflag hfixed]
    exact List.mem_map_of_mem (f := fun a : String × Option Node => (a.1, attributeValue s a.1 a.2)) hmem
  · rw [writeText_eq, shownText_of_unblanked (unblanked_of_isFlagAttribute hflag)]

end Client

namespace Server

open Code

variable {s : Settings} {d d' : Draft} {e : Element} {name : String} {i j : Prop}

/-- On every page the pieces render something of which `P` holds. -/
def Emits (P : List Piece → Prop) (ps : List Piece) : Prop :=
  ∀ truth page, ∃ out, P out ∧ (perform truth ps page).out = page.out ++ out

section

variable {P Q R : List Piece → Prop} {ps qs : List Piece}

theorem emits_any (ps : List Piece) : Emits (fun _ => True) ps := fun truth page =>
  (exists_out_perform truth ps page).imp fun _ h => ⟨True.intro, h⟩

theorem Plain.emits (h : Plain ps) (hp : P ps) : Emits P ps := fun truth page =>
  ⟨ps, hp, by rw [h, Page.out_write]⟩

theorem Emits.mono (hp : Emits P ps) (h : ∀ out, P out → Q out) : Emits Q ps := fun truth page =>
  (hp truth page).imp fun _ hout => hout.imp_left (h _)

theorem Emits.append (hp : Emits P ps) (hq : Emits Q qs)
    (h : ∀ out out', P out → Q out' → R (out ++ out')) : Emits R (ps ++ qs) := by
  intro truth page
  obtain ⟨out, hout, hps⟩ := hp truth page
  obtain ⟨out', hout', hqs⟩ := hq truth (perform truth ps page)
  exact ⟨out ++ out', h _ _ hout hout', by rw [perform_append, hqs, hps, List.append_assoc]⟩

end

def flagPart (s : Settings) (name : String) : Option String → List Piece
  | none => spell (Markup.wholeAttribute name none)
  | some text => if text = "" then [] else spell (flagMarkup s name)

/-- The part of an attribute, which is known if the attribute is a flag of fixed text. -/
structure IsPart (s : Settings) (a : String × Option Node) (part : String × List Piece) : Prop where
  name : part.1 = a.1
  flag : ∀ text, Vocabulary.isFlagAttribute a.1 → fixedText? a.2 = some text → part.2 = flagPart s a.1 text

/-- The begin tag of an element, with the setup of the client that stands in front of a script, a part for
each attribute, and the id that scripts behind the element need. -/
structure BeginTag where
  setup : List Piece
  parts : List (String × List Piece)
  id : List Piece

namespace BeginTag

def pieces (s : Settings) (e : Element) (t : BeginTag) : List Piece :=
  t.setup ++ (spell (Markup.openTag e.tag) ++ (t.parts.flatMap (·.2) ++ (t.id ++ spell (tagEnd s e))))

/-- The attribute stands in the begin tag, with whatever value. -/
def Shows (t : BeginTag) (name : String) : Prop :=
  ∃ value, (name, spell (Markup.wholeAttribute name value)) ∈ t.parts

end BeginTag

structure IsBeginTag (s : Settings) (e : Element) (t : BeginTag) : Prop where
  setup : t.setup = [] ∨ e.isTag "script" ∧ t.setup = [.stmt (renderCall "writeExtras" [.bool true])]
  parts : List.Forall₂ (IsPart s) e.attributes t.parts
  id : t.id = [] ∨ ∃ isCalled id, IdAttribute e isCalled id t.id

theorem prints_buildFlag (p : Pending) (name : String) (n : Node) :
    Prints False (buildFlag s p name n)
      (fun _ => Emits fun out => IsPart s (name, some n) (name, out)) False := by
  cases hfixed : fixedText? (some n) with
  | none =>
      refine (inserts_buildFlag p name n).mono fun _ ps _ => (emits_any ps).mono fun out _ => ?_
      exact ⟨rfl, fun text _ h => by cases hfixed.symm.trans h⟩
  | some text =>
      obtain ⟨value, position, rfl, rfl⟩ := exists_of_fixedText? hfixed
      have hpart : IsPart s (name, some (.text .literal value position))
          (name, flagPart s name (some value)) :=
        ⟨rfl, fun text _ h => by
          cases h
          rfl⟩
      by_cases hvalue : value = ""
      · have hbuild : buildFlag s p name (.text .literal value position) = pure p := by
          simp [buildFlag, hvalue]
        rw [flagPart, if_pos hvalue] at hpart
        rw [hbuild]
        refine Prints.forget (.pure ?_)
        exact plain_nil.emits hpart
      · have hbuild : buildFlag s p name (.text .literal value position) =
            (do put (flagMarkup s name); return p) := by
          simp [buildFlag, hvalue]
        rw [flagPart, if_neg hvalue] at hpart
        rw [hbuild]
        refine .after (spells_put _) (.pure ?_)
        rw [List.append_nil]
        exact (plain_spell _).emits hpart

theorem isPart_of_not_flag {value : Option Node} (hflag : Vocabulary.isFlagAttribute name = false)
    (out : List Piece) : IsPart s (name, value) (name, out) :=
  ⟨rfl, fun text h _ => by cases hflag.symm.trans h⟩

theorem prints_buildAttributes (p : Pending) (attributes : List (String × Option Node)) :
    Prints False (buildAttributes s e p attributes) (fun _ => Emits fun out =>
      ∃ parts, List.Forall₂ (IsPart s) attributes parts ∧ out = parts.flatMap (·.2)) False := by
  induction attributes generalizing p with
  | nil => exact .pure (plain_nil.emits ⟨[], .nil, rfl⟩)
  | cons a rest ih =>
      have hcons {ps qs : List Piece} (h : Emits (fun out => IsPart s a (a.1, out)) ps)
          (h' : Emits (fun out => ∃ parts, List.Forall₂ (IsPart s) rest parts ∧
            out = parts.flatMap (·.2)) qs) :
          Emits (fun out => ∃ parts, List.Forall₂ (IsPart s) (a :: rest) parts ∧
            out = parts.flatMap (·.2)) (ps ++ qs) := by
        refine h.append h' ?_
        rintro out _ hout ⟨parts, hparts, rfl⟩
        exact ⟨(a.1, out) :: parts, .cons hout hparts, rfl⟩
      obtain ⟨name, value⟩ := a
      cases value with
      | none =>
          refine .after (spells_put _) ((ih p).mono fun _ qs hqs => ?_)
          refine hcons ((plain_spell _).emits ⟨rfl, fun text _ h => ?_⟩) hqs
          cases h
          rfl
      | some n =>
          have hstep {x : Build Pending}
              (hx : Prints False x (fun _ => Emits fun out => IsPart s (name, some n) (name, out)) False) :
              Prints False (x >>= fun p => buildAttributes s e p rest) (fun _ => Emits fun out =>
                ∃ parts, List.Forall₂ (IsPart s) ((name, some n) :: rest) parts ∧
                  out = parts.flatMap (·.2)) False :=
            hx.bind fun p _ hps => (ih p).mono fun _ _ hqs => hcons hps hqs
          unfold buildAttributes
          split
          · exact hstep (prints_buildFlag p name n)
          · next hflag =>
              have hany (ps : List Piece) : Emits (fun out => IsPart s (name, some n) (name, out)) ps :=
                (emits_any ps).mono fun out _ => isPart_of_not_flag (Bool.eq_false_iff.2 hflag) out
              exact .ite (hstep ((inserts_buildLink p name n).mono fun _ ps _ => hany ps))
                (hstep ((inserts_buildPlain p name n).mono fun _ ps _ => hany ps))

/-- What is behind the attributes: the id that scripts need, the end of the begin tag, and the rest. -/
theorem emits_buildBehind (p : Pending) :
    Prints False (buildBehind s e (buildEach s e.children) p) (fun _ => Emits fun out =>
      ∃ id behind, (id = [] ∨ ∃ isCalled i, IdAttribute e isCalled i id) ∧
        out = id ++ (spell (tagEnd s e) ++ behind)) False := by
  cases hp : p.isEmpty with
  | true =>
      have hbehind : buildBehind s e (buildEach s e.children) p = buildBody s e (buildEach s e.children) := by
        rw [buildBehind, if_pos hp]
      rw [hbehind]
      refine (prints_buildBody e).mono ?_
      rintro _ _ ⟨more, rfl⟩
      exact ((plain_spell _).emits rfl).append (emits_any more) fun out behind hout _ =>
        ⟨[], behind, .inl rfl, by rw [hout]; rfl⟩
  | false =>
      unfold buildBehind
      rw [if_neg (by simp [hp])]
      refine (prints_buildElementId hp).bind fun id ps hid => ?_
      refine (prints_buildBody e).bind ?_
      rintro _ _ ⟨more, rfl⟩
      refine (prints_buildPending hp).mono fun _ qs _ => ?_
      have hwritten : Emits (fun out => ∃ isCalled i, IdAttribute e isCalled i out) ps := by
        intro truth page
        obtain ⟨written, hattribute, hperform⟩ := hid truth page
        exact ⟨written, ⟨_, _, hattribute⟩, by rw [hperform, Page.out_write]⟩
      rw [List.append_assoc]
      have hbehind : Emits (fun out => ∃ behind, out = spell (tagEnd s e) ++ behind)
          (spell (tagEnd s e) ++ (more ++ qs)) :=
        ((plain_spell _).emits (P := (· = spell (tagEnd s e))) rfl).append (emits_any _) <| by
          rintro _ behind rfl -
          exact ⟨behind, rfl⟩
      refine hwritten.append hbehind ?_
      rintro id _ hid ⟨behind, rfl⟩
      exact ⟨id, behind, .inr hid, rfl⟩

/-- What comes up to the end of the attributes: the setup of the client, if the element is a script, the
tag, and a part for each attribute. -/
theorem prints_buildUpTo : Prints False (buildUpTo s e e.attributes) (fun _ => Emits fun out =>
    ∃ setup parts, (setup = [] ∨ e.isTag "script" ∧ setup = [.stmt (renderCall "writeExtras" [.bool true])]) ∧
      List.Forall₂ (IsPart s) e.attributes parts ∧
      out = setup ++ (spell (Markup.openTag e.tag) ++ parts.flatMap (·.2))) False := by
  have hopened : Prints False (do put (Markup.openTag e.tag); buildAttributes s e {} e.attributes)
      (fun _ => Emits fun out => ∃ parts, List.Forall₂ (IsPart s) e.attributes parts ∧
        out = spell (Markup.openTag e.tag) ++ parts.flatMap (·.2)) False := by
    refine .after (spells_put _) ((prints_buildAttributes {} e.attributes).mono fun _ qs hqs => ?_)
    refine ((plain_spell _).emits rfl).append hqs ?_
    rintro _ _ rfl ⟨parts, hparts, rfl⟩
    exact ⟨parts, hparts, rfl⟩
  unfold buildUpTo
  split
  · next hscript =>
      refine .after spells_noteScript ((fills_ensureExtras true).prints.bind fun _ setup hsetup => ?_)
      have hplain : Plain setup := by
        obtain rfl | rfl := hsetup
        · exact plain_nil
        · exact plain_renderCall rfl
      refine hopened.mono fun _ qs hqs => (hplain.emits (P := (· = setup)) rfl).append hqs ?_
      rintro _ _ rfl ⟨parts, hparts, rfl⟩
      exact ⟨_, parts, hsetup.imp_right fun h => ⟨hscript, h⟩, hparts, rfl⟩
  · refine hopened.mono fun _ qs hqs => hqs.mono ?_
    rintro _ ⟨parts, hparts, rfl⟩
    exact ⟨[], parts, .inl rfl, hparts, rfl⟩

theorem prints_buildElement : Prints False (buildElement s e (buildEach s e.children)) (fun _ =>
    Emits fun out => ∃ t behind, IsBeginTag s e t ∧ out = t.pieces s e ++ behind) False := by
  rw [buildElement_eq]
  refine prints_buildUpTo.bind fun p ps hps => (emits_buildBehind p).mono fun _ qs hqs => hps.append hqs ?_
  rintro _ _ ⟨setup, parts, hsetup, hparts, rfl⟩ ⟨id, behind, hid, rfl⟩
  refine ⟨⟨setup, parts, id⟩, behind, ⟨hsetup, hparts, hid⟩, ?_⟩
  simp [BeginTag.pieces]

theorem exists_right_of_mem {α β : Type} {R : α → β → Prop} {xs : List α} {ys : List β} {x : α}
    (h : List.Forall₂ R xs ys) (hx : x ∈ xs) : ∃ y ∈ ys, R x y := by
  induction h with
  | nil => cases hx
  | cons hr _ ih =>
      obtain rfl | hx := List.mem_cons.1 hx
      · exact ⟨_, List.mem_cons_self, hr⟩
      · obtain ⟨y, hy, hr⟩ := ih hx
        exact ⟨y, List.mem_cons_of_mem _ hy, hr⟩

theorem exists_left_of_mem {α β : Type} {R : α → β → Prop} {xs : List α} {ys : List β} {y : β}
    (h : List.Forall₂ R xs ys) (hy : y ∈ ys) : ∃ x ∈ xs, R x y :=
  exists_right_of_mem (R := flip R) h.flip hy

/-- A flag of fixed text has a part, unless the text is empty. -/
theorem flagPart_eq (s : Settings) (name : String) {text : Option String} (h : text ≠ some "") :
    ∃ value, flagPart s name text = spell (Markup.wholeAttribute name value) := by
  cases text with
  | none => exact ⟨none, rfl⟩
  | some text => exact ⟨_, if_neg fun hempty => h (congrArg some hempty)⟩

theorem spell_wholeAttribute_ne_nil (name : String) (value : Option String) :
    spell (Markup.wholeAttribute name value) ≠ [] := by
  cases value with
  | none => simp [spell, Markup.wholeAttribute]
  | some value => simp [spell, Markup.wholeAttribute, Markup.openAttribute]

theorem shows_iff {t : BeginTag} {value : Option Node} {text : Option String} (h : IsBeginTag s e t)
    (hnames : (e.attributes.map (·.1)).Nodup) (hmem : (name, value) ∈ e.attributes)
    (hflag : Vocabulary.isFlagAttribute name) (hfixed : fixedText? value = some text) :
    t.Shows name ↔ text ≠ some "" := by
  constructor
  · rintro ⟨shown, hshown⟩ rfl
    obtain ⟨a, ha, hpart⟩ := exists_left_of_mem h.parts hshown
    -- no other attribute has the name
    obtain rfl : (name, value) = a := List.inj_on_of_nodup_map hnames hmem ha hpart.name
    exact spell_wholeAttribute_ne_nil name shown (hpart.flag _ hflag hfixed)
  · intro hne
    obtain ⟨part, hpart, hflagPart⟩ := exists_right_of_mem h.parts hmem
    obtain ⟨shown, hshown⟩ := flagPart_eq s name hne
    refine ⟨shown, ?_⟩
    rw [← hshown, ← hflagPart.flag text hflag hfixed, ← show part.1 = name from hflagPart.name]
    exact hpart

theorem exists_beginTag (hd : d.frames ≠ []) (hr : Runs (buildNode s (.element e)) d () d')
    (truth : Expr → Bool) (page : Page) : ∃ t behind, IsBeginTag s e t ∧
      (d'.render truth page).out = (d.render truth page).out ++ (t.pieces s e ++ behind) := by
  obtain ⟨ps, hps, -, hrenders⟩ := prints_buildElement d () d' hd False.elim hr
  obtain ⟨_, ⟨t, behind, ht, rfl⟩, hout⟩ := hrenders truth (d.render truth page)
  exact ⟨t, behind, ht, by rw [hps.render, hout]⟩

end Server

open Server

variable {s : Settings} {d d' : Draft} {e : Element} {name : String} {value : Option Node}
  {text : Option String}

theorem Client.itemOf_element {item : Client.Item} (h : Client.itemOf s (.element e) = .ok item) :
    ∃ items, item = .element e.tag
      (e.attributes.map fun (name, value) => (name, attributeValue s name value)) items := by
  obtain ⟨tag, attributes, children, position⟩ := e
  unfold itemOf at h
  cases hitems : itemsOf s children with
  | error _ =>
      rw [hitems] at h
      cases h
  | ok items =>
      rw [hitems] at h
      cases h
      exact ⟨items, rfl⟩

/-- The begin tag shows a flag of fixed text if and only if the client turns it on, just if the text is not
empty. -/
theorem shows_iff_turnsOn_iff {item : Client.Item} (hd : d.frames ≠ [])
    (hnames : (e.attributes.map (·.1)).Nodup) (hmem : (name, value) ∈ e.attributes)
    (hflag : Vocabulary.isFlagAttribute name) (hfixed : fixedText? value = some text)
    (hr : Runs (buildNode s (.element e)) d () d') (hitem : Client.itemOf s (.element e) = .ok item) :
    ∃ values items, item = .element e.tag values items ∧ ∀ truth page, ∃ t behind, IsBeginTag s e t ∧
      (d'.render truth page).out = (d.render truth page).out ++ (t.pieces s e ++ behind) ∧
      ∀ verbatim, (t.Shows name ↔ Client.TurnsOn s verbatim values name) ↔ text ≠ some "" := by
  obtain ⟨items, rfl⟩ := Client.itemOf_element hitem
  refine ⟨_, items, rfl, fun truth page => ?_⟩
  obtain ⟨t, behind, ht, hout⟩ := exists_beginTag hd hr truth page
  refine ⟨t, behind, ht, hout, fun verbatim => ?_⟩
  rw [shows_iff ht hnames hmem hflag hfixed]
  exact iff_true_right (Client.turnsOn_of_fixed hmem hflag hfixed)

def flagged (name : String) (value : Option String) : Element where
  tag := "input"
  attributes := [(name, value.map fun text => .text .literal text none)]

theorem fixedText?_flagged (value : Option String) :
    fixedText? (value.map fun text => .text .literal text none) = some value := by
  cases value <;> rfl

theorem shows_iff_turnsOn_iff_checked :
    ∃ d' item, Runs (buildNode {} (.element (flagged "CHECKED" (some "no")))) inView () d' ∧
      Client.itemOf {} (.element (flagged "CHECKED" (some "no"))) = .ok item ∧
      ∃ values items, item = .element "input" values items ∧ ∀ truth page, ∃ t behind,
        IsBeginTag {} (flagged "CHECKED" (some "no")) t ∧
        (d'.render truth page).out = (inView.render truth page).out ++
          (t.pieces {} (flagged "CHECKED" (some "no")) ++ behind) ∧
        ∀ verbatim, t.Shows "CHECKED" ↔ Client.TurnsOn {} verbatim values "CHECKED" := by
  obtain ⟨d', hr⟩ : ∃ d', Runs (buildElement {} (flagged "CHECKED" (some "no")) (buildEach {} [])) inView () d' :=
    exists_runs_buildElement (by decide +kernel)
  obtain ⟨values, items, hitem, hall⟩ := shows_iff_turnsOn_iff (e := flagged "CHECKED" (some "no"))
    (List.cons_ne_nil _ _) (by decide) List.mem_cons_self (by decide +kernel) (fixedText?_flagged (some "no"))
    hr rfl
  refine ⟨d', _, hr, rfl, values, items, hitem, fun truth page => ?_⟩
  obtain ⟨t, behind, ht, hout, hiff⟩ := hall truth page
  exact ⟨t, behind, ht, hout, fun verbatim => (hiff verbatim).2 (by decide)⟩

/-- A flag of empty text is not in the begin tag, and the client turns it on. -/
theorem not_shows_iff_turnsOn_empty :
    ∃ d', Runs (buildNode {} (.element (flagged "disabled" (some "")))) inView () d' ∧
      Client.itemOf {} (.element (flagged "disabled" (some ""))) =
        .ok (.element "input" [("disabled", .on)] []) ∧
      ∀ truth page, ∃ t behind, IsBeginTag {} (flagged "disabled" (some "")) t ∧
        (d'.render truth page).out = (inView.render truth page).out ++
          (t.pieces {} (flagged "disabled" (some "")) ++ behind) ∧
        ∀ verbatim, ¬ (t.Shows "disabled" ↔ Client.TurnsOn {} verbatim [("disabled", .on)] "disabled") := by
  obtain ⟨d', hr⟩ : ∃ d', Runs (buildElement {} (flagged "disabled" (some "")) (buildEach {} [])) inView () d' :=
    exists_runs_buildElement (by decide +kernel)
  have hflag : Vocabulary.isFlagAttribute "disabled" := by decide +kernel
  have hvalues : (flagged "disabled" (some "")).attributes.map
      (fun (name, value) => (name, Client.attributeValue {} name value)) = [("disabled", .on)] :=
    congrArg (fun v => [("disabled", v)]) (Client.attributeValue_of_fixed hflag rfl)
  have hitem : Client.itemOf {} (.element (flagged "disabled" (some ""))) =
      .ok (.element "input" [("disabled", .on)] []) := by
    rw [← hvalues]
    rfl
  refine ⟨d', hr, hitem, fun truth page => ?_⟩
  obtain ⟨t, behind, ht, hout⟩ := exists_beginTag (e := flagged "disabled" (some "")) (List.cons_ne_nil _ _)
    hr truth page
  refine ⟨t, behind, ht, hout, fun verbatim hiff => ?_⟩
  have hmem : ("disabled", some (.text .literal "" none)) ∈ (flagged "disabled" (some "")).attributes :=
    List.mem_cons_self
  have hshows := shows_iff ht (by decide) hmem hflag rfl
  rw [← hvalues] at hiff
  exact hshows.1 (hiff.2 (Client.turnsOn_of_fixed hmem hflag rfl)) rfl

end TwinView
