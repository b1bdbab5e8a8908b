import TwinView.Proofs.Client.Escapes
import TwinView.Proofs.Server.Additions
import TwinView.Proofs.Text.Blanks
import TwinView.Proofs.Text.Infix

/-!
Texts that are copied into generated scripts. The code of blocks, the names of attributes and of views
and the ids of elements stand there as they are, so that each of them can end the script element; what
the server puts around them cannot.
-/

namespace TwinView.Server

open Code Text

variable {s : Settings} {d d' : Draft} {i : Prop} {e : Element} {p : Pending} {id : ElementId}
  {truth : Expr → Bool} {page : Page} {ps qs : List Piece} {text : String}

def scriptEnd : List Char := ['<', '/', 's', 'c', 'r', 'i', 'p', 't']

/-- The end of a script element stands in the text. -/
def Closes (text : String) : Prop := scriptEnd <:+: text.toList.map Char.toLower

def Piece.toLower : Piece → Piece
  | .char c => .char c.toLower
  | .stmt action => .stmt action

/-- The end of a script element stands nowhere in the constant parts. -/
def Sealed (ps : List Piece) : Prop := ¬ scriptEnd.map Piece.char <:+: ps.map Piece.toLower

/-! Where the end of a script element can stand. -/

theorem sealed_nil : Sealed [] := by
  intro h
  cases List.eq_nil_of_infix_nil h

theorem sealed_cons {q : Piece} (h : q.toLower ≠ .char '<') : Sealed (q :: ps) ↔ Sealed ps := by
  rw [Sealed, List.map_cons, List.infix_cons_iff, Sealed, not_or]
  exact and_iff_right fun hpre => h (List.cons_prefix_cons.1 hpre).1.symm

@[simp] theorem sealed_stmt (stmt : Stmt) : Sealed (.stmt stmt :: ps) ↔ Sealed ps :=
  sealed_cons (by simp [Piece.toLower])

/-- No character of the text starts the end of a script element, whatever comes behind the text. -/
def isInert : List Char → Bool
  | [] => true
  | c :: rest => (c.toLower ≠ '<' || rest.head?.any (·.toLower ≠ '/')) && isInert rest

theorem toLower_of_not_upper {c : Char} (h : ¬ ('A' ≤ c ∧ c ≤ 'Z')) : c.toLower = c := dif_neg h

theorem toLower_eq_lt {c : Char} (h : c.toLower = '<') : c = '<' := by
  have hall : ∀ n < 91, (Char.ofNat n).toLower = '<' → Char.ofNat n = '<' := by decide
  by_cases hupper : 'A' ≤ c ∧ c ≤ 'Z'
  · have hlt : c.toNat < 91 := Nat.lt_succ_of_le hupper.2
    rw [← Char.ofNat_toNat c] at h ⊢
    exact hall _ hlt h
  · rwa [toLower_of_not_upper hupper] at h

theorem isInert_of_not_mem {cs : List Char} (h : '<' ∉ cs) : isInert cs := by
  induction cs with
  | nil => rfl
  | cons c rest ih =>
      obtain ⟨hc, hrest⟩ := not_or.1 (List.mem_cons.not.1 h)
      have hlower : c.toLower ≠ '<' := fun heq => hc (toLower_eq_lt heq).symm
      simp [isInert, hlower, ih hrest]

theorem sealed_inert (h : isInert text.toList) : Sealed (spell text ++ ps) ↔ Sealed ps := by
  unfold spell
  generalize text.toList = cs at h ⊢
  induction cs with
  | nil => rfl
  | cons c rest ih =>
      obtain ⟨hc, hrest⟩ := Bool.and_eq_true_iff.1 h
      rw [List.map_cons, List.cons_append, Sealed, List.map_cons, List.infix_cons_iff, not_or, ← Sealed,
        ih hrest]
      refine and_iff_right fun hpre => ?_
      obtain ⟨hfirst, hpre⟩ := List.cons_prefix_cons.1 hpre
      have hlt : c.toLower = '<' := (Piece.char.inj hfirst).symm
      cases rest with
      | nil => simp [hlt] at hc
      | cons c' rest =>
          have hslash : c'.toLower = '/' := (Piece.char.inj (List.cons_prefix_cons.1 hpre).1).symm
          simp [hlt, hslash] at hc

def isBreak (c : Char) : Bool := c.toLower ∉ scriptEnd

theorem sealed_break {c : Char} (hc : isBreak c) : Sealed (ps ++ .char c :: qs) ↔ Sealed ps ∧ Sealed qs := by
  have hmem : Piece.toLower (.char c) ∉ scriptEnd.map Piece.char := by
    simpa [Piece.toLower, isBreak] using hc
  rw [Sealed, List.map_append, List.map_cons, infix_append_cons hmem (by decide), not_or]
  rfl

theorem sealed_spell : Sealed (spell text) ↔ ¬ Closes text := by
  have hmap : (spell text).map Piece.toLower = (text.toList.map Char.toLower).map Piece.char := by
    simp [spell, Piece.toLower, Function.comp_def]
  rw [Sealed, Closes, hmap, not_iff_not, List.infix_map_iff]
  constructor
  · rintro ⟨l, hl, heq⟩
    rwa [List.map_injective_iff.2 (fun _ _ h => Piece.char.inj h) heq]
  · exact fun h => ⟨_, h, rfl⟩

/-- A text that is copied in front of a text that starts with a break. -/
theorem sealed_copy {behind : String} (h : behind.toList.head?.any isBreak) :
    Sealed (spell text ++ (spell behind ++ ps)) ↔ ¬ Closes text ∧ Sealed (spell behind ++ ps) := by
  unfold spell at *
  cases hb : behind.toList with
  | nil => simp [hb] at h
  | cons c rest =>
      rw [hb, List.head?_cons, Option.any_some] at h
      have hrest : Sealed (List.map Piece.char (c :: rest) ++ ps) ↔ Sealed (rest.map Piece.char ++ ps) := by
        refine sealed_cons fun heq => ?_
        have hlt : c.toLower = '<' := Piece.char.inj heq
        simp [isBreak, hlt, scriptEnd] at h
      rw [hrest, List.map_cons, List.cons_append, sealed_break h]
      exact and_congr_left' sealed_spell

/-! Texts that are copied. -/

theorem isBreak_of_isBlank {c : Char} (h : isBlank c) : isBreak c := by
  have hall : ∀ c ∈ charsOf blankRanges, isBreak c := by decide
  exact hall c (mem_charsOf h)

theorem sealed_breaks_append {cs : List Char} (h : ∀ c ∈ cs, isBreak c) :
    Sealed (cs.map .char ++ ps) ↔ Sealed ps := by
  induction cs with
  | nil => rfl
  | cons c cs ih =>
      obtain ⟨hc, hcs⟩ := List.forall_mem_cons.1 h
      have hbreak : Sealed ([] ++ .char c :: (cs.map .char ++ ps)) ↔
          Sealed [] ∧ Sealed (cs.map .char ++ ps) :=
        sealed_break hc
      rw [← ih hcs]
      exact hbreak.trans (and_iff_right sealed_nil)

theorem sealed_append_breaks {cs : List Char} (h : ∀ c ∈ cs, isBreak c) :
    Sealed (ps ++ cs.map .char) ↔ Sealed ps := by
  cases cs with
  | nil => rw [List.map_nil, List.append_nil]
  | cons c cs =>
      obtain ⟨hc, hcs⟩ := List.forall_mem_cons.1 h
      have hrest : Sealed (cs.map .char) := by
        rw [← List.append_nil (cs.map Piece.char), sealed_breaks_append hcs]
        exact sealed_nil
      rw [List.map_cons, sealed_break hc, and_iff_left hrest]

theorem closes_trim (text : String) : Closes (trim text) ↔ Closes text := by
  obtain ⟨tail, hsplit, htail⟩ := exists_trim text
  have hpieces : spell text = (text.toList.takeWhile isBlank).map .char ++
      (spell (trim text) ++ tail.map .char) :=
    (congrArg (List.map Piece.char) hsplit).trans (by simp [spell])
  rw [← not_iff_not, ← sealed_spell, ← sealed_spell, hpieces, sealed_breaks_append, sealed_append_breaks]
  · exact fun c hc => isBreak_of_isBlank (htail c hc)
  · exact fun c hc => isBreak_of_isBlank (List.all_eq_true.1 List.all_takeWhile c hc)

theorem isInert_clientOpening (b : CodeBlock) : isInert (b.clientOpening false).toList := by
  have hnames : ∀ n < 5, '<' ∉ (",".intercalate (CodeBlock.boundNames.take n)).toList := by decide
  have hn : b.arity < 5 := Nat.lt_succ_of_le (CodeBlock.arityOf_le _ _)
  refine isInert_of_not_mem ?_
  unfold CodeBlock.clientOpening
  rw [String.toList_append, String.toList_append, List.mem_append, List.mem_append, not_or, not_or]
  refine ⟨⟨by decide, hnames _ hn⟩, ?_⟩
  cases b.kind <;> decide

/-- The client function of a block closes a script just if the block does. -/
theorem closes_clientCode (b : CodeBlock) : Closes (clientCode b) ↔ Closes b.value := by
  have hclosing : (b.clientClosing false).toList.head?.any isBreak ∧
      isInert (b.clientClosing false).toList := by
    unfold CodeBlock.clientClosing
    cases b.kind <;> decide
  rw [← closes_trim b.value, ← not_iff_not, ← sealed_spell, clientCode, CodeBlock.clientCode, spell_append,
    spell_append, List.append_assoc, sealed_inert (isInert_clientOpening b),
    ← List.append_nil (spell (b.clientClosing false)), sealed_copy hclosing.1, sealed_inert hclosing.2]
  exact and_iff_left sealed_nil

theorem sealed_argumentPieces (es : List Expr) : Sealed (argumentPieces es ++ ps) ↔ Sealed ps := by
  induction es with
  | nil => rfl
  | cons e rest ih =>
      cases rest with
      | nil => exact sealed_stmt _
      | cons e' rest =>
          have hcomma : Sealed (spell "," ++ (argumentPieces (e' :: rest) ++ ps)) ↔
              Sealed (argumentPieces (e' :: rest) ++ ps) := sealed_inert (by decide)
          exact (sealed_stmt _).trans (hcomma.trans ih)

/-! Strings and names. -/

theorem isPrintable_of_not_isBreak {c : Char} (h : isBreak c = false) : isPrintable c := by
  have hmem : c.toLower ∈ scriptEnd := by simpa [isBreak] using h
  have hall : ∀ c ∈ scriptEnd, isPrintable c := by decide
  by_cases hupper : 'A' ≤ c ∧ c ≤ 'Z'
  · simp only [isPrintable, Bool.and_eq_true, decide_eq_true_eq]
    exact ⟨Char.le_trans (by decide) hupper.1, Std.lt_of_le_of_lt hupper.2 (by decide)⟩
  · exact hall c (toLower_of_not_upper hupper ▸ hmem)

/-- A character is written as it is, or is escaped and none of the end of a script element. -/
theorem escapeChar_cases (c : Char) : Client.escapeChar .script c = [c] ∨
    isBreak c ∧ ∃ es, Client.escapeChar .script c = '\\' :: es ∧ '<' ∉ es := by
  obtain ⟨-, -, -, hescape⟩ | ⟨k, hk, hescape⟩ | ⟨hprint, hescape⟩ := Client.escapeChar_spec .script c
  · exact .inl hescape
  · have hletters : ∀ p ∈ Client.shortEscapes .script, isBreak p.2 ∧ '<' ∉ [p.1] := by decide
    obtain ⟨hbreak, hk⟩ := hletters _ hk
    exact .inr ⟨hbreak, _, hescape, hk⟩
  · have hbreak : isBreak c := by
      by_contra h
      rw [isPrintable_of_not_isBreak (Bool.eq_false_iff.2 h)] at hprint
      cases hprint
    obtain ⟨es, hes⟩ := exists_unitEscapes c
    refine .inr ⟨hbreak, es, hescape.trans hes, fun hmem => ?_⟩
    have hunit := of_mem_unitEscapes (hes ▸ List.mem_cons_of_mem _ hmem)
    revert hunit
    decide

theorem infix_append_of_not_mem {xs ys : List Char} (h : '<' ∉ xs) :
    scriptEnd <:+: xs ++ ys ↔ scriptEnd <:+: ys := by
  induction xs with
  | nil => rfl
  | cons x xs ih =>
      obtain ⟨hx, hxs⟩ := not_or.1 (List.mem_cons.not.1 h)
      rw [List.cons_append, List.infix_cons_iff, ih hxs]
      exact or_iff_right fun hpre => hx (List.cons_prefix_cons.1 hpre).1

theorem prefix_escaped {word cs : List Char} (hword : ∀ k ∈ word, k ∈ scriptEnd) :
    word <+: (cs.flatMap (Client.escapeChar .script)).map Char.toLower ↔ word <+: cs.map Char.toLower := by
  induction cs generalizing word with
  | nil => rfl
  | cons c cs ih =>
      cases word with
      | nil => simp
      | cons k word =>
          obtain ⟨hk, hrest⟩ := List.forall_mem_cons.1 hword
          rw [List.flatMap_cons, List.map_append, List.map_cons]
          obtain hself | ⟨hbreak, es, hescape, -⟩ := escapeChar_cases c
          · rw [hself, List.map_singleton, List.singleton_append, List.cons_prefix_cons,
              List.cons_prefix_cons, ih hrest]
          · -- neither the backslash nor the character behind it can go on with the word
            rw [hescape, List.map_cons, List.cons_append, List.cons_prefix_cons, List.cons_prefix_cons]
            refine iff_of_false (fun h => ?_) (fun h => ?_)
            · rw [h.1] at hk
              revert hk
              decide
            · rw [h.1] at hk
              simp [isBreak, hk] at hbreak

theorem infix_escaped (cs : List Char) :
    scriptEnd <:+: (cs.flatMap (Client.escapeChar .script)).map Char.toLower ↔
      scriptEnd <:+: cs.map Char.toLower := by
  induction cs with
  | nil => rfl
  | cons c cs ih =>
      obtain hself | ⟨hbreak, es, hescape, hes⟩ := escapeChar_cases c
      · have hstart : scriptEnd <+: ((c :: cs).flatMap (Client.escapeChar .script)).map Char.toLower ↔
            scriptEnd <+: (c :: cs).map Char.toLower := prefix_escaped fun _ h => h
        rw [List.flatMap_cons, hself, List.singleton_append, List.map_cons] at hstart ⊢
        rw [List.infix_cons_iff, List.map_cons, List.infix_cons_iff, ih, hstart, List.map_cons]
      · have hc : '<' ∉ [c.toLower] := by
          intro hmem
          rw [List.mem_singleton] at hmem
          simp [isBreak, ← hmem, scriptEnd] at hbreak
        have hescaped : '<' ∉ ('\\' :: es).map Char.toLower := by
          intro hmem
          obtain ⟨d, hd, hlt⟩ := List.mem_map.1 hmem
          obtain rfl := toLower_eq_lt hlt
          exact hes ((List.mem_cons.1 hd).resolve_left (by decide))
        rw [List.flatMap_cons, hescape, List.map_append, infix_append_of_not_mem hescaped, ih, List.map_cons]
        exact (infix_append_of_not_mem hc).symm

theorem sealed_quoted : Sealed (spell (Client.quoted .script text) ++ ps) ↔ ¬ Closes text ∧ Sealed ps := by
  have hquoted : spell (Client.quoted .script text) ++ ps = spell "'" ++
      (spell (String.ofList (text.toList.flatMap (Client.escapeChar .script))) ++ .char '\'' :: ps) := by
    simp [spell, Client.quoted, Client.Format.quote]
  rw [hquoted, sealed_inert (by decide), sealed_break (by decide), sealed_spell, Closes,
    String.toList_ofList, infix_escaped]
  rfl

/-! Calls on the client. -/

def copiedOf (attributes : List (String × Client.Data)) : List String :=
  attributes.flatMap fun a => [a.1, a.2.write .compact .script 2]

def ElementId.copied : ElementId → List String
  | .declared _ => []
  | .given id => [id]

theorem enclose_compact (depth : Nat) (left right : String) (items : List String) :
    Client.enclose .compact depth left right items = left ++ ",".intercalate items ++ right := by
  match items with
  | [] => simp [Client.enclose]
  | [item] => simp [Client.enclose, Client.Layout.isPretty, Client.Layout.compact]
  | item :: item' :: rest => simp [Client.enclose, Client.Layout.isPretty, Client.Layout.compact]

variable {name behind : String} {attributes : List (String × Client.Data)}

theorem sealed_propertyName (h : behind.toList.head?.any isBreak) :
    Sealed (spell (Client.propertyName .script name) ++ (spell behind ++ ps)) ↔
      ¬ Closes name ∧ Sealed (spell behind ++ ps) := by
  unfold Client.propertyName
  split
  · exact sealed_copy h
  · exact sealed_quoted

def memberText (a : String × Client.Data) : String :=
  Client.propertyName .script a.1 ++ ":" ++ a.2.write .compact .script 2

theorem writeMembers_eq (attributes : List (String × Client.Data)) :
    Client.Data.writeMembers .compact .script 2 attributes = attributes.map memberText := by
  induction attributes with
  | nil => rfl
  | cons a rest ih =>
      rw [Client.Data.writeMembers, ih]
      rfl

theorem sealed_memberText (h : behind.toList.head?.any isBreak) (a : String × Client.Data) :
    Sealed (spell (memberText a) ++ (spell behind ++ ps)) ↔
      (∀ text ∈ copiedOf [a], ¬ Closes text) ∧ Sealed (spell behind ++ ps) := by
  rw [memberText, spell_append, spell_append, List.append_assoc, List.append_assoc,
    sealed_propertyName (by decide), sealed_inert (by decide), sealed_copy h, ← and_assoc]
  simp [copiedOf]

theorem sealed_members :
    Sealed (spell (",".intercalate (attributes.map memberText)) ++ (spell "\x7d" ++ ps)) ↔
      (∀ text ∈ copiedOf attributes, ¬ Closes text) ∧ Sealed (spell "\x7d" ++ ps) := by
  induction attributes with
  | nil => exact (and_iff_right (by simp [copiedOf])).symm
  | cons a rest ih =>
      cases rest with
      | nil =>
          rw [List.map_singleton, String.intercalate_singleton]
          exact sealed_memberText (by decide) a
      | cons a' rest =>
          have hcopied : copiedOf (a :: a' :: rest) = copiedOf [a] ++ copiedOf (a' :: rest) := rfl
          have hcomma : ",".toList.head?.any isBreak := by decide
          rw [List.map_cons, List.map_cons, String.intercalate_cons_cons, ← List.map_cons, spell_append,
            spell_append, List.append_assoc, List.append_assoc, sealed_memberText hcomma,
            sealed_inert (by decide), ih, hcopied, List.forall_mem_append, and_assoc]

theorem sealed_attributeCall (n : Nat) : Sealed (attributeCall attributes n id ++ ps) ↔
    (∀ text ∈ copiedOf attributes ++ id.copied, ¬ Closes text) ∧ Sealed ps := by
  have hid : Sealed (id.pieces ++ (spell ",1);" ++ ps)) ↔
      (∀ text ∈ id.copied, ¬ Closes text) ∧ Sealed ps := by
    cases id with
    | declared id =>
        refine (sealed_stmt _).trans ((sealed_inert (by decide)).trans ?_)
        simp [ElementId.copied]
    | given id =>
        refine sealed_quoted.trans ?_
        rw [sealed_inert (by decide)]
        simp [ElementId.copied]
  have hobject : (Client.Data.object attributes).write .compact .script 1 =
      "\x7b" ++ ",".intercalate (attributes.map memberText) ++ "\x7d" := by
    rw [← writeMembers_eq]
    exact enclose_compact _ _ _ _
  rw [attributeCall, scriptCall, hobject]
  simp only [spell_append, List.append_assoc]
  rw [sealed_inert (by decide), sealed_inert (by decide), sealed_members, sealed_inert (by decide),
    sealed_inert (by decide), sealed_argumentPieces, sealed_inert (by decide), hid, List.forall_mem_append,
    and_assoc]

/-! Scripts that are generated. -/

/-- What generates a script element: a block, a call or attributes that are left to the client. -/
inductive Generator
  | block (b : CodeBlock)
  | call (c : Call)
  | attributes (p : Pending) (hp : p.isEmpty = false) (id : ElementId)

def Generator.build (s : Settings) : Generator → Build Unit
  | .block b => buildDeferredBlock s b
  | .call c => buildDeferredCall s c
  | .attributes p _ id => buildPending s p id

/-- The texts that are copied into the script: code, names of attributes and views, and ids. -/
def Generator.copied (s : Settings) : Generator → List String
  | .block b => [b.value]
  | .call c => ((calledName? c.view).map s.clientName).toList
  | .attributes p _ id => copiedOf p.deferred ++ p.hybrids.flatMap (fun h => [h.name, h.code]) ++ id.copied

/-- For some values the text is rendered in front of the end tag of a script. -/
def Draft.WritesScript (d d' : Draft) (text : List Piece) : Prop :=
  ∃ truth page, (d'.render truth page).out =
    (d.render truth page).out ++ text ++ spell (Markup.endTag "script")

/-- A script element up to its end tag, into which texts are copied. -/
structure IsScript (copied : List String) (text : List Piece) : Prop where
  opening : spell (Markup.openTag "script") <+: text
  intact : Sealed text ↔ ∀ source ∈ copied, ¬ Closes source

theorem isInert_scriptOpening (withId : Bool) : isInert (scriptOpening s withId).toList := by
  unfold scriptOpening
  cases s.scriptTypeAttr <;> cases withId <;> decide

theorem prefix_scriptOpening (withId : Bool) (ps : List Piece) :
    spell (Markup.openTag "script") <+: spell (scriptOpening s withId) ++ ps := by
  rw [scriptOpening, spell_append, spell_append, List.append_assoc, List.append_assoc]
  exact List.prefix_append _ _

theorem sealed_setup {setup : List Piece} (h : IsSetup setup) : Sealed (setup ++ ps) ↔ Sealed ps := by
  obtain rfl | rfl := h
  · rfl
  · exact sealed_stmt _

theorem exists_opening {value : Expr} {opening : List Piece} (h : OpensScript s value opening) :
    ∃ text, (∀ truth page, perform truth opening page = page.write text) ∧
      (∀ ps, Sealed (text ++ ps) ↔ Sealed ps) ∧
      ∀ ps, spell (Markup.openTag "script") <+: text ++ ps := by
  obtain ⟨x, setup, rfl, hsetup, rfl⟩ := h
  refine ⟨spell (scriptOpening s true) ++ ([.stmt (write (.variableRef .string x))] ++
    (spell (Markup.closeAttribute ++ Markup.closeTag) ++ setup)), fun truth page => ?_,
    fun ps => ?_, fun ps => ?_⟩
  · have hnew (page : Page) : perform truth
        [.stmt (idDeclaration x), .stmt (write (.variableRef .string x))] page =
          page.write [.stmt (write (.variableRef .string x))] := rfl
    rw [perform_append, perform_append, perform_append, perform_spell, hnew, perform_spell, hsetup.plain]
    simp
  · rw [List.append_assoc, sealed_inert (isInert_scriptOpening true), List.append_assoc,
      List.singleton_append, sealed_stmt, List.append_assoc, sealed_inert (by decide), sealed_setup hsetup]
  · rw [List.append_assoc]
    exact prefix_scriptOpening true _

theorem prints_buildDeferredBlock (b : CodeBlock) : Prints i (buildDeferredBlock s b) (fun _ ps =>
    ∃ text, IsScript [b.value] text ∧
      ∀ truth page, perform truth ps page = page.write (text ++ spell (Markup.endTag "script"))) False := by
  refine (fills_buildDeferredBlock b).prints.mono ?_
  rintro _ _ ⟨opening, x, hopening, rfl⟩
  obtain ⟨text, hperform, hseal, hstart⟩ := exists_opening hopening
  have hcall : Plain (scriptCall (clientCode b) (boundValues b.arity) [.stmt (writeData x)]) :=
    plain_scriptCall (plain_writeData x)
  refine ⟨text ++ (scriptCall (clientCode b) (boundValues b.arity) [.stmt (writeData x)] ++ spell ");"),
    ⟨hstart _, ?_⟩, fun truth page => ?_⟩
  · rw [hseal, scriptCall]
    simp only [spell_append, List.append_assoc]
    rw [sealed_inert (by decide), sealed_copy (by decide), sealed_inert (by decide), sealed_argumentPieces,
      sealed_inert (by decide), List.singleton_append, sealed_stmt, ← List.append_nil (spell ");"),
      sealed_inert (by decide), closes_clientCode]
    simp [sealed_nil]
  · rw [perform_append, hperform, perform_append, hcall, perform_spell]
    simp

/-- The called view: its name, or a view that is written as data. -/
theorem prints_putCalledView (c : Call) : Prints i (putCalledView s c) (fun _ ps => Plain ps ∧
    ∀ behind : String, behind.toList.head?.any isBreak → ∀ qs, Sealed (ps ++ (spell behind ++ qs)) ↔
      (∀ name ∈ (Generator.call c).copied s, ¬ Closes name) ∧ Sealed (spell behind ++ qs)) False := by
  unfold putCalledView
  split
  · next view _ hname =>
      refine (spells_put _).prints.mono ?_
      rintro _ _ rfl
      refine ⟨plain_spell _, fun behind hbehind qs => ?_⟩
      rw [sealed_copy hbehind]
      simp [Generator.copied, hname]
  · next b hname _ =>
      refine .after (spells_put _) ((prints_keeping fun d e d' hr => ?_).bind fun view _ hnil => ?_)
      · obtain ⟨f, hf, -⟩ := runs_requiredExpr.1 hr
        obtain ⟨-, -, rfl, -⟩ | ⟨-, -, -, -, -, -, rfl⟩ := runs_fragment? hf
        · exact ⟨rfl, rfl⟩
        · exact ⟨rfl, rfl⟩
      · subst hnil
        refine .after spells_flush (.after (spells_add _) ((spells_put _).prints.mono ?_))
        rintro _ _ rfl
        refine ⟨(plain_spell _).append ((plain_writeData view).append (plain_spell ")")),
          fun behind _ qs => ?_⟩
        have hnone : (Generator.call c).copied s = [] := by simp [Generator.copied, hname]
        rw [hnone, List.append_assoc, sealed_inert (by decide), pieceOf_writeData]
        refine (sealed_stmt _).trans ((sealed_inert (by decide)).trans ?_)
        exact (and_iff_right (by simp)).symm
  · exact .throw

theorem prints_arguments? (args : List (Option CodeBlock × Param)) :
    Prints i (arguments? args) (fun _ ps => ps = []) i := by
  induction args with
  | nil => exact .pure rfl
  | cons a rest ih =>
      obtain ⟨b, param⟩ := a
      cases b with
      | none => exact ih.bind fun _ _ hps => .pure (by simp [hps])
      | some b =>
          refine (prints_fragment? b false).bind fun r _ hps => ?_
          split
          · exact .pure (by simp [hps])
          · exact ih.bind fun _ _ hqs => .pure (by simp [hps, hqs])

theorem prints_buildDeferredCall (c : Call) : Prints i (buildDeferredCall s c) (fun _ ps =>
    ∃ text, IsScript ((Generator.call c).copied s) text ∧
      ∀ truth page, perform truth ps page = page.write (text ++ spell (Markup.endTag "script"))) False := by
  refine fills_openScriptWithId.prints.bind fun x opening hopening => ?_
  obtain ⟨text, hperform, hseal, hstart⟩ := exists_opening hopening
  refine (prints_putCalledView c).bind fun _ view hview => .after (spells_put _) ?_
  obtain ⟨hplain, hcopied⟩ := hview
  refine (prints_arguments? _).bind fun r _ hnil => ?_
  subst hnil
  split
  · exact .throw
  · next args =>
      refine .after (spells_putData args) (.after spells_putCall (.after spells_flush (.after (spells_add _)
        (.after (spells_put _) ((spells_put _).prints.mono ?_)))))
      rintro _ _ rfl
      have hcall : Plain (view ++ (spell "(" ++ (argumentPieces args ++ (spell ").toDOM(" ++
          ([.stmt (writeData x)] ++ spell ");"))))) :=
        hplain.append ((plain_spell _).append ((plain_argumentPieces args).append ((plain_spell _).append
          ((plain_writeData x).append (plain_spell _)))))
      refine ⟨text ++ (view ++ (spell "(" ++ (argumentPieces args ++ (spell ").toDOM(" ++
        ([.stmt (writeData x)] ++ spell ");"))))), ⟨hstart _, ?_⟩, fun truth page => ?_⟩
      · rw [hseal, hcopied _ (by decide), sealed_inert (by decide), sealed_argumentPieces,
          sealed_inert (by decide), List.singleton_append, sealed_stmt, ← List.append_nil (spell ");"),
          sealed_inert (by decide)]
        exact and_iff_left sealed_nil
      · have hsplit : opening ++ (view ++ (spell "(" ++ ([] ++ (argumentPieces args ++ (spell ").toDOM(" ++
            ([] ++ (pieceOf (writeData x) ++ (spell ");" ++ spell (Markup.endTag "script"))))))))) =
          opening ++ ((view ++ (spell "(" ++ (argumentPieces args ++ (spell ").toDOM(" ++
            ([.stmt (writeData x)] ++ spell ");"))))) ++ spell (Markup.endTag "script")) := by
          simp
        rw [hsplit, perform_append, hperform, perform_append, hcall, perform_spell]
        simp

/-! Attributes. -/

def Pending.work (truth : Expr → Bool) (p : Pending) : List (List (String × Client.Data) × Nat) :=
  (if p.deferred.isEmpty then [] else [(p.deferred, p.arity)]) ++
    (p.hybrids.filter (·.isMissing truth)).map fun h => ([(h.name, .snippet h.code)], h.arity)

theorem calls_eq : p.calls truth id = (p.work truth).map fun work => attributeCall work.1 work.2 id := by
  rw [Pending.calls, Pending.work, List.map_append, List.map_map]
  split <;> rfl

theorem sealed_inTurn {works : List (List (String × Client.Data) × Nat)} {turn : List Piece}
    (h : InTurn (works.map fun work => attributeCall work.1 work.2 id) turn) :
    Sealed turn ↔ ∀ work ∈ works, ∀ text ∈ copiedOf work.1 ++ id.copied, ¬ Closes text := by
  induction works generalizing turn with
  | nil =>
      rw [h.eq_nil]
      exact iff_of_true sealed_nil (by simp)
  | cons work rest ih =>
      cases h with
      | cons hs hrest =>
          rw [List.append_assoc, sealed_setup hs, sealed_attributeCall, ih hrest, List.forall_mem_cons]

theorem mem_copied (hp : p.isEmpty = false) {work : List (String × Client.Data) × Nat}
    (hw : work ∈ p.work truth) (ht : text ∈ copiedOf work.1 ++ id.copied) :
    text ∈ (Generator.attributes p hp id).copied s := by
  obtain ht | ht := List.mem_append.1 ht
  · refine List.mem_append_left _ (List.mem_append.2 ?_)
    obtain hw | hw := List.mem_append.1 hw
    · split at hw
      · cases hw
      · rw [List.mem_singleton.1 hw] at ht
        exact .inl ht
    · obtain ⟨h, hh, rfl⟩ := List.mem_map.1 hw
      exact .inr (List.mem_flatMap.2 ⟨h, List.mem_of_mem_filter hh, ht⟩)
  · exact List.mem_append_right _ ht

theorem exists_work (hp : p.isEmpty = false) (ht : text ∈ (Generator.attributes p hp id).copied s) :
    ∃ work ∈ p.work fun _ => true, text ∈ copiedOf work.1 ++ id.copied := by
  have hdeferred (h : p.deferred ≠ []) : (p.deferred, p.arity) ∈ p.work fun _ => true := by
    refine List.mem_append_left _ ?_
    rw [if_neg (by simpa using h)]
    exact List.mem_singleton_self _
  have hhybrid (h : Hybrid) (hh : h ∈ p.hybrids) :
      ([(h.name, .snippet h.code)], h.arity) ∈ p.work fun _ => true :=
    List.mem_append_right _ (List.mem_map.2 ⟨h, List.mem_filter.2 ⟨hh, rfl⟩, rfl⟩)
  obtain ht | ht := List.mem_append.1 ht
  · obtain ht | ht := List.mem_append.1 ht
    · refine ⟨_, hdeferred ?_, List.mem_append_left _ ht⟩
      rintro hnil
      simp [hnil, copiedOf] at ht
    · obtain ⟨h, hh, ht⟩ := List.mem_flatMap.1 ht
      exact ⟨_, hhybrid h hh, List.mem_append_left _ ht⟩
  · obtain ⟨work, hwork⟩ : ∃ work, work ∈ p.work fun _ => true := by
      cases hd : p.deferred with
      | cons a rest => exact ⟨_, hdeferred (by simp [hd])⟩
      | nil =>
          cases hh : p.hybrids with
          | cons h rest => exact ⟨_, hhybrid h (by simp [hh])⟩
          | nil => simp [Pending.isEmpty, hd, hh] at hp
    exact ⟨work, hwork, List.mem_append_right _ ht⟩

theorem exists_script (hc : p.isCalled truth) {script : List Piece} (h : Finishes s truth p id script) :
    ∃ text, script = text ++ spell (Markup.endTag "script") ∧
      IsScript ((p.work truth).flatMap fun work => copiedOf work.1 ++ id.copied) text := by
  rw [endTag_script]
  cases h with
  | nothing hnone =>
      rw [hc] at hnone
      cases hnone
  | @script turn _ ht =>
      refine ⟨_, rfl, ?_, ?_⟩
      · rw [scriptTag_eq, spell_append, List.append_assoc]
        exact prefix_scriptOpening false _
      · rw [scriptTag_eq, spell_append, List.append_assoc, sealed_inert (isInert_scriptOpening false),
          sealed_inert (by decide), sealed_inTurn (calls_eq ▸ ht)]
        simp only [List.mem_flatMap]
        exact ⟨fun h text ⟨work, hw, ht⟩ => h work hw text ht, fun h work hw text ht => h text ⟨work, hw, ht⟩⟩

theorem isCalled_of_isEmpty (hp : p.isEmpty = false) : p.isCalled fun _ => true := by
  have hany : p.hybrids.any (·.isMissing fun _ => true) = !p.hybrids.isEmpty := by
    cases p.hybrids <;> rfl
  rw [Pending.isCalled, hany, ← Bool.not_and, ← Pending.isEmpty, hp]
  rfl

/-! Whether a script is closed by what is copied into it. -/

/-- The scripts between two drafts start with the opening tag, and the end of a script stands in none of
them just if it stands in none of the texts that are copied. -/
structure ScriptsOf (copied : List String) (d d' : Draft) : Prop where
  written : ∃ text, d.WritesScript d' text
  opening : ∀ text, d.WritesScript d' text → spell (Markup.openTag "script") <+: text
  intact : (∀ text, d.WritesScript d' text → Sealed text) ↔ ∀ source ∈ copied, ¬ Closes source

theorem eq_of_writesScript {truth : Expr → Bool} {page : Page} {text text' : List Piece}
    (h : (d'.render truth page).out = (d.render truth page).out ++ (text ++ spell (Markup.endTag "script")))
    (h' : (d'.render truth page).out = (d.render truth page).out ++ text' ++
      spell (Markup.endTag "script")) : text' = text := by
  rw [h', List.append_assoc] at h
  exact List.append_cancel_right (List.append_cancel_left h)

theorem scriptsOf_plain {copied : List String} {text : List Piece} (h : IsScript copied text)
    (hps : Continues d ps d')
    (hout : ∀ truth page, perform truth ps page = page.write (text ++ spell (Markup.endTag "script"))) :
    ScriptsOf copied d d' := by
  have hrender (truth : Expr → Bool) (page : Page) : (d'.render truth page).out =
      (d.render truth page).out ++ (text ++ spell (Markup.endTag "script")) := by
    rw [hps.render, hout, Page.out_write]
  have honly (text' : List Piece) (hw : d.WritesScript d' text') : text' = text := by
    obtain ⟨truth, page, hw⟩ := hw
    exact eq_of_writesScript (hrender truth page) hw
  have hwrites : d.WritesScript d' text :=
    ⟨fun _ => true, {}, by rw [hrender, List.append_assoc]⟩
  refine ⟨⟨text, hwrites⟩, fun text' hw => honly text' hw ▸ h.opening, ?_⟩
  rw [← h.intact]
  exact ⟨fun hall => hall text hwrites, fun hsealed text' hw => honly text' hw ▸ hsealed⟩

theorem scriptsOf_attributes (hp : p.isEmpty = false) (hps : Continues d ps d')
    (hscript : ∀ truth page, ∃ script, Finishes s truth p id script ∧
      (perform truth ps page).out = page.out ++ script) :
    ScriptsOf ((Generator.attributes p hp id).copied s) d d' := by
  have hcases (truth : Expr → Bool) (page : Page) : p.isCalled truth = false ∧
        (d'.render truth page).out = (d.render truth page).out ∨
      ∃ text, IsScript ((p.work truth).flatMap fun work => copiedOf work.1 ++ id.copied) text ∧
        (d'.render truth page).out =
          (d.render truth page).out ++ (text ++ spell (Markup.endTag "script")) := by
    obtain ⟨script, hfinishes, hout⟩ := hscript truth (d.render truth page)
    rw [hps.render, hout]
    cases hc : p.isCalled truth with
    | false =>
        cases hfinishes with
        | script hcalled => simp [hc] at hcalled
        | nothing => exact .inl ⟨rfl, List.append_nil _⟩
    | true =>
        obtain ⟨text, rfl, htext⟩ := exists_script hc hfinishes
        exact .inr ⟨text, htext, rfl⟩
  have hwritten (text : List Piece) (hw : d.WritesScript d' text) : ∃ truth,
      IsScript ((p.work truth).flatMap fun work => copiedOf work.1 ++ id.copied) text := by
    obtain ⟨truth, page, hw⟩ := hw
    obtain ⟨-, hout⟩ | ⟨text', htext, hout⟩ := hcases truth page
    · have hlength := congrArg List.length (hw.symm.trans hout)
      have hend : (spell (Markup.endTag "script")).length = 9 := by decide
      simp only [List.length_append, hend] at hlength
      omega
    · exact ⟨truth, eq_of_writesScript hout hw ▸ htext⟩
  -- where all values are undefined, all that may be copied is copied
  obtain ⟨hnone, -⟩ | ⟨text, htext, hout⟩ := hcases (fun _ => true) {}
  · rw [isCalled_of_isEmpty hp] at hnone
    cases hnone
  have hwrites : d.WritesScript d' text := ⟨fun _ => true, {}, by rw [hout, List.append_assoc]⟩
  refine ⟨⟨text, hwrites⟩, fun text' hw => (hwritten text' hw).elim fun _ h => h.opening, ?_⟩
  constructor
  · intro hall source hsource
    obtain ⟨work, hwork, ht⟩ := exists_work hp hsource
    exact htext.intact.1 (hall text hwrites) source (List.mem_flatMap.2 ⟨work, hwork, ht⟩)
  · intro hall text' hw
    obtain ⟨truth, htext'⟩ := hwritten text' hw
    refine htext'.intact.2 fun source hsource => ?_
    obtain ⟨work, hwork, ht⟩ := List.mem_flatMap.1 hsource
    exact hall source (mem_copied hp hwork ht)

/-- A generated script is closed by none of its own content just if none of the texts that are copied into
it has the end of a script. -/
theorem scriptsOf_build {g : Generator} (hd : d.frames ≠ []) (hr : Runs (g.build s) d () d') :
    ScriptsOf (g.copied s) d d' := by
  cases g with
  | block b =>
      obtain ⟨_, hps, -, text, htext, hout⟩ := prints_buildDeferredBlock b d () d' hd False.elim hr
      exact scriptsOf_plain htext hps hout
  | call c =>
      obtain ⟨_, hps, -, text, htext, hout⟩ := prints_buildDeferredCall c d () d' hd False.elim hr
      exact scriptsOf_plain htext hps hout
  | attributes p hp id =>
      obtain ⟨_, hps, -, hscript⟩ := prints_buildPending hp d () d' hd False.elim hr
      exact scriptsOf_attributes hp hps hscript

def callBlock (argument : String) : CodeBlock := { kind := .expression, value := "f(" ++ argument ++ ")" }

theorem scriptsOf_build_callBlock : ∃ d', Runs (buildDeferredBlock {} (callBlock "1")) inView () d' ∧
    ScriptsOf ["f(1)"] inView d' ∧ ∀ text, inView.WritesScript d' text → Sealed text := by
  have hok : ((buildDeferredBlock {} (callBlock "1")).run inView).isOk := by decide +kernel
  obtain ⟨_, d', hr⟩ := exists_runs hok
  have hscripts : ScriptsOf ["f(1)"] inView d' :=
    scriptsOf_build (g := .block (callBlock "1")) (List.cons_ne_nil _ _) hr
  refine ⟨d', hr, hscripts, hscripts.intact.2 fun source hsource => ?_⟩
  rw [List.mem_singleton.1 hsource, Closes]
  decide

/-- A string with the end of a script in the code of a block ends the script that the block is left to. -/
theorem not_sealed_callBlock :
    (∃ c, buildView {} { name := "V", children := [.code (callBlock "'</script>'")] } = .ok c) ∧
      ∃ d' text, Runs (buildNode {} (.code (callBlock "'</script>'"))) inView () d' ∧
        inView.WritesScript d' text ∧ spell (Markup.openTag "script") <+: text ∧ ¬ Sealed text := by
  -- from here on no step evaluates the block again
  generalize hb : callBlock "'</script>'" = b
  have hview : (buildView {} { name := "V", children := [.code b] }).isOk := by
    rw [← hb]
    decide +kernel
  have hnode : ((buildNode {} (.code b)).run inView).isOk := by
    rw [← hb]
    decide +kernel
  have hrefused : evaluated? inView.names b = none := by
    rw [← Option.isNone_iff_eq_none, ← hb]
    decide +kernel
  have hcloses : Closes b.value := by
    rw [← hb, Closes]
    decide
  have hunwrap : unwrapMarkup b = b := by
    rw [← hb]
    rfl
  obtain ⟨_, d', hr⟩ := exists_runs hnode
  have hblock : Runs (buildBlock {} b) inView () d' := hr
  unfold buildBlock at hblock
  dsimp only at hblock
  rw [hunwrap] at hblock
  obtain ⟨result, d₁, hfragment, hrest⟩ := runs_bind.1 hblock
  obtain ⟨_, hfirst, -, rfl⟩ :=
    prints_fragment? (i := False) b true inView result d₁ (List.cons_ne_nil _ _) False.elim hfragment
  obtain ⟨-, fault, rfl⟩ | ⟨_, _, hsome, -⟩ := runs_fragment?_evaluated hfragment
  · obtain ⟨_, hps, -, text, htext, hout⟩ :=
      prints_buildDeferredBlock b d₁ () d' hfirst.opened False.elim hrest
    have hscripts := scriptsOf_plain htext (hfirst.trans hps) hout
    have hnot : ¬ ∀ text, inView.WritesScript d' text → Sealed text :=
      fun hall => hscripts.intact.1 hall _ (List.mem_singleton_self _) hcloses
    obtain ⟨text, hnot⟩ := not_forall.1 hnot
    obtain ⟨hw, hsealed⟩ := Classical.not_imp.1 hnot
    exact ⟨exists_ok hview, d', text, hr, hw, hscripts.opening text hw, hsealed⟩
  · rw [hrefused] at hsome
    cases hsome

end TwinView.Server
