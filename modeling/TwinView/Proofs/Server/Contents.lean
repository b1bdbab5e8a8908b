import TwinView.Proofs.Server.Extends

/-!
What the innermost frame of a draft holds: the markup that its statements write and that waits in the
buffer, character by character, and the other statements where they stand in it. Where the buffer is
emptied into a statement does not matter, so that a builder of markup and data is described by what it
adds.
-/

namespace TwinView.Server

open Code

variable {α β : Type} {s : Settings} {d d' : Draft}

/-- A piece of what is rendered: a character of constant markup, or something that is done. -/
inductive Piece
  | char (c : Char)
  | stmt (stmt : Stmt)

def spell (text : String) : List Piece := text.toList.map .char

@[simp] theorem spell_empty : spell "" = [] := rfl

@[simp] theorem spell_append (text text' : String) : spell (text ++ text') = spell text ++ spell text' := by
  simp [spell]

def markup? : Stmt → Option String
  | .expr (.invoke _ (.this _) "write" [_, .prim (.char c) _] _) _ => some c.toString
  | .expr (.invoke _ (.this _) "write" [_, .prim (.text text) _] _) _ => some text
  | _ => none

def pieceOf (stmt : Stmt) : List Piece :=
  match markup? stmt with
  | some text => spell text
  | none => [.stmt stmt]

def pieces (stmts : List Stmt) : List Piece := stmts.flatMap pieceOf

@[simp] theorem pieces_nil : pieces [] = [] := rfl

@[simp] theorem pieces_append (stmts stmts' : List Stmt) :
    pieces (stmts ++ stmts') = pieces stmts ++ pieces stmts' := List.flatMap_append

@[simp] theorem pieces_one (stmt : Stmt) : pieces [stmt] = pieceOf stmt := by simp [pieces]

theorem pieceOf_markup (text : String) (origin : Origin) :
    pieceOf (write (.const (markupConstant text)) origin) = spell text := by
  unfold markupConstant
  split
  · next c hc =>
      have hone : c.toString = text := by
        rw [← String.toList_inj, hc, Char.toString, String.toList_singleton]
      rw [← hone]
      rfl
  · rfl

@[simp] theorem pieceOf_writeData (e : Expr) : pieceOf (writeData e) = [.stmt (writeData e)] := rfl

def Draft.top (d : Draft) : List Stmt := (d.frames.head?.map (·.stmts)).getD []

def Draft.contents (d : Draft) : List Piece := pieces d.top ++ spell d.buffer

theorem top_extendTop {new : List Stmt} (hd : d.frames ≠ []) (h : d'.frames = extendTop new d.frames) :
    d'.top = d.top ++ new := by
  obtain ⟨f, rest, hf⟩ := List.exists_cons_of_ne_nil hd
  rw [Draft.top, Draft.top, h, hf]
  rfl

theorem extendTop_ne_nil {new : List Stmt} {frames : List Frame} (h : frames ≠ []) :
    extendTop new frames ≠ [] := by
  obtain ⟨f, rest, rfl⟩ := List.exists_cons_of_ne_nil h
  exact List.cons_ne_nil _ _

@[simp] theorem tail_extendTop (new : List Stmt) (frames : List Frame) :
    (extendTop new frames).tail = frames.tail := by
  cases frames <;> rfl

/-- The draft `d'` is `d` with the pieces `ps` more in its innermost frame. -/
structure Appends (d : Draft) (ps : List Piece) (d' : Draft) : Prop where
  opened : d'.frames ≠ []
  around : d'.frames.tail = d.frames.tail
  contents : d'.contents = d.contents ++ ps

theorem Appends.trans {ps qs : List Piece} {d'' : Draft} (h : Appends d ps d') (h' : Appends d' qs d'') :
    Appends d (ps ++ qs) d'' :=
  ⟨h'.opened, h'.around.trans h.around, by rw [h'.contents, h.contents, List.append_assoc]⟩

theorem Appends.of_eq (hd : d.frames ≠ []) (hf : d'.frames = d.frames) (hb : d'.buffer = d.buffer) :
    Appends d [] d' :=
  ⟨by rwa [hf], by rw [hf], by rw [Draft.contents, Draft.contents, Draft.top, hf, hb]; simp [Draft.top]⟩

/-- In an open frame the builder adds pieces, of which `P` holds together with its result. Before it,
nothing may wait in the buffer if `i` holds; after it, nothing waits if `j` holds. -/
def Fills (i : Prop) (x : Build α) (P : α → List Piece → Prop) (j : Prop) : Prop :=
  ∀ d a d', d.frames ≠ [] → (i → d.buffer = "") → Runs x d a d' →
    ∃ ps, Appends d ps d' ∧ (j → d'.buffer = "") ∧ P a ps

abbrev Spells (i : Prop) (x : Build Unit) (ps : List Piece) (j : Prop) : Prop :=
  Fills i x (fun _ qs => qs = ps) j

namespace Fills

variable {i j k : Prop} {P : α → List Piece → Prop} {Q : β → List Piece → Prop}

theorem pure {a : α} (h : P a []) : Fills i (Pure.pure a) P i := by
  intro d b d' hd hi hr
  obtain ⟨rfl, rfl⟩ := runs_pure.1 hr
  exact ⟨[], .of_eq hd rfl rfl, hi, h⟩

theorem bind {x : Build α} {f : α → Build β} (hx : Fills i x P j)
    (hf : ∀ a ps, P a ps → Fills j (f a) (fun b qs => Q b (ps ++ qs)) k) :
    Fills i (x >>= f) Q k := by
  intro d b d' hd hi hr
  obtain ⟨a, e, ha, hb⟩ := runs_bind.1 hr
  obtain ⟨ps, hps, hj, hp⟩ := hx d a e hd hi ha
  obtain ⟨qs, hqs, hk, hq⟩ := hf a ps hp e b d' hps.opened hj hb
  exact ⟨ps ++ qs, hps.trans hqs, hk, hq⟩

theorem after {x : Build Unit} {ps : List Piece} {f : Unit → Build β} (hx : Spells i x ps j)
    (hf : Fills j (f ()) (fun b qs => Q b (ps ++ qs)) k) : Fills i (x >>= f) Q k :=
  hx.bind fun _ _ h => h ▸ hf

theorem mono {P' : α → List Piece → Prop} {x : Build α} (hx : Fills i x P j)
    (h : ∀ a ps, P a ps → P' a ps) : Fills i x P' j := by
  intro d a d' hd hi hr
  obtain ⟨ps, hps, hj, hp⟩ := hx d a d' hd hi hr
  exact ⟨ps, hps, hj, h a ps hp⟩

theorem forget {x : Build α} (hx : Fills i x P j) : Fills i x P False := by
  intro d a d' hd hi hr
  obtain ⟨ps, hps, -, hp⟩ := hx d a d' hd hi hr
  exact ⟨ps, hps, False.elim, hp⟩

theorem ite {c : Prop} [Decidable c] {x y : Build α} (hx : Fills i x P j) (hy : Fills i y P j) :
    Fills i (if c then x else y) P j := by
  split
  · exact hx
  · exact hy

end Fills

variable {i : Prop}

theorem spells_put (markup : String) : Spells i (put markup) (spell markup) False := by
  intro d _ d' hd _ hr
  rw [runs_modify.1 hr]
  exact ⟨_, ⟨hd, rfl, by simp [Draft.contents, Draft.top]⟩, False.elim, rfl⟩

theorem spells_flush : Spells i flush [] True := by
  intro d _ d' hd _ hr
  rw [runs_modify.1 hr]
  refine ⟨[], ⟨?_, ?_, ?_⟩, fun _ => buffer_flush d, rfl⟩
  · rw [flush_eq]
    exact extendTop_ne_nil hd
  · rw [flush_eq, tail_extendTop]
  · have htop : d.flush.top = d.top ++ d.flushed := top_extendTop hd (by rw [flush_eq])
    rw [Draft.contents, buffer_flush, htop]
    unfold Draft.flushed Draft.contents
    split
    · next hb => simp [hb]
    · simp [Draft.pending, pieceOf_markup]

theorem spells_add (stmt : Stmt) : Spells True (add stmt) (pieceOf stmt) True := by
  intro d _ d' hd hi hr
  have hb := hi True.intro
  rw [runs_modify.1 hr, add_eq_extendTop]
  refine ⟨_, ⟨extendTop_ne_nil hd, tail_extendTop _ _, ?_⟩, fun _ => hb, rfl⟩
  rw [Draft.contents, top_extendTop (d := d) hd rfl]
  simp [Draft.contents, hb]

theorem spells_modify {f : Draft → Draft}
    (hf : ∀ d, (f d).frames = d.frames ∧ (f d).buffer = d.buffer) : Spells i (modify f) [] i := by
  intro d _ d' hd hi hr
  obtain ⟨hframes, hbuffer⟩ := hf d
  rw [runs_modify.1 hr]
  exact ⟨[], .of_eq hd hframes hbuffer, fun h => hbuffer.trans (hi h), rfl⟩

theorem fills_get : Fills i get (fun _ ps => ps = []) i := by
  intro d _ d' hd hi hr
  obtain ⟨-, rfl⟩ := runs_get.1 hr
  exact ⟨[], .of_eq hd rfl rfl, hi, rfl⟩

theorem fills_freshName (stem : String) : Fills i (freshName stem) (fun _ ps => ps = []) i := by
  intro d name d' hd hi hr
  obtain ⟨-, rfl⟩ := runs_freshName.1 hr
  exact ⟨[], .of_eq hd rfl rfl, hi, rfl⟩

theorem spells_noteScript : Spells i noteScript [] i := spells_modify fun _ => ⟨rfl, rfl⟩

theorem fills_declare (type : Ty) (stem : String) (init : Expr) :
    Fills True (declare type stem init) (fun e ps => ∃ name, e = .variableRef type name ∧
      ps = [.stmt (.var { type, name, init := some init })]) True := by
  refine (fills_freshName stem).bind fun name _ hnil => ?_
  subst hnil
  exact (spells_add _).after (.pure ⟨name, rfl, rfl⟩)

def IsSetup (ps : List Piece) : Prop := ps = [] ∨ ps = [.stmt (renderCall "writeExtras" [.bool false])]

theorem fills_ensureExtras (inMarkup : Bool) : Fills i (ensureExtras inMarkup) (fun _ ps =>
    ps = [] ∨ ps = [.stmt (renderCall "writeExtras" [.bool inMarkup])]) False := by
  refine fills_get.bind fun _ ps hps => ?_
  subst hps
  refine .ite ?_ (Fills.pure (.inl rfl)).forget
  refine spells_flush.after ((spells_add _).after (Fills.forget (.mono (spells_modify ?_) ?_)))
  · intro d
    split
    · exact ⟨rfl, rfl⟩
    · exact ⟨rfl, rfl⟩
  · rintro _ _ rfl
    exact .inr rfl

def attributePieces (name : String) (value : List Piece) : List Piece :=
  spell (Markup.openAttribute name) ++ value ++ spell Markup.closeAttribute

theorem spells_putAttribute (name : String) (stmt : Stmt) :
    Spells i (putAttribute name stmt) (attributePieces name (pieceOf stmt)) False :=
  (spells_put _).after (spells_flush.after ((spells_add _).after
    ((spells_put _).mono fun _ ps hps => by simp [hps, attributePieces])))

theorem spells_putCall : Spells i putCall (spell ").toDOM(") False :=
  (spells_put _).after (.mono (spells_modify fun _ => ⟨rfl, rfl⟩) fun _ _ h => by simp [h])

def argumentPieces : List Expr → List Piece
  | [] => []
  | [e] => [.stmt (writeData e)]
  | e :: rest => .stmt (writeData e) :: .char ',' :: argumentPieces rest

theorem spells_putData (es : List Expr) : Spells i (putData es) (argumentPieces es) False := by
  induction es generalizing i with
  | nil => exact Fills.forget (Fills.pure (P := fun _ qs => qs = []) rfl)
  | cons e rest ih =>
      cases rest with
      | nil => exact spells_flush.after (spells_add _).forget
      | cons e' rest =>
          exact spells_flush.after ((spells_add _).after ((spells_put ",").after
            (ih.mono fun _ ps hps => by simp [hps, argumentPieces, spell])))

def boundValues (n : Nat) : List Expr := (boundParams.take n).map Param.ref

theorem spells_putBound (n : Nat) : Spells i (putBound n) (argumentPieces (boundValues n)) False :=
  spells_putData _

/-- A call on the client: the code, the values it is applied to, and the element that the result is put
into. -/
def scriptCall (code : String) (values : List Expr) (place : List Piece) : List Piece :=
  spell ("duel(" ++ code ++ ")(") ++ argumentPieces values ++ spell ").toDOM(" ++ place

/-- The tag that opens a script element, up to the value of its id if it has one. -/
def scriptOpening (s : Settings) (withId : Bool) : String :=
  Markup.openTag "script" ++
    (if s.scriptTypeAttr then Markup.wholeAttribute "type" (some "text/javascript") else "") ++
    if withId then Markup.openAttribute "id" else ""

theorem spells_putScriptOpen (withId : Bool) :
    Spells i (putScriptOpen s withId) (spell (scriptOpening s withId)) False := by
  have hid {i : Prop} : Spells i (if withId then put (Markup.openAttribute "id") else pure ())
      (spell (if withId then Markup.openAttribute "id" else "")) False := by
    cases withId with
    | true => exact spells_put _
    | false => exact Fills.forget (Fills.pure (P := fun _ qs => qs = []) rfl)
  refine (spells_put _).after ?_
  unfold scriptOpening
  cases s.scriptTypeAttr with
  | true => exact (spells_put _).after (hid.mono fun _ ps hps => by simp [hps])
  | false => exact hid.mono fun _ ps hps => by simp [hps]

def idDeclaration (name : String) : Stmt :=
  .var { type := .string, name, init := some (.invokeSelf .string "nextID" [.context]) }

def OpensScript (s : Settings) (id : Expr) (ps : List Piece) : Prop :=
  ∃ name setup, id = .variableRef .string name ∧ IsSetup setup ∧
    ps = spell (scriptOpening s true) ++ [.stmt (idDeclaration name), .stmt (write id)] ++
      spell (Markup.closeAttribute ++ Markup.closeTag) ++ setup

theorem fills_openScriptWithId : Fills i (openScriptWithId s) (OpensScript s) False := by
  refine spells_noteScript.after ((spells_putScriptOpen true).after (spells_flush.after ?_))
  refine (fills_declare _ _ _).bind fun id ps hid => ?_
  obtain ⟨name, rfl, rfl⟩ := hid
  refine (spells_add _).after ((spells_put _).after ((spells_put _).after ?_))
  refine (fills_ensureExtras false).bind fun _ setup hsetup => .pure ⟨name, setup, rfl, hsetup, ?_⟩
  have hwrite : pieceOf (write (.variableRef .string name)) = [.stmt (write (.variableRef .string name))] := rfl
  simp [hwrite, idDeclaration]

/-- A block that is left to the client is called with as many of the bound values as it has parameters. -/
theorem fills_buildDeferredBlock (b : CodeBlock) : Fills i (buildDeferredBlock s b) (fun _ ps =>
    ∃ opening id, OpensScript s id opening ∧ ps = opening ++
      (scriptCall (clientCode b) (boundValues b.arity) [.stmt (writeData id)] ++
        spell (");" ++ Markup.endTag "script"))) False := by
  refine fills_openScriptWithId.bind fun id opening hopening => ?_
  refine (spells_put _).after ((spells_putBound _).after (spells_putCall.after (spells_flush.after
    ((spells_add _).after ((spells_put _).after ((spells_put _).mono fun _ ps hps => ?_))))))
  exact ⟨opening, id, hopening, by simp [hps, scriptCall]⟩

def ElementId.pieces : ElementId → List Piece
  | .declared id => [.stmt (writeData id)]
  | .given id => spell ((Client.Data.text id).write .compact .script 1)

theorem fills_putAttributeCall (attributes : List (String × Client.Data)) (id : ElementId) (n : Nat) :
    Fills i (putAttributeCall attributes id n) (fun _ ps => ∃ setup, IsSetup setup ∧
      ps = setup ++
        (scriptCall ((Client.Data.object attributes).write .compact .script 1) (boundValues n) id.pieces ++
          spell ",1);")) False := by
  refine (fills_ensureExtras false).bind fun _ setup hsetup => ?_
  refine (spells_put _).after ((spells_putBound _).after (spells_putCall.after ?_))
  cases id with
  | declared id =>
      refine spells_flush.after ((spells_add _).after ((spells_put _).mono fun _ ps hps => ?_))
      exact ⟨setup, hsetup, by simp [hps, scriptCall, ElementId.pieces]⟩
  | given id =>
      refine (spells_put _).after ((spells_put _).mono fun _ ps hps => ?_)
      exact ⟨setup, hsetup, by simp [hps, scriptCall, ElementId.pieces]⟩

end TwinView.Server
