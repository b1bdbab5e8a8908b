import TwinView.Proofs.Server.Choices
import TwinView.Proofs.Server.Contents

/-!
What running the statements of a draft renders. Tests are taken from the outside, except for those of
flags, which the statements set themselves. A builder is described by the pieces that it adds as far as
running them goes: a declaration renders nothing, so that it may overtake markup that waits.
-/

namespace TwinView.Server

open Code

variable {α β : Type} {s : Settings} {d d' : Draft} {truth : Expr → Bool} {page : Page}

/-- A page under way: what has been rendered, and the flags of the statements. -/
structure Page where
  flags : String → Bool := fun _ => false
  out : List Piece := []

namespace Page

def write (page : Page) (ps : List Piece) : Page := { page with out := page.out ++ ps }

def set (page : Page) (name : String) (b : Bool) : Page :=
  { page with flags := fun other => if other = name then b else page.flags other }

/-- The value of a test, made of the values of flags and of tests from the outside. -/
def holds (truth : Expr → Bool) (page : Page) : Expr → Bool
  | .var name .boolean _ => page.flags name
  | .unary .not e _ => !page.holds truth e
  | .binary .or left right _ => page.holds truth left || page.holds truth right
  | .binary (.compare .notIdentical) left right p =>
    !truth (.binary (.compare .identical) left right p)
  | e => truth e

def step (page : Page) : Stmt → Page
  | .var ⟨.boolean, name, some (.prim (.bool b) _)⟩ => page.set name b
  | .var _ | .vars _ | .comment _ => page
  | .expr (.binary .assign (.var name .boolean _) (.prim (.bool b) _) _) _ => page.set name b
  | stmt => page.write (pieceOf stmt)

end Page

def pages (truth : Expr → Bool) : Interpreter (StateM Page) where
  test e := do return (← get).holds truth e
  step stmt := modify (·.step stmt)

def rendered (truth : Expr → Bool) (stmts : List Stmt) (page : Page) : Page :=
  (((pages truth).exec stmts).run page).2

/-- The page behind the innermost frame of a draft and the markup that waits. -/
def Draft.render (truth : Expr → Bool) (d : Draft) (page : Page) : Page :=
  (rendered truth d.top page).write (spell d.buffer)

namespace Page

@[simp] theorem write_nil (page : Page) : page.write [] = page := by simp [write]

@[simp] theorem write_write (page : Page) (ps qs : List Piece) :
    (page.write ps).write qs = page.write (ps ++ qs) := by simp [write]

@[simp] theorem out_write (page : Page) (ps : List Piece) : (page.write ps).out = page.out ++ ps := rfl

@[simp] theorem flags_write (page : Page) (ps : List Piece) : (page.write ps).flags = page.flags := rfl

@[simp] theorem out_set (page : Page) (name : String) (b : Bool) : (page.set name b).out = page.out := rfl

@[simp] theorem flags_set (page : Page) (name : String) (b : Bool) :
    (page.set name b).flags name = b := if_pos rfl

theorem write_set (page : Page) (name : String) (b : Bool) (ps : List Piece) :
    (page.set name b).write ps = (page.write ps).set name b := rfl

end Page

@[simp] theorem rendered_nil : rendered truth [] page = page := rfl

@[simp] theorem rendered_append (stmts rest : List Stmt) :
    rendered truth (stmts ++ rest) page = rendered truth rest (rendered truth stmts page) := by
  rw [rendered, exec_append]
  rfl

theorem rendered_cons (stmt : Stmt) (rest : List Stmt) :
    rendered truth (stmt :: rest) page = rendered truth rest (rendered truth [stmt] page) :=
  rendered_append [stmt] rest

@[simp] theorem rendered_cond (test : Expr) (yes no : List Stmt) :
    rendered truth [.cond test yes no] page =
      if page.holds truth test then rendered truth yes page else rendered truth no page := by
  rw [rendered, exec_cond]
  change ((if page.holds truth test then (pages truth).exec yes else (pages truth).exec no :
    StateM Page Unit).run page).2 = _
  split <;> rfl

def perform (truth : Expr → Bool) : List Piece → Page → Page
  | [], page => page
  | .char c :: rest, page => perform truth rest (page.write [.char c])
  | .stmt stmt :: rest, page => perform truth rest (rendered truth [stmt] page)

@[simp] theorem perform_nil : perform truth [] page = page := rfl

@[simp] theorem perform_append (ps qs : List Piece) :
    perform truth (ps ++ qs) page = perform truth qs (perform truth ps page) := by
  induction ps generalizing page with
  | nil => rfl
  | cons p ps ih =>
      cases p with
      | char c => exact ih
      | stmt stmt => exact ih

@[simp] theorem perform_stmt (stmt : Stmt) :
    perform truth [.stmt stmt] page = rendered truth [stmt] page := rfl

@[simp] theorem perform_spell (text : String) :
    perform truth (spell text) page = page.write (spell text) := by
  unfold spell
  induction text.toList generalizing page with
  | nil => simp
  | cons c cs ih => simp [perform, ih]

theorem perform_pieceOf (stmt : Stmt) : perform truth (pieceOf stmt) page = rendered truth [stmt] page := by
  unfold pieceOf
  cases h : markup? stmt with
  | none => rfl
  | some text =>
      have hpiece : pieceOf stmt = spell text := by simp only [pieceOf, h]
      rw [perform_spell, ← hpiece]
      unfold markup? at h
      split at h
      · rfl
      · rfl
      · cases h

theorem perform_pieces (stmts : List Stmt) :
    perform truth (pieces stmts) page = rendered truth stmts page := by
  induction stmts generalizing page with
  | nil => rfl
  | cons stmt rest ih =>
      rw [rendered_cons, ← perform_pieceOf, ← ih, ← perform_append]
      rfl

theorem render_eq (d : Draft) : d.render truth page = perform truth d.contents page := by
  rw [Draft.render, Draft.contents, perform_append, perform_pieces, perform_spell]

theorem exists_out_step (stmt : Stmt) (page : Page) : ∃ more, (page.step stmt).out = page.out ++ more := by
  unfold Page.step
  split
  · exact ⟨[], (List.append_nil _).symm⟩
  · exact ⟨[], (List.append_nil _).symm⟩
  · exact ⟨[], (List.append_nil _).symm⟩
  · exact ⟨[], (List.append_nil _).symm⟩
  · exact ⟨[], (List.append_nil _).symm⟩
  · exact ⟨_, rfl⟩

mutual

theorem exists_out_single (truth : Expr → Bool) :
    ∀ (stmt : Stmt) (page : Page), ∃ more, (rendered truth [stmt] page).out = page.out ++ more
  | .cond test yes no, page => by
      rw [rendered_cond]
      split
      · exact exists_out_rendered truth yes page
      · exact exists_out_rendered truth no page
  | .expr e origin, page => exists_out_step (.expr e origin) page
  | .var decl, page => exists_out_step (.var decl) page
  | .vars decls, page => exists_out_step (.vars decls) page
  | .loop init test step body, page => exists_out_step (.loop init test step body) page
  | .ret value, page => exists_out_step (.ret value) page
  | .comment value, page => exists_out_step (.comment value) page

theorem exists_out_rendered (truth : Expr → Bool) :
    ∀ (stmts : List Stmt) (page : Page), ∃ more, (rendered truth stmts page).out = page.out ++ more
  | [], page => ⟨[], (List.append_nil _).symm⟩
  | stmt :: rest, page => by
      obtain ⟨more, hmore⟩ := exists_out_single truth stmt page
      obtain ⟨behind, hbehind⟩ := exists_out_rendered truth rest (rendered truth [stmt] page)
      exact ⟨more ++ behind, by rw [rendered_cons, hbehind, hmore, List.append_assoc]⟩

end

theorem exists_out_perform (truth : Expr → Bool) (ps : List Piece) (page : Page) :
    ∃ more, (perform truth ps page).out = page.out ++ more := by
  induction ps generalizing page with
  | nil => exact ⟨[], (List.append_nil _).symm⟩
  | cons p ps ih =>
      cases p with
      | char c =>
          obtain ⟨more, hmore⟩ := ih (page.write [.char c])
          exact ⟨.char c :: more, by rw [perform, hmore]; simp⟩
      | stmt stmt =>
          obtain ⟨more, hmore⟩ := exists_out_single truth stmt page
          obtain ⟨behind, hbehind⟩ := ih (rendered truth [stmt] page)
          exact ⟨more ++ behind, by rw [perform, hbehind, hmore, List.append_assoc]⟩

/-- Running the draft `d'` is running `d` and then the pieces `ps`. -/
structure Continues (d : Draft) (ps : List Piece) (d' : Draft) : Prop where
  opened : d'.frames ≠ []
  around : d'.frames.tail = d.frames.tail
  render : ∀ truth page, d'.render truth page = perform truth ps (d.render truth page)

theorem Continues.trans {ps qs : List Piece} {d'' : Draft} (h : Continues d ps d')
    (h' : Continues d' qs d'') : Continues d (ps ++ qs) d'' :=
  ⟨h'.opened, h'.around.trans h.around, fun truth page => by rw [h'.render, h.render, perform_append]⟩

/-- In an open frame the builder adds pieces, as far as running them goes, of which `P` holds together
with its result. Before it, nothing may wait in the buffer if `i` holds; after it, nothing waits if `j`
holds. -/
def Prints (i : Prop) (x : Build α) (P : α → List Piece → Prop) (j : Prop) : Prop :=
  ∀ d a d', d.frames ≠ [] → (i → d.buffer = "") → Runs x d a d' →
    ∃ ps, Continues d ps d' ∧ (j → d'.buffer = "") ∧ P a ps

abbrev Inserts (i : Prop) (x : Build α) (j : Prop) : Prop := Prints i x (fun _ _ => True) j

variable {i j k : Prop} {P : α → List Piece → Prop} {Q : β → List Piece → Prop}

theorem Fills.prints {x : Build α} (h : Fills i x P j) : Prints i x P j := by
  intro d a d' hd hi hr
  obtain ⟨ps, happends, hj, hp⟩ := h d a d' hd hi hr
  refine ⟨ps, ⟨happends.opened, happends.around, fun truth page => ?_⟩, hj, hp⟩
  rw [render_eq, happends.contents, perform_append, ← render_eq]

namespace Prints

theorem pure {a : α} (h : P a []) : Prints i (Pure.pure a) P i := (Fills.pure h).prints

theorem throw {e : Error} : Prints i (throw e : Build α) P j := fun _ _ _ _ _ hr => absurd hr runs_throw

theorem bind {x : Build α} {f : α → Build β} (hx : Prints i x P j)
    (hf : ∀ a ps, P a ps → Prints j (f a) (fun b qs => Q b (ps ++ qs)) k) :
    Prints i (x >>= f) Q k := by
  intro d b d' hd hi hr
  obtain ⟨a, e, ha, hb⟩ := runs_bind.1 hr
  obtain ⟨ps, hps, hj, hp⟩ := hx d a e hd hi ha
  obtain ⟨qs, hqs, hk, hq⟩ := hf a ps hp e b d' hps.opened hj hb
  exact ⟨ps ++ qs, hps.trans hqs, hk, hq⟩

theorem after {x : Build Unit} {ps : List Piece} {f : Unit → Build β} (hx : Spells i x ps j)
    (hf : Prints j (f ()) (fun b qs => Q b (ps ++ qs)) k) : Prints i (x >>= f) Q k :=
  hx.prints.bind fun _ _ h => h ▸ hf

theorem mono {P' : α → List Piece → Prop} {x : Build α} (hx : Prints i x P j)
    (h : ∀ a ps, P a ps → P' a ps) : Prints i x P' j := by
  intro d a d' hd hi hr
  obtain ⟨ps, hps, hj, hp⟩ := hx d a d' hd hi hr
  exact ⟨ps, hps, hj, h a ps hp⟩

theorem weaken {i' j' : Prop} {x : Build α} (hx : Prints i x P j) (hi : i → i') (hj : j' → j) :
    Prints i' x P j' := by
  intro d a d' hd hi' hr
  obtain ⟨ps, hps, hj', hp⟩ := hx d a d' hd (hi' ∘ hi) hr
  exact ⟨ps, hps, hj' ∘ hj, hp⟩

theorem forget {x : Build α} (hx : Prints i x P j) : Prints i x P False := hx.weaken id False.elim

theorem ite {c : Prop} [Decidable c] {x y : Build α} (hx : Prints i x P j) (hy : Prints i y P j) :
    Prints i (if c then x else y) P j := by
  split
  · exact hx
  · exact hy

/-- A step by what it adds, whatever that is. -/
theorem inserts {x : Build α} (hx : Prints i x P j) : Inserts i x j := hx.mono fun _ _ _ => True.intro

end Prints

theorem prints_keeping {x : Build α}
    (h : ∀ d a d', Runs x d a d' → d'.frames = d.frames ∧ d'.buffer = d.buffer) :
    Prints i x (fun _ ps => ps = []) i := by
  intro d a d' hd hi hr
  obtain ⟨hframes, hbuffer⟩ := h d a d' hr
  have happends := Appends.of_eq hd hframes hbuffer
  refine ⟨[], ⟨happends.opened, happends.around, fun truth page => ?_⟩, fun h => hbuffer.trans (hi h), rfl⟩
  rw [render_eq, happends.contents, List.append_nil, ← render_eq, perform_nil]

theorem step_var_write (decl : VarDecl) (page : Page) (ps : List Piece) :
    (page.step (.var decl)).write ps = (page.write ps).step (.var decl) := by
  unfold Page.step
  split <;> simp_all [Page.write_set]

theorem prints_addVar (decl : VarDecl) :
    Prints i (add (.var decl)) (fun _ ps => ps = [.stmt (.var decl)]) i := by
  intro d _ d' hd hi hr
  rw [runs_modify.1 hr, add_eq_extendTop]
  refine ⟨_, ⟨extendTop_ne_nil hd, tail_extendTop _ _, fun truth page => ?_⟩, hi, rfl⟩
  rw [Draft.render, top_extendTop (d := d) hd rfl, rendered_append, perform_stmt]
  exact step_var_write decl _ _

theorem prints_declare (type : Ty) (stem : String) (init : Expr) :
    Prints i (declare type stem init) (fun e ps => ∃ name, e = .variableRef type name ∧
      ps = [.stmt (.var { type, name, init := some init })]) i := by
  refine (fills_freshName stem).prints.bind fun name _ hnil => ?_
  subst hnil
  refine (prints_addVar _).bind fun _ _ hvar => ?_
  subst hvar
  exact .pure ⟨name, rfl, rfl⟩

theorem prints_inFrame {ofMethod : Bool} {body : Build Unit} {P : Unit → List Piece → Prop}
    (h : Prints True body P j) : Prints True (inFrame ofMethod body) (fun stmts ps =>
      ps = [] ∧ ∃ qs, P () qs ∧ ∀ truth page, rendered truth stmts page = perform truth qs page) True := by
  intro d stmts d' hd hi hr
  obtain ⟨e, he, hclose⟩ := runs_inFrame.1 hr
  obtain ⟨qs, hqs, -, hp⟩ := h (d.opened ofMethod) () e (List.cons_ne_nil _ _) hi he
  obtain ⟨f, hframes⟩ : ∃ f, e.flush.frames = f :: d.frames := by
    obtain ⟨f, rest, hf⟩ := List.exists_cons_of_ne_nil hqs.opened
    have hrest : rest = d.frames := by
      have := hqs.around
      rw [hf] at this
      exact this
    rw [flush_eq, hf, hrest]
    exact ⟨_, rfl⟩
  have hbuffer := hi True.intro
  rw [Draft.close, hframes] at hclose
  cases hclose
  refine ⟨[], ⟨hd, rfl, fun truth page => ?_⟩, fun _ => buffer_flush e, rfl, qs, hp, fun truth page => ?_⟩
  · rw [perform_nil, Draft.render, Draft.render, buffer_flush, hbuffer]
    rfl
  · -- nothing waited in front of the frame, so that what waits behind the body belongs to it
    obtain ⟨_, hflush, -, rfl⟩ := spells_flush e () e.flush hqs.opened False.elim (runs_modify.2 rfl)
    have hpage := hqs.render truth page
    rw [render_eq, ← List.append_nil e.contents, ← hflush.contents, ← render_eq] at hpage
    simpa [Draft.render, Draft.top, hframes, Draft.opened, hbuffer] using hpage

theorem prints_addCondition {test : Expr} {body : Build Unit} {P : Unit → List Piece → Prop}
    (h : Prints True body P j) : Prints True (addCondition test body) (fun _ ps =>
      ∃ qs, P () qs ∧ ∀ truth page, perform truth ps page =
        if page.holds truth test then perform truth qs page else page) True := by
  refine (prints_inFrame h).bind fun stmts ps hps => ?_
  obtain ⟨rfl, qs, hp, hstmts⟩ := hps
  refine (spells_add _).prints.mono fun _ ps hps => ?_
  subst hps
  refine ⟨qs, hp, fun truth page => ?_⟩
  rw [List.nil_append, perform_pieceOf, rendered_cond, hstmts, rendered_nil]

end TwinView.Server
