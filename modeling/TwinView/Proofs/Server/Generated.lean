import TwinView.Proofs.Server.Made

/-!
What a run of a builder leaves behind: statements of known sorts in the innermost frame and in the members of
the class, and a result that is as the steps of the builder say.
-/

namespace TwinView.Server

open Code

variable {α : Type} {w : Site} {i j : Prop} {Q : α → Prop} {x : Probed α} {d d' d'' : Draft} {a : α}

/-- The draft `d'` is `d` with generated statements, in the innermost frame and in members. -/
structure Generates (w : Site) (d d' : Draft) : Prop where
  frames : ∃ new, AllEmitted w.settings w.written new ∧ d'.frames = extendTop new d.frames
  members : ∀ stmt ∈ d'.target.stmts, stmt ∈ d.target.stmts ∨ Emitted w.settings w.written stmt

theorem Generates.refl (w : Site) (d : Draft) : Generates w d d := ⟨⟨[], .nil, by simp⟩, fun _ => .inl⟩

theorem Generates.trans (h : Generates w d d') (h' : Generates w d' d'') : Generates w d d'' where
  frames := by
    obtain ⟨new, hnew, hd'⟩ := h.frames
    obtain ⟨more, hmore, hd''⟩ := h'.frames
    exact ⟨new ++ more, hnew.append hmore, by rw [hd'', hd', extendTop_extendTop]⟩
  members := fun stmt hs => (h'.members stmt hs).elim (h.members stmt) .inr

theorem Generates.of_target {new : List Stmt} (hnew : AllEmitted w.settings w.written new)
    (hf : d'.frames = extendTop new d.frames) (ht : d'.target = d.target) : Generates w d d' :=
  ⟨⟨new, hnew, hf⟩, fun _ hs => .inl (ht ▸ hs)⟩

theorem Generates.of_members (ms : List Member) (hms : ∀ stmt ∈ Member.stmtsOf ms, Emitted w.settings w.written stmt)
    (hf : d'.frames = d.frames) (ht : d'.target.members = d.target.members ++ ms) : Generates w d d' where
  frames := ⟨[], .nil, by simp [hf]⟩
  members := fun stmt hs => by
    rw [ClassOf.stmts, ht, Member.stmtsOf_append] at hs
    exact (List.mem_append.1 hs).imp_right (hms stmt)

theorem Generates.flush (w : Site) (d : Draft) : Generates w d d.flush :=
  .of_target (allEmitted_flushed d) (by rw [flush_eq]) (target_flush d)

theorem Generates.modifyMethod (h : Generates w d d') (name : String) {f : Method → Method}
    (hf : ∀ m, ∀ stmt ∈ Stmt.allOf (f m).body, stmt ∈ Stmt.allOf m.body ∨ Emitted w.settings w.written stmt) :
    Generates w d { d' with target := d'.target.modifyMethod name f } where
  frames := h.frames
  members := fun stmt hs => by
    rcases ClassOf.mem_stmtsOf_modifyFirst hs with hs | ⟨m, hm, hs⟩
    · exact h.members stmt hs
    · exact (hf m stmt hs).elim (fun hs => h.members stmt (Member.mem_stmtsOf.2 ⟨_, hm, hs⟩)) .inr

theorem Generates.promoted (h : Generates w d d') (name : String) : Generates w d (d'.promoted name) :=
  h.modifyMethod name fun _ _ => .inl

theorem Generates.addInit {stmt : Stmt} (h : AllEmitted w.settings w.written [stmt]) (d : Draft) :
    Generates w d (d.addInit stmt) := by
  have hinit : Generates w d d.withInit := by
    unfold Draft.withInit
    split
    · exact .of_members [.method (initMethod [])] (by simp [Member.stmtsOf, Member.stmts, initMethod, Stmt.allOf])
        rfl rfl
    · exact .refl w d
  refine hinit.modifyMethod "init" fun m stmt' hs => ?_
  rw [Stmt.allOf_append] at hs
  exact (List.mem_append.1 hs).imp_right (h stmt')

/-- A frame holds generated statements, and leaves those around it as they are. -/
theorem Generates.closed {ofMethod : Bool} (h : Generates w (d.opened ofMethod) d') :
    ∃ new, AllEmitted w.settings w.written new ∧ d'.flush.close = (new, d'.closedTo d.frames) ∧
      Generates w d (d'.closedTo d.frames) := by
  obtain ⟨new, hnew, hframes⟩ := h.frames
  refine ⟨_, hnew.append (allEmitted_flushed d'), close_of_frames hframes, ⟨[], .nil, by simp [Draft.closedTo]⟩, ?_⟩
  rw [show (d'.closedTo d.frames).target = d'.target from target_flush d']
  exact h.members

theorem Generates.of_inFrame {ofMethod : Bool} {body : Build Unit} {stmts : List Stmt}
    (h : ∀ e, Runs body (d.opened ofMethod) () e → Generates w (d.opened ofMethod) e)
    (hr : Runs (inFrame ofMethod body) d stmts d') : AllEmitted w.settings w.written stmts ∧ Generates w d d' := by
  obtain ⟨e, he, hclose⟩ := runs_inFrame.1 hr
  obtain ⟨new, hnew, hclosed, hgen⟩ := (h e he).closed
  rw [hclosed] at hclose
  cases hclose
  exact ⟨hnew, hgen⟩

/-- A method is begun, and its body set when it has been built. -/
theorem Generates.setBody {stmts : List Stmt} (h : Generates w d.withMethod.flush d')
    (hs : AllEmitted w.settings w.written stmts) (name : String) : Generates w d (d'.setBody name stmts) :=
  have hmethod : Generates w d d.withMethod :=
    .of_members [_] (by simp [Member.stmtsOf, Member.stmts, renderMethod, Stmt.allOf]) rfl rfl
  ((hmethod.trans (.flush w _)).trans h).modifyMethod _ fun _ stmt hmem => .inr (hs stmt hmem)

/-- Besides what is built of it, the class of a part returns its name. -/
theorem Generates.withPart {partName : String} (h : Generates w (d.inPart partName) d') :
    Generates w d (d.withPart d') where
  frames := h.frames
  members := fun stmt hs => by
    simp only [Draft.withPart, ClassOf.stmts, ClassOf.add, Member.stmtsOf_append, Member.stmtsOf, List.append_nil,
      List.mem_append, Member.stmts_nested] at hs
    refine hs.imp_right fun hs => (h.members stmt hs).elim (fun hs => ?_) id
    simp only [Draft.inPart, emptyPart, partClass, ClassOf.stmts, ClassOf.add, List.nil_append, Member.stmtsOf,
      Member.stmts, Stmt.allOf, Stmt.withInner, List.append_nil, List.mem_singleton] at hs
    subst hs
    exact .code (show Expr.HasValue _ from .constant _ _)

/-- The members from before stay. -/
theorem Generates.takenBack (h : Generates w d d') (count : Nat) : Generates w d
    { d' with target := { d'.target with members := d'.target.members.take count } } where
  frames := h.frames
  members := fun stmt hs => by
    obtain ⟨m, hm, hs⟩ := Member.mem_stmtsOf.1 hs
    exact h.members stmt (Member.mem_stmtsOf.2 ⟨m, List.mem_of_mem_take hm, hs⟩)

/-- Compiling a block adds methods with code of scripts. -/
theorem generates_fragment? {b : CodeBlock} {canDefer : Bool} {r : Except Error Fragment}
    (hr : Runs (fragment? b canDefer) d r d') : Translates b r ∧ Generates w d d' := by
  obtain ⟨e, rfl, rfl, -⟩ | ⟨t, m, rest, ht, hm, rfl, rfl⟩ := runs_fragment? hr
  · exact ⟨blames_of_fragment? hr, .of_members [] (by simp [Member.stmtsOf]) rfl rfl⟩
  · have hcode := Script.compile_isCode ht
    rw [hm] at hcode
    obtain ⟨hfirst, hrest⟩ := List.forall_mem_cons.1 hcode
    obtain ⟨hvalue, hadded⟩ := inlined_isCode hfirst hrest hfirst.returns
    refine ⟨hvalue, .of_members _ (fun stmt hs => ?_) rfl rfl⟩
    obtain ⟨_, hm, hs⟩ := Member.mem_stmtsOf.1 hs
    obtain ⟨code, hc, rfl⟩ := List.mem_map.1 hm
    exact .code ((hadded code hc).body stmt hs)

theorem runs_newField {name : String} (hr : Runs newField d name d') :
    name = (d.names.fresh "view_").1 ∧ d' = { d with
      names := (d.names.fresh "view_").2
      target := d.target.add (.field { access := .classOnly, type := .view, name }) } := by
  simp only [newField, runs_bind, runs_freshName, addMember, runs_modify, runs_pure] at hr
  obtain ⟨_, _, ⟨rfl, rfl⟩, _, _, rfl, rfl, rfl⟩ := hr
  exact ⟨rfl, rfl⟩

theorem runs_inContent {e : Element} {body : Build Unit} (hr : Runs (inContent e body) d () d') :
    ∃ c, Runs body { d with mode := contentMode e d.mode } () c ∧ d' = { c with mode := d.mode } := by
  simp only [inContent, runs_bind, runs_get, runs_modify] at hr
  obtain ⟨_, _, ⟨rfl, rfl⟩, _, _, rfl, _, c, hc, rfl⟩ := hr
  exact ⟨c, hc, rfl⟩

/-- If an argument is refused, the members that have been added are taken back. -/
theorem runs_tryArguments {args : List (Option CodeBlock × Param)} {r : Except Error (List Expr)}
    (hr : Runs (tryArguments args) d r d') : ∃ c, Runs (arguments? args) d r c ∧
      (d' = c ∨ d' = { c with target :=
        { c.target with members := c.target.members.take d.target.members.length } }) := by
  simp only [tryArguments, runs_bind, runs_get] at hr
  obtain ⟨_, _, ⟨rfl, rfl⟩, r', c, hargs, hr⟩ := hr
  cases r' with
  | ok _ =>
      obtain ⟨rfl, rfl⟩ := runs_pure.1 hr
      exact ⟨d', hargs, .inl rfl⟩
  | error _ =>
      simp only [runs_bind, runs_modify, runs_pure] at hr
      obtain ⟨_, _, rfl, rfl, rfl⟩ := hr
      exact ⟨c, hargs, .inr rfl⟩

/-- Whatever the draft, a builder leaves generated statements, and its result is as it should be. -/
theorem Made.generates (h : Made w i x Q j) (hr : Runs (x noProbe) d a d') : Q a ∧ Generates w d d' := by
  induction h generalizing d d' with
  | result hq =>
      obtain ⟨rfl, rfl⟩ := runs_pure.1 hr
      exact ⟨hq, .refl w _⟩
  | bind _ _ ihx ihf =>
      obtain ⟨b, e, hb, ha⟩ := runs_bind.1 hr
      obtain ⟨hq, hgen⟩ := ihx hb
      exact (ihf b hq ha).imp_right hgen.trans
  | weaken _ _ hq _ ih => exact (ih hr).imp_left (hq _)
  | throw => exact absurd hr runs_throw
  | get =>
      obtain ⟨-, rfl⟩ := runs_get.1 hr
      exact ⟨trivial, .refl w _⟩
  | put markup =>
      obtain rfl := runs_modify.1 hr
      exact ⟨trivial, .of_target .nil (by simp) rfl⟩
  | flush =>
      obtain rfl := runs_modify.1 hr
      exact ⟨trivial, .flush w d⟩
  | note hf =>
      obtain rfl := runs_modify.1 hr
      obtain ⟨_, _, _, hf⟩ := hf d
      rw [hf]
      exact ⟨trivial, .of_target .nil (by simp) rfl⟩
  | add hs =>
      obtain rfl := runs_modify.1 hr
      exact ⟨trivial, .of_target hs (frames_add _ _) (by rw [add_eq])⟩
  | freshName stem =>
      obtain ⟨-, rfl⟩ := runs_freshName.1 hr
      exact ⟨trivial, .of_target .nil (by simp) rfl⟩
  | declare type stem init =>
      obtain ⟨rfl, rfl⟩ := runs_declare.1 hr
      exact ⟨⟨_, rfl⟩, .of_target (allEmitted_var _) (frames_add _ _) (by rw [add_eq])⟩
  | addToInit hs =>
      obtain rfl := runs_addToInit.1 hr
      exact ⟨trivial, .addInit hs d⟩
  | newField =>
      obtain ⟨-, rfl⟩ := runs_newField hr
      exact ⟨trivial, .of_members [_] (by simp [Member.stmtsOf, Member.stmts]) rfl rfl⟩
  | fragment? b canDefer => exact generates_fragment? hr
  | tryArguments _ ih =>
      obtain ⟨c, hargs, rfl | rfl⟩ := runs_tryArguments hr
      · exact ih hargs
      · exact (ih hargs).imp_right fun h => h.takenBack _
  | inFrame ofMethod _ ih => exact Generates.of_inFrame (fun _ he => (ih he).2) hr
  | inContent e _ ih =>
      obtain ⟨c, hc, rfl⟩ := runs_inContent hr
      exact ⟨trivial, (ih hc).2.frames, (ih hc).2.members⟩
  | buildRenderMethod _ ih =>
      obtain ⟨stmts, c, hin, rfl, rfl⟩ := runs_buildRenderMethod.1 hr
      obtain ⟨hstmts, hgen⟩ := Generates.of_inFrame (fun _ he => (ih he).2) hin
      exact ⟨fun he => absurd (congrArg String.toList he) (by simp [Names.fresh_name]), hgen.setBody hstmts _⟩
  | buildPart name _ _ ih =>
      obtain ⟨rfl, render, e, hrender, rfl⟩ := runs_buildPart.1 hr
      exact ⟨trivial, ((ih hrender).2.promoted render).withPart⟩
  | visit _ ih => exact ih hr

/-- Every statement of a class that is built is of one of the sorts, for the blocks of its view. -/
theorem emitted_of_buildView {s : Settings} {v : View} {c : ClassDecl} (h : buildView s v = .ok c) :
    ∀ stmt ∈ c.stmts, Emitted s v.blocks stmt := by
  obtain ⟨package, name, d', hr, rfl⟩ := runs_buildView h
  obtain ⟨render, e, hmethod, hpromote⟩ := runs_bind.1 hr
  obtain ⟨-, hgen⟩ := (made_view s v).generates hmethod
  obtain rfl := runs_promote.1 hpromote
  intro stmt hs
  refine ((hgen.promoted render).members stmt hs).resolve_left fun hs => ?_
  simp [viewClass, ClassOf.stmts, Member.stmtsOf, Member.stmts, forwardingConstructor, Stmt.allOf] at hs

end TwinView.Server
