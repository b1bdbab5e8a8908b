import TwinView.Proofs.Server.Generated
import TwinView.Proofs.Server.Normalization

/-!
Builders that only append. What is in a draft stays there: statements are added to the innermost frame and members
behind the others, and only the method that sets the class up gets more statements. A frame is opened only where
no markup waits. Both are shown together, since a frame that is opened over markup would not be the one that the
statements of the builder say.
-/

namespace TwinView.Server

open Code

variable {α β : Type} {i j k : Prop} {d d' d'' : Draft}
  {m m' m'' : Member} {ms ms' ms'' : List Member} {name : String}

/-- The same member, but the method that sets the class up may have more statements. -/
inductive Grew : Member → Member → Prop
  | same (m : Member) : Grew m m
  | init {m : Method} (stmts : List Stmt) (h : m.name = "init") :
    Grew (.method m) (.method { m with body := m.body ++ stmts })

/-- The same members in the same order, and perhaps more behind them. -/
inductive Grown : List Member → List Member → Prop
  | nil (more : List Member) : Grown [] more
  | cons {m m' : Member} {ms ms' : List Member} (h : Grew m m') (hs : Grown ms ms') : Grown (m :: ms) (m' :: ms')

theorem Grew.trans (h : Grew m m') (h' : Grew m' m'') : Grew m m'' := by
  cases h with
  | same => exact h'
  | init stmts hname =>
      cases h' with
      | same => exact .init stmts hname
      | init more _ =>
          rw [List.append_assoc]
          exact .init (stmts ++ more) hname

theorem Grew.isMethod (h : Grew m m') (name : String) : m'.isMethod name = m.isMethod name := by
  cases h <;> rfl

theorem Grown.append (ms more : List Member) : Grown ms (ms ++ more) := by
  induction ms with
  | nil => exact .nil more
  | cons m ms ih => exact .cons (.same m) ih

theorem Grown.refl (ms : List Member) : Grown ms ms := by
  simpa using Grown.append ms []

theorem Grown.trans (h : Grown ms ms') (h' : Grown ms' ms'') : Grown ms ms'' := by
  induction h generalizing ms'' with
  | nil => exact .nil _
  | cons hm _ ih =>
      cases h' with
      | cons hm' hs' => exact .cons (hm.trans hm') (ih hs')

theorem Grown.take (h : Grown ms ms') : Grown ms (ms'.take ms.length) := by
  induction h with
  | nil => exact .nil _
  | cons hm _ ih => exact .cons hm ih

theorem grown_modifyFirst_init (stmts : List Stmt) (ms : List Member) :
    Grown ms (ClassOf.modifyFirst "init" (fun m => { m with body := m.body ++ stmts }) ms) := by
  fun_induction ClassOf.modifyFirst "init" _ ms with
  | case1 => exact .nil _
  | case2 m rest hname => exact .cons (.init stmts hname) (.refl rest)
  | case3 m rest hname ih => exact .cons (.same _) ih
  | case4 m rest hm ih => exact .cons (.same _) ih

theorem Grown.modifyFirst (h : Grown ms ms') (f : Method → Method) (hnew : ∀ m ∈ ms, m.isMethod name = false) :
    Grown ms (ClassOf.modifyFirst name f ms') := by
  induction h with
  | nil => exact .nil _
  | cons hm hs ih =>
      next m m' ms ms' =>
      obtain ⟨hfirst, hrest⟩ := List.forall_mem_cons.1 hnew
      rw [← hm.isMethod] at hfirst
      cases m' with
      | method method =>
          have hname : method.name ≠ name := by simpa [Member.isMethod] using hfirst
          rw [ClassOf.modifyFirst, if_neg hname]
          exact .cons hm (ih hrest)
      | _ => exact .cons hm (ih hrest)

/-- The draft `d'` is `d` with more statements in its innermost frame and more members, apart from markup that
waits, names and notes. -/
structure OnlyAppends (d d' : Draft) : Prop where
  frames : ∃ new, d'.frames = extendTop new d.frames
  mode : d'.mode = d.mode
  target : d'.target = { d.target with members := d'.target.members }
  members : Grown d.target.members d'.target.members

theorem OnlyAppends.refl (d : Draft) : OnlyAppends d d := ⟨⟨[], by simp⟩, rfl, rfl, .refl _⟩

theorem OnlyAppends.trans (h : OnlyAppends d d') (h' : OnlyAppends d' d'') : OnlyAppends d d'' where
  frames := by
    obtain ⟨new, hnew⟩ := h.frames
    obtain ⟨more, hmore⟩ := h'.frames
    exact ⟨new ++ more, by rw [hmore, hnew, extendTop_extendTop]⟩
  mode := h'.mode.trans h.mode
  target := by rw [h'.target, h.target]
  members := h.members.trans h'.members

theorem OnlyAppends.of_target (hf : ∃ new, d'.frames = extendTop new d.frames) (hm : d'.mode = d.mode)
    (ht : d'.target = d.target) : OnlyAppends d d' := ⟨hf, hm, by rw [ht], ht ▸ .refl _⟩

theorem OnlyAppends.addMembers (more : List Member) (hf : d'.frames = d.frames)
    (hm : d'.mode = d.mode) (ht : d'.target = { d.target with members := d.target.members ++ more }) :
    OnlyAppends d d' where
  frames := ⟨[], by simp [hf]⟩
  mode := hm
  target := by rw [ht]
  members := ht ▸ .append _ more

theorem OnlyAppends.closed {ofMethod : Bool} (h : OnlyAppends (d.opened ofMethod) d') :
    OnlyAppends d d'.flush.close.2 ∧ d'.flush.close.2.buffer = "" ∧ d'.flush.close.2.names = d'.names ∧
      d'.flush.close.2.target = d'.target := by
  obtain ⟨new, hnew⟩ := h.frames
  have hclose : d'.flush.close.2 = { d'.flush with frames := d.frames } := by
    rw [flush_eq]
    simp [Draft.close, hnew, Draft.opened, extendTop]
  rw [hclose, flush_eq]
  exact ⟨⟨⟨[], by simp⟩, h.mode, h.target, h.members⟩, rfl, rfl, rfl⟩

theorem OnlyAppends.modifyMethod {name : String} (h : OnlyAppends d d') (f : Method → Method)
    (hnew : ∀ m ∈ d.target.members, m.isMethod name = false) :
    OnlyAppends d { d' with target := d'.target.modifyMethod name f } where
  frames := h.frames
  mode := h.mode
  target := by
    dsimp only
    rw [ClassOf.modifyMethod, h.target]
  members := h.members.modifyFirst f hnew

theorem OnlyAppends.withMethod (d : Draft) : OnlyAppends d d.withMethod.flush := by
  rw [flush_eq]
  exact ⟨⟨_, rfl⟩, rfl, rfl, .append _ _⟩

theorem OnlyAppends.withInit (d : Draft) : OnlyAppends d d.withInit := by
  unfold Draft.withInit
  split
  · exact .addMembers [.method (initMethod [])] rfl rfl rfl
  · exact .refl d

theorem OnlyAppends.addInit (d : Draft) (stmt : Stmt) : OnlyAppends d (d.addInit stmt) :=
  (OnlyAppends.withInit d).trans ⟨⟨[], by simp [Draft.addInit]⟩, rfl, rfl, grown_modifyFirst_init [stmt] _⟩

/-- The drafts that may come up while a view is built, as far as names and members go: whatever frames are open,
whatever markup waits and whatever has been noted. -/
inductive Reached : Draft → Prop
  | view (package : Option String) (name : String) : Reached { target := viewClass package name }
  | part (className partName : String) : Reached { target := emptyPart className partName }
  | elsewhere {d d' : Draft} (h : Reached d) (hn : d'.names = d.names) (ht : d'.target = d.target) : Reached d'
  | fresh {d : Draft} (h : Reached d) (stem : String) : Reached { d with names := (d.names.fresh stem).2 }
  /-- A block has been compiled, and some of its methods have been added. -/
  | code {d : Draft} (h : Reached d) (b : CodeBlock) {added : List Method}
    (hadded : ∀ m ∈ added, ∃ t, (Script.compile d.names (clientCode b)).1 = .ok t ∧ m ∈ t.methods) :
    Reached (d.afterCode b added false)
  | member {d : Draft} (h : Reached d) {m : Member} (hm : m.name = "init" ∨ d.names.Taken m.name) :
    Reached { d with target := d.target.add m }
  | changed {d : Draft} (h : Reached d) (name : String) {f : Method → Method}
    (hf : ∀ m, (f m).name = m.name ∨ (f m).name = "render") :
    Reached { d with target := d.target.modifyMethod name f }
  | takenBack {d : Draft} (h : Reached d) (count : Nat) :
    Reached { d with target := { d.target with members := d.target.members.take count } }

def plainNames : List String := ["", "init", "getPartName", "render"]

theorem not_taken_of_plain {n : Names} (h : name ∈ plainNames) : ¬ n.Taken name := by
  simp only [plainNames, List.mem_cons, List.not_mem_nil, or_false] at h
  apply Names.not_taken_of_unnumbered
  rcases h with rfl | rfl | rfl | rfl <;> decide

/-- Whatever has been built, the members have names that have been given out, or that never are. -/
theorem Reached.given (h : Reached d) :
    ∀ m ∈ d.target.members, m.name ∈ plainNames ∨ d.names.Taken m.name := by
  induction h with
  | view package name => simp [viewClass, Member.name, plainNames]
  | part className partName => simp [emptyPart, partClass, ClassOf.add, Member.name, plainNames]
  | elsewhere _ hn ht ih => rwa [hn, ht]
  | fresh _ stem ih =>
      next d _ => exact fun m hm => (ih m hm).imp_right fun h => h.mono (d.names.le_fresh stem)
  | code _ b hadded ih =>
      next d _ added =>
      unfold Draft.afterCode
      dsimp only
      intro m hm
      rcases List.mem_append.1 hm with hm | hm
      · exact (ih m hm).imp_right fun h => h.mono (Script.le_compile d.names (clientCode b))
      · obtain ⟨method, hmethod, rfl⟩ := List.mem_map.1 hm
        obtain ⟨t, ht, hmem⟩ := hadded method hmethod
        exact .inr ((Script.compile_newNames ht).taken _ (List.mem_map_of_mem hmem))
  | member _ hm ih =>
      intro m hmem
      rcases List.mem_append.1 hmem with hmem | hmem
      · exact ih m hmem
      · rw [List.mem_singleton.1 hmem]
        exact hm.imp_left fun h => by simp [h, plainNames]
  | changed _ name hf ih =>
      intro m hm
      rcases ClassOf.mem_of_mem_modifyFirst hm with hm | ⟨method, hmethod, -, rfl⟩
      · exact ih m hm
      · rcases hf method with hsame | hrender
        · simpa [Member.name, hsame] using ih _ hmethod
        · simp [Member.name, hrender, plainNames]
  | takenBack _ count ih => exact fun m hm => ih m (List.mem_of_mem_take hm)

theorem Reached.not_isMethod (h : Reached d) {stem : String} (hs : IsStem stem) :
    ∀ m ∈ d.target.members, m.isMethod (d.names.fresh stem).1 = false := by
  intro m hm
  cases m with
  | method method =>
      refine decide_eq_false fun hname => ?_
      have hgiven := h.given _ hm
      rw [show (Member.method method).name = (d.names.fresh stem).1 from hname] at hgiven
      rcases hgiven with hplain | htaken
      · exact not_taken_of_plain hplain (Names.taken_fresh hs)
      · exact Names.not_taken_fresh hs htaken
  | _ => rfl

theorem Reached.freshMember (h : Reached d) {stem : String} (hs : IsStem stem) {m : Member}
    (hm : m.name = (d.names.fresh stem).1) :
    Reached { d with names := (d.names.fresh stem).2, target := d.target.add m } :=
  (h.fresh stem).member (.inr (hm ▸ Names.taken_fresh hs))

theorem Reached.setBody (h : Reached d) (name : String) (stmts : List Stmt) : Reached (d.setBody name stmts) :=
  h.changed name fun _ => .inl rfl

theorem Reached.withInit (h : Reached d) : Reached d.withInit := by
  unfold Draft.withInit
  split
  · exact h.member (.inl rfl)
  · exact h

theorem Reached.addInit (h : Reached d) (stmt : Stmt) : Reached (d.addInit stmt) :=
  h.withInit.changed "init" fun _ => .inl rfl

/-- From drafts under way, `y` runs as `x` does, and `x` only appends. Before it, nothing waits in the buffer if
`i` holds; after it, nothing waits if `j` holds. -/
structure Mirrors (i : Prop) (y x : Build α) (j : Prop) : Prop where
  run : ∀ d, Reached d → (i → d.buffer = "") → y.run d = x.run d
  appends : ∀ d a d', Reached d → (i → d.buffer = "") → Runs x d a d' →
    OnlyAppends d d' ∧ Reached d' ∧ (j → d'.buffer = "")

/-- A builder that only appends. -/
abbrev Orderly (i : Prop) (x : Build α) (j : Prop) : Prop := Mirrors i x x j

theorem Orderly.of {x : Build α} (h : ∀ d a d', Reached d → (i → d.buffer = "") → Runs x d a d' →
    OnlyAppends d d' ∧ Reached d' ∧ (j → d'.buffer = "")) : Orderly i x j := ⟨fun _ _ _ => rfl, h⟩

theorem run_bind_congr {x y : Build α} {f g : α → Build β} (h : y.run d = x.run d)
    (hf : ∀ a e, Runs x d a e → (g a).run e = (f a).run e) : (y >>= g).run d = (x >>= f).run d := by
  rw [StateT.run_bind, StateT.run_bind, h]
  cases hr : x.run d with
  | error e => rfl
  | ok r => exact hf r.1 r.2 hr

namespace Mirrors

variable {x y : Build α} {f g : α → Build β}

theorem bindRuns (hx : Mirrors i y x j) (hf : ∀ d a d', Runs x d a d' → Mirrors j (g a) (f a) k) :
    Mirrors i (y >>= g) (x >>= f) k where
  run d hd hi := run_bind_congr (hx.run d hd hi) fun a e hr =>
    have h := hx.appends d a e hd hi hr
    (hf d a e hr).run e h.2.1 h.2.2
  appends d b d' hd hi hr := by
    obtain ⟨a, e, ha, hb⟩ := runs_bind.1 hr
    obtain ⟨happ, he, hj⟩ := hx.appends d a e hd hi ha
    obtain ⟨happ', hd', hk⟩ := (hf d a e ha).appends e b d' he hj hb
    exact ⟨happ.trans happ', hd', hk⟩

theorem bind (hx : Mirrors i y x j) (hf : ∀ a, Mirrors j (g a) (f a) k) : Mirrors i (y >>= g) (x >>= f) k :=
  hx.bindRuns fun _ a _ _ => hf a

theorem result (a : α) : Orderly i (Pure.pure a : Build α) i := .of fun d b d' hd hi hr => by
  obtain ⟨-, rfl⟩ := runs_pure.1 hr
  exact ⟨.refl d', hd, hi⟩

theorem throw {e : Error} : Orderly i (throw e : Build α) j :=
  .of fun _ _ _ _ _ hr => absurd hr runs_throw

theorem weaken {i' j' : Prop} (h : Mirrors i y x j) (hi : i → i') (hj : j' → j) : Mirrors i' y x j' where
  run d hd hi' := h.run d hd fun hI => hi' (hi hI)
  appends d a d' hd hi' hr :=
    have ⟨happ, hd', hbuffer⟩ := h.appends d a d' hd (fun hI => hi' (hi hI)) hr
    ⟨happ, hd', fun hJ => hbuffer (hj hJ)⟩

/-- A builder that runs another one inside: from a changed draft, and with a change behind it. -/
theorem inside {i' j' : Prop} {x' y' : Build β} (enter : Draft → Draft) (leave : Draft → α → Draft → β × Draft)
    (h : Mirrors i' y x j')
    (hx : ∀ d, x'.run d = x.run (enter d) >>= fun r => .ok (leave d r.1 r.2))
    (hy : ∀ d, y'.run d = y.run (enter d) >>= fun r => .ok (leave d r.1 r.2))
    (henter : ∀ d, Reached d → (i → d.buffer = "") → Reached (enter d) ∧ (i' → (enter d).buffer = ""))
    (hleave : ∀ d a e, Reached d → OnlyAppends (enter d) e → Reached e → (j' → e.buffer = "") →
      OnlyAppends d (leave d a e).2 ∧ Reached (leave d a e).2 ∧ (j → (leave d a e).2.buffer = "")) :
    Mirrors i y' x' j where
  run d hd hi := by
    obtain ⟨hd', hi'⟩ := henter d hd hi
    rw [hy, hx, h.run _ hd' hi']
  appends d b d' hd hi hr := by
    obtain ⟨hd', hi'⟩ := henter d hd hi
    unfold Runs at hr
    rw [hx] at hr
    cases hrun : x.run (enter d) with
    | error e =>
        rw [hrun] at hr
        cases hr
    | ok r =>
        rw [hrun] at hr
        obtain ⟨happ, he, hj⟩ := h.appends _ r.1 r.2 hd' hi' hrun
        obtain rfl := congrArg Prod.snd (Except.ok.inj hr)
        exact hleave d r.1 r.2 hd happ he hj

end Mirrors

theorem orderly_step {x : Build α} (h : ∀ d a d', Runs x d a d' → (∃ new, d'.frames = extendTop new d.frames) ∧
      d'.mode = d.mode ∧ d'.names = d.names ∧ d'.target = d.target)
    (hbuffer : ∀ d a d', (i → d.buffer = "") → Runs x d a d' → j → d'.buffer = "") : Orderly i x j :=
  .of fun d a d' hd hi hr =>
    have ⟨hframes, hmode, hnames, htarget⟩ := h d a d' hr
    ⟨.of_target hframes hmode htarget, hd.elsewhere hnames htarget, hbuffer d a d' hi hr⟩

/-- A step that changes nothing but what waits and what has been noted. -/
theorem orderly_modify {f : Draft → Draft} (h : ∀ d : Draft, (f d).frames = d.frames ∧ (f d).mode = d.mode ∧
      (f d).names = d.names ∧ (f d).target = d.target)
    (hbuffer : ∀ d : Draft, (i → d.buffer = "") → j → (f d).buffer = "") : Orderly i (modify f) j := by
  refine orderly_step (fun d _ d' hr => ?_) fun d _ d' hi hr hj => ?_
  · rw [runs_modify.1 hr]
    exact ⟨⟨[], by simp [(h d).1]⟩, (h d).2⟩
  · rw [runs_modify.1 hr]
    exact hbuffer d hi hj

theorem orderly_put (markup : String) : Orderly i (put markup) False :=
  orderly_modify (fun _ => ⟨rfl, rfl, rfl, rfl⟩) fun _ _ => False.elim

theorem orderly_note {f : Draft → Draft} (h : ∀ d : Draft, (f d).frames = d.frames ∧ (f d).mode = d.mode ∧
    (f d).names = d.names ∧ (f d).target = d.target ∧ (f d).buffer = d.buffer) : Orderly i (modify f) i :=
  orderly_modify (fun d => have ⟨hf, hm, hn, ht, _⟩ := h d; ⟨hf, hm, hn, ht⟩)
    fun d hi hj => (h d).2.2.2.2.trans (hi hj)

theorem orderly_get : Orderly i get i := by
  refine orderly_step (fun d _ d' hr => ?_) fun d _ d' hi hr hj => ?_
  · obtain ⟨-, rfl⟩ := runs_get.1 hr
    exact ⟨⟨[], by simp⟩, rfl, rfl, rfl⟩
  · obtain ⟨-, rfl⟩ := runs_get.1 hr
    exact hi hj

theorem orderly_flush : Orderly i flush True := by
  refine orderly_step (fun d _ d' hr => ?_) fun d _ d' _ hr _ => ?_
  · rw [runs_modify.1 hr, flush_eq]
    exact ⟨⟨_, rfl⟩, rfl, rfl, rfl⟩
  · rw [runs_modify.1 hr, buffer_flush]

theorem orderly_add (stmt : Stmt) : Orderly i (add stmt) i := by
  refine orderly_step (fun d _ d' hr => ?_) fun d _ d' hi hr hj => ?_
  · rw [runs_modify.1 hr, add_eq_extendTop]
    exact ⟨⟨_, rfl⟩, rfl, rfl, rfl⟩
  · rw [runs_modify.1 hr, add_eq]
    exact hi hj

theorem orderly_freshName (stem : String) : Orderly i (freshName stem) i := .of fun d name d' hd hi hr => by
  obtain ⟨-, rfl⟩ := runs_freshName.1 hr
  exact ⟨.of_target ⟨[], by simp⟩ rfl rfl, hd.fresh stem, hi⟩

theorem orderly_declare (type : Ty) (stem : String) (init : Expr) : Orderly i (declare type stem init) i :=
  (orderly_freshName stem).bind fun _ => (orderly_add _).bind fun _ => .result _

theorem orderly_newField : Orderly i newField i := .of fun d a d' hd hi hr => by
  obtain ⟨rfl, rfl⟩ := runs_newField hr
  exact ⟨.addMembers [_] rfl rfl rfl, hd.freshMember isStem_view rfl, hi⟩

theorem buffer_addInit (d : Draft) (stmt : Stmt) : (d.addInit stmt).buffer = d.buffer := by
  unfold Draft.addInit Draft.withInit
  split <;> rfl

theorem orderly_addToInit (stmt : Stmt) : Orderly i (addToInit stmt) i := .of fun d _ d' hd hi hr => by
  rw [runs_addToInit.1 hr]
  exact ⟨.addInit d stmt, hd.addInit stmt, fun hI => (buffer_addInit d stmt).trans (hi hI)⟩

theorem orderly_fragment? (b : CodeBlock) (canDefer : Bool) : Orderly i (fragment? b canDefer) i :=
  .of fun d r d' hd hi hr => by
    have happ (added : List Method) (hybrid : Bool) : OnlyAppends d (d.afterCode b added hybrid) :=
      .addMembers (added.map .method) rfl rfl rfl
    obtain ⟨-, -, rfl, -⟩ | ⟨t, m, rest, ht, hmethods, -, rfl⟩ := runs_fragment? hr
    · have hcode : Reached (d.afterCode b [] false) := hd.code b nofun
      exact ⟨happ _ _, hcode, hi⟩
    · have hcode : Reached (d.afterCode b (inlined m rest).2 false) :=
        hd.code b fun method hm => ⟨t, ht, hmethods ▸ (sublist_inlined m rest).subset hm⟩
      exact ⟨happ _ _, hcode.elsewhere rfl rfl, hi⟩

end TwinView.Server
