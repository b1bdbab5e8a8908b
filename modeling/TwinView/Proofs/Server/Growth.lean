import TwinView.Proofs.Script.Undeclared
import TwinView.Proofs.Server.Fragments

/-!
What the statements that a builder adds refer to: variables that are in scope where it starts, variables
that it declares on the way, and members that the class has in the end. A name is declared or given to
a member only once, since it is given out only once.
-/

namespace TwinView.Server

open Code

variable {α β : Type} {s : Settings} {d d' d'' : Draft} {new new' : List Stmt}
  {scope scope' : Ref → Prop} {c : ClassDecl} {r : Ref}

/-! Members. -/

/-- The methods that may still change: the one that sets the class up, and the one that is begun first
and renders the class in the end. -/
def unsettled : List String := ["init", "render_1"]

theorem settled_of_unnumbered {name : String} (hi : unnumbered name ≠ "init")
    (hr : unnumbered name ≠ "render_") : name ∉ unsettled := by
  intro h
  simp only [unsettled, List.mem_cons, List.not_mem_nil, or_false] at h
  rcases h with rfl | rfl
  · exact hi (by decide)
  · exact hr (by decide)

theorem settled_render {n : Names} (h : 1 ≤ n.count "render_") :
    (n.fresh "render_").1 ∉ unsettled := by
  have hname : (n.fresh "render_").1 = "render_" ++ (n.count "render_" + 1).repr := rfl
  intro hmem
  simp only [unsettled, List.mem_cons, List.not_mem_nil, or_false] at hmem
  rcases hmem with he | he
  · exact ne_init_of_taken (Names.taken_fresh isStem_render) he
  · have hone : "render_1" = "render_" ++ (1 : Nat).repr := by decide
    rw [hname, hone] at he
    have hstem := not_endsInDigit isStem_render
    have hcount := (stem_append_inj hstem hstem he).2
    exact absurd hcount (by rw [Nat.add_eq_right]; exact Nat.ne_of_gt h)

def Offers (c : ClassDecl) (r : Ref) : Prop := r.name ∉ unsettled ∧ ∃ m ∈ c.members, m.Answers r

theorem Extends.offers (h : Extends d new d') (ho : Offers d.target r) : Offers d'.target r := by
  obtain ⟨hn, m, hm, ha⟩ := ho
  have hname : m.name = r.name := Member.name?_eq_some ha.name?
  refine ⟨hn, m, h.kept m hm ?_, ha⟩
  rintro hi
  exact hn (by simp [unsettled, ← hname, hi])

/-- Whatever its members refer to is a settled member of the class. Scripts have no locals. -/
structure Coherent (d : Draft) : Prop extends Tidy d where
  locals : d.names.locals = []
  closed : ∀ m ∈ d.target.members, m.Closed (Offers d.target)

theorem Coherent.extends (hd : Coherent d) (h : Extends d new d') (hl : d'.names.locals = [])
    (hnew : ∀ m ∈ d'.target.members, m ∈ d.target.members ∨ m.Closed (Offers d'.target)) :
    Coherent d' where
  toTidy := h.tidy
  locals := hl
  closed := by
    intro m hm
    rcases hnew m hm with hm | hm
    · exact (hd.closed m hm).mono fun _ => h.offers
    · exact hm

theorem Coherent.of_eq (hd : Coherent d) (ht : Tidy d') (hn : d'.names = d.names)
    (htarget : d'.target = d.target) : Coherent d' :=
  ⟨ht, by rw [hn]; exact hd.locals, by rw [htarget]; exact hd.closed⟩

theorem offers_modifyMethod {name : String} {f : Method → Method} (hname : ∀ m, (f m).name = m.name)
    (hparams : ∀ m, (f m).params = m.params) (h : Offers c r) : Offers (c.modifyMethod name f) r := by
  obtain ⟨hn, m, hm, ha⟩ := h
  refine ⟨hn, ?_⟩
  rcases ClassOf.mem_modifyFirst name f hm with hm' | ⟨m', rfl, hm'⟩
  · exact ⟨m, hm', ha⟩
  · refine ⟨_, hm', ?_⟩
    cases r with
    | method => exact ⟨(hname m').trans ha.1, (hparams m').trans ha.2⟩
    | _ => exact ha

theorem Coherent.modifyMethod {name : String} {f : Method → Method} (hd : Coherent d)
    (hname : ∀ m, (f m).name = m.name) (hparams : ∀ m, (f m).params = m.params)
    (ht : Tidy { d with target := d.target.modifyMethod name f })
    (h : ∀ m, .method m ∈ d.target.members → m.name = name → (f m).Closed (Offers d.target)) :
    Coherent { d with target := d.target.modifyMethod name f } where
  toTidy := ht
  locals := hd.locals
  closed := by
    intro m hm
    rcases ClassOf.mem_of_mem_modifyFirst hm with hm | ⟨m', hm', hn, rfl⟩
    · exact (hd.closed m hm).mono fun _ => offers_modifyMethod hname hparams
    · exact (h m' hm' hn).mono fun _ => offers_modifyMethod hname hparams

/-! Growth. -/

/-- The draft goes on where these references may be used; those to members are offered by its class. -/
structure Ready (scope : Ref → Prop) (d : Draft) : Prop extends Coherent d where
  started : 1 ≤ d.names.count "render_"
  params : ∀ p ∈ renderParams, scope (.var p.name)
  offered : ∀ r, scope r → r.isVar = false → Offers d.target r

def Within (scope : Ref → Prop) (d : Draft) (r : Ref) : Prop := scope r ∨ Offers d.target r

/-- The draft `d'` is `d` with statements in its innermost frame that are resolved by what is in
scope and by what the class offers then, and that declare new names only. -/
structure Grows (scope : Ref → Prop) (d : Draft) (new : List Stmt) (d' : Draft) : Prop
    extends Extends d new d' where
  coherent : Coherent d'
  resolved : Stmt.AllResolved (Within scope d') new
  declared : Script.NewNames d.names d'.names (Stmt.allDeclared new)

theorem newNames_nil (n n' : Names) : Script.NewNames n n' [] := ⟨.nil, by simp, by simp⟩

theorem newNames_append {n n' n'' : Names} {a b : List String} (ha : Script.NewNames n n' a)
    (hb : Script.NewNames n' n'' b) (hle : n.Le n') (hle' : n'.Le n'') :
    Script.NewNames n n'' (a ++ b) where
  distinct := by
    refine List.nodup_append.2 ⟨ha.distinct, hb.distinct, ?_⟩
    rintro x hx y hy rfl
    exact hb.notTaken x hy (ha.taken x hx)
  taken := by
    intro x hx
    rcases List.mem_append.1 hx with hx | hx
    · exact (ha.taken x hx).mono hle'
    · exact hb.taken x hx
  notTaken := by
    intro x hx ht
    rcases List.mem_append.1 hx with hx | hx
    · exact ha.notTaken x hx ht
    · exact hb.notTaken x hx (ht.mono hle)

theorem Grows.refl (hd : Coherent d) : Grows scope d [] d :=
  ⟨.refl hd.toTidy, hd, True.intro, newNames_nil _ _⟩

theorem Grows.ready (h : Grows scope d new d') (hr : Ready scope d) (hle : ∀ r, scope r → scope' r)
    (hreach : ∀ r, scope' r → behind (Within scope d') new r) : Ready scope' d' where
  toCoherent := h.coherent
  started := Nat.le_trans hr.started (h.names "render_")
  params := fun p hp => hle _ (hr.params p hp)
  offered := by
    intro r hk hv
    rcases hreach r hk with (hk | ho) | ⟨name, -, rfl⟩
    · exact h.offers (hr.offered r hk hv)
    · exact ho
    · cases hv

theorem Grows.trans (h : Grows scope d new d') (h' : Grows scope' d' new' d'')
    (hreach : ∀ r, scope' r → behind (Within scope d') new r) : Grows scope d (new ++ new') d'' where
  toExtends := h.toExtends.trans h'.toExtends
  coherent := h'.coherent
  resolved := by
    have hwithin : ∀ r, Within scope d' r → Within scope d'' r := fun r => Or.imp_right h'.offers
    refine Stmt.allResolved_append.2 ⟨h.resolved.mono hwithin, h'.resolved.mono ?_⟩
    rintro r (hr | hr)
    · exact behind_mono hwithin (hreach r hr)
    · exact Or.inl (Or.inr hr)
  declared := by
    rw [Stmt.allDeclared_append]
    exact newNames_append h.declared h'.declared h.names h'.names

/-- The builder adds statements that are resolved, and its result is for what is in scope behind
them. -/
def Builds (scope : Ref → Prop) (x : Build α) (Q : (Ref → Prop) → α → Prop) : Prop :=
  ∀ d a d', Ready scope d → Runs x d a d' → ∃ new scope', Grows scope d new d' ∧
    (∀ r, scope r → scope' r) ∧ (∀ r, scope' r → behind (Within scope d') new r) ∧ Q scope' a

/-- The builder adds statements that are resolved; nothing behind it refers to what it declares. -/
def Adds (scope : Ref → Prop) (x : Build α) : Prop := Builds scope x fun scope' _ => scope' = scope

theorem Builds.of_grows {Q : (Ref → Prop) → α → Prop} {x : Build α}
    (h : ∀ d a d', Ready scope d → Runs x d a d' →
      ∃ new, Grows scope d new d' ∧ Q (behind (Within scope d') new) a) : Builds scope x Q := by
  intro d a d' hr hx
  obtain ⟨new, hg, hq⟩ := h d a d' hr hx
  exact ⟨new, _, hg, fun r hk => Or.inl (Or.inl hk), fun _ hk => hk, hq⟩

theorem Adds.of_grows {x : Build α}
    (h : ∀ d a d', Ready scope d → Runs x d a d' → ∃ new, Grows scope d new d') : Adds scope x := by
  intro d a d' hr hx
  obtain ⟨new, hg⟩ := h d a d' hr hx
  exact ⟨new, scope, hg, fun _ hk => hk, fun r hk => Or.inl (Or.inl hk), rfl⟩

theorem Builds.adds {Q : (Ref → Prop) → α → Prop} {x : Build α} (h : Builds scope x Q) :
    Adds scope x := .of_grows fun d a d' hr hx => (h d a d' hr hx).imp fun _ ⟨_, hg, _⟩ => hg

theorem Builds.pure {Q : (Ref → Prop) → α → Prop} {a : α} (h : Q scope a) :
    Builds scope (pure a) Q := by
  intro d b d' hr hx
  obtain ⟨rfl, rfl⟩ := runs_pure.1 hx
  exact ⟨[], scope, .refl hr.toCoherent, fun _ hk => hk, fun r hk => Or.inl (Or.inl hk), h⟩

theorem Adds.pure (a : α) : Adds scope (pure a) := Builds.pure rfl

theorem Builds.throw {Q : (Ref → Prop) → α → Prop} {e : Error} : Builds scope (throw e) Q :=
  fun _ _ _ _ hx => absurd hx runs_throw

theorem Builds.bind {Q : (Ref → Prop) → α → Prop} {R : (Ref → Prop) → β → Prop} {x : Build α}
    {f : α → Build β} (hx : Builds scope x Q)
    (hf : ∀ scope' a, (∀ r, scope r → scope' r) → Q scope' a → Builds scope' (f a) R) :
    Builds scope (x >>= f) R := by
  intro d b d'' hr h
  obtain ⟨a, d', ha, hb⟩ := runs_bind.1 h
  obtain ⟨new, scope₁, hg, hle, hreach, hq⟩ := hx d a d' hr ha
  have hready := hg.ready hr hle hreach
  obtain ⟨new', scope₂, hg', hle', hreach', hrb⟩ := hf scope₁ a hle hq d' b d'' hready hb
  refine ⟨new ++ new', scope₂, hg.trans hg' hreach, fun r hk => hle' r (hle r hk), ?_, hrb⟩
  intro r hk
  rw [← behind_append]
  rcases hreach' r hk with (hk | ho) | hdecl
  · exact Or.inl (behind_mono (fun r => Or.imp_right hg'.offers) (hreach r hk))
  · exact Or.inl (Or.inl (Or.inr ho))
  · exact Or.inr hdecl

theorem Adds.bind {R : (Ref → Prop) → β → Prop} {x : Build α} {f : α → Build β} (hx : Adds scope x)
    (hf : ∀ a, Builds scope (f a) R) : Builds scope (x >>= f) R :=
  Builds.bind hx fun _ a _ he => he ▸ hf a

theorem Builds.mono {Q R : (Ref → Prop) → α → Prop} {x : Build α} (hx : Builds scope x Q)
    (h : ∀ scope' a, Q scope' a → R scope' a) : Builds scope x R := by
  intro d a d' hr hrun
  obtain ⟨new, scope', hg, hle, hreach, hq⟩ := hx d a d' hr hrun
  exact ⟨new, scope', hg, hle, hreach, h scope' a hq⟩

/-- What is in scope behind the first builder is for the second one only. -/
theorem Builds.thenAdds {Q : (Ref → Prop) → α → Prop} {x : Build α} {f : α → Build β}
    (hx : Builds scope x Q)
    (hf : ∀ scope' a, (∀ r, scope r → scope' r) → Q scope' a → Adds scope' (f a)) :
    Adds scope (x >>= f) := by
  have hbind : Builds scope (x >>= f) fun _ _ => True :=
    hx.bind fun scope' a hle hq => Builds.mono (hf scope' a hle hq) fun _ _ _ => True.intro
  exact hbind.adds

theorem adds_get : Adds scope get := by
  refine .of_grows fun d a d' hr hx => ?_
  obtain ⟨-, rfl⟩ := runs_get.1 hx
  exact ⟨[], .refl hr.toCoherent⟩

/-! Steps that leave names and members alone. -/

theorem Ready.grows (hr : Ready scope d) (h : Extends d new d') (hn : d'.names = d.names)
    (ht : d'.target = d.target) (hres : Stmt.AllResolved scope new)
    (hdecl : Stmt.allDeclared new = []) : Grows scope d new d' where
  toExtends := h
  coherent := hr.toCoherent.of_eq h.tidy hn ht
  resolved := hres.mono fun _ => Or.inl
  declared := by
    rw [hdecl]
    exact newNames_nil _ _

theorem adds_modify {f : Draft → Draft} (hf : ∀ d, (f d).frames = d.frames)
    (hn : ∀ d, (f d).names = d.names) (ht : ∀ d, (f d).target = d.target)
    (hc : ∀ d, Tidy d → (f d).hasCall → (f d).buffer ≠ "") : Adds scope (modify f) := by
  refine .of_grows fun d a d' hr hx => ?_
  obtain rfl := runs_modify.1 hx
  have hext : Extends d [] (f d) := .of_eq hr.toTidy (by simp [hf]) (hn d) (ht d) (hc d hr.toTidy)
  exact ⟨[], hr.grows hext (hn d) (ht d) True.intro rfl⟩

theorem adds_put (markup : String) : Adds scope (put markup) :=
  adds_modify (fun _ => rfl) (fun _ => rfl) (fun _ => rfl) fun d hd hc => by simp [hd.call hc]

theorem adds_noteScript : Adds scope noteScript :=
  adds_modify (fun _ => rfl) (fun _ => rfl) (fun _ => rfl) fun _ hd hc => hd.call hc

theorem adds_setMode (mode : TextMode) : Adds scope (modify fun d => { d with mode := mode }) :=
  adds_modify (fun _ => rfl) (fun _ => rfl) (fun _ => rfl) fun _ hd hc => hd.call hc

theorem adds_putCall : Adds scope putCall := by
  refine .of_grows fun d a d' hr hx => ?_
  simp only [putCall, put, runs_bind, runs_modify] at hx
  obtain ⟨_, _, rfl, rfl⟩ := hx
  exact ⟨[], hr.grows (.of_eq hr.toTidy (by simp) rfl rfl (by simp)) rfl rfl True.intro rfl⟩

structure Uses (scope : Ref → Prop) (stmt : Stmt) : Prop where
  resolved : stmt.Resolved scope
  undeclared : Stmt.allDeclared [stmt] = []

theorem adds_add {stmt : Stmt} (h : Uses scope stmt) : Adds scope (add stmt) := by
  refine .of_grows fun d a d' hr hx => ?_
  obtain rfl := runs_modify.1 hx
  refine ⟨[stmt], hr.grows (.add hr.toTidy stmt) ?_ ?_ (Stmt.allResolved_one.2 h.resolved) h.undeclared⟩
  · rw [add_eq]
  · rw [add_eq]

/-! Calls of inherited methods. -/

def isInherited (method : String) : Bool := !isGenerated method && method ≠ "addPart"

theorem everyOf_iff {P : Expr → Prop} {es : List Expr} :
    Expr.EveryOf P es ↔ ∀ e ∈ es, e.Every P := by
  induction es with
  | nil => simp [Expr.EveryOf]
  | cons e rest ih => simp [Expr.EveryOf, ih]

theorem resolved_invokeOn {result : Ty} {target : Expr} {method : String} {args : List Expr}
    (hm : isInherited method) (ht : target.Resolved scope) (ha : ∀ e ∈ args, e.Resolved scope) :
    (Expr.invokeOn result target method args).Resolved scope := by
  refine ⟨?_, ht, everyOf_iff.2 ha⟩
  simp only [isInherited, Bool.and_eq_true, Bool.not_eq_true', decide_eq_true_eq] at hm
  intro r hr
  cases target with
  | this => simp [Expr.refs, hm.1, hm.2] at hr
  | _ => cases hr

theorem resolved_const (value : Primitive) : (Expr.const value).Resolved scope := by
  simp [Expr.const, Expr.Resolved, Expr.Every, Expr.refs]

theorem resolved_self : Expr.self.Resolved scope := by
  simp [Expr.self, Expr.Resolved, Expr.Every, Expr.refs]

theorem resolved_variableRef {type : Ty} {name : String} (h : scope (.var name)) :
    (Expr.variableRef type name).Resolved scope := by
  simpa [Expr.variableRef, Expr.Resolved, Expr.Every, Expr.refs] using h

theorem resolved_operate {op : BinaryOp} {left right : Expr} (hl : left.Resolved scope)
    (hr : right.Resolved scope) : (Expr.operate op left right).Resolved scope :=
  ⟨by simp [Expr.refs], hl, hr⟩

theorem resolved_apply {op : UnaryOp} {e : Expr} (h : e.Resolved scope) :
    (Expr.apply op e).Resolved scope := ⟨by simp [Expr.refs], h⟩

theorem resolved_cast {type : Ty} {e : Expr} {p : Bool} (h : e.Resolved scope) :
    (Expr.cast type e p).Resolved scope := ⟨by simp [Expr.refs], h⟩

theorem Ready.context (hr : Ready scope d) : scope (.var "context") :=
  hr.params _ List.mem_cons_self

theorem uses_expr {e : Expr} {origin : Origin} (h : e.Resolved scope) : Uses scope (.expr e origin) :=
  ⟨h, Stmt.allDeclared_expr _ _⟩

theorem uses_renderCall {method : String} {args : List Expr} {origin : Origin}
    (hm : isInherited method) (hc : scope (.var "context")) (ha : ∀ e ∈ args, e.Resolved scope) :
    Uses scope (renderCall method args origin) :=
  uses_expr (resolved_invokeOn hm resolved_self
    (List.forall_mem_cons.2 ⟨resolved_variableRef hc, ha⟩))

theorem Builds.of_params {Q : (Ref → Prop) → α → Prop} {x : Build α}
    (h : (∀ p ∈ renderParams, scope (.var p.name)) → Builds scope x Q) : Builds scope x Q :=
  fun d a d' hr hx => h hr.params d a d' hr hx

/-! Statements that are built before they are added. -/

/-- The builder adds nothing to the frames. Its result is for what is in scope, and goes with names that
are given out for it. -/
def Holds (scope : Ref → Prop) (x : Build α) (Q : (Ref → Prop) → α → List String → Prop) : Prop :=
  ∀ d a d', Ready scope d → Runs x d a d' → ∃ names scope', Extends d [] d' ∧ Coherent d' ∧
    Script.NewNames d.names d'.names names ∧ (∀ r, scope r → scope' r) ∧
    (∀ r, scope' r → Within scope d' r) ∧ Q scope' a names

theorem Holds.pure {Q : (Ref → Prop) → α → List String → Prop} {a : α} (h : Q scope a []) :
    Holds scope (pure a) Q := by
  intro d b d' hr hx
  obtain ⟨rfl, rfl⟩ := runs_pure.1 hx
  exact ⟨[], scope, .refl hr.toTidy, hr.toCoherent, newNames_nil _ _, fun _ hs => hs,
    fun _ => Or.inl, h⟩

theorem Holds.throw {Q : (Ref → Prop) → α → List String → Prop} {e : Error} :
    Holds scope (throw e) Q := fun _ _ _ _ hx => absurd hx runs_throw

theorem Holds.bind {Q : (Ref → Prop) → α → List String → Prop}
    {R : (Ref → Prop) → β → List String → Prop} {x : Build α} {f : α → Build β}
    (hx : Holds scope x Q)
    (hf : ∀ scope' a names, (∀ r, scope r → scope' r) → Q scope' a names →
      Holds scope' (f a) fun scope'' b names' => R scope'' b (names ++ names')) :
    Holds scope (x >>= f) R := by
  intro d b d'' hr h
  obtain ⟨a, d', ha, hb⟩ := runs_bind.1 h
  obtain ⟨names, scope₁, hext, hd', hnew, hle, hreach, hq⟩ := hx d a d' hr ha
  have hgrows : Grows scope d [] d' := ⟨hext, hd', True.intro, newNames_nil _ _⟩
  have hready : Ready scope₁ d' := by
    refine hgrows.ready hr hle fun r hs => ?_
    rw [behind_nil]
    exact hreach r hs
  obtain ⟨names', scope₂, hext', hd'', hnew', hle', hreach', hrb⟩ :=
    hf scope₁ a names hle hq d' b d'' hready hb
  refine ⟨names ++ names', scope₂, hext.trans hext', hd'',
    newNames_append hnew hnew' hext.names hext'.names, fun r hs => hle' r (hle r hs), ?_, hrb⟩
  intro r hs
  rcases hreach' r hs with hs | ho
  · exact (hreach r hs).imp_right hext'.offers
  · exact Or.inr ho

theorem Holds.builds {Q : (Ref → Prop) → α → List String → Prop} {x : Build α}
    (h : Holds scope x Q) : Builds scope x fun scope' a => ∃ names, Q scope' a names := by
  intro d a d' hr hx
  obtain ⟨names, scope', hext, hd', hnew, hle, hreach, hq⟩ := h d a d' hr hx
  exact ⟨[], scope', ⟨hext, hd', True.intro, newNames_nil _ _⟩, hle,
    fun r hs => Or.inl (hreach r hs), names, hq⟩

/-- The builder adds statements that declare new names and the ones that were given out for them. -/
def Places (scope : Ref → Prop) (names : List String) (x : Build Unit) : Prop :=
  ∀ n d u d', Ready scope d → n.Le d.names → Script.NewNames n d.names names → Runs x d u d' →
    ∃ new, Extends d new d' ∧ Coherent d' ∧ Stmt.AllResolved (Within scope d') new ∧
      Script.NewNames n d'.names (Stmt.allDeclared new)

theorem Places.adds {x : Build Unit} (h : Places scope [] x) : Adds scope x := by
  refine .of_grows fun d u d' hr hx => ?_
  obtain ⟨new, hext, hd', hres, hdecl⟩ := h d.names d u d' hr (.refl _) (newNames_nil _ _) hx
  exact ⟨new, hext, hd', hres, hdecl⟩

theorem Holds.places {Q : (Ref → Prop) → α → List String → Prop} {x : Build α} {f : α → Build Unit}
    {names : List String} (hx : Holds scope x Q)
    (hf : ∀ scope' a names', (∀ r, scope r → scope' r) → Q scope' a names' →
      Places scope' (names ++ names') (f a)) : Places scope names (x >>= f) := by
  intro n d u d'' hr hle hnew h
  obtain ⟨a, d', ha, hb⟩ := runs_bind.1 h
  obtain ⟨names', scope', hext, hd', hnew', hle', hreach, hq⟩ := hx d a d' hr ha
  have hgrows : Grows scope d [] d' := ⟨hext, hd', True.intro, newNames_nil _ _⟩
  have hready : Ready scope' d' := by
    refine hgrows.ready hr hle' fun r hs => ?_
    rw [behind_nil]
    exact hreach r hs
  obtain ⟨new, hext', hd'', hres, hdecl⟩ := hf scope' a names' hle' hq n d' u d'' hready
    (hle.trans hext.names) (newNames_append hnew hnew' hle hext.names) hb
  refine ⟨new, hext.trans hext', hd'', hres.mono ?_, hdecl⟩
  rintro r (hs | ho)
  · exact (hreach r hs).imp_right hext'.offers
  · exact Or.inr ho

theorem places_addAll {stmts : List Stmt} {names : List String} (h : Stmt.AllResolved scope stmts)
    (hdecl : Stmt.allDeclared stmts = names) : Places scope names (addAll stmts) := by
  intro n d u d' hr hle hnew hx
  obtain rfl := runs_addAll.1 hx
  have hext := Extends.addAll hr.toTidy stmts
  refine ⟨stmts, hext, hr.toCoherent.of_eq hext.tidy rfl rfl, h.mono fun _ => Or.inl, ?_⟩
  rw [hdecl]
  exact hnew

theorem places_add {stmt : Stmt} {names : List String} (h : stmt.Resolved scope)
    (hdecl : Stmt.allDeclared [stmt] = names) : Places scope names (add stmt) := by
  have hall := places_addAll (Stmt.allResolved_one.2 h) hdecl
  rwa [addAll, addAll, bind_pure_unit] at hall

theorem resolved_flushed (hc : scope (.var "context")) : Stmt.AllResolved scope d.flushed := by
  unfold Draft.flushed
  split
  · exact True.intro
  · refine Stmt.allResolved_one.2 (uses_renderCall (by decide) hc ?_).resolved
    simp [resolved_const]

theorem allDeclared_flushed (d : Draft) : Stmt.allDeclared d.flushed = [] := by
  unfold Draft.flushed
  split
  · rfl
  · exact Stmt.allDeclared_expr _ _

theorem adds_flush : Adds scope flush := by
  refine .of_grows fun d u d' hr hx => ?_
  obtain rfl := runs_modify.1 hx
  refine ⟨d.flushed, hr.grows (.flush hr.toTidy) ?_ ?_ (resolved_flushed hr.context)
    (allDeclared_flushed d)⟩
  · rw [flush_eq]
  · rw [flush_eq]

theorem Ready.opened (hr : Ready scope d) (ofMethod : Bool) : Ready scope (d.opened ofMethod) :=
  ⟨hr.toCoherent.of_eq (hr.toTidy.opened ofMethod) rfl rfl, hr.started, hr.params, hr.offered⟩

theorem Coherent.closedTo (hd : Coherent d) (h : Extends d'' new (d.closedTo d'.frames)) :
    Coherent (d.closedTo d'.frames) := by
  refine hd.of_eq h.tidy ?_ ?_
  · simp only [Draft.closedTo]
    rw [flush_eq]
  · simp [Draft.closedTo]

theorem holds_inFrame {ofMethod : Bool} {body : Build Unit} (h : Adds scope body) :
    Holds scope (inFrame ofMethod body) fun scope' stmts names =>
      Stmt.AllResolved scope' stmts ∧ Stmt.allDeclared stmts = names := by
  intro d stmts d' hr hx
  obtain ⟨e, he, hclose⟩ := runs_inFrame.1 hx
  obtain ⟨new, _, hg, -⟩ := h _ _ _ (hr.opened ofMethod) he
  rw [close_of_extends hg.toExtends] at hclose
  cases hclose
  have hext := extends_closedTo hg.toExtends
  have htarget : (e.closedTo d.frames).target = e.target := by simp [Draft.closedTo]
  have hnames : (e.closedTo d.frames).names = e.names := by
    simp only [Draft.closedTo]
    rw [flush_eq]
  have hdecl : Stmt.allDeclared (new ++ e.flushed) = Stmt.allDeclared new := by
    simp [allDeclared_flushed]
  refine ⟨_, Within scope (e.closedTo d.frames), hext, hg.coherent.closedTo hext, ?_,
    fun _ => Or.inl, fun _ hs => hs, ?_, rfl⟩
  · rw [hdecl, hnames]
    exact hg.declared
  · rw [show Within scope (e.closedTo d.frames) = Within scope e by
      funext r; rw [Within, Within, htarget]]
    exact hg.resolved.append (resolved_flushed (Or.inl hr.context))

theorem adds_addCondition {test : Expr} {body : Build Unit} (ht : test.Resolved scope)
    (h : Adds scope body) : Adds scope (addCondition test body) := by
  refine ((holds_inFrame h).places fun scope' stmts names hle hs => ?_).adds
  exact places_add ⟨ht.mono hle, hs.1, True.intro⟩ (by simpa using hs.2)

/-! New names. -/

theorem holds_freshName {stem : String} (hs : IsStem stem) :
    Holds scope (freshName stem) fun scope' name names => scope' = scope ∧ names = [name] := by
  intro d name d' hr hx
  obtain ⟨rfl, rfl⟩ := runs_freshName.1 hx
  have hext := extends_fresh hr.toTidy stem
  exact ⟨_, scope, hext, hr.toCoherent.extends hext hr.locals fun _ => Or.inl,
    newNames_fresh d.names hs, fun _ hs => hs, fun _ => Or.inl, rfl, rfl⟩

theorem allDeclared_var (decl : VarDecl) : Stmt.allDeclared [.var decl] = [decl.name] := by
  simp [Stmt.allDeclared, Stmt.allOf, Stmt.withInner, Stmt.declared]

theorem builds_declare (type : Ty) {stem : String} (hs : IsStem stem) {init : Expr}
    (hi : init.Resolved scope) :
    Builds scope (declare type stem init) fun scope' e => e.Resolved scope' := by
  refine .of_grows fun d e d' hr hx => ?_
  obtain ⟨rfl, rfl⟩ := runs_declare.1 hx
  have hext := extends_fresh hr.toTidy stem
  have hd := hr.toCoherent.extends hext hr.locals fun _ => Or.inl
  have hadd := Extends.add hext.tidy
    (.var { type, name := (d.names.fresh stem).1, init := some init })
  refine ⟨_, ⟨hext.trans hadd, hd.of_eq hadd.tidy ?_ ?_, ?_, ?_⟩, resolved_variableRef (Or.inr ?_)⟩
  · rw [add_eq]
  · rw [add_eq]
  · refine Stmt.allResolved_one.2 ?_
    rintro e ⟨⟩
    exact hi.mono fun _ => Or.inl
  · rw [List.nil_append, allDeclared_var, add_eq]
    exact newNames_fresh d.names hs
  · simp [Stmt.declared]

theorem adds_ensureExtras (inMarkup : Bool) : Adds scope (ensureExtras inMarkup) := by
  refine .of_params fun hp => adds_get.bind fun d => ?_
  split
  · refine adds_flush.bind fun _ => (adds_add ?_).bind fun _ => ?_
    · refine uses_renderCall (by decide) (hp _ List.mem_cons_self) ?_
      simp [Expr.bool, resolved_const]
    · refine adds_modify ?_ ?_ ?_ ?_
      iterate 3
        intro d
        split <;> rfl
      intro d hd
      split
      · exact hd.call
      · exact hd.call
  · exact .pure rfl

/-! Code blocks. -/

/-- Neither the client function of a block nor that of its bare expression holds the keyword `var`. -/
def hasNoVar (b : CodeBlock) : Bool :=
  !Script.hasVar (clientCode b) && !Script.hasVar (clientCode (unwrapMarkup b))

theorem hasVar_of_hasNoVar {b : CodeBlock} (h : hasNoVar b) :
    Script.hasVar (clientCode b) = false := by
  simp only [hasNoVar, Bool.and_eq_true, Bool.not_eq_true'] at h
  exact h.1

theorem hasNoVar_unwrapMarkup {b : CodeBlock} (h : hasNoVar b) : hasNoVar (unwrapMarkup b) := by
  have htwice : unwrapMarkup (unwrapMarkup b) = unwrapMarkup b := by
    unfold unwrapMarkup
    split
    · rfl
    · rfl
  simp only [hasNoVar, Bool.and_eq_true, Bool.not_eq_true'] at h
  simp [hasNoVar, htwice, h.2]

theorem resolved_params (hp : ∀ p ∈ renderParams, scope (.var p.name)) :
    ∀ e ∈ renderParams.map Param.ref, e.Resolved scope := by
  intro e he
  obtain ⟨p, hp', rfl⟩ := List.mem_map.1 he
  exact resolved_variableRef (hp p hp')

/-- The expression of a compiled method: what it returns, or a call of it. -/
theorem resolved_inlined {m : Method} {rest : List Method} (hm : m.Closed fun _ => False)
    (hparams : m.params = renderParams) (hname : unnumbered m.name = "code_")
    (hp : ∀ p ∈ renderParams, scope (.var p.name))
    (hcall : m ∈ (inlined m rest).2 → scope (.method m.name)) :
    (inlined m rest).1.Resolved scope := by
  unfold inlined at hcall ⊢
  cases hinline : m.inline? with
  | some e =>
      have hres := hm.resolved
      rw [body_of_inline? hinline] at hres
      refine Expr.Resolved.mono (Stmt.allResolved_one.1 hres e rfl) ?_
      rintro r (h | ⟨p, hp', rfl⟩)
      · exact absurd h id
      · exact hp p (hparams ▸ hp')
  | none =>
      rw [hinline] at hcall
      have hadd : m.name ≠ "addPart" := by
        intro he
        rw [he] at hname
        exact absurd hname (by decide)
      refine ⟨?_, resolved_self, everyOf_iff.2 (resolved_params hp)⟩
      intro r hr
      have hr : r = .method m.name := by
        simpa [Expr.self, Expr.refs, isGenerated, hname, hadd] using hr
      rw [hr]
      exact hcall List.mem_cons_self

-- comparing two ways to write a result must not run the compiler
attribute [local irreducible] Script.compile

/-- A block is refused, or its expression is resolved with the methods that are added for it. -/
theorem holds_fragment? {b : CodeBlock} (hb : hasNoVar b) (canDefer : Bool) :
    Holds scope (fragment? b canDefer) fun scope' r names =>
      names = [] ∧ ∀ f, r = .ok f → f.expr.Resolved scope' := by
  intro d r d' hr hx
  have hv := hasVar_of_hasNoVar hb
  have hext := extends_fragment? hr.toTidy hx
  obtain ⟨e, rfl, rfl, -⟩ | ⟨t, m, rest, ht, hm, rfl, rfl⟩ := runs_fragment? hx
  · have hmembers : (d.afterCode b [] false).target.members = d.target.members :=
      List.append_nil _
    refine ⟨[], scope, hext, hr.toCoherent.extends hext ?_ ?_, newNames_nil _ _, fun _ hs => hs,
      fun _ => Or.inl, rfl, by simp⟩
    · exact (Script.locals_compile hv).trans hr.locals
    · rw [hmembers]
      exact fun _ => Or.inl
  · have hclosed (known : Ref → Prop) : ∀ m' ∈ t.methods, m'.Closed known :=
      Script.closed_compile hv hr.locals ht
    have hmem : m ∈ t.methods := hm ▸ List.mem_cons_self
    have hname := unnumbered_of_compile ht m hmem
    have hparams := (Script.compile_isCode ht m hmem).params
    refine ⟨[], _, hext, hr.toCoherent.extends hext ?_ ?_, newNames_nil _ _, fun _ => Or.inl,
      fun _ hs => hs, rfl, ?_⟩
    · exact (Script.locals_compile hv).trans hr.locals
    · intro m' hm'
      rcases List.mem_append.1 hm' with hm' | hm'
      · exact Or.inl hm'
      · obtain ⟨added, ha, rfl⟩ := List.mem_map.1 hm'
        exact Or.inr (hclosed _ added (hm ▸ (sublist_inlined m rest).subset ha))
    · rintro f ⟨⟩
      refine resolved_inlined (hclosed _ m hmem) hparams hname (fun p hp => Or.inl (hr.params p hp)) ?_
      intro hadded
      refine Or.inr ⟨settled_of_unnumbered ?_ ?_, .method m, ?_, rfl, hparams⟩
      · exact fun h => absurd (hname.symm.trans h) (by decide)
      · exact fun h => absurd (hname.symm.trans h) (by decide)
      · exact List.mem_append_right _ (List.mem_map.2 ⟨m, hadded, rfl⟩)

theorem holds_requiredExpr {b : CodeBlock} (hb : hasNoVar b) :
    Holds scope (requiredExpr b) fun scope' e names => names = [] ∧ e.Resolved scope' := by
  refine (holds_fragment? hb false).bind fun scope' r names _ hr => ?_
  obtain ⟨rfl, hr⟩ := hr
  cases r with
  | error e => exact .throw
  | ok f => exact .pure ⟨rfl, hr f rfl⟩

/-! Methods that render. -/

def paramRefs (r : Ref) : Prop := ∃ p ∈ renderParams, r = .var p.name

theorem nodup_params_append {n n' : Names} {names : List String} (h : Script.NewNames n n' names) :
    (renderParams.map (·.name) ++ names).Nodup := by
  have hunnumbered : (renderParams.map (·.name)).all fun name => unnumbered name = name := by decide
  refine List.nodup_append.2 ⟨by decide, h.distinct, ?_⟩
  rintro name hp name' hn rfl
  have hname : unnumbered name = name := by simpa using List.all_eq_true.1 hunnumbered name hp
  exact Names.not_taken_of_unnumbered hname (h.taken name hn)

theorem Coherent.withMethod (hd : Coherent d) : Coherent d.withMethod := by
  have hext := Extends.addFresh hd.toTidy isStem_render
    (m := .method (renderMethod (d.names.fresh "render_").1 [])) rfl
  refine hd.extends hext hd.locals fun m hm => ?_
  rcases List.mem_append.1 hm with hm | hm
  · exact Or.inl hm
  · rw [List.mem_singleton.1 hm]
    exact Or.inr ⟨True.intro, nodup_params_append (newNames_nil {} {})⟩

/-- The body of a method is built where its parameters are in scope. -/
theorem Coherent.ready_method (hd : Coherent d) :
    Ready paramRefs (d.withMethod.flush.opened true) where
  toCoherent := by
    have hflush := Extends.flush hd.withMethod.toTidy
    refine hd.withMethod.of_eq (hflush.tidy.opened true) ?_ ?_
    · simp only [Draft.opened]
      rw [flush_eq]
    · simp [Draft.opened]
  started := by
    have hnames : (d.withMethod.flush.opened true).names = (d.names.fresh "render_").2 := by
      simp only [Draft.opened]
      rw [flush_eq]
      rfl
    rw [hnames, Names.count_fresh, if_pos rfl]
    exact Nat.le_add_left _ _
  params := fun p hp => ⟨p, hp, rfl⟩
  offered := by
    rintro r ⟨p, -, rfl⟩ hv
    cases hv

theorem closed_renderMethod {e : Draft} (hg : Grows paramRefs d new e) (name : String) :
    (renderMethod name (new ++ e.flushed)).Closed (Offers e.target) where
  resolved := by
    refine Stmt.AllResolved.mono (fun r hr => hr.symm) (hg.resolved.append (resolved_flushed ?_))
    exact Or.inl ⟨_, List.mem_cons_self, rfl⟩
  distinct := by
    have hdecl : Stmt.allDeclared (new ++ e.flushed) = Stmt.allDeclared new := by
      simp [allDeclared_flushed]
    show (renderParams.map (·.name) ++ Stmt.allDeclared (new ++ e.flushed)).Nodup
    rw [hdecl]
    exact nodup_params_append hg.declared

theorem coherent_buildRenderMethod (hd : Coherent d) {body : Build Unit} (hbody : Adds paramRefs body)
    {name : String} (h : Runs (buildRenderMethod body) d name d') :
    Extends d d.flushed d' ∧ Coherent d' ∧ name = (d.names.fresh "render_").1 ∧
      ∃ stmts, .method (renderMethod name stmts) ∈ d'.target.members := by
  obtain ⟨hname, e, hrun, hdone⟩ := extends_buildRenderMethod hd.toTidy h
  obtain ⟨new, _, hg, -⟩ := hbody _ _ _ hd.ready_method hrun
  obtain ⟨hext, hmem, rfl⟩ := hdone new hg.toExtends
  refine ⟨hext, ?_, hname, _, hmem⟩
  have hc := hg.coherent.closedTo (extends_closedTo hg.toExtends)
  refine hc.modifyMethod (fun _ => rfl) (fun _ => rfl) hext.tidy fun m hm hn => ?_
  -- the only method of that name is the one whose body has been built
  subst hn
  have hm' := ClassOf.mem_modifyFirst_self (f := fun m => { m with body := new ++ e.flushed })
    hc.distinct hm
  have heq := Member.method.inj (hext.tidy.distinct.eq_of_name hm' hmem rfl rfl)
  rw [heq, Draft.closedTo, target_flush]
  exact closed_renderMethod hg _

theorem Ready.grows_flushed (hr : Ready scope d) (hext : Extends d d.flushed d') (hd' : Coherent d') :
    Grows scope d d.flushed d' where
  toExtends := hext
  coherent := hd'
  resolved := resolved_flushed (Or.inl hr.context)
  declared := by
    rw [allDeclared_flushed]
    exact newNames_nil _ _

theorem builds_buildRenderMethod {body : Build Unit} (hbody : Adds paramRefs body) :
    Builds scope (buildRenderMethod body) fun scope' name =>
      scope' (.method name) ∧ unnumbered name = "render_" := by
  refine .of_grows fun d name d' hr hx => ?_
  obtain ⟨hext, hd', hname, stmts, hmem⟩ := coherent_buildRenderMethod hr.toCoherent hbody hx
  refine ⟨d.flushed, hr.grows_flushed hext hd', Or.inl (Or.inr ⟨?_, _, hmem, rfl, rfl⟩), ?_⟩
  · rw [hname]
    exact settled_render hr.started
  · rw [hname]
    exact unnumbered_append isStem_render _

/-! Whole classes. -/

/-- A class is closed as soon as its first method renders it: nothing else refers to that method. -/
theorem closed_promoted (hd : Coherent d) (hn : d.names.count "render_" = 0) {body : Build Unit}
    (hbody : Adds paramRefs body) {name : String} (h : Runs (buildRenderMethod body) d name d') :
    (d'.promoted name).target.Closed := by
  obtain ⟨-, hd', hname, -⟩ := coherent_buildRenderMethod hd hbody h
  have hfirst : name = "render_1" := by
    rw [hname, Names.fresh_name, hn]
    decide
  have hdistinct := hd'.toTidy.distinct_promoted name
  have hresolves : ∀ r, Offers d'.target r → Resolves (d'.promoted name).target.members r := by
    rintro r ⟨hs, m, hm, ha⟩
    refine .of_mem hdistinct (ClassOf.mem_modifyFirst_of_ne hm ?_) ha
    rw [Member.name?_eq_some ha.name?, hfirst]
    rintro he
    exact hs (by simp [unsettled, he])
  refine ⟨hdistinct, Member.allClosed_iff.2 fun m hm => ?_⟩
  rcases ClassOf.mem_of_mem_modifyFirst hm with hm | ⟨m', hm', -, rfl⟩
  · exact (hd'.closed m hm).mono hresolves
  · have hclosed : m'.Closed (Offers d'.target) := hd'.closed _ hm'
    exact Method.Closed.mono (m := asRender m') ⟨hclosed.resolved, hclosed.distinct⟩ hresolves

theorem coherent_inPart (hd : Coherent d) (partName : String) : Coherent (d.inPart partName) where
  toTidy := tidy_inPart hd.toTidy partName
  locals := rfl
  closed := by
    intro m hm
    rw [List.mem_singleton.1 hm]
    refine ⟨Stmt.allResolved_one.2 ?_, ?_⟩
    · rintro e ⟨⟩
      exact resolved_const _
    · simp [Stmt.allDeclared, Stmt.allOf, Stmt.withInner, Stmt.declared]

theorem settled_part (n : Names) : (n.fresh "part_").1 ∉ unsettled := by
  have hu : unnumbered (n.fresh "part_").1 = "part_" := unnumbered_append isStem_part _
  apply settled_of_unnumbered
  · rw [hu]
    decide
  · rw [hu]
    decide

theorem builds_buildPart {p : PartOf (Build Unit)} (h : Adds paramRefs (runAll p.children)) :
    Builds scope (buildPart p) fun scope' name => scope' (.part name) := by
  refine .of_grows fun d name d' hr hx => ?_
  obtain ⟨rfl, render, e, hrender, rfl⟩ := runs_buildPart.1 hx
  have hpart := coherent_inPart hr.toCoherent p.name
  have hext := (coherent_buildRenderMethod hpart h hrender).1
  have hclosed := closed_promoted hpart rfl h hrender
  have hd' : Extends d d.flushed (d.withPart (e.promoted render)) := extends_withPart hr.toTidy hext
  have hmem : .nested (e.promoted render).target ∈ (d.withPart (e.promoted render)).target.members :=
    List.mem_append_right _ (List.mem_singleton.2 rfl)
  refine ⟨d.flushed, hr.grows_flushed hd' ?_, Or.inl (Or.inr ⟨settled_part _, _, hmem, hext.className⟩)⟩
  refine hr.toCoherent.extends hd' hr.locals fun m hm => ?_
  rcases List.mem_append.1 hm with hm | hm
  · exact Or.inl hm
  · rw [List.mem_singleton.1 hm]
    exact Or.inr ((Member.closed_nested _).2 hclosed)

/-- The method that sets a class up knows its members only. -/
theorem adds_addToInit {stmt : Stmt} (h : Uses (fun r => scope r ∧ r.isVar = false) stmt) :
    Adds scope (addToInit stmt) := by
  refine .of_grows fun d u d' hr hx => ?_
  obtain rfl := runs_addToInit.1 hx
  have hext := extends_addInit hr.toTidy stmt
  have hinit := extends_withInit hr.toTidy
  have hcoherent : Coherent d.withInit := by
    refine hr.toCoherent.extends hinit ?_ ?_
    · unfold Draft.withInit
      split <;> exact hr.locals
    · unfold Draft.withInit
      split
      · intro m hm
        rcases List.mem_append.1 hm with hm | hm
        · exact Or.inl hm
        · rw [List.mem_singleton.1 hm]
          exact Or.inr ⟨True.intro, .nil⟩
      · exact fun _ => Or.inl
  have hd' : Coherent (d.addInit stmt) := by
    refine hcoherent.modifyMethod (fun _ => rfl) (fun _ => rfl) hext.tidy fun m hm _ => ?_
    have hm : m.Closed (Offers d.withInit.target) := hcoherent.closed _ hm
    refine ⟨hm.resolved.append (Stmt.allResolved_one.2 (h.resolved.mono ?_)), ?_⟩
    · rintro r ⟨hs, hv⟩
      exact Or.inl (hinit.offers (hr.offered r hs hv))
    · simpa [h.undeclared] using hm.distinct
  exact ⟨[], hext, hd', True.intro, newNames_nil _ _⟩

end TwinView.Server
