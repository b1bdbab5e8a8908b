import TwinView.Proofs.Server.Extends
import TwinView.Proofs.Server.Traces
import TwinView.Proofs.Server.Watch

/-!
What is watched on the way through a template is what a class does. Each builder is compared with what
is watched beside it: the statements that it adds, with the markup that waits in front of and behind
them, come to the same summary.
-/

namespace TwinView.Server

open Code

variable {α β γ δ : Type} {known known' : List Member} {steady : Bool} {d d' : Draft}
  {s s' : Watch} {new : List Stmt} {added : List Member} {S T : Summary} {i j k : Prop}

def ownNames : List String := ["render", "init", "getPartName"]

/-- A class in which some members can be found, and which overrides no method that is inherited. -/
structure Provides (c : ClassDecl) (known : List Member) : Prop where
  distinct : c.Distinct
  names : ∀ name ∈ c.names, name ∈ ownNames ∨ unnumbered name ≠ name
  members : ∀ m ∈ known, m ∈ c.members

theorem Provides.mono {c : ClassDecl} (h : Provides c known') (hs : known ⊆ known') :
    Provides c known := ⟨h.distinct, h.names, fun m hm => h.members m (hs hm)⟩

/-- Statements come to a summary in every class with the members. -/
def SumsIn (known : List Member) (stmts : List Stmt) (S : Summary) : Prop :=
  ∀ c, Provides c known → Sums c stmts S

theorem SumsIn.mono {stmts : List Stmt} (h : SumsIn known stmts S) (hs : known ⊆ known') :
    SumsIn known' stmts S := fun c hc => h c (hc.mono hs)

def Draft.waiting (d : Draft) : Summary := if d.hasCall then { exposed := true } else {}

structure Agrees (s : Watch) (d : Draft) : Prop where
  locals : Script.SameLocals s.names d.names
  armed : s.armed = d.needsExtras
  scripts : s.scripts = d.hasScripts

structure Watched (s : Watch) (S : Summary) (s' : Watch) : Prop where
  done : s'.done = (s.done || S.always)
  exposed : s'.exposed = (s.exposed || (!s.done && S.exposed))

theorem Watched.refl (s : Watch) : Watched s {} s := ⟨by simp, by simp⟩

theorem Watched.trans {s'' : Watch} (h : Watched s S s') (h' : Watched s' T s'') :
    Watched s (S.andThen T) s'' where
  done := by rw [h'.done, h.done, Summary.andThen, Bool.or_assoc]
  exposed := by
    rw [h'.exposed, h.exposed, h.done, Summary.andThen]
    cases s.done <;> cases S.always <;> simp [Bool.or_assoc]

/-- From `d` to `d'`, statements and members were added as it was watched from `s` to `s'`. -/
structure Traced (known : List Member) (s s' : Watch) (d d' : Draft) (new : List Stmt)
    (added : List Member) : Prop where
  ext : Extends d new d'
  agrees : Agrees s' d'
  members : ∀ m ∈ added, m ∈ d'.target.members ∧ m.name ≠ "init" ∧
    ∃ name, m.name? = some name ∧ name ∉ d.target.names
  sums : ∃ S T, Watched s S s' ∧ SumsIn (known ++ added) new T ∧
    T.andThen d'.waiting = d.waiting.andThen S

/-- The builder does what is watched. Before it, no call waits if `i` holds; after it, none waits if
`j` holds. -/
def Follows (known : List Member) (steady : Bool) (i : Prop) (x : Build α) (f : Walk β) (j : Prop)
    (Q : List Member → α → β → Prop) : Prop :=
  ∀ d a d' s, Tidy d → Agrees s d → d.frames ≠ [] → d.isUnconditional = steady →
    (i → d.hasCall = false) → Runs x d a d' → ∃ new added,
      Traced known s (f.run s).2 d d' new added ∧ (j → d'.hasCall = false) ∧
        Q (known ++ added) a (f.run s).1

theorem Traced.trans {s'' : Watch} {d'' : Draft} {new' : List Stmt} {added' : List Member}
    (h : Traced known s s' d d' new added)
    (h' : Traced (known ++ added) s' s'' d' d'' new' added') :
    Traced known s s'' d d'' (new ++ new') (added ++ added') where
  ext := h.ext.trans h'.ext
  agrees := h'.agrees
  members := by
    intro m hm
    rcases List.mem_append.1 hm with hm | hm
    · obtain ⟨hmem, hinit, hname⟩ := h.members m hm
      exact ⟨h'.ext.kept _ hmem hinit, hinit, hname⟩
    · obtain ⟨hmem, hinit, name, hname, hnew⟩ := h'.members m hm
      exact ⟨hmem, hinit, name, hname, fun hn => hnew (h.ext.known _ hn)⟩
  sums := by
    obtain ⟨S, T, hw, hs, he⟩ := h.sums
    obtain ⟨S', T', hw', hs', he'⟩ := h'.sums
    refine ⟨S.andThen S', T.andThen T', hw.trans hw', fun c hc => ?_, ?_⟩
    · refine (hs c (hc.mono ?_)).append (hs' c (by rwa [List.append_assoc]))
      rw [← List.append_assoc]
      exact List.subset_append_left _ _
    · rw [Summary.andThen_assoc, he', ← Summary.andThen_assoc, he, Summary.andThen_assoc]

theorem frames_ne_nil (h : Extends d new d') (hf : d.frames ≠ []) : d'.frames ≠ [] := by
  rw [h.frames]
  cases hd : d.frames with
  | nil => exact absurd hd hf
  | cons f rest => simp [extendTop]

theorem all_extendTop (new : List Stmt) (frames : List Frame) :
    (extendTop new frames).all (·.ofMethod) = frames.all (·.ofMethod) := by
  cases frames <;> simp [extendTop]

theorem isUnconditional_of_extends (h : Extends d new d') : d'.isUnconditional = d.isUnconditional := by
  rw [Draft.isUnconditional, h.frames, all_extendTop, Draft.isUnconditional]

theorem Follows.after {Q : List Member → α → β → Prop} {x : Build α} {f : Walk β} {a : α} {d'' : Draft}
    (h : Follows (known ++ added) steady i x f j Q) (ht : Traced known s s' d d' new added)
    (hf : d.frames ≠ []) (hu : d.isUnconditional = steady) (hi : i → d'.hasCall = false)
    (hr : Runs x d' a d'') : ∃ new added, Traced known s (f.run s').2 d d'' new added ∧
      (j → d''.hasCall = false) ∧ Q (known ++ added) a (f.run s').1 := by
  obtain ⟨new', added', ht', hj, hq⟩ := h d' a d'' s' ht.ext.tidy ht.agrees (frames_ne_nil ht.ext hf)
    ((isUnconditional_of_extends ht.ext).trans hu) hi hr
  exact ⟨new ++ new', added ++ added', ht.trans ht', hj, by rw [← List.append_assoc]; exact hq⟩

theorem Follows.bind {Q : List Member → α → β → Prop} {R : List Member → γ → δ → Prop} {x : Build α}
    {f : Walk β} {g : α → Build γ} {h : β → Walk δ} (hx : Follows known steady i x f j Q)
    (hg : ∀ known' a b, known ⊆ known' → Q known' a b → Follows known' steady j (g a) (h b) k R) :
    Follows known steady i (x >>= g) (f >>= h) k R := by
  intro d c d'' s hd ha hf hu hi hr
  obtain ⟨a, d', ha', hc⟩ := runs_bind.1 hr
  obtain ⟨new, added, ht, hj, hq⟩ := hx d a d' s hd ha hf hu hi ha'
  exact (hg _ a (f.run s).1 (List.subset_append_left _ _) hq).after ht hf hu hj hc

/-- The builder does nothing that is watched. -/
abbrev Quiet (known : List Member) (steady : Bool) (i : Prop) (x : Build α) (j : Prop)
    (Q : List Member → α → Prop) : Prop :=
  Follows known steady i x (pure ()) j fun known' a _ => Q known' a

theorem Quiet.bind {Q : List Member → α → Prop} {R : List Member → γ → δ → Prop} {x : Build α}
    {g : α → Build γ} {h : Walk δ} (hx : Quiet known steady i x j Q)
    (hg : ∀ known' a, known ⊆ known' → Q known' a → Follows known' steady j (g a) h k R) :
    Follows known steady i (x >>= g) h k R :=
  Follows.bind (h := fun _ => h) hx fun known' a _ hs hq => hg known' a hs hq

theorem Follows.weaken {i' j' : Prop} {Q R : List Member → α → β → Prop} {x : Build α} {f : Walk β}
    (h : Follows known steady i x f j Q) (hi : i → i') (hj : j' → j)
    (hq : ∀ known a b, Q known a b → R known a b) : Follows known steady i' x f j' R := by
  intro d a d' s hd ha hf hu hi' hr
  obtain ⟨new, added, ht, hj', hq'⟩ := h d a d' s hd ha hf hu (fun h => hi' (hi h)) hr
  exact ⟨new, added, ht, fun h => hj' (hj h), hq _ _ _ hq'⟩

theorem follows_get {Q : List Member → α → β → Prop} {g : Draft → Build α} {h : Watch → Walk β}
    (hg : ∀ d s, Agrees s d → Follows known steady i (g d) (h s) j Q) :
    Follows known steady i (get >>= g) (get >>= h) j Q := by
  intro d a d' s hd ha hf hu hi hr
  obtain ⟨e, e', hget, hr⟩ := runs_bind.1 hr
  obtain ⟨he, he'⟩ := runs_get.1 hget
  rw [he, he'] at hr
  exact hg d s ha d a d' s hd ha hf hu hi hr

/-- What is built may depend on the draft, as long as what is watched does not. -/
theorem quiet_get {Q : List Member → α → β → Prop} {g : Draft → Build α} {f : Walk β}
    (hg : ∀ d, Follows known steady i (g d) f j Q) : Follows known steady i (get >>= g) f j Q := by
  intro d a d' s hd ha hf hu hi hr
  obtain ⟨e, e', hget, hr⟩ := runs_bind.1 hr
  obtain ⟨he, he'⟩ := runs_get.1 hget
  rw [he, he'] at hr
  exact hg d d a d' s hd ha hf hu hi hr

theorem Follows.throw {Q : List Member → α → β → Prop} {f : Walk β} {e : Error} :
    Follows known steady i (throw e) f j Q := fun _ _ _ _ _ _ _ _ _ hr => absurd hr runs_throw

abbrev Does (known : List Member) (steady : Bool) (i : Prop) (x : Build α) (f : Walk β) (j : Prop) :
    Prop := Follows known steady i x f j fun _ _ _ => True

theorem Does.forget {x : Build α} {f : Walk β} (h : Does known steady i x f j) :
    Does known steady i x f False := h.weaken id False.elim fun _ _ _ h => h

theorem Does.anywhere {x : Build α} {f : Walk β} (h : Does known steady False x f j) :
    Does known steady i x f j := h.weaken False.elim id fun _ _ _ h => h

theorem Does.andQuiet {x : Build α} {f : Walk Unit} {g : α → Build β} (h : Does known steady i x f j)
    (hg : ∀ known' a, Quiet known' steady j (g a) k fun _ _ => True) :
    Does known steady i (x >>= g) f k :=
  Follows.bind h (h := fun _ => pure ()) fun known' a _ _ _ => hg known' a

theorem traced_same (ha : Agrees s' d') (h : Extends d [] d') (hc : d'.hasCall = d.hasCall)
    (hw : Watched s {} s') (hm : ∀ m ∈ added, m ∈ d'.target.members ∧ m.name ≠ "init" ∧
      ∃ name, m.name? = some name ∧ name ∉ d.target.names) : Traced known s s' d d' [] added where
  ext := h
  agrees := ha
  members := hm
  sums := by
    refine ⟨{}, {}, hw, fun c _ => sums_nil c, ?_⟩
    rw [Summary.nil_andThen, Summary.andThen_nil, Draft.waiting, Draft.waiting, hc]

theorem Follows.pure {Q : List Member → α → β → Prop} {a : α} {b : β} (h : Q known a b) :
    Follows known steady i (pure a) (pure b) i Q := by
  intro d c d' s hd ha hf hu hi hr
  obtain ⟨rfl, rfl⟩ := runs_pure.1 hr
  exact ⟨[], [], traced_same ha (.refl hd) rfl (.refl s) (by simp), hi, by rw [List.append_nil]; exact h⟩

/-! Single steps. -/

/-- A step that changes nothing but what is pending and what is known about scripts. -/
theorem extends_flags (hd : Tidy d) (hf : d'.frames = d.frames) (hn : d'.names = d.names)
    (ht : d'.target = d.target) (hc : d'.hasCall → d'.buffer ≠ "") : Extends d [] d' :=
  .of_eq hd (by rw [hf, extendTop_nil]) hn ht hc

theorem Extends.same {d'' : Draft} (h : Extends d new d') (hf : d''.frames = d'.frames)
    (hn : d''.names = d'.names) (ht : d''.target = d'.target) (hc : d''.hasCall → d''.buffer ≠ "") :
    Extends d new d'' := by
  rw [← List.append_nil new]
  exact h.trans (extends_flags h.tidy hf hn ht hc)

theorem quiet_put (text : String) : Quiet known steady i (put text) i fun _ _ => True := by
  intro d u d' s hd ha _ _ hi hr
  have hext := extends_put hd hr
  cases runs_modify.1 hr
  exact ⟨[], [], traced_same ⟨ha.locals, ha.armed, ha.scripts⟩ hext rfl (.refl s) (by simp), hi,
    True.intro⟩

theorem follows_noteScript :
    Does known steady i noteScript watchScript i := by
  intro d u d' s hd ha _ _ hi hr
  cases runs_modify.1 hr
  refine ⟨[], [], traced_same ⟨ha.locals, ha.armed, rfl⟩ ?_ rfl ?_ (by simp), hi, True.intro⟩
  · exact extends_flags hd rfl rfl rfl hd.call
  · show Watched s {} { s with scripts := true }
    exact ⟨by simp, by simp⟩

theorem follows_putCall : Does known steady i putCall watchCall False := by
  intro d u d' s hd ha _ _ _ hr
  obtain ⟨_, e, hput, hr⟩ := runs_bind.1 hr
  cases runs_modify.1 hput
  cases runs_modify.1 hr
  refine ⟨[], [], ⟨extends_flags hd rfl rfl rfl (by simp), ⟨ha.locals, ha.armed, ha.scripts⟩, by simp,
    { exposed := true }, {}, ?_, fun c _ => sums_nil c, ?_⟩, False.elim, True.intro⟩
  · show Watched s { exposed := true } { s with exposed := s.exposed || !s.done }
    exact ⟨by simp, by simp⟩
  · show ({} : Summary).andThen { exposed := true } = d.waiting.andThen { exposed := true }
    cases hc : d.hasCall <;> simp [Draft.waiting, hc, Summary.andThen]

theorem findMethod?_inherited {c : ClassDecl} (hc : Provides c known) {method : String}
    (hm : method ∉ ownNames) (hu : unnumbered method = method) : c.findMethod? method = none := by
  cases h : c.findMethod? method with
  | none => rfl
  | some m =>
      obtain ⟨hmem, hname⟩ := ClassOf.mem_of_findMethod? h
      have hin : method ∈ c.names := ClassOf.mem_names_of_mem hmem (by simp [Member.name?, Member.name, hname])
      rcases hc.names _ hin with hown | hne
      · exact absurd hown hm
      · exact absurd hu hne

theorem sumsIn_renderCall {method : String} {args : List Expr} {origin : Origin}
    (hm : method ∉ ownNames) (hu : unnumbered method = method)
    (hp : partsOf (renderCall method args origin) = []) :
    SumsIn known [renderCall method args origin]
      (Summary.ofActs (actsOf (renderCall method args origin))) :=
  fun _ hc => sums_step rfl (findMethod?_inherited hc hm hu) hp

theorem sumsIn_nil : SumsIn known [] {} := fun c _ => sums_nil c

theorem sumsIn_flushed (hd : Tidy d) : SumsIn known d.flushed d.waiting := by
  unfold Draft.flushed
  split
  · next h =>
      have hc : d.hasCall = false := by
        cases hc : d.hasCall with
        | false => rfl
        | true => exact absurd h (hd.call hc)
      rw [Draft.waiting, hc]
      exact sumsIn_nil
  · unfold Draft.waiting Draft.pending
    split
    · exact sumsIn_renderCall (by decide) (by decide) rfl
    · exact sumsIn_renderCall (by decide) (by decide) rfl

theorem hasCall_flush (hd : Tidy d) : d.flush.hasCall = false := by
  rw [flush_eq]
  dsimp only
  split
  · next h =>
      cases hc : d.hasCall with
      | false => rfl
      | true => exact absurd h (hd.call hc)
  · rfl

theorem Agrees.flush (ha : Agrees s d) : Agrees s d.flush := by
  rw [flush_eq]
  exact ⟨ha.locals, ha.armed, ha.scripts⟩

theorem waiting_of_not (h : d.hasCall = false) : d.waiting = {} := by
  rw [Draft.waiting, h]
  rfl

theorem traced_flush (hd : Tidy d) (ha : Agrees s d) : Traced known s s d d.flush d.flushed [] where
  ext := .flush hd
  agrees := ha.flush
  members := by simp
  sums := ⟨{}, d.waiting, .refl s, sumsIn_flushed hd, by
    rw [waiting_of_not (hasCall_flush hd)]⟩

theorem quiet_flush : Quiet known steady i flush True fun _ _ => True := by
  intro d u d' s hd ha _ _ _ hr
  cases runs_modify.1 hr
  exact ⟨d.flushed, [], traced_flush hd ha, fun _ => hasCall_flush hd, True.intro⟩

theorem Agrees.add (ha : Agrees s d) (stmt : Stmt) : Agrees s (d.add stmt) := by
  rw [add_eq]
  exact ⟨ha.locals, ha.armed, ha.scripts⟩

theorem hasCall_add (d : Draft) (stmt : Stmt) : (d.add stmt).hasCall = d.hasCall := by
  rw [add_eq]

theorem quiet_add {stmt : Stmt} (h : SumsIn known [stmt] {}) :
    Quiet known steady i (add stmt) i fun _ _ => True := by
  intro d u d' s hd ha _ _ hi hr
  cases runs_modify.1 hr
  refine ⟨[stmt], [], ⟨.add hd stmt, ha.add stmt, by simp, {}, {}, .refl s, by simpa using h, ?_⟩,
    fun hj => ?_, True.intro⟩
  · rw [Summary.nil_andThen, Summary.andThen_nil, Draft.waiting, Draft.waiting, hasCall_add]
  · rw [hasCall_add]
    exact hi hj

/-- The draft with a setup behind its markup. If it is under no condition, no more is called for. -/
def Draft.setUp (d : Draft) (inMarkup : Bool) : Draft :=
  { d.flush.add (renderCall "writeExtras" [.bool inMarkup]) with needsExtras := !d.isUnconditional }

theorem extends_setUp (hd : Tidy d) (inMarkup : Bool) :
    Extends d (d.flushed ++ [renderCall "writeExtras" [.bool inMarkup]]) (d.setUp inMarkup) := by
  have hflush := Extends.flush hd
  have hext := hflush.trans (.add hflush.tidy (renderCall "writeExtras" [.bool inMarkup]))
  exact hext.same rfl rfl rfl hext.tidy.call

theorem runs_ensureExtras {inMarkup : Bool} {u : Unit} (hd : Tidy d)
    (h : Runs (ensureExtras inMarkup) d u d') :
    d.needsExtras = false ∧ d' = d ∨ d.needsExtras = true ∧ d' = d.setUp inMarkup := by
  unfold ensureExtras at h
  rw [runs_bind] at h
  obtain ⟨e, e', hget, h⟩ := h
  obtain ⟨he, he'⟩ := runs_get.1 hget
  rw [he, he'] at h
  split at h
  · next hn =>
      simp only [runs_bind, flush, add, runs_modify] at h
      obtain ⟨_, _, rfl, _, _, rfl, rfl⟩ := h
      refine Or.inr ⟨hn, ?_⟩
      have hu : (d.flush.add (renderCall "writeExtras" [.bool inMarkup])).isUnconditional =
          d.isUnconditional := by
        have hsetUp := isUnconditional_of_extends (extends_setUp hd inMarkup)
        exact hsetUp
      have hneeds : (d.flush.add (renderCall "writeExtras" [.bool inMarkup])).needsExtras = true := by
        rw [add_eq, flush_eq]
        exact hn
      unfold Draft.setUp
      rw [← hu]
      generalize d.flush.add (renderCall "writeExtras" [.bool inMarkup]) = x at hneeds
      split
      · next hx => rw [hx, Bool.not_true]
      · next hx =>
          rw [Bool.not_eq_true] at hx
          rw [hx, Bool.not_false, ← hneeds]
  · next hn =>
      obtain ⟨-, rfl⟩ := runs_pure.1 h
      exact Or.inl ⟨by simpa using hn, rfl⟩

theorem follows_ensureExtras (inMarkup : Bool) :
    Does known steady i (ensureExtras inMarkup) (watchSetUp steady) i := by
  intro d u d' s hd ha hf hu hi hr
  have hrun : ((watchSetUp steady).run s).2 =
      if s.armed then { s with done := true, armed := !steady } else s := rfl
  rw [hrun, ha.armed]
  obtain ⟨hn, rfl⟩ | ⟨hn, rfl⟩ := runs_ensureExtras hd hr
  · rw [hn]
    exact ⟨[], [], traced_same ha (.refl hd) rfl (.refl s) (by simp), hi, True.intro⟩
  · rw [hn, if_pos rfl]
    have hcall : (d.setUp inMarkup).hasCall = false := (hasCall_add ..).trans (hasCall_flush hd)
    have ha' := ha.flush.add (renderCall "writeExtras" [.bool inMarkup])
    refine ⟨_, [], ⟨extends_setUp hd inMarkup, ⟨ha'.locals, by rw [Draft.setUp, hu], ha'.scripts⟩,
      by simp, { always := true }, d.waiting.andThen { always := true }, ?_, ?_, ?_⟩,
      fun _ => hcall, True.intro⟩
    · exact ⟨by simp, by simp⟩
    · intro c hc
      exact (sumsIn_flushed hd c hc).append (sumsIn_renderCall (by decide) (by decide) rfl c hc)
    · rw [waiting_of_not hcall, Summary.andThen_nil]

theorem quiet_freshName (stem : String) :
    Quiet known steady i (freshName stem) i fun _ _ => True := by
  intro d name d' s hd ha _ _ hi hr
  obtain ⟨-, rfl⟩ := runs_freshName.1 hr
  have hlocals := ha.locals
  exact ⟨[], [], traced_same ⟨⟨hlocals.locals, hlocals.left, hlocals.right⟩, ha.armed, ha.scripts⟩
    (extends_fresh hd stem) rfl (.refl s) (by simp), hi, True.intro⟩

theorem sumsIn_simple {stmt : Stmt} (hs : isSimple stmt) (hc : ∀ c, callee? c stmt = none)
    (hp : partsOf stmt = []) (ha : actsOf stmt = []) : SumsIn known [stmt] {} := by
  intro c _
  have h := sums_step hs (hc c) hp
  rwa [ha] at h

theorem quiet_declare (type : Ty) (stem : String) (init : Expr) :
    Quiet known steady i (declare type stem init) i fun _ _ => True := by
  refine (quiet_freshName stem).bind fun known' name _ _ => ?_
  refine (quiet_add (sumsIn_simple rfl (fun _ => rfl) rfl rfl)).bind fun _ _ _ _ => ?_
  exact .pure True.intro

/-! Code blocks. -/

def Matches : Except Error Fragment → Outcome → Prop
  | .error _, o => o = .refused
  | .ok f, o => o = if f.hybrid then .hybrid else .sure

theorem isEmpty_of_sameMethods {ms ms' : List Method} (h : Script.SameMethods ms ms') :
    ms.isEmpty = ms'.isEmpty := by
  have hl := congrArg List.length h
  simp only [List.length_map] at hl
  rw [Bool.eq_iff_iff, List.isEmpty_iff_length_eq_zero, List.isEmpty_iff_length_eq_zero, hl]

theorem outcomeOf_congr {r r' : Except Script.Refusal Script.Compiled} (canDefer : Bool)
    (h : Script.SameOutcome r r') : outcomeOf canDefer r = outcomeOf canDefer r' := by
  match r, r', h with
  | .ok t, .ok t', h =>
      obtain ⟨hm, he⟩ := h
      simp only [outcomeOf, isEmpty_of_sameMethods hm, he]
  | .error _, .error _, _ => rfl

-- comparing two ways to write a result must not run the compiler
attribute [local irreducible] Script.compile

theorem run_watchFragment (b : CodeBlock) (canDefer : Bool) (s : Watch) :
    (watchFragment b canDefer).run s =
      (outcomeOf canDefer (Script.compile s.names (clientCode b)).1,
        { s with
          names := (Script.compile s.names (clientCode b)).2
          armed := outcomeOf canDefer (Script.compile s.names (clientCode b)).1 = .hybrid ||
            s.armed }) := rfl

theorem follows_fragment? (b : CodeBlock) (canDefer : Bool) :
    Follows known steady i (fragment? b canDefer) (watchFragment b canDefer) i
      fun _ r o => Matches r o ∧ (o = .hybrid → canDefer = true) := by
  intro d r d' s hd ha _ _ hi hr
  have hext := extends_fragment? hd hr
  obtain ⟨hsame, hlocals⟩ := Script.compile_sameOutcome ha.locals (clientCode b)
  rw [run_watchFragment, outcomeOf_congr canDefer hsame]
  have hwatched (armed : Bool) : Watched s {}
      { s with names := (Script.compile s.names (clientCode b)).2, armed } := ⟨by simp, by simp⟩
  obtain ⟨e, rfl, rfl, hnone⟩ | ⟨t, m, rest, ht, hm, rfl, rfl⟩ := runs_fragment? hr
  · have hrefused : outcomeOf canDefer (Script.compile d.names (clientCode b)).1 = .refused := by
      unfold outcomeOf
      split
      · rfl
      · next t ht => rw [if_pos (by rw [hnone t ht]; rfl)]
    rw [hrefused]
    exact ⟨[], [], traced_same ⟨hlocals, ha.armed, ha.scripts⟩ hext rfl (hwatched _) (by simp), hi, rfl,
      nofun⟩
  · have houtcome : outcomeOf canDefer (Script.compile d.names (clientCode b)).1 =
        if t.hasExtras && canDefer then .hybrid else .sure := by
      rw [ht, outcomeOf, hm]
      rfl
    have harmed : (decide ((if t.hasExtras && canDefer then Outcome.hybrid else .sure) = .hybrid) ||
        s.armed) = (t.hasExtras && canDefer || d.needsExtras) := by
      rw [ha.armed]
      cases t.hasExtras && canDefer <;> rfl
    rw [houtcome]
    refine ⟨[], [], traced_same ⟨hlocals, harmed, ha.scripts⟩ hext rfl (hwatched _) (by simp), hi, rfl,
      fun ho => ?_⟩
    cases canDefer with
    | true => rfl
    | false =>
        rw [Bool.and_false] at ho
        cases ho

theorem follows_requiredExpr (b : CodeBlock) :
    Does known steady i (requiredExpr b) (watchRequired b) i := by
  refine Follows.bind (h := fun _ => pure ()) (follows_fragment? b false) fun known' r o _ _ => ?_
  cases r with
  | error e => exact .throw
  | ok f => exact .pure True.intro

/-! Frames and methods. -/

/-- Statements were gathered that have not been added yet. -/
structure Gathered (known : List Member) (s s' : Watch) (d d' : Draft) (added : List Member)
    (stmts : List Stmt) (S : Summary) : Prop where
  ext : Extends d [] d'
  agrees : Agrees s' d'
  members : ∀ m ∈ added, m ∈ d'.target.members ∧ m.name ≠ "init" ∧
    ∃ name, m.name? = some name ∧ name ∉ d.target.names
  idle : d'.hasCall = false
  watched : Watched s S s'
  sums : SumsIn (known ++ added) stmts S

/-- What was built where no call waits, with the rest of the markup behind it. -/
theorem Traced.sums_flushed (h : Traced known s s' d d' new added) (hc : d.hasCall = false) :
    ∃ S, Watched s S s' ∧ SumsIn (known ++ added) (new ++ d'.flushed) S := by
  obtain ⟨S, T, hw, hs, he⟩ := h.sums
  rw [waiting_of_not hc, Summary.nil_andThen] at he
  refine ⟨S, hw, fun c hc => ?_⟩
  rw [← he]
  exact (hs c hc).append (sumsIn_flushed h.ext.tidy c hc)

theorem gathered_inFrame {ofMethod : Bool} {body : Build Unit} {f : Walk Unit} {stmts : List Stmt}
    (h : Does known (ofMethod && steady) True body f j) (hd : Tidy d)
    (ha : Agrees s d) (hu : d.isUnconditional = steady) (hc : d.hasCall = false)
    (hr : Runs (inFrame ofMethod body) d stmts d') :
    ∃ added S, Gathered known s (f.run s).2 d d' added stmts S := by
  obtain ⟨e, he, hclose⟩ := runs_inFrame.1 hr
  have hu' : (d.opened ofMethod).isUnconditional = (ofMethod && steady) := by
    rw [← hu]
    rfl
  obtain ⟨new, added, ht, -, -⟩ := h (d.opened ofMethod) () e s (hd.opened ofMethod)
    ⟨ha.locals, ha.armed, ha.scripts⟩ (by simp [Draft.opened]) hu' (fun _ => hc) he
  rw [close_of_extends ht.ext] at hclose
  cases hclose
  obtain ⟨S, hw, hs⟩ := ht.sums_flushed hc
  have ha' := ht.agrees.flush
  refine ⟨added, S, extends_closedTo ht.ext, ⟨ha'.locals, ha'.armed, ha'.scripts⟩, ?_,
    hasCall_flush ht.ext.tidy, hw, hs⟩
  intro m hm
  obtain ⟨hmem, hinit, hname⟩ := ht.members m hm
  exact ⟨(Extends.flush ht.ext.tidy).kept _ hmem hinit, hinit, hname⟩

theorem Watched.perhaps (h : Watched s S s') : Watched s S.perhaps { s' with done := s.done } :=
  ⟨by simp [Summary.perhaps], h.exposed⟩

theorem Gathered.combine {d'' : Draft} {r r' s'' : Watch} {added' : List Member}
    {stmts stmts' made : List Stmt} {U : Summary} (h : Gathered known s s' d d' added stmts S)
    (h' : Gathered known r r' d' d'' added' stmts' T) (hw : Watched s U s'') (hl : s''.names = r'.names)
    (ha : s''.armed = r'.armed) (hs : s''.scripts = r'.scripts)
    (hu : SumsIn (known ++ (added ++ added')) made U) :
    Gathered known s s'' d d'' (added ++ added') made U where
  ext := h.ext.trans h'.ext
  agrees := ⟨hl ▸ h'.agrees.locals, ha.trans h'.agrees.armed, hs.trans h'.agrees.scripts⟩
  members := by
    intro m hm
    rcases List.mem_append.1 hm with hm | hm
    · obtain ⟨hmem, hinit, hname⟩ := h.members m hm
      exact ⟨h'.ext.kept _ hmem hinit, hinit, hname⟩
    · obtain ⟨hmem, hinit, name, hname, hnew⟩ := h'.members m hm
      exact ⟨hmem, hinit, name, hname, fun hn => hnew (h.ext.known _ hn)⟩
  idle := h'.idle
  watched := hw
  sums := hu

theorem Gathered.add {stmts stmts' : List Stmt} {s'' : Watch}
    (h : Gathered known s s' d d' added stmts S) (hc : d.hasCall = false)
    (hs : SumsIn (known ++ added) stmts' T) (hw : Watched s T s'') (hl : s''.names = s'.names)
    (ha : s''.armed = s'.armed) (hs' : s''.scripts = s'.scripts) :
    Traced known s s'' d { d' with frames := extendTop stmts' d'.frames } stmts' added where
  ext := h.ext.trans (.addAll h.ext.tidy stmts')
  agrees := ⟨hl ▸ h.agrees.locals, ha.trans h.agrees.armed, hs'.trans h.agrees.scripts⟩
  members := h.members
  sums := by
    refine ⟨T, T, hw, hs, ?_⟩
    have hwaiting : ({ d' with frames := extendTop stmts' d'.frames } : Draft).waiting = {} :=
      waiting_of_not h.idle
    rw [hwaiting, waiting_of_not hc, Summary.nil_andThen, Summary.andThen_nil]

theorem orElse_nil (S : Summary) : S.orElse {} = S.perhaps := by
  simp [Summary.orElse, Summary.perhaps]

theorem nil_orElse (S : Summary) : ({} : Summary).orElse S = S.perhaps := by
  simp [Summary.orElse, Summary.perhaps]

theorem sumsIn_cond {test : Expr} {yes no : List Stmt} (hy : SumsIn known yes S)
    (hn : SumsIn known no T) : SumsIn known [.cond test yes no] (S.orElse T) :=
  fun c hc => sums_cond (hy c hc) (hn c hc)

/-- What is built goes into one statement, where it may be left out. -/
theorem follows_inFrame {body : Build Unit} {f : Walk Unit} {made : List Stmt → Stmt}
    (hm : ∀ known' stmts S, SumsIn known' stmts S → SumsIn known' [made stmts] S.perhaps)
    (h : Does known false True body f j) :
    Does known steady True (inFrame false body >>= fun stmts => add (made stmts)) (perhaps f) True := by
  intro d u d' s hd ha _ hu hi hr
  obtain ⟨stmts, e, hin, hr⟩ := runs_bind.1 hr
  cases runs_modify.1 hr
  have hc := hi True.intro
  obtain ⟨added, S, hg⟩ := gathered_inFrame h hd ha hu hc hin
  have hs := hm (known ++ added) stmts S hg.sums
  rw [add_eq_extendTop]
  exact ⟨_, added, hg.add hc hs hg.watched.perhaps rfl rfl rfl, fun _ => hg.idle, True.intro⟩

theorem follows_addCondition {test : Expr} {body : Build Unit} {f : Walk Unit}
    (h : Does known false True body f j) :
    Does known steady True (addCondition test body) (perhaps f) True := by
  refine follows_inFrame (fun known' stmts S hs => ?_) h
  rw [← orElse_nil]
  exact sumsIn_cond hs sumsIn_nil

theorem quiet_addCondition {test : Expr} {body : Build Unit}
    (h : Quiet known false True body j fun _ _ => True) :
    Quiet known steady True (addCondition test body) True fun _ _ => True :=
  follows_addCondition h

def watchSummary (U : Summary) : Walk Unit :=
  modify fun s => { s with
    done := s.done || U.always
    exposed := s.exposed || (!s.done && U.exposed) }

theorem run_watchSummary (U : Summary) (s : Watch) :
    ((watchSummary U).run s).2 = { s with
      done := s.done || U.always
      exposed := s.exposed || (!s.done && U.exposed) } := rfl

theorem follows_add {stmt : Stmt} (h : SumsIn known [stmt] S) :
    Does known steady True (add stmt) (watchSummary S) True := by
  intro d u d' s hd ha _ _ hi hr
  cases runs_modify.1 hr
  have hc := hi True.intro
  have ha' := ha.add stmt
  refine ⟨[stmt], [], ⟨.add hd stmt, ⟨ha'.locals, ha'.armed, ha'.scripts⟩, by simp, S, S, ⟨rfl, rfl⟩,
    by simpa using h, ?_⟩, fun _ => (hasCall_add d stmt).trans hc, True.intro⟩
  rw [waiting_of_not hc, waiting_of_not ((hasCall_add d stmt).trans hc), Summary.nil_andThen,
    Summary.andThen_nil]

/-- What is built as the body of a method is done by that method, with the members that were added for
it. -/
theorem runs_method_of_follows {body : Build Unit} {f : Walk Unit} {name : String}
    (h : Does known steady True body f j) (hd : Tidy d) (ha : Agrees s d)
    (hu : d.isUnconditional = steady) (hr : Runs (buildRenderMethod body) d name d') :
    ∃ stmts added S, Extends d d.flushed d' ∧ Agrees (f.run s).2 d' ∧ d'.hasCall = false ∧
      (.method (renderMethod name stmts) ∈ d'.target.members ∧ name ∉ d.target.names ∧
        name ≠ "init") ∧
      (∀ m ∈ added, m ∈ d'.target.members ∧ m.name ≠ "init" ∧
        ∃ name', m.name? = some name' ∧ name' ∉ d.target.names ∧ name' ≠ name) ∧
      Watched s S (f.run s).2 ∧ SumsIn (known ++ added) stmts S := by
  obtain ⟨hname, e, he, hmade⟩ := extends_buildRenderMethod hd hr
  have hmethod := extends_withMethod hd
  have hidle : d.withMethod.flush.hasCall = false := hasCall_flush (tidy_withMethod hd)
  have hagrees : Agrees s (d.withMethod.flush.opened true) := by
    have ha' : Agrees s d.withMethod :=
      ⟨⟨ha.locals.locals, ha.locals.left, ha.locals.right⟩, ha.armed, ha.scripts⟩
    exact ⟨ha'.flush.locals, ha'.flush.armed, ha'.flush.scripts⟩
  have hu' : (d.withMethod.flush.opened true).isUnconditional = steady := by
    rw [← hu, ← isUnconditional_of_extends hmethod]
    rfl
  obtain ⟨new, added, ht, -, -⟩ := h _ () e s (hmethod.tidy.opened true) hagrees
    (by simp [Draft.opened]) hu' (fun _ => hidle) he
  obtain ⟨hext, hmem, rfl⟩ := hmade new ht.ext
  obtain ⟨S, hw, hs⟩ := ht.sums_flushed hidle
  have htaken : (d.names.fresh "render_").2.Taken name := hname ▸ Names.taken_fresh isStem_render
  have hnew : name ∉ d.target.names :=
    hd.not_mem htaken (hname ▸ Names.not_taken_fresh isStem_render)
  have ha' := ht.agrees.flush
  refine ⟨new ++ e.flushed, added, S, hext, ⟨ha'.locals, ha'.armed, ha'.scripts⟩,
    hasCall_flush ht.ext.tidy, ⟨hmem, hnew, ne_init_of_taken htaken⟩, ?_, hw, hs⟩
  intro m hm
  obtain ⟨hmem, hinit, name', hname', hold⟩ := ht.members m hm
  have hne : name' ≠ name := by
    rintro rfl
    refine hold ?_
    rw [Draft.opened, target_flush, hname]
    exact mem_names_withMethod d
  refine ⟨ClassOf.mem_modifyFirst_of_ne (by simpa [Draft.closedTo] using hmem) ?_, hinit, name', hname',
    fun hn => hold (hmethod.known _ hn), hne⟩
  rwa [Member.name?_eq_some hname']

end TwinView.Server
