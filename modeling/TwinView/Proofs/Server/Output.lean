import TwinView.Proofs.Server.Fragments

/-!
What builders put out. Markup waits in a buffer and bodies are gathered in frames and methods, but at
every point of building, what the statements so far put out and what waits in the buffer is together
what has been put out up to that point.
-/

namespace TwinView.Server

open Code

variable {ν α β : Type} {w : World ν} {s : Settings} {known known' : List Method} {mode : TextMode}
  {d d' : Draft} {new : List Stmt} {added : List Method} {out out' : Binding ν → List (Event ν)}
  {i j k : Prop}

/-- Text is treated in one way, and no scripts have come up. -/
structure Calm (mode : TextMode) (d : Draft) : Prop where
  mode : d.mode = mode
  scripts : d.hasScripts = false

/-- From `d` to `d'`, statements and methods were added that put something out: where the methods are
known, what waited in `d` and the new output are what the statements put out and what waits in `d'`. -/
structure Shown (w : World ν) (known : List Method) (mode : TextMode) (d d' : Draft)
    (new : List Stmt) (added : List Method) (out : Binding ν → List (Event ν)) : Prop where
  ext : Extends d new d'
  calm : Calm mode d'
  members : ∀ m ∈ added, .method m ∈ d'.target.members ∧ m.name ∉ d.target.names ∧ m.name ≠ "init"
  runs : ∀ find, Knows find (known ++ added) → ∀ b σ, ∃ events σ',
    Exec find w b σ (.stmts new) events σ' ∧ chars d.buffer ++ out b = events ++ chars d'.buffer

/-- A builder that puts something out. Before it, nothing may be waiting if `i` holds; after it, nothing
is waiting if `j` holds, and the result has a property that depends on the known methods. -/
def Shows (w : World ν) (known : List Method) (mode : TextMode) (i : Prop) (x : Build α)
    (out : Binding ν → List (Event ν)) (j : Prop) (Q : List Method → α → Prop) : Prop :=
  ∀ d a d', Tidy d → Calm mode d → (i → d.buffer = "") → Runs x d a d' →
    ∃ new added, Shown w known mode d d' new added out ∧ (j → d'.buffer = "") ∧ Q (known ++ added) a

abbrev Puts (w : World ν) (known : List Method) (mode : TextMode) (i : Prop) (x : Build Unit)
    (out : Binding ν → List (Event ν)) (j : Prop) : Prop :=
  Shows w known mode i x out j fun _ _ => True

abbrev silent : Binding ν → List (Event ν) := fun _ => []

@[simp] theorem chars_empty : (chars "" : List (Event ν)) = [] := rfl

@[simp] theorem chars_append (text text' : String) :
    (chars (text ++ text') : List (Event ν)) = chars text ++ chars text' := by
  simp [chars]

theorem Shown.trans {d'' : Draft} {new' : List Stmt} {added' : List Method}
    (h : Shown w known mode d d' new added out)
    (h' : Shown w (known ++ added) mode d' d'' new' added' out') :
    Shown w known mode d d'' (new ++ new') (added ++ added') fun b => out b ++ out' b where
  ext := h.ext.trans h'.ext
  calm := h'.calm
  members := by
    intro m hm
    rcases List.mem_append.1 hm with hm | hm
    · obtain ⟨hmem, hname, hinit⟩ := h.members m hm
      exact ⟨h'.ext.kept _ hmem hinit, hname, hinit⟩
    · obtain ⟨hmem, hname, hinit⟩ := h'.members m hm
      exact ⟨hmem, fun hn => hname (h.ext.known _ hn), hinit⟩
  runs := by
    intro find hk b σ
    obtain ⟨events, σ', hexec, heq⟩ := h.runs find (hk.mono (by
      rw [← List.append_assoc]; exact List.subset_append_left _ _)) b σ
    obtain ⟨events', σ'', hexec', heq'⟩ := h'.runs find (by rwa [List.append_assoc]) b σ'
    refine ⟨events ++ events', σ'', hexec.append hexec', ?_⟩
    rw [← List.append_assoc, heq, List.append_assoc, heq', List.append_assoc]

theorem Shows.bind {Q : List Method → α → Prop} {R : List Method → β → Prop} {x : Build α}
    {f : α → Build β} (hx : Shows w known mode i x out j Q)
    (hf : ∀ known' a, known ⊆ known' → Q known' a → Shows w known' mode j (f a) out' k R) :
    Shows w known mode i (x >>= f) (fun b => out b ++ out' b) k R := by
  intro d c d'' hd hcalm hi hr
  obtain ⟨a, d', ha, hc⟩ := runs_bind.1 hr
  obtain ⟨new, added, hs, hj, hq⟩ := hx d a d' hd hcalm hi ha
  obtain ⟨new', added', hs', hk, hq'⟩ :=
    hf (known ++ added) a (List.subset_append_left _ _) hq d' c d'' hs.ext.tidy hs.calm hj hc
  exact ⟨new ++ new', added ++ added', hs.trans hs', hk, by rwa [← List.append_assoc]⟩

theorem Shows.congr {Q : List Method → α → Prop} {x : Build α} (h : Shows w known mode i x out j Q)
    (ho : ∀ b, out b = out' b) : Shows w known mode i x out' j Q := by
  rwa [← show out = out' from funext ho]

theorem Shows.andThen {Q : List Method → α → Prop} {R : List Method → β → Prop} {x : Build α}
    {f : α → Build β} (hx : Shows w known mode i x silent j Q)
    (hf : ∀ known' a, known ⊆ known' → Q known' a → Shows w known' mode j (f a) out k R) :
    Shows w known mode i (x >>= f) out k R := (hx.bind hf).congr fun _ => List.nil_append _

theorem Shows.weaken {i' j' : Prop} {Q R : List Method → α → Prop} {x : Build α}
    (h : Shows w known mode i x out j Q) (hi : i → i') (hj : j' → j) (hq : ∀ known a, Q known a → R known a) :
    Shows w known mode i' x out j' R := by
  intro d a d' hd hcalm hi' hr
  obtain ⟨new, added, hs, hj', hq'⟩ := h d a d' hd hcalm (fun h => hi' (hi h)) hr
  exact ⟨new, added, hs, fun h => hj' (hj h), hq _ a hq'⟩

theorem Puts.anywhere {x : Build Unit} (h : Puts w known mode False x out j) :
    Puts w known mode i x out j := h.weaken False.elim id fun _ _ h => h

theorem Puts.forget {x : Build Unit} (h : Puts w known mode i x out j) :
    Puts w known mode i x out False := h.weaken id False.elim fun _ _ h => h

theorem Shows.throw {Q : List Method → α → Prop} {e : Error} :
    Shows w known mode i (throw e) out j Q := fun _ _ _ _ _ _ hr => absurd hr runs_throw

theorem shown_same (hcalm : Calm mode d') (h : Extends d [] d') (hb : d'.buffer = d.buffer)
    (hm : ∀ m ∈ added, .method m ∈ d'.target.members ∧ m.name ∉ d.target.names ∧ m.name ≠ "init") :
    Shown w known mode d d' [] added silent where
  ext := h
  calm := hcalm
  members := hm
  runs := by
    intro find _ b σ
    exact ⟨[], σ, .nil, by rw [hb]; simp⟩

theorem Shows.pure {Q : List Method → α → Prop} {a : α} (h : Q known a) :
    Shows w known mode i (pure a) silent i Q := by
  intro d c d' hd hcalm hi hr
  obtain ⟨rfl, rfl⟩ := runs_pure.1 hr
  exact ⟨[], [], shown_same hcalm (.refl hd) rfl (by simp), hi, by simpa using h⟩

theorem shows_get_bind {Q : List Method → β → Prop} {f : Draft → Build β}
    (h : ∀ d, Calm mode d → Shows w known mode i (f d) out j Q) :
    Shows w known mode i (get >>= f) out j Q := by
  intro d a d' hd hcalm hi hr
  obtain ⟨_, _, hget, hr⟩ := runs_bind.1 hr
  obtain ⟨rfl, rfl⟩ := runs_get.1 hget
  exact h _ hcalm _ a d' hd hcalm hi hr

theorem puts_put (text : String) : Puts w known mode i (put text) (fun _ => chars text) False := by
  intro d u d' hd hcalm _ hr
  have hext := extends_put hd hr
  cases runs_modify.1 hr
  refine ⟨[], [], ⟨hext, ⟨hcalm.mode, hcalm.scripts⟩, by simp, ?_⟩, False.elim, True.intro⟩
  intro find _ b σ
  exact ⟨[], σ, .nil, by simp⟩

theorem written_markupConstant (find : String → Option Method) (b : Binding ν) (text : String) :
    written find b "write" (.const (markupConstant text)) = chars text := by
  unfold markupConstant chars
  split
  · next c h => simp [Expr.const, written, h]
  · simp [Expr.const, written]

/-- Statements put something out wherever the methods are known. -/
def Says (w : World ν) (known : List Method) (stmts : List Stmt)
    (out : Binding ν → List (Event ν)) : Prop :=
  ∀ find, Knows find known → ∀ b σ, ∃ σ', Exec find w b σ (.stmts stmts) (out b) σ'

theorem Says.mono {stmts : List Stmt} (h : Says w known stmts out) (hs : known ⊆ known') :
    Says w known' stmts out := fun find hk => h find (hk.mono hs)

theorem says_nil : Says w known [] silent := fun _ _ _ σ => ⟨σ, .nil⟩

theorem says_pending (d : Draft) : Says w known d.flushed fun _ => chars d.buffer := by
  intro find _ b σ
  unfold Draft.flushed
  split
  · next h => exact ⟨σ, by rw [h]; exact .nil⟩
  · refine ⟨σ, .single ?_⟩
    rw [← written_markupConstant find b d.buffer]
    rfl

theorem puts_flush : Puts w known mode i flush silent True := by
  intro d u d' hd hcalm _ hr
  cases runs_modify.1 hr
  have hmode : Calm mode d.flush := by
    rw [flush_eq]
    exact ⟨hcalm.mode, hcalm.scripts⟩
  refine ⟨d.flushed, [], ⟨.flush hd, hmode, by simp, ?_⟩, fun _ => buffer_flush d, True.intro⟩
  intro find hk b σ
  obtain ⟨σ', hexec⟩ := says_pending d find hk b σ
  exact ⟨chars d.buffer, σ', hexec, by simp⟩

theorem puts_addAll {stmts : List Stmt} (h : Says w known stmts out) :
    Puts w known mode True (addAll stmts) out True := by
  intro d u d' hd hcalm hi hr
  have hidle := hi True.intro
  obtain rfl := runs_addAll.1 hr
  refine ⟨stmts, [], ⟨.addAll hd stmts, ⟨hcalm.mode, hcalm.scripts⟩, by simp, ?_⟩, fun _ => hidle,
    True.intro⟩
  intro find hk b σ
  obtain ⟨σ', hexec⟩ := h find (by simpa using hk) b σ
  exact ⟨out b, σ', hexec, by simp [hidle]⟩

theorem puts_add {stmt : Stmt} (h : Says w known [stmt] out) :
    Puts w known mode True (add stmt) out True := by
  have hputs : Puts w known mode True (addAll [stmt]) out True := puts_addAll h
  simpa [addAll] using hputs

theorem shows_fragment? {blk : CodeBlock} (ha : isAlone blk) (canDefer : Bool) :
    Shows w known mode i (fragment? blk canDefer) silent i
      fun known' r => ∃ e, r = .ok { expr := e, hybrid := false } ∧ CodeIs known' e blk := by
  intro d r d' hd hcalm hi hr
  have hext := extends_fragment? hd hr
  obtain ⟨e, added, rfl, rfl, hnew, hcode⟩ := runs_fragment?_alone hd ha hr
  refine ⟨[], added, shown_same ⟨hcalm.mode, hcalm.scripts⟩ hext rfl ?_, hi, e, rfl,
    hcode.mono (List.subset_append_right _ _)⟩
  intro m hm
  have hname : m.name ∈ added.map (·.name) := List.mem_map_of_mem hm
  refine ⟨List.mem_append_right _ (List.mem_map_of_mem hm), ?_, ?_⟩
  · exact hd.not_mem (hnew.taken _ hname) (hnew.notTaken _ hname)
  · exact ne_init_of_taken (hnew.taken _ hname)

theorem shows_requiredExpr {blk : CodeBlock} (ha : isAlone blk) :
    Shows w known mode i (requiredExpr blk) silent i fun known' e => CodeIs known' e blk := by
  refine (shows_fragment? ha false).andThen fun known' r _ hr => ?_
  obtain ⟨e, rfl, hcode⟩ := hr
  exact .pure hcode

/-- Statements that were built where nothing was waiting, with the rest of the markup behind them. -/
theorem says_flushed (h : Shown w known mode d d' new added out) (hd : d.buffer = "") :
    Says w (known ++ added) (new ++ d'.flushed) out := by
  intro find hk b σ
  obtain ⟨events, σ', hexec, heq⟩ := h.runs find hk b σ
  obtain ⟨σ'', hexec'⟩ := says_pending d' find hk b σ'
  rw [hd, chars_empty, List.nil_append] at heq
  rw [heq]
  exact ⟨σ'', hexec.append hexec'⟩

theorem shows_inFrame {ofMethod : Bool} {body : Build Unit} (h : Puts w known mode True body out j) :
    Shows w known mode True (inFrame ofMethod body) silent True
      fun known' stmts => Says w known' stmts out := by
  intro d stmts d' hd hcalm hi hr
  have hidle := hi True.intro
  obtain ⟨e, he, hclose⟩ := runs_inFrame.1 hr
  obtain ⟨new, added, hs, -, -⟩ :=
    h (d.opened ofMethod) () e (hd.opened ofMethod) ⟨hcalm.mode, hcalm.scripts⟩ (fun _ => hidle) he
  rw [close_of_extends hs.ext] at hclose
  cases hclose
  have hcalm' : Calm mode (e.closedTo d.frames) := by
    rw [Draft.closedTo, flush_eq]
    exact ⟨hs.calm.mode, hs.calm.scripts⟩
  have hbuffer : (e.closedTo d.frames).buffer = "" := buffer_flush e
  refine ⟨[], added, shown_same hcalm' (extends_closedTo hs.ext) (hbuffer.trans hidle.symm) ?_,
    fun _ => hbuffer, ?_⟩
  · intro m hm
    obtain ⟨hmem, hname, hinit⟩ := hs.members m hm
    exact ⟨(Extends.flush hs.ext.tidy).kept _ hmem hinit, hname, hinit⟩
  · exact says_flushed hs hidle

def Decides (w : World ν) (known : List Method) (test : Expr) (truth : Binding ν → Bool) : Prop :=
  ∀ find, Knows find known → ∀ b, w.truth (termOf find test) b = truth b

theorem Decides.mono {test : Expr} {truth : Binding ν → Bool} (h : Decides w known test truth)
    (hs : known ⊆ known') : Decides w known' test truth := fun find hk => h find (hk.mono hs)

theorem CodeIs.decides {e : Expr} {test : CodeBlock} (h : CodeIs known e test) :
    Decides w known e fun b => holds w b test := by
  intro find hk b
  show w.truth (termOf find e) b = w.truth (blockTerm id test) b
  rw [← h.termOf_eq hk wraps_id]
  rfl

theorem decides_true : Decides w known (.bool true) fun _ => true := fun _ _ b => w.truth_true b

theorem says_cond {test : Expr} {truth : Binding ν → Bool} {yes no : List Stmt}
    (ht : Decides w known test truth) (hy : Says w known yes out) (hn : Says w known no out') :
    Says w known [.cond test yes no] fun b => if truth b then out b else out' b := by
  intro find hk b σ
  have hbody : ∃ σ', Exec find w b σ (.stmts (if w.truth (termOf find test) b then yes else no))
      (if truth b then out b else out' b) σ' := by
    rw [ht find hk b]
    split
    · exact hy find hk b σ
    · exact hn find hk b σ
  obtain ⟨σ', hexec⟩ := hbody
  have hcond : Exec find w b σ (.stmts [.cond test yes no])
      ((if truth b then out b else out' b) ++ []) σ' := .cond hexec .nil
  exact ⟨σ', by rwa [List.append_nil] at hcond⟩

theorem puts_addCondition {test : Expr} {truth : Binding ν → Bool} {body : Build Unit}
    (ht : Decides w known test truth) (h : Puts w known mode True body out j) :
    Puts w known mode True (addCondition test body) (fun b => if truth b then out b else []) True := by
  refine (shows_inFrame h).andThen fun known' stmts hsub hsays => ?_
  exact puts_add (says_cond (ht.mono hsub) hsays says_nil)

def Performs (w : World ν) (known : List Method) (name : String)
    (out : Binding ν → List (Event ν)) : Prop :=
  ∀ find, Knows find known → ∃ m, find name = some m ∧ m.params == renderParams ∧
    ∀ b, ∃ σ', Exec find w b [] (.stmts m.body) (out b) σ'

theorem Performs.mono {name : String} (h : Performs w known name out) (hs : known ⊆ known') :
    Performs w known' name out := fun find hk => h find (hk.mono hs)

/-- What is built as the body of a method is put out by that method, with the methods that were added
for it. -/
theorem runs_method_of_puts {body : Build Unit} {name : String} (hd : Tidy d) (hcalm : Calm mode d)
    (h : Puts w known mode True body out j) (hr : Runs (buildRenderMethod body) d name d') :
    ∃ stmts added, Extends d d.flushed d' ∧ Calm mode d' ∧ d'.buffer = "" ∧
      (.method (renderMethod name stmts) ∈ d'.target.members ∧ name ∉ d.target.names ∧
        name ≠ "init") ∧
      (∀ m ∈ added, .method m ∈ d'.target.members ∧ m.name ∉ d.target.names ∧ m.name ≠ "init" ∧
        m.name ≠ name) ∧ Says w (known ++ added) stmts out := by
  obtain ⟨hname, e, he, hmade⟩ := extends_buildRenderMethod hd hr
  have hmethod := extends_withMethod hd
  have hcalm' : Calm mode (d.withMethod.flush.opened true) := by
    rw [flush_eq]
    exact ⟨hcalm.mode, hcalm.scripts⟩
  obtain ⟨new, added, hs, -, -⟩ :=
    h _ () e (hmethod.tidy.opened true) hcalm' (fun _ => buffer_flush _) he
  obtain ⟨hext, hmem, rfl⟩ := hmade new hs.ext
  have htaken : (d.names.fresh "render_").2.Taken name := hname ▸ Names.taken_fresh isStem_render
  have hnew : name ∉ d.target.names :=
    hd.not_mem htaken (hname ▸ Names.not_taken_fresh isStem_render)
  refine ⟨new ++ e.flushed, added, hext, ?_, buffer_flush e, ⟨hmem, hnew, ne_init_of_taken htaken⟩,
    ?_, says_flushed hs (buffer_flush d.withMethod)⟩
  · rw [Draft.setBody, Draft.closedTo, flush_eq e]
    exact ⟨hs.calm.mode, hs.calm.scripts⟩
  · intro m hm
    obtain ⟨hmem, hold, hinit⟩ := hs.members m hm
    have hne : m.name ≠ name := by
      rintro rfl
      refine hold ?_
      rw [Draft.opened, target_flush, hname]
      exact mem_names_withMethod d
    exact ⟨ClassOf.mem_modifyFirst_of_ne (by simpa [Draft.closedTo] using hmem) hne,
      fun hd => hold (hmethod.known _ hd), hinit, hne⟩

/-- What is built as the body of a method is put out by calling it, and not before. -/
theorem shows_buildRenderMethod {body : Build Unit} (h : Puts w known mode True body out j) :
    Shows w known mode i (buildRenderMethod body) silent True
      fun known' name => Performs w known' name out := by
  intro d name d' hd hcalm _ hr
  obtain ⟨stmts, added, hext, hcalm', hbuffer, hmethod, hadded, hbody⟩ :=
    runs_method_of_puts hd hcalm h hr
  refine ⟨d.flushed, added ++ [renderMethod name stmts], ⟨hext, hcalm', ?_, ?_⟩, fun _ => hbuffer, ?_⟩
  · intro m hm
    rcases List.mem_append.1 hm with hm | hm
    · obtain ⟨hmem, hnew, hinit, -⟩ := hadded m hm
      exact ⟨hmem, hnew, hinit⟩
    · rw [List.mem_singleton.1 hm]
      exact hmethod
  · intro find hk b σ
    obtain ⟨σ', hexec⟩ := says_pending d find hk b σ
    exact ⟨chars d.buffer, σ', hexec, by simp [hbuffer]⟩
  · intro find hk
    have hk' : Knows find (known ++ added) := hk.mono (by
      rw [← List.append_assoc]; exact List.subset_append_left _ _)
    exact ⟨_, hk (renderMethod name stmts) (by simp), rfl, fun b => hbody find hk' b []⟩

end TwinView.Server
