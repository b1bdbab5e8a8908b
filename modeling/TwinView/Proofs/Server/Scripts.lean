import TwinView.Proofs.Server.Tracing

/-!
Client scripts in what is built: code blocks that the server cannot evaluate, and attributes that the
client has to finish.
-/

namespace TwinView.Server

open Code

variable {α β : Type} {known : List Member} {steady : Bool} {s : Settings} {i j : Prop}

theorem quiet_putScriptOpen (withId : Bool) :
    Quiet known steady i (putScriptOpen s withId) i fun _ _ => True := by
  unfold putScriptOpen
  refine (quiet_put _).bind fun _ _ _ _ => ?_
  dsimp only
  have hid (known : List Member) : Quiet known steady i
      (if withId then put (Markup.openAttribute "id") else pure ()) i fun _ _ => True := by
    split
    · exact quiet_put _
    · exact .pure True.intro
  cases s.scriptTypeAttr with
  | false => exact hid _
  | true => exact (quiet_put _).bind fun _ _ _ _ => hid _

theorem sumsIn_write (e : Expr) : SumsIn known [write e] {} :=
  sumsIn_renderCall (by decide) (by decide) rfl

theorem sumsIn_writeData (e : Expr) : SumsIn known [writeData e] {} :=
  sumsIn_renderCall (by decide) (by decide) rfl

theorem follows_openScriptWithId :
    Does known steady i (openScriptWithId s) (do watchScript; watchSetUp steady) True := by
  refine follows_noteScript.bind fun _ _ _ _ _ => ?_
  refine (quiet_putScriptOpen true).bind fun _ _ _ _ => ?_
  refine quiet_flush.bind fun _ _ _ _ => ?_
  refine (quiet_declare _ _ _).bind fun _ id _ _ => ?_
  refine (quiet_add (sumsIn_write id)).bind fun _ _ _ _ => ?_
  refine (quiet_put _).bind fun _ _ _ _ => ?_
  refine (quiet_put _).bind fun _ _ _ _ => ?_
  exact (follows_ensureExtras false).andQuiet fun _ _ => .pure True.intro

theorem quiet_putData (es : List Expr) : Quiet known steady i (putData es) i fun _ _ => True := by
  induction es generalizing known i with
  | nil => exact .pure True.intro
  | cons e rest ih =>
      cases rest with
      | nil =>
          refine quiet_flush.bind fun _ _ _ _ => ?_
          exact (quiet_add (sumsIn_writeData e)).weaken id (fun _ => True.intro) fun _ _ _ h => h
      | cons e' rest =>
          refine quiet_flush.bind fun _ _ _ _ => ?_
          refine (quiet_add (sumsIn_writeData e)).bind fun _ _ _ _ => ?_
          refine (quiet_put _).bind fun _ _ _ _ => ?_
          exact ih.weaken id (fun _ => True.intro) fun _ _ _ h => h

theorem follows_buildDeferredBlock (b : CodeBlock) :
    Does known steady i (buildDeferredBlock s b) (watchDeferred steady) True := by
  refine Follows.bind follows_openScriptWithId (h := fun _ => watchCall) fun _ id _ _ _ => ?_
  refine (quiet_put _).bind fun _ _ _ _ => ?_
  refine (quiet_putData _).bind fun _ _ _ _ => ?_
  refine follows_putCall.andQuiet fun _ _ => ?_
  refine quiet_flush.bind fun _ _ _ _ => ?_
  refine (quiet_add (sumsIn_writeData id)).bind fun _ _ _ _ => ?_
  refine (quiet_put _).bind fun _ _ _ _ => ?_
  exact quiet_put _

theorem sumsIn_writeSafe (e : Expr) {origin : Origin} (ho : origin = .plain ∨ ∃ b, origin = .value b) :
    SumsIn known [writeSafe s e origin] {} := by
  rcases ho with rfl | ⟨b, rfl⟩ <;>
  · unfold writeSafe
    dsimp only
    split
    · exact sumsIn_renderCall (by decide) (by decide) rfl
    · split
      · exact sumsIn_renderCall (by decide) (by decide) rfl
      · exact sumsIn_renderCall (by decide) (by decide) rfl

theorem sumsIn_writeValue (block : CodeBlock) (e : Expr) : SumsIn known [writeValue s block e] {} := by
  unfold writeValue
  split
  · exact sumsIn_renderCall (by decide) (by decide) rfl
  · exact sumsIn_writeSafe e (Or.inr ⟨block, rfl⟩)

theorem follows_buildBlock (block : CodeBlock) :
    Does known steady i (buildBlock s block) (watchBlock steady block) True := by
  refine (follows_fragment? (unwrapMarkup block) true).bind fun _ r o _ ho => ?_
  obtain ⟨ho, -⟩ := ho
  cases r with
  | error e =>
      cases ho
      exact follows_buildDeferredBlock _
  | ok f =>
      refine quiet_flush.bind fun _ _ _ _ => ?_
      rw [Matches] at ho
      split
      · next hf =>
          rw [if_pos hf] at ho
          rw [ho]
          refine (quiet_declare _ _ _).bind fun _ value _ _ => ?_
          refine follows_inFrame (fun known' stmts S hs => ?_) (follows_buildDeferredBlock _)
          rw [← nil_orElse]
          exact sumsIn_cond (sumsIn_writeValue block value) hs
      · next hf =>
          rw [if_neg hf] at ho
          rw [ho]
          exact quiet_add (sumsIn_writeValue block f.expr)

/-- What is left to the client is what is watched. -/
structure Leaves (p : Pending) (l : Left) : Prop where
  deferred : l.deferred = !p.deferred.isEmpty
  hybrids : l.hybrids = p.hybrids.length

theorem put_ne_nil {γ : Type} (key : String) (value : γ) (entries : List (String × γ)) :
    (Json.put key value entries).isEmpty = false := by
  cases entries with
  | nil => rfl
  | cons e rest =>
      unfold Json.put
      split <;> rfl

theorem Leaves.defer {p : Pending} {l : Left} (h : Leaves p l) (name : String) (b : CodeBlock) :
    Leaves (p.defer name b) { l with deferred := true } :=
  ⟨by simp [Pending.defer, put_ne_nil], h.hybrids⟩

theorem quiet_putAttribute {name : String} {stmt : Stmt} (h : ∀ known, SumsIn known [stmt] {}) :
    Quiet known steady i (putAttribute name stmt) True fun _ _ => True := by
  refine (quiet_put _).bind fun _ _ _ _ => ?_
  refine quiet_flush.bind fun _ _ _ _ => ?_
  refine (quiet_add (h _)).bind fun _ _ _ _ => ?_
  exact quiet_put _

theorem Quiet.andReturn {x : Build Unit} {p : Pending} {l : Left}
    (h : Quiet known steady i x j fun _ _ => True) (hl : Leaves p l) :
    Follows known steady i (x >>= fun _ => pure p) (pure l) False fun _ p l => Leaves p l :=
  h.bind fun _ _ _ _ => (Follows.pure hl).weaken (fun h => h) False.elim fun _ _ _ h => h

theorem follows_return {p : Pending} {l : Left} (hl : Leaves p l) :
    Follows known steady i (pure p) (pure l) False fun _ p l => Leaves p l :=
  (Follows.pure hl).weaken (fun h => h) False.elim fun _ _ _ h => h

theorem watchAttribute_other {e : Element} {l : Left} {name : String} {value : Node}
    (h : ∀ block, value ≠ .code block) : watchAttribute e l name (some value) = pure l := by
  unfold watchAttribute
  split
  · next block he =>
      cases he
      exact absurd rfl (h block)
  · rfl

theorem follows_buildFlag {p : Pending} {l : Left} (hl : Leaves p l) {e : Element} {name : String}
    (hf : Vocabulary.isFlagAttribute name) (value : Node) :
    Follows known steady i (buildFlag s p name value) (watchAttribute e l name (some value)) False
      fun _ p l => Leaves p l := by
  unfold buildFlag
  split
  · dsimp only
    split
    · exact (quiet_put _).andReturn hl
    · exact follows_return hl
  · next b =>
      simp only [watchAttribute, hf, if_true]
      refine (follows_fragment? b false).bind fun _ r o _ ho => ?_
      obtain ⟨ho, hd⟩ := ho
      cases r with
      | error e =>
          cases ho
          exact follows_return (hl.defer name b)
      | ok f =>
          have hsure : o = .sure := by
            rw [Matches] at ho
            split at ho
            · exact absurd (hd ho) (by simp)
            · exact ho
          rw [hsure]
          refine quiet_flush.bind fun _ _ _ _ => ?_
          exact (quiet_addCondition (quiet_put _)).andReturn hl
  · next hcode =>
      rw [watchAttribute_other hcode]
      exact follows_return hl

theorem follows_buildLink {p : Pending} {l : Left} (hl : Leaves p l) {e : Element} {name : String}
    (hf : ¬ Vocabulary.isFlagAttribute name) (hk : e.isLinkAttribute name) (value : Node) :
    Follows known steady i (buildLink s e p name value) (watchAttribute e l name (some value)) False
      fun _ p l => Leaves p l := by
  unfold buildLink
  split
  · refine (quiet_putAttribute fun _ => ?_).andReturn hl
    exact sumsIn_writeSafe _ (Or.inl rfl)
  · next block =>
      simp only [watchAttribute, hf, hk, Bool.true_and]
      refine (follows_fragment? (unwrapMarkup block) true).bind fun _ r o _ ho => ?_
      obtain ⟨ho, -⟩ := ho
      cases r with
      | error e =>
          cases ho
          exact follows_return (hl.defer name block)
      | ok f =>
          have hleft : (if decide (o = .hybrid) = true then pure l else pure (l.after o) : Walk Left) =
              pure l := by
            rw [Matches] at ho
            subst ho
            split <;> simp [Left.after]
          rw [hleft]
          exact (quiet_putAttribute fun _ => sumsIn_writeValue block _).andReturn hl
  · exact .throw

theorem follows_buildPlain {p : Pending} {l : Left} (hl : Leaves p l) {e : Element} {name : String}
    (hf : ¬ Vocabulary.isFlagAttribute name) (hk : ¬ e.isLinkAttribute name) (value : Node) :
    Follows known steady i (buildPlain s e p name value) (watchAttribute e l name (some value)) False
      fun _ p l => Leaves p l := by
  unfold buildPlain
  split
  · exact (quiet_put _).andReturn hl
  · next block =>
      simp only [watchAttribute, hf, hk, Bool.false_and]
      refine (follows_fragment? (unwrapMarkup block) true).bind fun _ r o _ ho => ?_
      obtain ⟨ho, -⟩ := ho
      cases r with
      | error e =>
          cases ho
          exact follows_return (hl.defer name _)
      | ok f =>
          rw [Matches] at ho
          dsimp only
          split
          · next hh =>
              rw [if_pos hh] at ho
              rw [ho]
              refine quiet_flush.bind fun _ _ _ _ => ?_
              refine (quiet_declare _ _ _).bind fun _ value _ _ => ?_
              refine (quiet_addCondition (quiet_putAttribute fun _ =>
                sumsIn_writeValue block value)).bind fun _ _ _ _ => ?_
              refine follows_return ⟨hl.deferred, ?_⟩
              simp [Left.after, hl.hybrids]
          · next hh =>
              rw [if_neg hh] at ho
              rw [ho]
              exact (quiet_putAttribute fun _ => sumsIn_writeValue block f.expr).andReturn hl
  · exact .throw

theorem follows_buildAttributes {p : Pending} {l : Left} (hl : Leaves p l) {e : Element}
    (attributes : List (String × Option Node)) :
    Follows known steady False (buildAttributes s e p attributes) (watchAttributes e l attributes)
      False fun _ p l => Leaves p l := by
  induction attributes generalizing known p l with
  | nil => exact .pure hl
  | cons a rest ih =>
      obtain ⟨name, value⟩ := a
      cases value with
      | none =>
          refine (quiet_put _).bind fun _ _ _ _ => ?_
          exact ih hl
      | some value =>
          by_cases hf : Vocabulary.isFlagAttribute name
          · simp only [buildAttributes, hf, if_true]
            exact (follows_buildFlag hl hf value).bind fun _ _ _ _ hl' => ih hl'
          · by_cases hk : e.isLinkAttribute name
            · simp only [buildAttributes, hf, hk, if_true]
              exact (follows_buildLink hl hf hk value).bind fun _ _ _ _ hl' => ih hl'
            · simp only [buildAttributes, hf, hk]
              exact (follows_buildPlain hl hf hk value).bind fun _ _ _ _ hl' => ih hl'

/-- The id of an element is written for scripts to find, which is no call yet. -/
theorem quiet_buildElementId (e : Element) (p : Pending) :
    Quiet known steady i (buildElementId e p) i fun _ _ => True := by
  unfold buildElementId
  split
  · refine (quiet_declare _ _ _).bind fun _ id _ _ => ?_
    split
    · refine quiet_flush.bind fun _ _ _ _ => ?_
      refine (quiet_addCondition (quiet_putAttribute fun _ => sumsIn_write id)).bind fun _ _ _ _ => ?_
      exact (Follows.pure True.intro).weaken (fun h => h) (fun _ => True.intro) fun _ _ _ h => h
    · exact .pure True.intro
    · refine (quiet_putAttribute fun _ => sumsIn_write id).bind fun _ _ _ _ => ?_
      exact (Follows.pure True.intro).weaken (fun h => h) (fun _ => True.intro) fun _ _ _ h => h
  · exact .pure True.intro
  · exact .throw

theorem follows_putAttributeCall (attributes : List (String × Client.Data)) (id : ElementId)
    (arity : Nat) : Does known steady i (putAttributeCall attributes id arity)
      (do watchSetUp steady; watchCall) False := by
  refine (follows_ensureExtras false).bind fun _ _ _ _ _ => ?_
  refine (quiet_put _).bind fun _ _ _ _ => ?_
  refine (quiet_putData _).bind fun _ _ _ _ => ?_
  refine follows_putCall.andQuiet fun _ _ => ?_
  cases id with
  | declared id =>
      refine quiet_flush.bind fun _ _ _ _ => ?_
      refine (quiet_add (sumsIn_writeData id)).bind fun _ _ _ _ => ?_
      exact Does.forget (quiet_put _)
  | given id => exact (quiet_put _).bind fun _ _ _ _ => quiet_put _

theorem quiet_putScriptTag : Quiet known steady i (putScriptTag s) i fun _ _ => True :=
  (quiet_putScriptOpen false).bind fun _ _ _ _ => quiet_put _

theorem sumsIn_assign (flag value : Expr) :
    SumsIn known [.expr (.operate .assign flag value)] {} :=
  sumsIn_simple rfl (fun _ => rfl) rfl rfl

theorem quiet_openTag (flag : Expr) : Quiet known steady True (do
    let tag ← inFrame false (putScriptTag s)
    add (.cond (.apply .not flag) (.expr (.operate .assign flag (.bool true)) :: tag) [])) True
      fun _ _ => True := by
  refine follows_inFrame (fun known' stmts S hs => ?_) quiet_putScriptTag
  rw [← orElse_nil]
  refine sumsIn_cond (fun c hc => ?_) sumsIn_nil
  rw [← Summary.nil_andThen S]
  exact (sumsIn_assign _ _ c hc).append (hs c hc)

def hybridCall (s : Settings) (id : ElementId) (opened : Option Expr) (h : Hybrid) : Build Unit := do
  match opened with
  | some flag =>
    noteScript
    let tag ← inFrame false (putScriptTag s)
    add (.cond (.apply .not flag) (.expr (.operate .assign flag (.bool true)) :: tag) [])
  | none => pure ()
  putAttributeCall [(h.name, .snippet h.code)] id h.arity

theorem buildHybridCalls_cons (id : ElementId) (opened : Option Expr) (h : Hybrid) (rest : List Hybrid) :
    buildHybridCalls s id opened (h :: rest) = (do
      flush
      addCondition (isUndefined h.value) (hybridCall s id opened h)
      buildHybridCalls s id opened rest) := rfl

theorem follows_hybridCall {id : ElementId} {opened : Option Expr} (h : Hybrid) :
    Does known false True (hybridCall s id opened h) (do
      if opened.isSome then watchScript
      watchSetUp false
      watchCall) False := by
  cases opened with
  | none => exact follows_putAttributeCall _ _ _
  | some flag =>
      refine follows_noteScript.bind fun _ _ _ _ _ => ?_
      rw [← bind_assoc]
      exact (quiet_openTag flag).bind fun _ _ _ _ => follows_putAttributeCall _ _ _

theorem follows_buildHybridCalls {id : ElementId} {opened : Option Expr} (hs : List Hybrid) :
    Does known steady i (buildHybridCalls s id opened hs) (watchHybrids opened.isSome hs.length)
      (hs ≠ [] ∨ i) := by
  induction hs generalizing known i with
  | nil => exact (Follows.pure True.intro).weaken (fun h => h) (by simp) fun _ _ _ h => h
  | cons h rest ih =>
      refine quiet_flush.bind fun _ _ _ _ => ?_
      refine Follows.bind (h := fun _ => watchHybrids opened.isSome rest.length)
        (follows_addCondition (follows_hybridCall h)) fun _ _ _ _ _ => ?_
      exact ih.weaken (fun h => h) (fun _ => Or.inr True.intro) fun _ _ _ h => h

theorem follows_buildPending {p : Pending} {l : Left} (hl : Leaves p l) (hp : p.isEmpty = false)
    (id : ElementId) : Does known steady i (buildPending s p id) (watchLeft steady l) False := by
  unfold buildPending watchLeft
  rw [hl.deferred, hl.hybrids]
  split
  · next hd =>
      have hne : p.hybrids ≠ [] := by
        intro he
        simp [Pending.isEmpty, hd, he] at hp
      simp only [hd]
      refine (quiet_declare _ _ _).bind fun _ flag _ _ => ?_
      refine Does.andQuiet (follows_buildHybridCalls p.hybrids) fun _ _ => ?_
      exact (quiet_addCondition (quiet_put _)).weaken (fun _ => Or.inl hne) False.elim fun _ _ _ h => h
  · next hd =>
      rw [Bool.not_eq_true] at hd
      simp only [hd]
      show Does known steady i _ (do
        watchScript
        (do watchSetUp steady; watchCall)
        watchHybrids false p.hybrids.length) False
      refine follows_noteScript.bind fun _ _ _ _ _ => ?_
      refine quiet_putScriptTag.bind fun _ _ _ _ => ?_
      refine (follows_putAttributeCall _ _ _).bind fun _ _ _ _ _ => ?_
      have hcalls (known : List Member) (i : Prop) : Does known steady i
          (buildHybridCalls s id none p.hybrids) (watchHybrids false p.hybrids.length)
          (p.hybrids ≠ [] ∨ i) := follows_buildHybridCalls p.hybrids
      refine Does.andQuiet (hcalls _ _) fun _ _ => ?_
      exact Does.forget (quiet_put _)

end TwinView.Server
