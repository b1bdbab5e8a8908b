import TwinView.Proofs.Script.Lexing
import TwinView.Proofs.Server.Placement
import TwinView.Proofs.Server.Required

/-!
Calls whose arguments the server cannot evaluate. Such a call is meant to be left to the client, but
the script that would make it evaluates the same arguments on the server once more, to write them as
data. Whether a block is refused does not depend on what was compiled before it, so what was refused at
first is refused again, and no draft gets past the call.
-/

namespace TwinView

namespace Script

open Text

variable {source word : String} {rest : List Char} {ts : List Token} {t : Token}

/-- A text that begins with a word has that word for its first token. -/
theorem exists_first_of_word (hs : source.toList = word.toList ++ rest)
    (hstart : word.toList.head?.any isNameStart) (hparts : word.toList.all isNamePart)
    (hrest : Apart rest) (h : tokenize source = .ok ts) :
    ∃ t us, ts = t :: us ∧ t.lexeme = wordLexeme word := by
  have hscans := scans_tokenize source
  rw [hs, h] at hscans
  obtain ⟨vs, hvs, hword⟩ := lexed_word word hstart hparts 0 rest _ hrest
    (scans_scanAll (Nat.lt_succ_self _))
  have heq := hscans.unique hword
  generalize scanAll (rest.length + 1) _ rest = outcome at heq
  cases outcome with
  | error fault => cases heq
  | ok us =>
      obtain ⟨t, rfl, ht⟩ := List.map_eq_singleton_iff.1 hvs
      exact ⟨t, us, Except.ok.inj heq, ht⟩

theorem function_of_parseStatement {stop fuel : Nat} {stmt : Stmt} {ts' : List Token}
    (ht : t.lexeme = .keyword "function")
    (h : parseStatement stop fuel (t :: ts) = .ok (stmt, ts')) : ∃ i f, stmt = .function i f := by
  obtain ⟨start, last, lexeme⟩ := t
  subst ht
  cases fuel with
  | zero => simp [parseStatement, unexpected] at h
  | succ fuel =>
      simp only [parseStatement] at h
      obtain ⟨⟨f, us⟩, -, h⟩ := bind_eq_ok.1 h
      cases h
      exact ⟨_, f, rfl⟩

theorem methods_ne_nil {names : Code.Names} {compiled : Compiled}
    (hs : source.toList = "function".toList ++ rest) (hrest : Apart rest)
    (h : (compile names source).1 = .ok compiled) : compiled.methods ≠ [] := by
  obtain ⟨program, s, hp, hy, -⟩ := yields_of_compile h
  obtain ⟨ts, htokens, hp⟩ := bind_eq_ok.1 hp
  obtain ⟨t, us, rfl, ht⟩ := exists_first_of_word hs (by decide) (by decide) hrest htokens
  rw [show 16 * ((t :: us).length + 2) = (16 * ((t :: us).length + 1) + 15) + 1 by omega,
    parseProgram.eq_def] at hp
  obtain ⟨⟨stmt, vs⟩, hstmt, hp⟩ := bind_eq_ok.1 hp
  obtain ⟨i, f, rfl⟩ := function_of_parseStatement ht hstmt
  obtain ⟨stmts, -, hp⟩ := bind_eq_ok.1 hp
  cases hp
  obtain ⟨m, _, -, hy⟩ := yields_bind.1 hy
  obtain ⟨ms, _, -, hy⟩ := yields_bind.1 hy
  rw [(yields_pure.1 hy).1]
  exact List.cons_ne_nil m ms

end Script

namespace Server

open Code

variable {α β : Type} {s : Settings} {c : Call} {e : Error} {name : String}

/-- In every draft the builder succeeds, with a result of which `P` holds. -/
def Succeeds (x : Build α) (P : α → Prop) : Prop := ∀ d, ∃ a d', Runs x d a d' ∧ P a

/-- In every draft the builder gives up with the error `e`. -/
def GivesUp (e : Error) (x : Build α) : Prop := ∀ d, x.run d = .error e

namespace Succeeds

variable {P : α → Prop} {Q : β → Prop}

theorem pure {a : α} (h : P a) : Succeeds (Pure.pure a) P := fun d => ⟨a, d, rfl, h⟩

theorem bind {x : Build α} {f : α → Build β} (hx : Succeeds x P) (hf : ∀ a, P a → Succeeds (f a) Q) :
    Succeeds (x >>= f) Q := by
  intro d
  obtain ⟨a, e, hr, ha⟩ := hx d
  obtain ⟨b, d', hr', hb⟩ := hf a ha e
  exact ⟨b, d', runs_bind.2 ⟨a, e, hr, hr'⟩, hb⟩

theorem seq {x : Build α} {f : α → Build β} (hx : Succeeds x fun _ => True)
    (hf : ∀ a, Succeeds (f a) Q) : Succeeds (x >>= f) Q := hx.bind fun a _ => hf a

theorem modify (f : Draft → Draft) : Succeeds (modify f) fun _ => True :=
  fun d => ⟨(), f d, rfl, True.intro⟩

theorem modifyGet (f : Draft → α × Draft) : Succeeds (modifyGet f) fun _ => True :=
  fun d => ⟨(f d).1, (f d).2, rfl, True.intro⟩

theorem get : Succeeds get fun _ => True := fun d => ⟨d, d, rfl, True.intro⟩

theorem ite {p : Prop} [Decidable p] {x y : Build α} (hx : Succeeds x P) (hy : Succeeds y P) :
    Succeeds (if p then x else y) P := by
  split
  · exact hx
  · exact hy

theorem givesUp {x : Build α} {f : α → Build β} (hx : Succeeds x P)
    (hf : ∀ a, P a → GivesUp e (f a)) : GivesUp e (x >>= f) := by
  intro d
  obtain ⟨a, e', hr, ha⟩ := hx d
  rw [StateT.run_bind, show x.run d = .ok (a, e') from hr]
  exact hf a ha e'

end Succeeds

theorem GivesUp.throw : GivesUp e (throw e : Build α) := fun _ => rfl

theorem succeeds_put (markup : String) : Succeeds (put markup) fun _ => True := .modify _

theorem succeeds_flush : Succeeds flush fun _ => True := .modify _

theorem succeeds_add (stmt : Stmt) : Succeeds (add stmt) fun _ => True := .modify _

theorem succeeds_addMember (m : Member) : Succeeds (addMember m) fun _ => True := .modify _

theorem succeeds_addMethods (ms : List Method) : Succeeds (addMethods ms) fun _ => True := .modify _

theorem succeeds_freshName (stem : String) : Succeeds (freshName stem) fun _ => True := .modifyGet _

theorem succeeds_declare (type : Ty) (stem : String) (init : Expr) :
    Succeeds (declare type stem init) fun _ => True :=
  (succeeds_freshName _).seq fun _ => (succeeds_add _).seq fun _ => .pure True.intro

theorem succeeds_ensureExtras (inMarkup : Bool) : Succeeds (ensureExtras inMarkup) fun _ => True :=
  Succeeds.get.seq fun _ => .ite
    (succeeds_flush.seq fun _ => (succeeds_add _).seq fun _ => .modify _) (.pure True.intro)

theorem succeeds_addToInit (stmt : Stmt) : Succeeds (addToInit stmt) fun _ => True :=
  Succeeds.get.seq fun _ => .ite ((succeeds_addMember _).seq fun _ => .modify _) (.modify _)

theorem succeeds_putScriptOpen (withId : Bool) : Succeeds (putScriptOpen s withId) fun _ => True := by
  have hid : Succeeds (if withId then put (Markup.openAttribute "id") else pure ()) fun _ => True :=
    .ite (succeeds_put _) (.pure True.intro)
  exact (succeeds_put _).seq fun _ => .ite ((succeeds_put _).seq fun _ => hid) hid

theorem succeeds_openScriptWithId : Succeeds (openScriptWithId s) fun _ => True :=
  (Succeeds.modify _).seq fun _ => (succeeds_putScriptOpen true).seq fun _ =>
    succeeds_flush.seq fun _ => (succeeds_declare _ _ _).seq fun _ => (succeeds_add _).seq fun _ =>
      (succeeds_put _).seq fun _ => (succeeds_put _).seq fun _ =>
        (succeeds_ensureExtras _).seq fun _ => .pure True.intro

def errorOf : Except Error α → Option Error
  | .error e => some e
  | .ok _ => none

theorem errorOf_map (f : α → β) (x : Except Error α) : errorOf (x.map f) = errorOf x := by
  cases x <;> rfl

theorem clientCode_methods_ne_nil {names : Names} {b : CodeBlock} {t : Script.Compiled}
    (h : (Script.compile names (clientCode b)).1 = .ok t) : t.methods ≠ [] := by
  obtain ⟨params, behind, hopen⟩ : ∃ params behind : String,
      b.clientOpening false = "function(" ++ params ++ behind := ⟨_, _, rfl⟩
  have hs : (clientCode b).toList = "function".toList ++ '(' :: (params.toList ++ behind.toList ++
      (Text.trim b.value).toList ++ (b.clientClosing false).toList) := by
    rw [clientCode_toList, hopen, String.toList_append, String.toList_append]
    simp only [List.append_assoc]
    rfl
  exact Script.methods_ne_nil hs (Script.apart_cons (by decide) _) h

/-- A block is refused in a draft as it is refused on its own. -/
theorem succeeds_fragment? (b : CodeBlock) (canDefer : Bool) :
    Succeeds (fragment? b canDefer) fun r => errorOf r = refusal? b := by
  intro d
  unfold fragment?
  cases hc : (Script.compile d.names (clientCode b)).1 with
  | error r =>
      refine ⟨.error (.script r.fault (placeInTemplate b r.index)),
        { d with names := (Script.compile d.names (clientCode b)).2 }, ?_, (refusal?_eq_some hc).symm⟩
      simp [hc]
  | ok t =>
      have hnone : refusal? b = none := by
        unfold refusal?
        cases h : (Script.compile {} (clientCode b)).1 with
        | ok t => rfl
        | error r => cases hc.symm.trans (Script.compile_refused d.names h)
      obtain ⟨m, rest, hm⟩ := List.exists_cons_of_ne_nil (clientCode_methods_ne_nil hc)
      have hrest : Succeeds (do
          addMethods (inlined m rest).2
          if t.hasExtras && canDefer then modify fun d => { d with needsExtras := true }
          return Except.ok { expr := (inlined m rest).1, hybrid := t.hasExtras && canDefer })
          fun r : Except Error Fragment => errorOf r = refusal? b :=
        (succeeds_addMethods _).seq fun _ => .ite
          ((Succeeds.modify _).seq fun _ => .pure hnone.symm) (.pure hnone.symm)
      obtain ⟨r, d', hr, he⟩ := hrest { d with names := (Script.compile d.names (clientCode b)).2 }
      refine ⟨r, d', ?_, he⟩
      rw [runs_bind]
      refine ⟨d, d, runs_get.2 ⟨rfl, rfl⟩, ?_⟩
      rw [runs_bind]
      refine ⟨(), _, runs_set.2 rfl, ?_⟩
      rw [hc]
      dsimp only
      rw [hm]
      exact hr

/-- The arguments are evaluated unless one is refused, and then the first one that is refused tells
why. -/
theorem succeeds_arguments? (args : List (Option CodeBlock × Param)) :
    Succeeds (arguments? args) fun r =>
      errorOf r = (args.filterMap (·.1)).findSome? refusal? := by
  induction args with
  | nil => exact .pure rfl
  | cons a rest ih =>
      obtain ⟨b, param⟩ := a
      cases b with
      | none => exact ih.bind fun r hr => .pure ((errorOf_map _ r).trans hr)
      | some b =>
          refine (succeeds_fragment? b false).bind fun r hb => ?_
          have hargs : (((some b, param) :: rest).filterMap (·.1)).findSome? refusal? =
              (errorOf r).or ((rest.filterMap (·.1)).findSome? refusal?) := by
            have hcons : ((some b, param) :: rest).filterMap (·.1) = b :: rest.filterMap (·.1) := rfl
            rw [hb, hcons, List.findSome?_cons]
            cases refusal? b <;> rfl
          rw [hargs]
          cases r with
          | error e => exact .pure rfl
          | ok f => exact ih.bind fun r' hr => .pure ((errorOf_map _ r').trans hr)

end Server

namespace CallOf

/-- Why the server cannot evaluate the arguments of a call: what is wrong with the first of them that
is refused. -/
def refusal? (c : Call) : Option Error :=
  ([c.data, c.index, c.count, c.key].filterMap Server.argumentBlock?).findSome? Server.refusal?

end CallOf

namespace Server

open Code

variable {s : Settings} {c : Call} {e : Error} {name : String} {parts : List (PartOf (Build Unit))}

theorem succeeds_callArguments (c : Call) :
    Succeeds (arguments? (callArguments c)) fun r => errorOf r = c.refusal? := by
  have h := succeeds_arguments? (callArguments c)
  rwa [filterMap_callArguments] at h

theorem givesUp_buildDeferredCall (hname : calledName? c.view = some name) (he : c.refusal? = some e) :
    GivesUp e (buildDeferredCall s c) := by
  have hview : putCalledView s c = put (s.clientName name) := by
    unfold putCalledView
    rw [hname]
  unfold buildDeferredCall
  rw [hview]
  refine succeeds_openScriptWithId.givesUp fun _ _ => (succeeds_put _).givesUp fun _ _ =>
    (succeeds_put _).givesUp fun _ _ => (succeeds_callArguments c).givesUp fun r hr => ?_
  rw [he] at hr
  cases r with
  | error e' =>
      cases hr
      exact .throw
  | ok args => cases hr

theorem givesUp_buildCall (hdefer : c.defer = false) (hname : calledName? c.view = some name)
    (he : c.refusal? = some e) : GivesUp e (buildCall s c parts) := by
  unfold buildCall
  rw [hdefer, if_neg Bool.false_ne_true, hname]
  refine Succeeds.get.givesUp fun d _ => (succeeds_callArguments c).givesUp fun r hr => ?_
  rw [he] at hr
  cases r with
  | error e' => exact (Succeeds.modify _).givesUp fun _ _ => givesUp_buildDeferredCall hname he
  | ok args => cases hr

theorem succeeds_buildCall (hdefer : c.defer = false) (hname : calledName? c.view = some name)
    (hc : c.refusal? = none) : Succeeds (buildCall s c []) fun _ => True := by
  unfold buildCall
  rw [hdefer, if_neg Bool.false_ne_true, hname]
  refine Succeeds.get.seq fun d => (succeeds_callArguments c).bind fun r hr => ?_
  rw [hc] at hr
  cases r with
  | error e => cases hr
  | ok args =>
      exact (succeeds_freshName _).seq fun _ => (succeeds_addMember _).seq fun _ =>
        (Succeeds.pure True.intro).seq fun _ => (succeeds_addToInit _).seq fun _ =>
          succeeds_flush.seq fun _ => succeeds_add _

/-- A call with an argument that the server cannot evaluate is left to the client: building it comes to
an end with what its deferred script builds, and nothing is added to the class. -/
def FallsBack (s : Settings) (c : Call) : Prop :=
  c.refusal?.isSome → ∀ parts d, ∃ names d',
    Runs (buildDeferredCall s c) { d with names } () d' ∧ Runs (buildCall s c parts) d () d' ∧
      d'.target = d.target

/-- A call of a named view is given up, in every draft and with any parts, just if the server cannot
evaluate its arguments, and the first that is refused is blamed. So no such call is left to the
client. -/
theorem givesUp_iff_refused (s : Settings) (hdefer : c.defer = false)
    (hname : calledName? c.view = some name) :
    (∀ e, (∀ parts, GivesUp e (buildCall s c parts)) ↔ c.refusal? = some e) ∧
      (FallsBack s c ↔ c.refusal? = none) := by
  refine ⟨fun e => ⟨fun h => ?_, fun he parts => givesUp_buildCall hdefer hname he⟩, fun h => ?_,
    fun hc h => ?_⟩
  · -- in some draft the call is built, or given up for the reason that its arguments have
    let d : Draft := { target := viewClass none "" }
    cases hc : c.refusal? with
    | none =>
        obtain ⟨_, d', hr, -⟩ := succeeds_buildCall (s := s) hdefer hname hc d
        cases hr.symm.trans (h [] d)
    | some e' =>
        cases (givesUp_buildCall (s := s) hdefer hname hc d).symm.trans (h [] d)
        rfl
  · cases hc : c.refusal? with
    | none => rfl
    | some e =>
        let d : Draft := { target := viewClass none "" }
        obtain ⟨_, d', -, hr, -⟩ := h (by rw [hc]; rfl) [] d
        cases hr.symm.trans (givesUp_buildCall hdefer hname hc d)
  · rw [hc] at h
    cases h

/-- A call whose data is computed by a method that the server does not have. -/
def untranslatableCall : Call where
  view := some (.text .literal "foo.Other" none)
  data := some (.code { kind := .expression, value := "data.foo()" })
  children := [.part { name := "title", children := [.text .literal "Home" none] }]

theorem refusal?_untranslatableCall :
    untranslatableCall.refusal? = some (.script (.unsupportedCall (some "foo")) ⟨0, 1, 0⟩) := by
  decide +kernel

theorem givesUp_iff_refused_untranslatableCall :
    untranslatableCall.defer = false ∧ calledName? untranslatableCall.view = some "foo.Other" ∧
      ∀ parts d, (buildCall {} untranslatableCall parts).run d =
        .error (.script (.unsupportedCall (some "foo")) ⟨0, 1, 0⟩) :=
  ⟨rfl, rfl, ((givesUp_iff_refused {} rfl rfl).1 _).2 refusal?_untranslatableCall⟩

/-- A call that should be left to the client is not built at all. -/
theorem not_fallsBack_untranslatableCall :
    untranslatableCall.defer = false ∧ calledName? untranslatableCall.view = some "foo.Other" ∧
      untranslatableCall.refusal?.isSome ∧ ¬ FallsBack {} untranslatableCall := by
  refine ⟨rfl, rfl, by rw [refusal?_untranslatableCall]; rfl, fun h => ?_⟩
  let d : Draft := { target := viewClass none "V" }
  obtain ⟨_, d', -, hr, -⟩ := h (by rw [refusal?_untranslatableCall]; rfl) [] d
  cases hr.symm.trans (givesUp_buildCall rfl rfl refusal?_untranslatableCall d)

end Server

end TwinView
