import TwinView.Proofs.Server.Generated

/-!
Why a view is refused because of a script. Only the blocks in required positions can be the reason: a block
whose value is rendered is left to the client if the server cannot run it.
-/

namespace TwinView.Server

open Code

variable {α β : Type} {s : Settings} {w : Site} {i j : Prop} {P : Error → Prop} {Q : α → Prop} {x : Build α}
  {f : α → Build β}

def GivesUpFor (P : Error → Prop) (x : Build α) : Prop := ∀ d e, x.run d = .error e → P e

namespace GivesUpFor

theorem pure (a : α) : GivesUpFor P (Pure.pure a) := fun _ _ h => by cases h

theorem modify (g : Draft → Draft) : GivesUpFor P (modify g) := fun _ _ h => by cases h

theorem modifyGet (g : Draft → α × Draft) : GivesUpFor P (modifyGet g) := fun _ _ h => by cases h

theorem get : GivesUpFor P get := fun _ _ h => by cases h

theorem set (d : Draft) : GivesUpFor P (set d) := fun _ _ h => by cases h

theorem bind (hx : GivesUpFor P x) (hf : ∀ d a d', Runs x d a d' → GivesUpFor P (f a)) :
    GivesUpFor P (x >>= f) := by
  intro d e h
  rw [StateT.run_bind] at h
  cases hr : x.run d with
  | error e' =>
      rw [hr] at h
      cases h
      exact hx d e hr
  | ok r =>
      rw [hr] at h
      exact hf d r.1 r.2 hr r.2 e h

theorem seq (hx : GivesUpFor P x) (hf : ∀ a, GivesUpFor P (f a)) : GivesUpFor P (x >>= f) :=
  hx.bind fun _ a _ _ => hf a

theorem inFrame {ofMethod : Bool} {x : Build Unit} (hx : GivesUpFor P x) : GivesUpFor P (inFrame ofMethod x) := by
  rw [inFrame_eq]
  exact (modify _).seq fun _ => hx.seq fun _ => (modify _).seq fun _ => modifyGet _

theorem fragment? (b : CodeBlock) (canDefer : Bool) : GivesUpFor P (fragment? b canDefer) := by
  refine get.seq fun d => (set _).seq fun _ => ?_
  split
  · exact pure _
  · split
    · exact pure _
    · refine (modify _).seq fun _ => ?_
      dsimp only
      split
      · exact (modify _).seq fun _ => pure _
      · exact pure _

theorem addToInit (stmt : Stmt) : GivesUpFor P (addToInit stmt) := by
  refine get.seq fun d => ?_
  split
  · exact (modify _).seq fun _ => modify _
  · exact modify _

theorem tryArguments {args : List (Option CodeBlock × Param)} (h : GivesUpFor P (arguments? args)) :
    GivesUpFor P (tryArguments args) := by
  refine get.seq fun d => h.seq fun r => ?_
  cases r with
  | error _ => exact (modify _).seq fun _ => pure _
  | ok _ => exact pure _

end GivesUpFor

/-- A builder gives up for no fault of a script but one of a required block. -/
theorem Made.givesUpFor {x : Probed α} (h : Made w i x Q j) : GivesUpFor (Blames w.required) (x noProbe) := by
  induction h with
  | result => exact .pure _
  | bind hx _ ihx ihf => exact ihx.bind fun _ a _ hr => ihf a (hx.generates hr).1
  | weaken _ _ _ _ ih => exact ih
  | throw hblames =>
      rintro d e ⟨⟩
      exact hblames
  | get => exact .get
  | put | flush | note | add => exact .modify _
  | freshName => exact .modifyGet _
  | declare => exact (GivesUpFor.modifyGet _).seq fun _ => (GivesUpFor.modify _).seq fun _ => .pure _
  | addToInit => exact .addToInit _
  | newField => exact (GivesUpFor.modifyGet _).seq fun _ => (GivesUpFor.modify _).seq fun _ => .pure _
  | fragment? b canDefer => exact .fragment? b canDefer
  | tryArguments _ ih => exact ih.tryArguments
  | inFrame _ _ ih => exact ih.inFrame
  | inContent _ _ ih =>
      exact GivesUpFor.get.seq fun _ => (GivesUpFor.modify _).seq fun _ => ih.seq fun _ => .modify _
  | buildRenderMethod _ ih =>
      exact (GivesUpFor.modifyGet _).seq fun _ => (GivesUpFor.modify _).seq fun _ => (GivesUpFor.modify _).seq fun _ =>
        ih.inFrame.seq fun _ => (GivesUpFor.modify _).seq fun _ => .pure _
  | buildPart _ _ _ ih =>
      exact (GivesUpFor.modifyGet _).seq fun _ => GivesUpFor.get.seq fun _ => (GivesUpFor.set _).seq fun _ =>
        ih.seq fun _ => (GivesUpFor.modify _).seq fun _ => (GivesUpFor.modify _).seq fun _ => .pure _
  | visit _ ih => exact ih

/-- A view is refused because of a script only if a block that has to run on the server is refused on its
own, for the same reason at the same place. -/
theorem exists_refused_of_buildView {v : View} {fault : ScriptFault} {p : Position}
    (h : buildView s v = .error (.script fault p)) :
    ∃ b ∈ v.required, refusal? b = some (.script fault p) := by
  have hbuild : GivesUpFor (Blames v.required) (do
      promote (← buildRenderMethod (runAll (buildEach s v.children)))) :=
    (made_view s v).givesUpFor.seq fun _ => .modify _
  unfold buildView at h
  dsimp only at h
  split at h
  · cases h
  · generalize hr : StateT.run _ _ = r at h
    cases r with
    | error e =>
        cases h
        exact hbuild _ _ hr _ _ rfl
    | ok r => cases h

/-- A block, an attribute and a test that the server cannot run. Only the test has to run there. -/
def refusedView : View where
  name := "V"
  children := [
    .code { kind := .expression, value := "this", position := some ⟨4, 1, 4⟩ },
    .element { tag := "p", attributes := [
      ("title", some (.code { kind := .expression, value := "this", position := some ⟨20, 1, 20⟩ }))] },
    .branch {
      test := some { kind := .expression, value := " this", position := some ⟨42, 2, 6⟩ }
      children := [.text .literal "a" none] }]

theorem exists_refused_of_buildView_refusedView :
    buildView {} refusedView = .error (.script .thisReference ⟨43, 2, 7⟩) ∧
      ∃ b ∈ refusedView.required, refusal? b = some (.script .thisReference ⟨43, 2, 7⟩) := by
  have hrefused : (match buildView {} refusedView with
      | .error e => decide (e = .script .thisReference ⟨43, 2, 7⟩)
      | .ok _ => false) = true := by
    decide +kernel
  split at hrefused
  · next e h =>
      obtain rfl := of_decide_eq_true hrefused
      exact ⟨h, exists_refused_of_buildView h⟩
  · cases hrefused

end TwinView.Server
