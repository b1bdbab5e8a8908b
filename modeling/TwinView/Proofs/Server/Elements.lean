import TwinView.Proofs.Server.Additions
import TwinView.Proofs.Server.Calls

/-!
Elements with attributes that the client has to finish. Whatever the values of the hybrid attributes
are, the element is followed by one script with all its calls, or by none if there is no call to make.
-/

namespace TwinView.Server

open Code

variable {s : Settings} {d d' d₀ : Draft} {e : Element} {p : Pending} {id : ElementId}

namespace Succeeds

theorem inFrame {ofMethod : Bool} {body : Build Unit} (h : Succeeds body fun _ => True) :
    Succeeds (inFrame ofMethod body) fun _ => True := by
  rw [inFrame_eq]
  exact (Succeeds.modify _).seq fun _ => h.seq fun _ => succeeds_flush.seq fun _ => .modifyGet _

theorem addCondition {test : Expr} {body : Build Unit} (h : Succeeds body fun _ => True) :
    Succeeds (addCondition test body) fun _ => True := h.inFrame.seq fun _ => succeeds_add _

end Succeeds

theorem succeeds_putScriptTag : Succeeds (putScriptTag s) fun _ => True :=
  (succeeds_putScriptOpen false).seq fun _ => succeeds_put _

theorem succeeds_putData (es : List Expr) : Succeeds (putData es) fun _ => True := by
  induction es with
  | nil => exact .pure True.intro
  | cons e rest ih =>
      cases rest with
      | nil => exact succeeds_flush.seq fun _ => succeeds_add _
      | cons e' rest =>
          exact succeeds_flush.seq fun _ => (succeeds_add _).seq fun _ => (succeeds_put _).seq fun _ => ih

theorem succeeds_putAttributeCall (attributes : List (String × Client.Data)) (id : ElementId) (n : Nat) :
    Succeeds (putAttributeCall attributes id n) fun _ => True := by
  refine (succeeds_ensureExtras false).seq fun _ => (succeeds_put _).seq fun _ =>
    (succeeds_putData _).seq fun _ =>
      ((succeeds_put _).seq fun _ => .modify _ : Succeeds putCall _).seq fun _ => ?_
  cases id with
  | declared id => exact succeeds_flush.seq fun _ => (succeeds_add _).seq fun _ => succeeds_put _
  | given id => exact (succeeds_put _).seq fun _ => succeeds_put _

theorem succeeds_buildHybridCalls (id : ElementId) (opened : Option Expr) (hs : List Hybrid) :
    Succeeds (buildHybridCalls s id opened hs) fun _ => True := by
  induction hs with
  | nil => exact .pure True.intro
  | cons h rest ih =>
      rw [buildHybridCalls_cons]
      refine succeeds_flush.seq fun _ => (Succeeds.addCondition ?_).seq fun _ => ih
      cases opened with
      | none => exact succeeds_putAttributeCall _ id _
      | some flag =>
          exact (Succeeds.modify _).seq fun _ => succeeds_putScriptTag.inFrame.seq fun _ =>
            (succeeds_add _).seq fun _ => succeeds_putAttributeCall _ id _

theorem succeeds_buildPending (p : Pending) (id : ElementId) :
    Succeeds (buildPending s p id) fun _ => True := by
  unfold buildPending
  split
  · exact (succeeds_declare _ _ _).seq fun _ => (succeeds_buildHybridCalls id _ _).seq fun _ =>
      (succeeds_put _).addCondition
  · exact (Succeeds.modify _).seq fun _ => succeeds_putScriptTag.seq fun _ =>
      (succeeds_putAttributeCall _ id _).seq fun _ => (succeeds_buildHybridCalls id _ _).seq fun _ =>
        succeeds_put _

/-- Behind its attributes an element has its id, the rest of its own, and the script that finishes its
attributes. -/
theorem runs_buildElement_pending (hattributes : Runs (buildUpTo s e e.attributes) d p d₀)
    (hp : p.isEmpty = false) (hr : Runs (buildElement s e (buildEach s e.children)) d () d') :
    ∃ id d₁ d₂, Runs (buildElementId e p) d₀ id d₁ ∧
      Runs (buildBody s e (buildEach s e.children)) d₁ () d₂ ∧ Runs (buildPending s p id) d₂ () d' := by
  rw [buildElement_eq] at hr
  obtain ⟨p', d₀', hattributes', hbehind⟩ := runs_bind.1 hr
  cases hattributes.symm.trans hattributes'
  unfold buildBehind at hbehind
  rw [if_neg (by simp [hp])] at hbehind
  obtain ⟨id, d₁, hid, hrest⟩ := runs_bind.1 hbehind
  obtain ⟨_, d₂, hbody, hpending⟩ := runs_bind.1 hrest
  exact ⟨id, d₁, d₂, hid, hbody, hpending⟩

theorem exists_finishes (hp : p.isEmpty = false) (hd : d.frames ≠ [])
    (hr : Runs (buildPending s p id) d () d') (truth : Expr → Bool) (page : Page) :
    ∃ script, Finishes s truth p id script ∧
      (d'.render truth page).out = (d.render truth page).out ++ script := by
  obtain ⟨ps, hcontinues, -, hscript⟩ := prints_buildPending (i := False) hp d () d' hd False.elim hr
  rw [hcontinues.render]
  exact hscript truth _

/-- The script behind an element can always be built. For all values that may be undefined, it is one
script element with one call for all that is deferred and one for each undefined value in order, or
nothing if there is no call to make. An element writes its id if the script needs one, then the rest of
its own, and then just this script. -/
theorem finishes_buildElement (hp : p.isEmpty = false) :
    (∀ (id : ElementId) (d : Draft), d.frames ≠ [] → ∃ d', Runs (buildPending s p id) d () d' ∧
      ∀ (truth : Expr → Bool) (page : Page), ∃ script, Finishes s truth p id script ∧
        (d'.render truth page).out = (d.render truth page).out ++ script) ∧
    ∀ (e : Element) (d d₀ d' : Draft), d.frames ≠ [] → Runs (buildUpTo s e e.attributes) d p d₀ →
      Runs (buildElement s e (buildEach s e.children)) d () d' →
        ∃ id d₁ d₂, Runs (buildElementId e p) d₀ id d₁ ∧
          Runs (buildBody s e (buildEach s e.children)) d₁ () d₂ ∧ Runs (buildPending s p id) d₂ () d' ∧
          ∀ (truth : Expr → Bool) (page : Page), ∃ written content script,
            IdAttribute e (p.isCalled truth) id written ∧ Finishes s truth p id script ∧
            (d₁.render truth page).out = (d₀.render truth page).out ++ written ∧
            (d₂.render truth page).out = (d₁.render truth page).out ++ spell (tagEnd s e) ++ content ∧
            (d'.render truth page).out = (d₂.render truth page).out ++ script := by
  constructor
  · intro id d hd
    obtain ⟨_, d', hr, -⟩ := succeeds_buildPending (s := s) p id d
    exact ⟨d', hr, exists_finishes hp hd hr⟩
  · intro e d d₀ d' hd hattributes hr
    obtain ⟨id, d₁, d₂, hid, hbody, hpending⟩ := runs_buildElement_pending hattributes hp hr
    obtain ⟨_, hupTo, -, -⟩ := inserts_buildUpTo e.attributes d p d₀ hd False.elim hattributes
    obtain ⟨_, hnamed, -, hwritten⟩ :=
      prints_buildElementId (i := False) hp d₀ id d₁ hupTo.opened False.elim hid
    obtain ⟨_, hbuilt, -, more, rfl⟩ :=
      prints_buildBody e d₁ () d₂ hnamed.opened False.elim hbody
    refine ⟨id, d₁, d₂, hid, hbody, hpending, fun truth page => ?_⟩
    obtain ⟨written, hattribute, hout⟩ := hwritten truth (d₀.render truth page)
    obtain ⟨content, hcontent⟩ := exists_out_perform truth more
      ((d₁.render truth page).write (spell (tagEnd s e)))
    obtain ⟨script, hfinishes, hscript⟩ := exists_finishes hp hbuilt.opened hpending truth page
    refine ⟨written, content, script, hattribute, hfinishes, ?_, ?_, hscript⟩
    · rw [hnamed.render, hout, Page.out_write]
    · rw [hbuilt.render, perform_append, perform_spell, hcontent, Page.out_write]

/-- A title that is read from the environment. -/
theorem finishes_buildElement_title :
    ∃ d₀ p d' id d₁ d₂, p.isEmpty = false ∧
      Runs (buildUpTo {} (readAttribute "p" "title") (readAttribute "p" "title").attributes) inView p d₀ ∧
      Runs (buildElement {} (readAttribute "p" "title") (buildEach {} [])) inView () d' ∧
      Runs (buildElementId (readAttribute "p" "title") p) d₀ id d₁ ∧ Runs (buildPending {} p id) d₂ () d' ∧
      ∀ (truth : Expr → Bool) (page : Page), ∃ script, Finishes {} truth p id script ∧
        (d'.render truth page).out = (d₂.render truth page).out ++ script := by
  obtain ⟨d', hr⟩ : ∃ d', Runs (buildElement {} (readAttribute "p" "title") (buildEach {} [])) inView () d' :=
    exists_runs_buildElement (by decide +kernel)
  have hr' := hr
  rw [buildElement_eq] at hr'
  obtain ⟨p, d₀, hattributes, -⟩ := runs_bind.1 hr'
  have hp : p.isEmpty = false := by
    have hsome : ((buildUpTo {} (readAttribute "p" "title") (readAttribute "p" "title").attributes).run
        inView).toOption.any (!·.1.isEmpty) := by decide +kernel
    simpa using check_of_any hsome hattributes
  obtain ⟨id, d₁, d₂, hid, -, hpending, hall⟩ :=
    (finishes_buildElement hp).2 _ _ _ _ (List.cons_ne_nil _ _) hattributes hr
  refine ⟨d₀, p, d', id, d₁, d₂, hp, hattributes, hr, hid, hpending, fun truth page => ?_⟩
  obtain ⟨-, -, script, -, hfinishes, -, -, hscript⟩ := hall truth page
  exact ⟨script, hfinishes, hscript⟩

end TwinView.Server
