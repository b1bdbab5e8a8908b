import TwinView.Proofs.Outcome
import TwinView.Server.Builder

/-!
Runs of builders. A builder that succeeds takes a draft to a draft and gives a result; a run of a
sequence is a run of its first step followed by a run of the rest. Everything that is said about
built classes starts from the runs of the primitive steps.
-/

namespace TwinView.Server

open Code

variable {α β : Type}

/-- The builder succeeds on `d` with the result `a` and leaves `d'`. -/
def Runs (x : Build α) (d : Draft) (a : α) (d' : Draft) : Prop := x.run d = .ok (a, d')

@[simp] theorem runs_pure {a b : α} {d d' : Draft} :
    Runs (pure a) d b d' ↔ b = a ∧ d' = d := by
  constructor
  · intro h
    cases h
    exact ⟨rfl, rfl⟩
  · rintro ⟨rfl, rfl⟩
    rfl

@[simp] theorem runs_bind {x : Build α} {f : α → Build β} {d d' : Draft} {b : β} :
    Runs (x >>= f) d b d' ↔ ∃ a e, Runs x d a e ∧ Runs (f a) e b d' := by
  simp only [Runs, StateT.run_bind]
  cases x.run d with
  | error e => simp [bind, Except.bind]
  | ok p =>
      obtain ⟨a, e⟩ := p
      constructor
      · intro h
        exact ⟨a, e, rfl, h⟩
      · rintro ⟨a', e', he, h⟩
        cases he
        exact h

@[simp] theorem runs_get {d e d' : Draft} : Runs get d e d' ↔ e = d ∧ d' = d := runs_pure (d := d)

@[simp] theorem runs_set {d e d' : Draft} {u : PUnit} : Runs (set e) d u d' ↔ d' = e := by
  constructor
  · intro h
    cases h
    rfl
  · rintro rfl
    rfl

@[simp] theorem runs_modify {f : Draft → Draft} {d d' : Draft} {u : PUnit} :
    Runs (modify f) d u d' ↔ d' = f d := by
  constructor
  · intro h
    cases h
    rfl
  · rintro rfl
    rfl

@[simp] theorem runs_modifyGet {f : Draft → α × Draft} {d d' : Draft} {a : α} :
    Runs (modifyGet f) d a d' ↔ (a, d') = f d := by
  constructor
  · intro h
    exact (Except.ok.inj h).symm
  · intro h
    exact congrArg Except.ok h.symm

@[simp] theorem runs_throw {e : Error} {d d' : Draft} {a : α} :
    ¬ Runs (throw e) d a d' := by
  intro h
  cases h

theorem exists_runs {x : Build α} {d : Draft} (h : (x.run d).isOk) : ∃ a d', Runs x d a d' := by
  obtain ⟨r, hr⟩ := exists_ok h
  exact ⟨r.1, r.2, hr⟩

theorem visit_eq (x : Build Unit) : visit x = x := rfl

theorem inFrame_eq (ofMethod : Bool) (body : Build Unit) : inFrame ofMethod body = (do
    modify fun d => { d with frames := { ofMethod } :: d.frames }
    body
    flush
    modifyGet Draft.close) := rfl

/-- A view is built by a run that starts from an empty class. -/
theorem runs_buildView {s : Settings} {v : View} {c : ClassDecl} (h : buildView s v = .ok c) :
    ∃ package name d', Runs (do promote (← buildRenderMethod (runAll (buildEach s v.children))))
      { target := viewClass package name } () d' ∧ c = d'.target := by
  unfold buildView at h
  dsimp only at h
  split at h
  · cases h
  · generalize hr : StateT.run _ _ = r at h
    cases r with
    | error e => cases h
    | ok r =>
        cases h
        exact ⟨_, _, r.2, hr, rfl⟩

end TwinView.Server
