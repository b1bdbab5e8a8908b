import TwinView.Script.Compiled

/-!
Runs of compilers of scripts. A compiler that does not refuse takes a scope to a scope and gives a
result.
-/

namespace TwinView.Script

variable {α β : Type}

theorem run_bind (x : Compile α) (f : α → Compile β) (s : Scope) :
    (x >>= f).run.run s =
      match x.run.run s with
      | (.ok a, s') => (f a).run.run s'
      | (.error e, s') => (.error e, s') := by
  simp only [ExceptT.run_bind, StateT.run_bind]
  obtain ⟨r, t⟩ := x.run.run s
  cases r <;> rfl

theorem run_get_bind (f : Scope → Compile α) (s : Scope) :
    (get >>= f).run.run s = (f s).run.run s := rfl

/-- The compiler accepts with the result `a`, and takes the scope `s` to `s'`. -/
def Yields (x : Compile α) (s : Scope) (a : α) (s' : Scope) : Prop := x.run.run s = (.ok a, s')

@[simp] theorem yields_pure {a b : α} {s s' : Scope} :
    Yields (pure a) s b s' ↔ b = a ∧ s' = s := by
  constructor
  · intro h
    cases h
    exact ⟨rfl, rfl⟩
  · rintro ⟨rfl, rfl⟩
    rfl

@[simp] theorem yields_bind {x : Compile α} {f : α → Compile β} {s s' : Scope} {b : β} :
    Yields (x >>= f) s b s' ↔ ∃ a t, Yields x s a t ∧ Yields (f a) t b s' := by
  simp only [Yields, ExceptT.run_bind, StateT.run_bind]
  obtain ⟨r, t⟩ := x.run.run s
  cases r with
  | error e =>
      constructor
      · intro h
        cases h
      · rintro ⟨a, u, hx, -⟩
        cases hx
  | ok a =>
      constructor
      · intro h
        exact ⟨a, t, rfl, h⟩
      · rintro ⟨a', t', ht, h⟩
        cases ht
        exact h

@[simp] theorem yields_get {s t s' : Scope} : Yields get s t s' ↔ t = s ∧ s' = s :=
  yields_pure (s := s)

@[simp] theorem yields_set {s t s' : Scope} {u : PUnit} : Yields (set t) s u s' ↔ s' = t := by
  constructor
  · intro h
    cases h
    rfl
  · rintro rfl
    rfl

@[simp] theorem yields_modify {f : Scope → Scope} {s s' : Scope} {u : PUnit} :
    Yields (modify f) s u s' ↔ s' = f s := by
  constructor
  · intro h
    cases h
    rfl
  · rintro rfl
    rfl

@[simp] theorem yields_refuse {fault : ScriptFault} {i : Nat} {s s' : Scope} {a : α} :
    ¬ Yields (refuse fault i) s a s' := by
  intro h
  cases h

theorem yields_of_compile {names : Code.Names} {source : String} {t : Compiled}
    (h : (compile names source).1 = .ok t) :
    ∃ program s, parse source = .ok program ∧ Yields (compileProgram program) { names } t.methods s ∧
      s.names = (compile names source).2 ∧ t.reads = s.reads ∧ t.writes = s.writes := by
  unfold compile at h ⊢
  split at h
  · cases h
  · next program hp =>
      refine ⟨program, ?_⟩
      split at h
      · next methods s hy =>
          cases h
          exact ⟨s, hp, hy, rfl, rfl, rfl⟩
      · cases h

def Gives (x : Compile α) (Q : α → Prop) : Prop := ∀ s a s', Yields x s a s' → Q a

theorem Gives.pure {Q : α → Prop} {a : α} (h : Q a) : Gives (pure a) Q := by
  intro s b s' hb
  rw [(yields_pure.1 hb).1]
  exact h

theorem Gives.bind {Q : α → Prop} {R : β → Prop} {x : Compile α} {f : α → Compile β}
    (hx : Gives x Q) (hf : ∀ a, Q a → Gives (f a) R) : Gives (x >>= f) R := by
  intro s b s' h
  obtain ⟨a, t, ha, hb⟩ := yields_bind.1 h
  exact hf a (hx s a t ha) t b s' hb

theorem Gives.refuse {Q : α → Prop} {fault : ScriptFault} {i : Nat} :
    Gives (refuse fault i) Q := fun _ _ _ h => absurd h yields_refuse

theorem Gives.mono {Q R : α → Prop} {x : Compile α} (hx : Gives x Q) (h : ∀ a, Q a → R a) :
    Gives x R := fun s a s' ha => h a (hx s a s' ha)

theorem Gives.and {Q R : α → Prop} {x : Compile α} (hq : Gives x Q) (hr : Gives x R) :
    Gives x fun a => Q a ∧ R a := fun s a s' ha => ⟨hq s a s' ha, hr s a s' ha⟩

theorem Gives.trivial {x : Compile α} : Gives x fun _ => True := fun _ _ _ _ => True.intro

theorem compileExprs_one (e : Expr) : compileExprs [e] = (compileExpr e >>= fun c => pure [c]) := by
  simp [compileExprs]

/-- What `new` gives: an empty array of the length that is its one argument, unless this is no length; an
array of its arguments; or a refusal, unless it makes an array. -/
theorem compileExpr_new (i : Nat) (target : Expr) (args : List Expr) :
    (∃ j, target = .name j "Array" ∧
      ((∃ arg x, args = [arg] ∧ literalNumber? arg = some x ∧
        ((∃ size, compileExpr (.new i target args) = pure (.array .object size [] false)) ∨
          compileExpr (.new i target args) = refuse (.arrayLength x.plain) arg.start)) ∨
      compileExpr (.new i target args) =
        (compileExprs args >>= fun items => pure (.array .object 0 items false)))) ∨
    compileExpr (.new i target args) = refuse .unsupportedNew i := by
  unfold compileExpr
  split
  · refine Or.inl ⟨_, rfl, ?_⟩
    split
    · next arg =>
        split
        · next x hx =>
            refine Or.inl ⟨arg, x, rfl, hx, ?_⟩
            split
            · exact Or.inl ⟨_, rfl⟩
            · exact Or.inr rfl
        · refine Or.inr ?_
          rw [compileExprs_one, bind_assoc]
          rfl
    · exact Or.inr rfl
  · exact Or.inr rfl

end TwinView.Script
