import TwinView.Proofs.Code.Evaluation
import TwinView.Proofs.Script.Scoping
import TwinView.Proofs.Server.Fragments

/-!
When the expression of a method may stand for a call of it. A method that only returns an expression is
not called; the expression stands in its place. Both give the same value and leave the same world, but a
call writes to parameters of its own and the expression to the variables of the caller, so the two agree
exactly where running the expression leaves those variables as they are.
-/

namespace TwinView.Server

open Code
open Script (paramNames)

variable {ν ω : Type}

/-- The expression may stand for the call: it gives the same values, and the same states afterwards. -/
def Inlines (rt : Runtime ν ω) (m : Method) (e : Expr) (σ : State ν ω) : Prop :=
  ∀ v σ', Calls rt m σ v σ' ↔ rt.eval e σ = some (v, σ')

def writesParam (e : Expr) : Bool := e.writes.any fun w => w.target.any (· ∈ paramNames)

/-- The caller has the parameters of rendering, and no variable of the name of a script's local. -/
structure IsCaller (n : Names) (σ : State ν ω) : Prop where
  params : ∀ name ∈ paramNames, (σ.vars name).isSome
  locals : ∀ key given, n.locals.lookup key = some given → given ∉ paramNames → σ.vars given = none

def Usable (n : Names) (name : String) : Prop := name ∈ paramNames ∨ Script.Known n.locals name

variable {n : Names} {source : String} {t : Script.Compiled} {m : Method} {rest : List Method} {e : Expr}
  {rt : Runtime ν ω} {σ : State ν ω}

theorem IsCaller.args (h : IsCaller n σ) :
    ∃ args, renderParams.mapM (fun p => σ.vars p.name) = some args := by
  have hall : ∀ p ∈ renderParams, (σ.vars p.name).isSome :=
    fun p hp => h.params p.name (List.mem_map_of_mem hp)
  generalize renderParams = params at hall
  induction params with
  | nil => exact ⟨[], rfl⟩
  | cons p rest ih =>
      obtain ⟨hp, hrest⟩ := List.forall_mem_cons.1 hall
      obtain ⟨v, hv⟩ := Option.isSome_iff_exists.1 hp
      obtain ⟨vs, hvs⟩ := ih hrest
      exact ⟨v :: vs, by rw [List.mapM_cons, hv, hvs]; rfl⟩

theorem agree_frame (h : IsCaller n σ) {args : List ν}
    (ha : renderParams.mapM (fun p => σ.vars p.name) = some args) :
    Agree (Usable n) σ ⟨frame renderParams args, σ.world⟩ := by
  refine ⟨rfl, fun name hn => ?_⟩
  by_cases hp : name ∈ paramNames
  · exact (frame_of_mem ha hp).symm
  · refine Eq.trans ?_ (frame_of_not_mem args hp).symm
    rcases hn with hn | hb | ⟨key, hk⟩
    · exact absurd hn hp
    · exact absurd (Script.mem_paramNames_of_bound hb) hp
    · exact h.locals key name hk hp

def Writes (e : Expr) (name : String) : Prop := ∃ w ∈ e.writes, w.target = some name

theorem tame_of_inline? (h : (Script.compile n source).1 = .ok t) (hm : t.methods = m :: rest)
    (he : m.inline? = some e) (rt : Runtime ν ω) :
    Tame (Usable n) (fun name => Writes e name ∧ Usable n name) (rt.eval e) := by
  have hk : e.Knows (Usable n) := (isScriptCode_of_inline? h hm he).knows.mono fun _ => Or.inr
  refine tame_eval rt (Or.inl (by decide)) e hk fun w hw name hname hu => ⟨⟨w, hw, ?_⟩, hu⟩
  exact hname

theorem IsCaller.kept (hσ : IsCaller n σ) {v : ν} {σ' : State ν ω} {x : Run ν ω ν}
    (hx : Tame (Usable n) (fun name => Writes e name ∧ Usable n name) x) (hv : x σ = some (v, σ'))
    {name : String} (hn : ¬ (Writes e name ∧ name ∈ paramNames)) : σ'.vars name = σ.vars name := by
  by_cases hw : Writes e name ∧ Usable n name
  · -- the name of a local has no value before, and so none afterwards
    have hp : name ∉ paramNames := fun hp => hn ⟨hw.1, hp⟩
    obtain ⟨key, hk⟩ : ∃ key, n.locals.lookup key = some name := by
      rcases hw.2 with hu | hb | hk
      · exact absurd hu hp
      · exact absurd (Script.mem_paramNames_of_bound hb) hp
      · exact hk
    have hnone := hσ.locals key name hk hp
    have hsome := hx.isSome σ v σ' hv name
    rw [hnone, Option.isSome_none] at hsome
    rw [hnone]
    simpa using hsome
  · exact hx.kept σ v σ' hv name hw

/-- A call gives the value of the expression and the world that it leaves, and keeps the variables of
the caller. -/
theorem calls_iff_eval (h : (Script.compile n source).1 = .ok t) (hm : t.methods = m :: rest)
    (he : m.inline? = some e) (hσ : IsCaller n σ) {v : ν} {σ' : State ν ω} :
    Calls rt m σ v σ' ↔ ∃ τ, rt.eval e σ = some (v, τ) ∧ σ' = { σ with world := τ.world } := by
  have hparams : m.params = renderParams := (Script.compile_isCode h m (by simp [hm])).params
  have htame := tame_of_inline? h hm he rt
  obtain ⟨args, hargs⟩ := hσ.args
  have hagree := agree_frame hσ hargs
  have hgiven : m.params.mapM (fun p => σ.vars p.name) = some args := by rw [hparams, hargs]
  rw [calls_iff (body_of_inline? he) hgiven, hparams]
  constructor
  · rintro ⟨τ, hτ, rfl⟩
    obtain ⟨τ', hτ', hag⟩ := htame.alike _ σ v τ hagree.symm hτ
    exact ⟨τ', hτ', by rw [hag.world]⟩
  · rintro ⟨τ, hτ, rfl⟩
    obtain ⟨τ', hτ', hag⟩ := htame.alike σ _ v τ hagree hτ
    exact ⟨τ', hτ', by rw [hag.world]⟩

theorem not_writes_of_writesParam (h : writesParam e = false) {name : String} (hn : name ∈ paramNames) :
    ¬ Writes e name := by
  rintro ⟨w, hw, ht⟩
  have hany : writesParam e = true :=
    List.any_eq_true.2 ⟨w, hw, by simp [ht, hn]⟩
  rw [h] at hany
  cases hany

/-- The expression of a method that only returns it gives the value that a call gives, and leaves the
same world. It may stand for the call exactly where running it leaves the parameters as they are, which
it does everywhere if it writes to none of them. -/
theorem inlines_iff_params_kept (h : (Script.compile n source).1 = .ok t) (hm : t.methods = m :: rest)
    (he : m.inline? = some e) (rt : Runtime ν ω) (hσ : IsCaller n σ) :
    (∀ v σ', Calls rt m σ v σ' ↔
      ∃ τ, rt.eval e σ = some (v, τ) ∧ σ' = { σ with world := τ.world }) ∧
    (Inlines rt m e σ ↔ ∀ v σ', rt.eval e σ = some (v, σ') →
      ∀ name ∈ paramNames, σ'.vars name = σ.vars name) ∧
    (writesParam e = false → Inlines rt m e σ) := by
  have htame := tame_of_inline? h hm he rt
  have hcalls (v : ν) (σ' : State ν ω) : Calls rt m σ v σ' ↔
      ∃ τ, rt.eval e σ = some (v, τ) ∧ σ' = { σ with world := τ.world } := calls_iff_eval h hm he hσ
  have hiff : Inlines rt m e σ ↔ ∀ v σ', rt.eval e σ = some (v, σ') →
      ∀ name ∈ paramNames, σ'.vars name = σ.vars name := by
    constructor
    · intro hin v σ' hv name _
      obtain ⟨τ, -, rfl⟩ := (hcalls v σ').1 ((hin v σ').2 hv)
      rfl
    · intro hkept v σ'
      have hvars {τ : State ν ω} (hv : rt.eval e σ = some (v, τ)) : { σ with world := τ.world } = τ := by
        have : τ.vars = σ.vars := by
          funext name
          by_cases hp : name ∈ paramNames
          · exact hkept v τ hv name hp
          · exact hσ.kept htame hv fun hw => hp hw.2
        rw [← this]
      rw [hcalls]
      constructor
      · rintro ⟨τ, hv, rfl⟩
        rwa [hvars hv]
      · intro hv
        exact ⟨σ', hv, (hvars hv).symm⟩
  refine ⟨hcalls, hiff, fun hw => hiff.2 fun v σ' hv name hn => ?_⟩
  exact hσ.kept htame hv fun hw' => not_writes_of_writesParam hw hn hw'.1

/-- Steps and sums count; everything else is zero. -/
def counting : Runtime Int Unit where
  perform node operands _ :=
    match node, operands with
    | .prim (.int k) _, [] => some (k, ())
    | .unary .postIncrement _ _, [k] | .unary .preIncrement _ _, [k] => some (k + 1, ())
    | .unary .postDecrement _ _, [k] | .unary .preDecrement _ _, [k] => some (k - 1, ())
    | .binary (.arith .add) _ _ _, [a, b] => some (a + b, ())
    | _, _ => some (0, ())
  truth k := some (k ≠ 0)

def emptyCaller : State Int Unit where
  vars name := if name ∈ paramNames then some 0 else none
  world := ()

theorem isCaller_emptyCaller : IsCaller {} emptyCaller where
  params name hn := by simp [emptyCaller, hn]
  locals key given hk := by cases hk

/-- A source with one method that only returns an expression. -/
theorem exists_inlined_of_any {check : Expr → Bool}
    (h : (Script.compile n source).1.toOption.any (fun t => t.methods.length = 1 &&
      t.methods.all fun m => m.inline?.any check) = true) :
    ∃ t m e, (Script.compile n source).1 = .ok t ∧ t.methods = [m] ∧ m.inline? = some e ∧ check e := by
  obtain ⟨t, hc, h⟩ := exists_ok_of_any h
  simp only [Bool.and_eq_true, decide_eq_true_eq] at h
  obtain ⟨m, hm⟩ := List.length_eq_one_iff.1 h.1
  have hall := h.2
  rw [hm, List.all_cons, List.all_nil, Bool.and_true, Option.any_eq_true] at hall
  obtain ⟨e, he, hcheck⟩ := hall
  exact ⟨t, m, e, hc, hm, he, hcheck⟩

/-- Writes to a property and to the environment, which a call and its expression share. -/
theorem inlines_iff_params_kept_shared :
    ∃ t m e, (Script.compile {} "function(data){return(data.total += other++);}").1 = .ok t ∧
      t.methods = [m] ∧ m.inline? = some e ∧ e.writes.length = 2 ∧
      Inlines counting m e emptyCaller := by
  generalize hs : "function(data){return(data.total += other++);}" = source
  have hok : (Script.compile {} source).1.toOption.any (fun t => t.methods.length = 1 &&
      t.methods.all fun m => m.inline?.any fun e => e.writes.length = 2 && !writesParam e) = true := by
    subst hs
    decide +kernel
  obtain ⟨t, m, e, h, hm, he, hok⟩ := exists_inlined_of_any hok
  simp only [Bool.and_eq_true, decide_eq_true_eq, Bool.not_eq_true'] at hok
  refine ⟨t, m, e, h, hm, he, hok.1, ?_⟩
  exact (inlines_iff_params_kept h hm he counting isCaller_emptyCaller).2.2 hok.2

def indexStep : Expr := .unary .postIncrement (.var "index" .int false) true

def isIndexStep : Expr → Bool
  | .unary .postIncrement (.var "index" .int false) true => true
  | _ => false

theorem eq_of_isIndexStep (h : isIndexStep e) : e = indexStep := by
  unfold isIndexStep at h
  split at h
  · rfl
  · cases h

/-- After the call the caller's index is what it was, after the expression it is one more. -/
theorem not_inlines_step :
    ∃ t m e σ', (Script.compile {} "function(data,index){return(index++);}").1 = .ok t ∧
      t.methods = [m] ∧ m.inline? = some e ∧ Calls counting m emptyCaller 0 emptyCaller ∧
      counting.eval e emptyCaller = some (0, σ') ∧ emptyCaller.vars "index" = some 0 ∧
      σ'.vars "index" = some 1 ∧ ¬ Inlines counting m e emptyCaller := by
  generalize hs : "function(data,index){return(index++);}" = source
  have hok : (Script.compile {} source).1.toOption.any (fun t => t.methods.length = 1 &&
      t.methods.all fun m => m.inline?.any isIndexStep) = true := by
    subst hs
    decide +kernel
  obtain ⟨t, m, e, h, hm, he, hok⟩ := exists_inlined_of_any hok
  cases eq_of_isIndexStep hok
  have hstep : counting.eval indexStep emptyCaller =
      some (0, ⟨fun x => if x = "index" then some 1 else emptyCaller.vars x, ()⟩) := rfl
  have hcall : Calls counting m emptyCaller 0 emptyCaller :=
    (calls_iff_eval h hm he isCaller_emptyCaller).2 ⟨_, hstep, rfl⟩
  refine ⟨t, m, _, _, h, hm, he, hcall, hstep, by decide, by simp, fun hin => ?_⟩
  have heval := (hin 0 emptyCaller).1 hcall
  rw [hstep] at heval
  have hindex := congrArg (fun r => r.map fun p => p.2.vars "index") heval
  revert hindex
  decide

end TwinView.Server
