import TwinView.Code.Class
import TwinView.Proofs.Code.Scoping
import TwinView.Proofs.Code.Writes

/-!
Running code. A runtime tells what a node gives once its operands have values, and what counts as true;
the variables, the order of the operands, the branches and the writes to variables are the language's
own. A call runs the body of a method on variables of its own, which start with the arguments.

An expression runs alike wherever the variables that it mentions have the same values, and it leaves
alone every variable that it does not write to.
-/

namespace TwinView.Code

/-- What the code needs to run. -/
structure Runtime (ν ω : Type) where
  /-- The value of a node whose operands have these values. It may fail, and it may change the world,
  which is all that is not a variable. -/
  perform : Expr → List ν → ω → Option (ν × ω)
  truth : ν → Option Bool

/-- The variables that have a value, and the rest of the world. -/
structure State (ν ω : Type) where
  vars : String → Option ν
  world : ω

/-- A run from a state to a result and another state, unless it fails. -/
abbrev Run (ν ω : Type) := StateT (State ν ω) Option

/-- What can be written to, with its operands evaluated. -/
inductive Place (ν : Type)
  | named (name : String)
  /-- A property with its object and its key, or a name of the environment with the context. -/
  | stored (operands : List ν)

variable {ν ω α β : Type}

namespace Run

def read (name : String) : Run ν ω ν := fun σ => (σ.vars name).map fun v => (v, σ)

def write (name : String) (v : ν) : Run ν ω Unit := fun σ =>
  if (σ.vars name).isSome then some ((), { σ with vars := fun x => if x = name then some v else σ.vars x })
  else none

def declare (name : String) (v : ν) : Run ν ω Unit := fun σ =>
  some ((), { σ with vars := fun x => if x = name then some v else σ.vars x })

end Run

namespace Runtime

variable (rt : Runtime ν ω)

def ask (node : Expr) (operands : List ν) : Run ν ω ν := fun σ =>
  (rt.perform node operands σ.world).map fun (v, w) => (v, { σ with world := w })

def test (v : ν) : Run ν ω Bool := fun σ => (rt.truth v).map fun b => (b, σ)

def replace (name : String) (v : ν) : Run ν ω ν := do
  Run.write name v
  return v

mutual

/-- The value of an expression. Operands run from left to right. -/
def eval : Expr → Run ν ω ν
  | .prim value p => rt.ask (.prim value p) []
  | .var name _ _ => Run.read name
  | .property target key p => do
    let t ← eval target
    let k ← eval key
    rt.ask (.property target key p) [t, k]
  | .field target name type p => do rt.ask (.field target name type p) [← eval target]
  | .this p => rt.ask (.this p) []
  | .typeRef type p => rt.ask (.typeRef type p) []
  | .binary op left right p =>
    match op with
    | .assign => do
      match ← place left with
      | .named name => replace name (← eval right)
      | .stored operands => rt.ask (.binary .assign left right p) (operands ++ [← eval right])
    | .update op => do
      match ← place left with
      | .named name => do
        let old ← Run.read name
        let v ← eval right
        replace name (← rt.ask (.binary (.update op) left right p) [old, v])
      -- a setter has no place for the operator
      | .stored operands => rt.ask (.binary (.update op) left right p) (operands ++ [← eval right])
    | .and => do
      let l ← eval left
      if ← rt.test l then eval right else return l
    | .or => do
      let l ← eval left
      if ← rt.test l then return l else eval right
    | op => do
      let l ← eval left
      let r ← eval right
      rt.ask (.binary op left right p) [l, r]
  | .unary op operand p =>
    if op.isStep then do
      match ← place operand with
      | .named name =>
        let old ← Run.read name
        let new ← replace name (← rt.ask (.unary op operand p) [old])
        return if op.isPost then old else new
      | .stored _ => failure
    else do rt.ask (.unary op operand p) [← eval operand]
  | .ternary test yes no _ => do
    if ← rt.test (← eval test) then eval yes else eval no
  | .invoke result target method args p => do
    let t ← eval target
    rt.ask (.invoke result target method args p) (t :: (← evalAll args))
  | .create typeName args p => do rt.ask (.create typeName args p) (← evalAll args)
  | .array element size items p => do rt.ask (.array element size items p) (← evalAll items)
  | .cast type operand p => do rt.ask (.cast type operand p) [← eval operand]
  | .extra name p => do rt.ask (.extra name p) [← Run.read "context"]

def place : Expr → Run ν ω (Place ν)
  | .var name _ _ => return .named name
  | .property target key _ => do
    let t ← eval target
    return .stored [t, ← eval key]
  | .extra _ _ => return .stored [← Run.read "context"]
  | _ => failure

def evalAll : List Expr → Run ν ω (List ν)
  | [] => return []
  | e :: rest => do
    let v ← eval e
    return v :: (← evalAll rest)

end

end Runtime

/-- Declarations from left to right. What has no initial value is undefined until it is written to. -/
def declareAll (rt : Runtime ν ω) : List VarDecl → Run ν ω Unit
  | [] => return
  | d :: rest => do
    Run.declare d.name (← rt.eval (d.init.getD .undefined))
    declareAll rt rest

/-- The statements run from one state to another and return a value, or none. -/
inductive Runs (rt : Runtime ν ω) : List Stmt → State ν ω → Option ν → State ν ω → Prop
  | done {σ} : Runs rt [] σ none σ
  | comment {text rest σ r τ} : Runs rt rest σ r τ → Runs rt (.comment text :: rest) σ r τ
  | expr {e origin rest σ v σ' r τ} :
    rt.eval e σ = some (v, σ') → Runs rt rest σ' r τ → Runs rt (.expr e origin :: rest) σ r τ
  | var {d rest σ σ' r τ} :
    declareAll rt [d] σ = some ((), σ') → Runs rt rest σ' r τ → Runs rt (.var d :: rest) σ r τ
  | vars {ds rest σ σ' r τ} :
    declareAll rt ds σ = some ((), σ') → Runs rt rest σ' r τ → Runs rt (.vars ds :: rest) σ r τ
  | cond {test yes no rest σ b σ' r τ} :
    (rt.eval test >>= rt.test) σ = some (b, σ') → Runs rt ((if b then yes else no) ++ rest) σ' r τ →
    Runs rt (.cond test yes no :: rest) σ r τ
  | head {init test step body rest σ r τ} :
    Runs rt (init :: .loop none test step body :: rest) σ r τ →
    Runs rt (.loop (some init) test step body :: rest) σ r τ
  | again {test step body rest σ σ' r τ} :
    (rt.eval test >>= rt.test) σ = some (true, σ') →
    Runs rt (body ++ step.toList ++ .loop none test step body :: rest) σ' r τ →
    Runs rt (.loop none test step body :: rest) σ r τ
  | over {test step body rest σ σ' r τ} :
    (rt.eval test >>= rt.test) σ = some (false, σ') → Runs rt rest σ' r τ →
    Runs rt (.loop none test step body :: rest) σ r τ
  | leave {rest σ} : Runs rt (.ret none :: rest) σ none σ
  | ret {e rest σ v σ'} : rt.eval e σ = some (v, σ') → Runs rt (.ret (some e) :: rest) σ (some v) σ'

def frame (params : List Param) (args : List ν) (name : String) : Option ν :=
  ((params.map (·.name)).zip args).lookup name

/-- The method is called with the values that the caller's variables of the names of its parameters
have. It runs on variables of its own, so that the caller keeps all of its. -/
def Calls (rt : Runtime ν ω) (m : Method) (σ : State ν ω) (v : ν) (σ' : State ν ω) : Prop :=
  ∃ args, m.params.mapM (fun p => σ.vars p.name) = some args ∧
    ∃ τ, Runs rt m.body ⟨frame m.params args, σ.world⟩ (some v) τ ∧ σ' = { σ with world := τ.world }

/-- The world is the same, and so are the variables that count. -/
structure Agree (known : String → Prop) (σ τ : State ν ω) : Prop where
  world : σ.world = τ.world
  vars : ∀ name, known name → σ.vars name = τ.vars name

/-- The run depends on the known variables only; it gives no variable its first value, and leaves alone
those that it does not write to. -/
structure Tame (known written : String → Prop) (x : Run ν ω α) : Prop where
  alike : ∀ σ τ a σ', Agree known σ τ → x σ = some (a, σ') →
    ∃ τ', x τ = some (a, τ') ∧ Agree known σ' τ'
  isSome : ∀ σ a σ', x σ = some (a, σ') → ∀ name, (σ'.vars name).isSome = (σ.vars name).isSome
  kept : ∀ σ a σ', x σ = some (a, σ') → ∀ name, ¬ written name → σ'.vars name = σ.vars name

variable {known written : String → Prop}

theorem Agree.symm {σ τ : State ν ω} (h : Agree known σ τ) : Agree known τ σ :=
  ⟨h.world.symm, fun name hn => (h.vars name hn).symm⟩

namespace Tame

theorem of_vars {x : Run ν ω α} (hv : ∀ σ a σ', x σ = some (a, σ') → σ'.vars = σ.vars)
    (ha : ∀ σ τ a σ', Agree known σ τ → x σ = some (a, σ') →
      ∃ τ', x τ = some (a, τ') ∧ Agree known σ' τ') : Tame known written x where
  alike := ha
  isSome σ a σ' hx name := by rw [hv σ a σ' hx]
  kept σ a σ' hx name _ := by rw [hv σ a σ' hx]

theorem pure (a : α) : Tame known written (Pure.pure a : Run ν ω α) := by
  refine of_vars (fun σ b σ' hx => ?_) fun σ τ b σ' h hx => ?_
  · cases hx
    rfl
  · cases hx
    exact ⟨τ, rfl, h⟩

theorem fail : Tame known written (failure : Run ν ω α) where
  alike _ _ _ _ _ hx := by cases hx
  isSome _ _ _ hx := by cases hx
  kept _ _ _ hx := by cases hx

theorem bind_eq_some {x : Run ν ω α} {f : α → Run ν ω β} {σ σ' : State ν ω} {b : β} :
    (x >>= f) σ = some (b, σ') ↔ ∃ a ρ, x σ = some (a, ρ) ∧ f a ρ = some (b, σ') := by
  constructor
  · intro h
    obtain ⟨⟨a, ρ⟩, hx, hf⟩ := Option.bind_eq_some_iff.1 h
    exact ⟨a, ρ, hx, hf⟩
  · rintro ⟨a, ρ, hx, hf⟩
    exact Option.bind_eq_some_iff.2 ⟨(a, ρ), hx, hf⟩

theorem bind {Q : α → Prop} {x : Run ν ω α} {f : α → Run ν ω β} (hx : Tame known written x)
    (hq : ∀ σ a σ', x σ = some (a, σ') → Q a) (hf : ∀ a, Q a → Tame known written (f a)) :
    Tame known written (x >>= f) where
  alike σ τ b σ' h hb := by
    obtain ⟨a, ρ, ha, hb⟩ := bind_eq_some.1 hb
    obtain ⟨ρ', ha', hρ⟩ := hx.alike σ τ a ρ h ha
    obtain ⟨τ', hb', hσ⟩ := (hf a (hq σ a ρ ha)).alike ρ ρ' b σ' hρ hb
    exact ⟨τ', bind_eq_some.2 ⟨a, ρ', ha', hb'⟩, hσ⟩
  isSome σ b σ' hb name := by
    obtain ⟨a, ρ, ha, hb⟩ := bind_eq_some.1 hb
    exact ((hf a (hq σ a ρ ha)).isSome ρ b σ' hb name).trans (hx.isSome σ a ρ ha name)
  kept σ b σ' hb name hn := by
    obtain ⟨a, ρ, ha, hb⟩ := bind_eq_some.1 hb
    exact ((hf a (hq σ a ρ ha)).kept ρ b σ' hb name hn).trans (hx.kept σ a ρ ha name hn)

theorem andThen {x : Run ν ω α} {f : α → Run ν ω β} (hx : Tame known written x)
    (hf : ∀ a, Tame known written (f a)) : Tame known written (x >>= f) :=
  hx.bind (Q := fun _ => True) (fun _ _ _ _ => True.intro) fun a _ => hf a

theorem ite {x y : Run ν ω α} (hx : Tame known written x) (hy : Tame known written y) (b : Bool) :
    Tame known written (if b then x else y) := by
  cases b with
  | true => exact hx
  | false => exact hy

theorem read {name : String} (h : known name) : Tame known written (Run.read name : Run ν ω ν) := by
  refine of_vars (fun σ a σ' hx => ?_) fun σ τ a σ' hag hx => ?_
  · obtain ⟨v, -, he⟩ := Option.map_eq_some_iff.1 hx
    cases he
    rfl
  · obtain ⟨v, hv, he⟩ := Option.map_eq_some_iff.1 hx
    cases he
    exact ⟨τ, by rw [Run.read, ← hag.vars name h, hv]; rfl, hag⟩

theorem write {name : String} (h : known name) (hw : written name) (v : ν) :
    Tame known written (Run.write name v : Run ν ω Unit) where
  alike σ τ a σ' hag hx := by
    unfold Run.write at hx ⊢
    rw [← hag.vars name h]
    split at hx
    · next hs =>
        cases hx
        rw [if_pos hs]
        refine ⟨_, rfl, hag.world, fun x hk => ?_⟩
        dsimp only
        split
        · rfl
        · exact hag.vars x hk
    · cases hx
  isSome σ a σ' hx x := by
    unfold Run.write at hx
    split at hx
    · next hs =>
        cases hx
        dsimp only
        split
        · next hname =>
            subst hname
            exact hs.symm
        · rfl
    · cases hx
  kept σ a σ' hx x hn := by
    unfold Run.write at hx
    split at hx
    · cases hx
      dsimp only
      split
      · next hname =>
          subst hname
          exact absurd hw hn
      · rfl
    · cases hx

variable {rt : Runtime ν ω}

theorem ask (node : Expr) (operands : List ν) : Tame known written (rt.ask node operands) := by
  refine of_vars (fun σ a σ' hx => ?_) fun σ τ a σ' hag hx => ?_
  · obtain ⟨⟨v, w⟩, -, he⟩ := Option.map_eq_some_iff.1 hx
    cases he
    rfl
  · obtain ⟨⟨v, w⟩, hv, he⟩ := Option.map_eq_some_iff.1 hx
    cases he
    refine ⟨{ τ with world := w }, ?_, rfl, hag.vars⟩
    rw [Runtime.ask, ← hag.world, hv]
    rfl

theorem test (v : ν) : Tame known written (rt.test v) := by
  refine of_vars (fun σ a σ' hx => ?_) fun σ τ a σ' hag hx => ?_
  · obtain ⟨b, -, he⟩ := Option.map_eq_some_iff.1 hx
    cases he
    rfl
  · obtain ⟨b, hb, he⟩ := Option.map_eq_some_iff.1 hx
    cases he
    exact ⟨τ, by rw [Runtime.test, hb]; rfl, hag⟩

theorem replace {name : String} (h : known name) (hw : written name) (v : ν) :
    Tame known written (Runtime.replace name v : Run ν ω ν) :=
  (write h hw v).andThen fun _ => pure v

end Tame

theorem eq_var_of_place {rt : Runtime ν ω} {e : Expr} {σ σ' : State ν ω} {name : String}
    (h : rt.place e σ = some (.named name, σ')) : ∃ type p, e = .var name type p := by
  cases e with
  | var x type p =>
      cases h
      exact ⟨type, p, rfl⟩
  | property target key p =>
      obtain ⟨t, ρ, -, h⟩ := Tame.bind_eq_some.1 h
      obtain ⟨k, ρ', -, h⟩ := Tame.bind_eq_some.1 h
      cases h
  | extra x p =>
      obtain ⟨c, ρ, -, h⟩ := Tame.bind_eq_some.1 h
      cases h
  | _ => cases h

theorem Tame.bind_place {rt : Runtime ν ω} {e : Expr} {f : Place ν → Run ν ω α}
    (hp : Tame known written (rt.place e)) (hk : e.Knows known)
    (hw : ∀ name ∈ e.varName?, known name → written name)
    (hnamed : ∀ name, known name → written name → Tame known written (f (.named name)))
    (hstored : ∀ operands, Tame known written (f (.stored operands))) :
    Tame known written (rt.place e >>= f) := by
  refine hp.bind (Q := fun p => ∀ name, p = .named name → known name ∧ written name) ?_ ?_
  · rintro σ _ σ' hplace name rfl
    obtain ⟨type, p, rfl⟩ := eq_var_of_place hplace
    exact ⟨hk name type p rfl, hw name rfl (hk name type p rfl)⟩
  · intro p hq
    cases p with
    | named name => exact hnamed name (hq name rfl).1 (hq name rfl).2
    | stored operands => exact hstored operands

mutual

/-- An expression depends on the variables in it and writes to those that it assigns, by induction on
it. -/
theorem tame_eval (rt : Runtime ν ω) (hc : known "context") : ∀ e : Expr, e.Knows known →
    (∀ w ∈ e.writes, ∀ x ∈ w.target, known x → written x) → Tame known written (rt.eval e)
  | .prim _ _, _, _ | .this _, _, _ | .typeRef _ _, _, _ => .ask _ _
  | .var name type p, hk, _ => .read (hk name type p rfl)
  | .property target key _, hk, hw => by
      obtain ⟨hwt, hwk⟩ := List.forall_mem_append.1 hw
      exact (tame_eval rt hc target hk.2.1 hwt).andThen fun _ =>
        (tame_eval rt hc key hk.2.2 hwk).andThen fun _ => .ask _ _
  | .field target _ _ _, hk, hw => (tame_eval rt hc target hk.2 hw).andThen fun _ => .ask _ _
  | .binary op left right p, hk, hw => by
      obtain ⟨hwl, hwr⟩ := List.forall_mem_append.1 hw
      obtain ⟨hwo, hwl⟩ := List.forall_mem_append.1 hwl
      have hl := tame_eval rt hc left hk.2.1 hwl
      have hr := tame_eval rt hc right hk.2.2 hwr
      have hp := tame_place rt hc left hk.2.1 hwl
      cases op with
      | assign =>
          refine hp.bind_place hk.2.1 (hwo _ List.mem_cons_self) (fun name hname hwritten => ?_)
            fun operands => hr.andThen fun v => .ask _ _
          exact hr.andThen fun v => .replace hname hwritten v
      | update op =>
          refine hp.bind_place hk.2.1 (hwo _ List.mem_cons_self) (fun name hname hwritten => ?_)
            fun operands => hr.andThen fun v => .ask _ _
          exact (Tame.read hname).andThen fun _ => hr.andThen fun _ => (Tame.ask _ _).andThen
            fun v => .replace hname hwritten v
      | and => exact hl.andThen fun l => (Tame.test l).andThen fun b => .ite hr (.pure l) b
      | or => exact hl.andThen fun l => (Tame.test l).andThen fun b => .ite (.pure l) hr b
      | arith | compare => exact hl.andThen fun _ => hr.andThen fun _ => .ask _ _
  | .unary op operand p, hk, hw => by
      obtain ⟨hwo, hwe⟩ := List.forall_mem_append.1 hw
      unfold Runtime.eval
      split
      · next hstep =>
          have hvar : ∀ name ∈ operand.varName?, known name → written name :=
            hwo (.step operand.varName? op) (by simp [Expr.stepWrites, hstep])
          refine (tame_place rt hc operand hk.2 hwe).bind_place hk.2 hvar (fun name hname hwritten => ?_)
            fun _ => .fail
          exact (Tame.read hname).andThen fun _ => (Tame.ask _ _).andThen fun v =>
            (Tame.replace hname hwritten v).andThen fun _ => .pure _
      · exact (tame_eval rt hc operand hk.2 hwe).andThen fun _ => .ask _ _
  | .ternary test yes no _, hk, hw => by
      obtain ⟨hwt, hwn⟩ := List.forall_mem_append.1 hw
      obtain ⟨hwt, hwy⟩ := List.forall_mem_append.1 hwt
      exact (tame_eval rt hc test hk.2.1 hwt).andThen fun v => (Tame.test v).andThen fun b =>
        .ite (tame_eval rt hc yes hk.2.2.1 hwy) (tame_eval rt hc no hk.2.2.2 hwn) b
  | .invoke _ target _ args _, hk, hw => by
      obtain ⟨hwt, hwa⟩ := List.forall_mem_append.1 hw
      exact (tame_eval rt hc target hk.2.1 hwt).andThen fun _ =>
        (tame_evalAll rt hc args hk.2.2 hwa).andThen fun _ => .ask _ _
  | .create _ args _, hk, hw => (tame_evalAll rt hc args hk.2 hw).andThen fun _ => .ask _ _
  | .array _ _ items _, hk, hw => (tame_evalAll rt hc items hk.2 hw).andThen fun _ => .ask _ _
  | .cast _ operand _, hk, hw => (tame_eval rt hc operand hk.2 hw).andThen fun _ => .ask _ _
  | .extra _ _, _, _ => (Tame.read hc).andThen fun _ => .ask _ _

theorem tame_place (rt : Runtime ν ω) (hc : known "context") : ∀ e : Expr, e.Knows known →
    (∀ w ∈ e.writes, ∀ x ∈ w.target, known x → written x) → Tame known written (rt.place e)
  | .var _ _ _, _, _ => .pure _
  | .property target key _, hk, hw => by
      obtain ⟨hwt, hwk⟩ := List.forall_mem_append.1 hw
      exact (tame_eval rt hc target hk.2.1 hwt).andThen fun _ =>
        (tame_eval rt hc key hk.2.2 hwk).andThen fun _ => .pure _
  | .extra _ _, _, _ => (Tame.read hc).andThen fun _ => .pure _
  | .prim _ _, _, _ | .field _ _ _ _, _, _ | .this _, _, _ | .typeRef _ _, _, _ | .binary _ _ _ _, _, _
  | .unary _ _ _, _, _ | .ternary _ _ _ _, _, _ | .invoke _ _ _ _ _, _, _ | .create _ _ _, _, _
  | .array _ _ _ _, _, _ | .cast _ _ _, _, _ => .fail

theorem tame_evalAll (rt : Runtime ν ω) (hc : known "context") : ∀ es : List Expr,
    Expr.EveryOf (fun x => ∀ name type p, x = .var name type p → known name) es →
    (∀ w ∈ Expr.allWrites es, ∀ x ∈ w.target, known x → written x) → Tame known written (rt.evalAll es)
  | [], _, _ => .pure _
  | e :: rest, hk, hw => by
      obtain ⟨hwe, hwr⟩ := List.forall_mem_append.1 hw
      exact (tame_eval rt hc e hk.1 hwe).andThen fun _ =>
        (tame_evalAll rt hc rest hk.2 hwr).andThen fun _ => .pure _

end

theorem frame_of_mem {params : List Param} {args : List ν} {vars : String → Option ν}
    (h : params.mapM (fun p => vars p.name) = some args) {name : String}
    (hn : name ∈ params.map (·.name)) : frame params args name = vars name := by
  induction params generalizing args with
  | nil => cases hn
  | cons p rest ih =>
      rw [List.mapM_cons] at h
      obtain ⟨v, hv, h⟩ := Option.bind_eq_some_iff.1 h
      obtain ⟨vs, hvs, h⟩ := Option.bind_eq_some_iff.1 h
      cases h
      unfold frame
      rw [List.map_cons, List.zip_cons_cons, List.lookup_cons]
      by_cases heq : name = p.name
      · rw [heq, beq_self_eq_true]
        exact hv.symm
      · rw [beq_eq_false_iff_ne.2 heq]
        exact ih hvs ((List.mem_cons.1 hn).resolve_left heq)

theorem frame_of_not_mem {params : List Param} (args : List ν) {name : String}
    (hn : name ∉ params.map (·.name)) : frame params args name = none := by
  unfold frame
  rw [List.lookup_eq_none_iff]
  intro x hx
  have hmem : x.1 ∈ params.map (·.name) := (List.of_mem_zip hx).1
  rw [bne_iff_ne]
  rintro rfl
  exact hn hmem

/-- A call of a method that only returns an expression runs that expression in a state of its own. -/
theorem calls_iff {rt : Runtime ν ω} {m : Method} {e : Expr} (hb : m.body = [.ret (some e)])
    {σ σ' : State ν ω} {v : ν} {args : List ν}
    (ha : m.params.mapM (fun p => σ.vars p.name) = some args) :
    Calls rt m σ v σ' ↔ ∃ τ, rt.eval e ⟨frame m.params args, σ.world⟩ = some (v, τ) ∧
      σ' = { σ with world := τ.world } := by
  unfold Calls
  rw [hb, ha]
  constructor
  · rintro ⟨args', ha', τ, hr, rfl⟩
    cases ha'
    cases hr with
    | ret he => exact ⟨τ, he, rfl⟩
  · rintro ⟨τ, he, rfl⟩
    exact ⟨args, rfl, τ, .ret he, rfl⟩

end TwinView.Code
