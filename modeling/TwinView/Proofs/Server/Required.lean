import TwinView.Proofs.Script.Shapes
import TwinView.Proofs.Server.Runs

/-!
The blocks that have to run on the server: the tests of branches, the sources of loops, and the arguments
and the computed view of a call. Whether a block is refused depends on its text alone, so that it does not
matter which blocks were compiled before.
-/

namespace TwinView

open Server

/-- The blocks that a loop is built from. -/
def LoopOf.blocks (l : Loop) : List CodeBlock :=
  match argumentBlock? l.count, argumentBlock? l.within, argumentBlock? l.each with
  | some count, _, _ => count :: (argumentBlock? l.data).toList
  | none, some source, _ => [source]
  | none, none, some source => [source]
  | none, none, none => []

def CallOf.viewBlock? (c : Call) : Option CodeBlock :=
  match calledName? c.view, c.view with
  | none, some (.code b) => some b
  | _, _ => none

/-- The blocks that a call is built from. -/
def CallOf.blocks (c : Call) : List CodeBlock :=
  c.viewBlock?.toList ++ [c.data, c.index, c.count, c.key].filterMap argumentBlock?

mutual

def Node.required : Node → List CodeBlock
  | .text _ _ _ => []
  | .code _ => []
  | .element ⟨_, _, children, _⟩ => Node.requiredOf children
  | .view _ => []
  | .choice ⟨branches, _⟩ => Node.requiredOfBranches branches
  | .branch ⟨test, children, _⟩ => test.toList ++ Node.requiredOf children
  | .loop ⟨each, within, count, data, children, position⟩ =>
    LoopOf.blocks ⟨each, within, count, data, children, position⟩ ++ Node.requiredOf children
  | .call ⟨called, data, index, count, key, defer, children, position⟩ =>
    CallOf.blocks ⟨called, data, index, count, key, defer, children, position⟩ ++
      Node.requiredOf children
  | .part ⟨_, children, _⟩ => Node.requiredOf children

def Node.requiredOf : List Node → List CodeBlock
  | [] => []
  | n :: rest => n.required ++ Node.requiredOf rest

def Node.requiredOfBranches : List Branch → List CodeBlock
  | [] => []
  | ⟨test, children, _⟩ :: rest =>
    test.toList ++ Node.requiredOf children ++ Node.requiredOfBranches rest

end

def ViewOf.required (v : View) : List CodeBlock := Node.requiredOf v.children

namespace Server

open Code

/-- Why a block cannot run on the server, whatever was compiled before it. -/
def refusal? (b : CodeBlock) : Option Error :=
  match (Script.compile {} (clientCode b)).1 with
  | .error r => some (.script r.fault (placeInTemplate b r.index))
  | .ok _ => none

theorem refusal?_eq_some {names : Code.Names} {b : CodeBlock} {r : Script.Refusal}
    (h : (Script.compile names (clientCode b)).1 = .error r) :
    refusal? b = some (.script r.fault (placeInTemplate b r.index)) := by
  unfold refusal?
  simp only [Script.compile_refused {} h]

variable {blocks blocks' : List CodeBlock} {b : CodeBlock} {canDefer : Bool} {d d' : Draft} {e : Error}

/-- The error is no fault of a script, or one of the blocks is refused with it on its own. -/
def Blames (blocks : List CodeBlock) (e : Error) : Prop :=
  ∀ fault p, e = .script fault p → ∃ b ∈ blocks, refusal? b = some (.script fault p)

theorem Blames.mono (h : Blames blocks e) (hs : blocks ⊆ blocks') : Blames blocks' e := fun fault p he => by
  obtain ⟨b, hb, hrefused⟩ := h fault p he
  exact ⟨b, hs hb, hrefused⟩

theorem blames_template (fault : TemplateFault) (p : Option Position) : Blames blocks (.template fault p) :=
  fun _ _ he => by cases he

theorem blames_of_fragment? (h : Runs (fragment? b canDefer) d (.error e) d') : Blames [b] e := by
  rintro fault p rfl
  refine ⟨b, List.mem_singleton_self b, ?_⟩
  unfold fragment? at h
  simp only [runs_bind, runs_get, runs_set] at h
  obtain ⟨_, _, ⟨rfl, rfl⟩, _, _, rfl, h⟩ := h
  split at h
  · next r hr =>
      cases (runs_pure.1 h).1
      exact refusal?_eq_some hr
  · split at h
    · cases (runs_pure.1 h).1
    · simp only [runs_bind] at h
      obtain ⟨_, _, -, h⟩ := h
      split at h
      · simp only [runs_bind] at h
        obtain ⟨_, _, -, h⟩ := h
        cases (runs_pure.1 h).1
      · cases (runs_pure.1 h).1

theorem filterMap_callArguments (c : Call) : (callArguments c).filterMap (·.1) =
    [c.data, c.index, c.count, c.key].filterMap argumentBlock? := by
  have hlength : ([c.data, c.index, c.count, c.key].map argumentBlock?).length ≤
      boundParams.length := Nat.le_refl 4
  calc (callArguments c).filterMap (·.1)
      = ((callArguments c).map (·.1)).filterMap id := by rw [List.filterMap_map]; rfl
    _ = ([c.data, c.index, c.count, c.key].map argumentBlock?).filterMap id := by
        rw [callArguments, List.map_fst_zip hlength]
    _ = [c.data, c.index, c.count, c.key].filterMap argumentBlock? := by
        rw [List.filterMap_map]; rfl

end Server

end TwinView
