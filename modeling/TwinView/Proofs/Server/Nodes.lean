import TwinView.Server.Builder

/-!
Lists of nodes and pieces of builders. Nodes are built one by one, except that an element may drop text at
its edges. An element is what comes up to the end of its attributes and what comes behind them.
-/

namespace TwinView.Server

open Code

variable {α β : Type} {s : Settings} {e : Element}

theorem buildEach_eq_visit [Probe] (ns : List Node) :
    buildEach s ns = ns.map fun n => visit (buildNode s n) := by
  induction ns with
  | nil => rfl
  | cons n rest ih => rw [buildEach, ih, List.map_cons]

theorem buildEach_eq (ns : List Node) : buildEach s ns = ns.map (buildNode s) := buildEach_eq_visit ns

theorem trimEdges_map {γ δ : Type} (p : δ → Bool) (f : γ → δ) (xs : List γ) :
    Markup.trimEdges p (xs.map f) = (Markup.trimEdges (fun x => p (f x)) xs).map f := by
  have hhead : (if (xs.map f).head?.any p then (xs.map f).tail else xs.map f) =
      (if xs.head?.any (fun x => p (f x)) then xs.tail else xs).map f := by
    rw [List.head?_map, Option.any_map]
    split <;> simp
  unfold Markup.trimEdges
  dsimp only
  rw [hhead, List.getLast?_map, Option.any_map]
  generalize (if xs.head?.any (fun x => p (f x)) then xs.tail else xs) = ys
  split <;> simp

theorem trimEdges_subset {γ : Type} (p : γ → Bool) (xs : List γ) : Markup.trimEdges p xs ⊆ xs := by
  unfold Markup.trimEdges
  dsimp only
  intro x hx
  split at hx <;> split at hx
  · exact List.mem_of_mem_tail (List.dropLast_subset _ hx)
  · exact List.mem_of_mem_tail hx
  · exact List.dropLast_subset _ hx
  · exact hx

theorem zip_map_self {γ δ : Type} (f : γ → δ) (xs : List γ) :
    xs.zip (xs.map f) = xs.map fun x => (x, f x) := by
  induction xs with
  | nil => rfl
  | cons x rest ih => simp [ih]

theorem mem_contents {x : α} {supplies : List (Supply α)} (h : x ∈ Supply.contents supplies) :
    ∃ space, .loose space x ∈ supplies := by
  induction supplies with
  | nil => cases h
  | cons first rest ih =>
      cases first with
      | part body =>
          obtain ⟨space, hx⟩ := ih h
          exact ⟨space, List.mem_cons_of_mem _ hx⟩
      | loose space content =>
          rcases List.mem_cons.1 h with rfl | h
          · exact ⟨space, List.mem_cons_self⟩
          · obtain ⟨space', hx⟩ := ih h
            exact ⟨space', List.mem_cons_of_mem _ hx⟩

theorem mem_parts {p : PartOf α} {supplies : List (Supply α)} (h : p ∈ Supply.parts supplies) :
    .part p ∈ supplies := by
  induction supplies with
  | nil => cases h
  | cons first rest ih =>
      cases first with
      | part body =>
          rcases List.mem_cons.1 h with rfl | h
          · exact List.mem_cons_self
          · exact List.mem_cons_of_mem _ (ih h)
      | loose space content => exact List.mem_cons_of_mem _ (ih h)

def supplied : Supply α → List α
  | .part body => body.children
  | .loose _ content => [content]

theorem exists_supplied {position : Option Position} {p : PartOf α} {x : α}
    {supplies : List (Supply α)} (hp : p ∈ Supply.gather position supplies)
    (hx : x ∈ p.children) : ∃ supply ∈ supplies, x ∈ supplied supply := by
  fun_induction Supply.gather position supplies with
  | case1 => cases hp
  | case2 body rest ih =>
      rcases List.mem_cons.1 hp with rfl | hp
      · exact ⟨.part p, List.mem_cons_self, hx⟩
      · obtain ⟨supply, hs, h⟩ := ih hp
        exact ⟨supply, List.mem_cons_of_mem _ hs, h⟩
  | case3 content rest ih =>
      obtain ⟨supply, hs, h⟩ := ih hp
      exact ⟨supply, List.mem_cons_of_mem _ hs, h⟩
  | case4 content rest =>
      rcases List.mem_cons.1 hp with rfl | hp
      · rcases List.mem_cons.1 hx with rfl | hx
        · exact ⟨.loose false x, List.mem_cons_self, List.mem_singleton.2 rfl⟩
        · obtain ⟨space, hs⟩ := mem_contents hx
          exact ⟨.loose space x, List.mem_cons_of_mem _ hs, List.mem_singleton.2 rfl⟩
      · exact ⟨.part p, List.mem_cons_of_mem _ (mem_parts hp), hx⟩

def mapPart (f : α → β) (p : PartOf α) : PartOf β where
  name := p.name
  children := p.children.map f
  position := p.position

def mapSupply (f : α → β) : Supply α → Supply β
  | .part body => .part (mapPart f body)
  | .loose space content => .loose space (f content)

theorem contents_map (f : α → β) (supplies : List (Supply α)) :
    Supply.contents (supplies.map (mapSupply f)) = (Supply.contents supplies).map f := by
  induction supplies with
  | nil => rfl
  | cons first rest ih => cases first <;> simp [Supply.contents, mapSupply, ih]

theorem parts_map (f : α → β) (supplies : List (Supply α)) :
    Supply.parts (supplies.map (mapSupply f)) = (Supply.parts supplies).map (mapPart f) := by
  induction supplies with
  | nil => rfl
  | cons first rest ih => cases first <;> simp [Supply.parts, mapSupply, ih]

theorem gather_map (f : α → β) (position : Option Position) (supplies : List (Supply α)) :
    Supply.gather position (supplies.map (mapSupply f)) =
      (Supply.gather position supplies).map (mapPart f) := by
  fun_induction Supply.gather position supplies with
  | case1 => rfl
  | case2 body rest ih => simp [Supply.gather, mapSupply, ih]
  | case3 content rest ih => simp [Supply.gather, mapSupply, ih]
  | case4 content rest => simp [Supply.gather, mapSupply, mapPart, contents_map, parts_map]

theorem buildSupplies_eq_visit [Probe] (ns : List Node) :
    buildSupplies s ns = (ns.map Node.supply).map (mapSupply fun n => visit (buildNode s n)) := by
  induction ns with
  | nil => rfl
  | cons n rest ih =>
      cases n with
      | part body =>
          obtain ⟨name, children, position⟩ := body
          simp [buildSupplies, ih, Node.supply, mapSupply, mapPart, buildEach_eq_visit]
      | _ => simp [buildSupplies, ih, Node.supply, mapSupply]

theorem buildSupplies_eq (ns : List Node) :
    buildSupplies s ns = (ns.map Node.supply).map (mapSupply (buildNode s)) := buildSupplies_eq_visit ns

/-- Runs a builder in the mode of an element's content, and goes back. -/
def inContent (e : Element) (x : Build Unit) : Build Unit := do
  let mode := (← get).mode
  modify fun d => { d with mode := contentMode e mode }
  x
  modify fun d => { d with mode }

def endContent (s : Settings) (e : Element) : Build Unit := do
  if (← get).hasScripts && e.isTag "body" then
    ensureExtras true
    put s.newline
  put (Markup.endTag e.tag)

theorem buildContent_eq (children : List (Build Unit)) : buildContent s e children = (do
    put Markup.closeTag
    inContent e (buildChildren s (e.children.zip children))
    endContent s e) := by
  simp only [buildContent, inContent, endContent, bind_assoc]

/-- What is between the attributes of an element and the script that finishes them. -/
def buildBody (s : Settings) (e : Element) (children : List (Build Unit)) : Build Unit :=
  if e.canHaveChildren then buildContent s e children
  else put (if s.xhtmlStyle then Markup.closeVoidTag else Markup.closeTag)

def buildUpTo [Probe] (s : Settings) (e : Element) (attributes : List (String × Option Node)) :
    Build Pending := do
  if e.isTag "script" then
    noteScript
    ensureExtras true
  put (Markup.openTag e.tag)
  buildAttributes s e {} attributes

def buildBehind [Probe] (s : Settings) (e : Element) (children : List (Build Unit)) (p : Pending) :
    Build Unit := do
  if p.isEmpty then buildBody s e children
  else
    let id ← buildElementId e p
    buildBody s e children
    buildPending s p id

theorem buildElement_eq [Probe] (children : List (Build Unit)) :
    buildElement s e children = buildUpTo s e e.attributes >>= buildBehind s e children := by
  unfold buildElement buildUpTo buildTagged
  by_cases h : e.isTag "script" = true
  · rw [if_pos h, if_pos h]
    simp only [bind_assoc]
    rfl
  · rw [if_neg h, if_neg h]
    simp only [bind_assoc]
    rfl

/-- The arguments of a call, with nothing left of them if one is refused. -/
def tryArguments (args : List (Option CodeBlock × Param)) : Build (Except Error (List Expr)) := do
  let before := (← get).target.members.length
  match ← arguments? args with
  | .error e =>
    modify fun d => { d with target := { d.target with members := d.target.members.take before } }
    return .error e
  | .ok args => return .ok args

def newField : Build String := do
  let name ← freshName "view_"
  addMember (.field { access := .classOnly, type := .view, name })
  return name

def buildServedCall [Probe] (s : Settings) (name : String) (args : List Expr)
    (parts : List (PartOf (Build Unit))) : Build Unit := do
  let fieldName ← newField
  let classes ← buildParts parts
  let field : Expr := .field .self fieldName .view false
  addToInit (.expr (.operate .assign field
    (.create (s.serverName name) (classes.map construct) false)))
  flush
  add (renderCall "renderView" (field :: args) (.parts classes))

theorem buildCall_eq [Probe] (c : Call) (parts : List (PartOf (Build Unit))) : buildCall s c parts =
    if c.defer then buildDeferredCall s c
    else
      match calledName? c.view with
      | none => throw (calledViewError c)
      | some name => (do
        match ← tryArguments (callArguments c) with
        | .error _ => buildDeferredCall s c
        | .ok args => buildServedCall s name args parts) := by
  unfold buildCall
  split
  · rfl
  · cases calledName? c.view with
    | none => rfl
    | some name =>
        simp only [tryArguments, bind_assoc]
        refine congrArg _ (funext fun d => congrArg _ (funext fun r => ?_))
        cases r with
        | error e => simp
        | ok args => simp [buildServedCall, newField]

end TwinView.Server
