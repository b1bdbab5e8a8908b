import TwinView.Server.Builder

/-!
The setup of the client on the way through a template. A setup counts for what comes after it on the
same way: one under a condition or in the body of a loop or part counts there only. But the next setup
is called for as long as the last one stands under a condition, wherever else it stands.
-/

namespace TwinView.Server

open Code

structure Watch where
  names : Names := {}
  /-- Whether a setup is called for. -/
  armed : Bool := true
  scripts : Bool := false
  /-- Whether the client has been set up on every way to here. -/
  done : Bool := false
  /-- Whether a script may have made its call without a setup. -/
  exposed : Bool := false

abbrev Walk := StateM Watch

def walkAll : List (Walk Unit) → Walk Unit
  | [] => return
  | w :: rest => do
    w
    walkAll rest

/-- A setup if it is called for. Where it is `steady`, that is under no condition, no more is. -/
def watchSetUp (steady : Bool) : Walk Unit :=
  modify fun s => if s.armed then { s with done := true, armed := !steady } else s

def watchCall : Walk Unit := modify fun s => { s with exposed := s.exposed || !s.done }

def watchScript : Walk Unit := modify fun s => { s with scripts := true }

/-- What may be left out, so that no setup in it counts afterwards. -/
def perhaps (body : Walk Unit) : Walk Unit := do
  let s ← get
  body
  modify fun s' => { s' with done := s.done }

inductive Outcome
  | refused
  | sure
  | hybrid
deriving DecidableEq

def outcomeOf (canDefer : Bool) : Except Script.Refusal Script.Compiled → Outcome
  | .error _ => .refused
  | .ok t =>
    if t.methods.isEmpty then .refused
    else if t.hasExtras && canDefer then .hybrid
    else .sure

def watchFragment (b : CodeBlock) (canDefer : Bool) : Walk Outcome :=
  modifyGet fun s =>
    let (result, names) := Script.compile s.names (clientCode b)
    let outcome := outcomeOf canDefer result
    (outcome, { s with names, armed := outcome = .hybrid || s.armed })

def watchRequired (b : CodeBlock) : Walk Unit := discard (watchFragment b false)

def watchDeferred (steady : Bool) : Walk Unit := do
  watchScript
  watchSetUp steady
  watchCall

def watchBlock (steady : Bool) (block : CodeBlock) : Walk Unit := do
  match ← watchFragment (unwrapMarkup block) true with
  | .refused => watchDeferred steady
  | .hybrid => perhaps (watchDeferred false)
  | .sure => return

/-- How many attributes the client has to finish: whether some are deferred, and how many depend on
the environment. -/
structure Left where
  deferred : Bool := false
  hybrids : Nat := 0

def Left.after (l : Left) : Outcome → Left
  | .refused => { l with deferred := true }
  | .hybrid => { l with hybrids := l.hybrids + 1 }
  | .sure => l

def watchAttribute (e : Element) (l : Left) (name : String) : Option Node → Walk Left
  | some (.code block) => do
    if Vocabulary.isFlagAttribute name then return l.after (← watchFragment block false)
    else
      let outcome ← watchFragment (unwrapMarkup block) true
      if e.isLinkAttribute name && outcome = .hybrid then return l
      else return l.after outcome
  | _ => return l

def watchAttributes (e : Element) : Left → List (String × Option Node) → Walk Left
  | l, [] => return l
  | l, (name, value) :: rest => do
    watchAttributes e (← watchAttribute e l name value) rest

/-- The scripts of attributes that depend on the environment, each of which may be left out. -/
def watchHybrids (opens : Bool) : Nat → Walk Unit
  | 0 => return
  | k + 1 => do
    perhaps do
      if opens then watchScript
      watchSetUp false
      watchCall
    watchHybrids opens k

def watchLeft (steady : Bool) (l : Left) : Walk Unit := do
  if l.deferred then watchDeferred steady
  watchHybrids (!l.deferred) l.hybrids

def watchLoopHead (l : Loop) : Walk Unit :=
  match argumentBlock? l.count, argumentBlock? l.within, argumentBlock? l.each with
  | some count, _, _ => do
    watchRequired count
    match argumentBlock? l.data with
    | some data => watchRequired data
    | none => return
  | none, some source, _ => watchRequired source
  | none, none, some source => watchRequired source
  | none, none, none => return

def watchArguments : List (Option CodeBlock × Param) → Walk Bool
  | [] => return true
  | (none, _) :: rest => watchArguments rest
  | (some b, _) :: rest => do
    if (← watchFragment b false) = .refused then return false
    else watchArguments rest

def watchCalledView (c : Call) : Walk Unit :=
  match calledName? c.view, c.view with
  | none, some (.code b) => watchRequired b
  | _, _ => return

def watchDeferredCall (steady : Bool) (c : Call) : Walk Unit := do
  watchScript
  watchSetUp steady
  watchCalledView c
  discard (watchArguments (callArguments c))
  watchCall

def watchPart (body : Walk Unit) : Walk Unit := do
  let s ← get
  set { s with names := {} }
  perhaps body
  modify fun s' => { s' with names := s.names }

def watchViewCall (steady : Bool) (c : Call) (parts : List (PartOf (Walk Unit))) : Walk Unit := do
  if c.defer then watchDeferredCall steady c
  else if ← watchArguments (callArguments c) then
    walkAll (parts.map fun p => watchPart (walkAll p.children))
  else watchDeferredCall steady c

def watchText (steady : Bool) (kind : TextKind) : Walk Unit :=
  if kind = .unknown then watchSetUp steady else return

/-- What is between the tags of an element. A body with scripts ends in a setup. -/
def watchContent (steady : Bool) (e : Element) (children : List (Walk Unit)) : Walk Unit := do
  walkAll children
  if (← get).scripts && e.isTag "body" then watchSetUp steady

def watchBody (steady : Bool) (e : Element) (children : List (Walk Unit)) : Walk Unit :=
  if e.canHaveChildren then watchContent steady e children else return

def watchTagged (steady : Bool) (e : Element) (children : List (Walk Unit)) : Walk Unit := do
  let l ← watchAttributes e {} e.attributes
  watchBody steady e children
  watchLeft steady l

def watchElement (steady : Bool) (e : Element) (children : List (Walk Unit)) : Walk Unit := do
  if e.isTag "script" then
    watchScript
    watchSetUp steady
  watchTagged steady e children

mutual

def watchNode (steady : Bool) : Node → Walk Unit
  | .text kind _ _ => watchText steady kind
  | .code block => watchBlock steady block
  | .element ⟨tag, attributes, children, position⟩ =>
    watchElement steady ⟨tag, attributes, children, position⟩ (watchEach steady children)
  | .view _ => return
  | .choice ⟨branches, _⟩ => watchBranches steady branches
  | .branch ⟨test, children, _⟩ => do
    match test with
    | some b => watchRequired b
    | none => pure ()
    perhaps (walkAll (watchEach false children))
  | .loop ⟨each, within, count, data, children, position⟩ => do
    if children.isEmpty then return
    else
      perhaps (walkAll (watchEach steady children))
      watchLoopHead ⟨each, within, count, data, children, position⟩
  | .call ⟨view, data, index, count, key, defer, children, position⟩ =>
    watchViewCall steady ⟨view, data, index, count, key, defer, children, position⟩
      (Supply.gather position (watchSupplies steady children))
  | .part ⟨_, children, _⟩ => watchPart (walkAll (watchEach steady children))

def watchEach (steady : Bool) : List Node → List (Walk Unit)
  | [] => []
  | n :: rest => watchNode steady n :: watchEach steady rest

/-- Branches in order. After a choice the client has been set up if both sides have done so. -/
def watchBranches (steady : Bool) : List Branch → Walk Unit
  | [] => return
  | ⟨some test, children, _⟩ :: rest => do
    watchRequired test
    let s ← get
    walkAll (watchEach false children)
    let yes ← get
    set { yes with done := s.done }
    watchBranches false rest
    modify fun no => { no with done := yes.done && no.done }
  | ⟨none, children, _⟩ :: rest => do
    walkAll (watchEach steady children)
    watchBranches steady rest

def watchSupplies (steady : Bool) : List Node → List (Supply (Walk Unit))
  | [] => []
  | .part ⟨name, children, position⟩ :: rest =>
    .part ⟨name, watchEach steady children, position⟩ :: watchSupplies steady rest
  | n :: rest => .loose n.isSpace (watchNode steady n) :: watchSupplies steady rest

end

theorem watchEach_eq {steady : Bool} (ns : List Node) :
    watchEach steady ns = ns.map (watchNode steady) := by
  induction ns with
  | nil => rfl
  | cons n rest ih => rw [watchEach, ih, List.map_cons]

/-- Nothing is watched in text that is dropped at the edges of an element. -/
theorem watchNode_edge {steady : Bool} {n : Node} (h : isEdgeText n) :
    watchNode steady n = pure () := by
  unfold isEdgeText at h
  split at h
  · unfold watchNode
    rfl
  · cases h

def watchView (v : View) : Watch := (walkAll (watchEach true v.children)).run {} |>.2

end TwinView.Server
