import TwinView.Proofs.Server.Nodes

/-!
The parts that a call supplies. They are the parts it is given and at most one more, which gathers the other
children. Space counts as content only behind content, so that one without content gathers nothing.
-/

namespace TwinView

variable {α : Type} {position : Option Position}

namespace Supply

def isContent : Supply α → Bool
  | .loose false _ => true
  | _ => false

/-- Supplies without content add their parts only. -/
theorem gather_append {before : List (Supply α)} (h : ∀ x ∈ before, x.isContent = false)
    (rest : List (Supply α)) :
    gather position (before ++ rest) = parts before ++ gather position rest := by
  induction before with
  | nil => rfl
  | cons first before ih =>
      obtain ⟨hfirst, hbefore⟩ := List.forall_mem_cons.1 h
      cases first with
      | part body => exact congrArg (body :: ·) (ih hbefore)
      | loose space content =>
          cases space with
          | true => exact ih hbefore
          | false => cases hfirst

theorem gather_of_not_content {supplies : List (Supply α)} (h : ∀ x ∈ supplies, x.isContent = false) :
    gather position supplies = parts supplies := by
  have happend : gather position (supplies ++ []) = parts supplies ++ gather position [] := gather_append h []
  rwa [List.append_nil, gather, List.append_nil] at happend

end Supply

namespace Node

def part? : Node → Option Part
  | .part body => some body
  | _ => none

def isContent (n : Node) : Bool := n.part?.isNone && !n.isSpace

def givenParts (ns : List Node) : List Part := ns.filterMap part?

def looseOnes (ns : List Node) : List Node := ns.filter (·.part?.isNone)

theorem isContent_supply (n : Node) : n.supply.isContent = n.isContent := by
  cases n with
  | text kind value position =>
      unfold isContent
      cases h : (text kind value position).isSpace <;> simp [supply, h, Supply.isContent, part?]
  | _ => rfl

theorem parts_supply (ns : List Node) : Supply.parts (ns.map supply) = givenParts ns := by
  induction ns with
  | nil => rfl
  | cons n rest ih =>
      cases n with
      | part body => exact congrArg (body :: ·) ih
      | _ => exact ih

theorem contents_supply (ns : List Node) : Supply.contents (ns.map supply) = looseOnes ns := by
  induction ns with
  | nil => rfl
  | cons n rest ih =>
      cases n with
      | part body => exact ih
      | _ => exact congrArg (_ :: ·) ih

theorem not_content_supply {ns : List Node} (h : ∀ n ∈ ns, n.isContent = false) :
    ∀ x ∈ ns.map supply, x.isContent = false := by
  intro x hx
  obtain ⟨n, hn, rfl⟩ := List.mem_map.1 hx
  rw [isContent_supply]
  exact h n hn

theorem supply_of_isContent {n : Node} (h : n.isContent) : n.supply = .loose false n := by
  rw [← isContent_supply] at h
  cases n with
  | part body => cases h
  | text kind value position =>
      rw [supply] at h ⊢
      · generalize (text kind value position).isSpace = space at h
        cases space with
        | true => cases h
        | false => rfl
      -- both equations are of a node that is no part
      all_goals
        intro _ hpart
        cases hpart
  | _ => rfl

end Node

open Node

/-- The part that gathers the loose children of a call from the first content on. -/
def CallOf.gathered (c : Call) (first : Node) (after : List Node) : Part where
  name := ""
  children := first :: looseOnes after
  position := c.position

theorem CallOf.parts_of_not_content {c : Call} (h : ∀ n ∈ c.children, n.isContent = false) :
    c.parts = givenParts c.children := by
  rw [CallOf.parts, Supply.gather_of_not_content (not_content_supply h), parts_supply]

theorem CallOf.parts_of_content {c : Call} {before after : List Node} {first : Node}
    (hc : c.children = before ++ first :: after) (hbefore : ∀ n ∈ before, n.isContent = false)
    (hfirst : first.isContent) :
    c.parts = givenParts before ++ c.gathered first after :: givenParts after := by
  rw [CallOf.parts, hc, List.map_append, List.map_cons, supply_of_isContent hfirst,
    Supply.gather_append (not_content_supply hbefore), parts_supply, Supply.gather, contents_supply,
    parts_supply]
  rfl

theorem Server.buildNode_call (s : Settings) (c : Call) : Server.buildNode s (.call c) =
    Server.buildCall s c (c.parts.map (Server.mapPart (Server.buildNode s))) := by
  obtain ⟨view, data, index, count, key, defer, children, position⟩ := c
  rw [Server.buildNode, Server.buildSupplies_eq, Server.gather_map]
  rfl

/-- A call without content supplies the parts it is given. With content it supplies one part more: it stands
behind the parts that are given in front of the first content, and holds this and all children behind that are
no parts. These parts are what is built of the call. -/
theorem gathers_content (s : Settings) (c : Call) :
    ((∀ n ∈ c.children, n.isContent = false) ∧ c.parts = givenParts c.children ∨
      ∃ before first after, c.children = before ++ first :: after ∧
        (∀ n ∈ before, n.isContent = false) ∧ first.isContent ∧
        c.parts = givenParts before ++
          { name := "", children := first :: looseOnes after, position := c.position } :: givenParts after) ∧
    Server.buildNode s (.call c) =
      Server.buildCall s c (c.parts.map (Server.mapPart (Server.buildNode s))) := by
  refine ⟨?_, Server.buildNode_call s c⟩
  cases hfind : c.children.find? isContent with
  | none =>
      have hnone : ∀ n ∈ c.children, n.isContent = false := by simpa using hfind
      exact .inl ⟨hnone, CallOf.parts_of_not_content hnone⟩
  | some first =>
      obtain ⟨hfirst, before, after, hchildren, hbefore⟩ := List.find?_eq_some_iff_append.1 hfind
      have hnone : ∀ n ∈ before, n.isContent = false := by simpa using hbefore
      exact .inr ⟨before, first, after, hchildren, hnone, hfirst,
        CallOf.parts_of_content hchildren hnone hfirst⟩

end TwinView
