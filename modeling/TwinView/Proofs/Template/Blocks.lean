import TwinView.Template.Basic

/-!
The code blocks of a template whose values are rendered: the ones that stand as children and as
attribute values.
-/

namespace TwinView

def attributeBlocks (attributes : List (String × Option Node)) : List CodeBlock :=
  attributes.filterMap fun a => a.2.bind Node.block?

mutual

def Node.blocks : Node → List CodeBlock
  | .text _ _ _ => []
  | .code b => [b]
  | .element ⟨_, attributes, children, _⟩ => attributeBlocks attributes ++ Node.blocksOf children
  | .view _ => []
  | .choice ⟨branches, _⟩ => Node.blocksOfBranches branches
  | .branch ⟨_, children, _⟩ => Node.blocksOf children
  | .loop ⟨_, _, _, _, children, _⟩ => Node.blocksOf children
  | .call ⟨_, _, _, _, _, _, children, _⟩ => Node.blocksOf children
  | .part ⟨_, children, _⟩ => Node.blocksOf children

def Node.blocksOf : List Node → List CodeBlock
  | [] => []
  | n :: rest => n.blocks ++ Node.blocksOf rest

def Node.blocksOfBranches : List Branch → List CodeBlock
  | [] => []
  | ⟨_, children, _⟩ :: rest => Node.blocksOf children ++ Node.blocksOfBranches rest

end

/-- The blocks of a view whose values are rendered. -/
def ViewOf.blocks (v : View) : List CodeBlock := Node.blocksOf v.children

end TwinView
