import TwinView.Proofs.Client.Lexemes
import TwinView.Proofs.Client.Normalization
import TwinView.Proofs.Script.Bindings

/-!
What client text is read back as. A node is a value of the client: an element or a command is an array of
its tag, the object of its attributes if it has any, and one item for each child that is shown and is no
comment of the code. Written out, each item spells just this value, wherever it stands.
-/

namespace TwinView.Client

open Text Script

section

variable (s : Settings) (verbatim : Bool)

def shownText (value : String) : String :=
  if !verbatim && s.normalizeWhitespace && value ≠ "" then Markup.normalize value else convertText s value

/-- The function that a source spells, up to offsets; a source that is no function counts as `null`. -/
def codeTree (source : String) : Expr :=
  match parse source with
  | .ok [.function i f] => (Expr.function i f).unplaced
  | _ => .null 0

def blockTree (b : CodeBlock) : Expr := codeTree (b.clientCode (layoutOf s).isPretty)

/-- The value of an element's attribute. Code is a function; a flag with any other value is on. -/
def attributeTree (name : String) : Option Node → Expr
  | some (.code b) => blockTree s b
  | value =>
    if Vocabulary.isFlagAttribute name then .bool 0 true
    else
      match value with
      | none => .null 0
      | some (.text .comment _ _) => .text 0 ""
      | some (.text _ value _) => .text 0 (shownText s verbatim value)
      | some n => .text 0 (shownText s verbatim (plainText n))

/-- The value of a command's attribute, a function also where it is written as text. -/
def argumentTree : Node → Expr
  | .code b => blockTree s b
  | .text _ value _ => blockTree s { kind := .expression, value }
  | n => blockTree s { kind := .expression, value := plainText n }

/-- The view that a call names, with the client's root in front of a name. -/
def viewTree : Node → Expr
  | .code b =>
    blockTree s (if b.kind = .expression then { kind := .expression, value := s.clientName b.value } else b)
  | .text _ value _ => blockTree s { kind := .expression, value := s.clientName value }
  | n => blockTree s { kind := .expression, value := s.clientName (plainText n) }

def given (a : String × Option Node) : List (String × Expr) :=
  a.2.toList.map fun n => (a.1, argumentTree s n)

/-- An array of a tag, an object with its properties if there are any, and items. -/
def listing (tag : String) (properties : List (String × Expr)) (items : List Expr) : Expr :=
  .array 0 (.text 0 tag :: ((if properties.isEmpty then [] else [objectOf properties]) ++ items))

/-- The items of a list whose entries are given with whether they may be dropped at its edges. -/
def shownItems (entries : List (Bool × Option Expr)) : List Expr :=
  (if s.normalizeWhitespace && !verbatim then Markup.trimEdges (·.1) entries else entries).filterMap (·.2)

def contentTrees (value : String) : List Expr :=
  if value = "" then [] else [.text 0 (shownText s verbatim value)]

end

def isEdgeNode : Node → Bool
  | .text .literal value _ => Markup.isNewlines value
  | _ => false

section

variable (s : Settings)

mutual

/-- The value of a node. A comment of the code has none. -/
def nodeTree (verbatim : Bool) : Node → Option Expr
  | .text .literal value _ => some (.text 0 (shownText s verbatim value))
  | .text .unknown value _ => some (blockTree s { kind := .markup, value := stringLiteral value })
  | .text .comment value _ => some (listing "!" [] (contentTrees s verbatim value))
  | .text .codeComment _ _ => none
  | .text .docType value _ => some (listing "!DOCTYPE" [] (contentTrees s verbatim value))
  | .code b => some (blockTree s b)
  | .element ⟨tag, attributes, children, _⟩ =>
    let inside := verbatim || isVerbatimTag tag
    let properties := attributes.map fun (name, value) =>
      (shownText s inside name, attributeTree s inside name value)
    some (listing (shownText s inside tag) properties (shownItems s inside (nodeTrees inside children)))
  | .view _ => none
  | .choice ⟨branches, _⟩ => some (listing "$xor" [] (shownItems s verbatim (branchTrees verbatim branches)))
  | .branch ⟨test, children, _⟩ =>
    some (listing "$if" (test.toList.map fun b => ("test", blockTree s b))
      (shownItems s verbatim (nodeTrees verbatim children)))
  | .loop ⟨each, within, count, data, children, _⟩ =>
    let properties := [("each", each), ("in", within), ("count", count), ("data", data)].flatMap (given s)
    some (listing "$for" properties (shownItems s verbatim (nodeTrees verbatim children)))
  | .call ⟨view, data, index, count, key, _, children, _⟩ =>
    let properties := view.toList.map (fun n => ("view", viewTree s n)) ++
      [("data", data), ("index", index), ("count", count), ("key", key)].flatMap (given s)
    some (listing "$call" properties (shownItems s verbatim (nodeTrees verbatim children)))
  | .part ⟨name, children, _⟩ =>
    some (listing "$part" [("name", .text 0 (shownText s verbatim name))]
      (shownItems s verbatim (nodeTrees verbatim children)))

def nodeTrees (verbatim : Bool) : List Node → List (Bool × Option Expr)
  | [] => []
  | n :: rest => (isEdgeNode n, nodeTree verbatim n) :: nodeTrees verbatim rest

def branchTrees (verbatim : Bool) : List Branch → List (Bool × Option Expr)
  | [] => []
  | ⟨test, children, _⟩ :: rest =>
    (false, some (listing "$if" (test.toList.map fun b => ("test", blockTree s b))
      (shownItems s verbatim (nodeTrees verbatim children)))) :: branchTrees verbatim rest

end

/-- What a view is bound to: its root, or an untagged array of several. -/
def rootTree (roots : List Node) : Option Expr :=
  match roots with
  | [root] => nodeTree s false root
  | roots => some (listing "" [] (shownItems s false (nodeTrees s false roots)))

end

/-- The source is one function, and its last token, a brace, ends where the source does. -/
def IsClosedFunction (source : String) : Prop :=
  (∃ i f, parse source = .ok [.function i f]) ∧
  ∃ ts i, tokenize source = .ok (ts ++ [⟨i, byteLength source.toList, .mark '\x7d'⟩])

def Value.IsReadable : Value → Prop
  | .null | .on => True
  | .text value => IsBasicText value
  | .code source => IsClosedFunction source

mutual

/-- Every text in the item is basic, and all code in it is closed functions. -/
def Item.IsReadable : Item → Prop
  | .text value => IsBasicText value
  | .code source => IsClosedFunction source
  | .note _ => True
  | .special tag value => IsBasicText tag ∧ IsBasicText value
  | .element tag attributes children =>
    IsBasicText tag ∧ (∀ a ∈ attributes, IsBasicText a.1 ∧ a.2.IsReadable) ∧ Item.areReadable children

def Item.areReadable : List Item → Prop
  | [] => True
  | item :: rest => item.IsReadable ∧ Item.areReadable rest

end

variable {s : Settings} {verbatim : Bool} {name value source : String} {ls : List Lexeme} {depth : Nat}

theorem isBasic_of_isGap {c : Char} (h : isGap c) : isBasic c := by
  simp only [isGap, isSpace, isLineBreak, Bool.or_eq_true, decide_eq_true_eq] at h
  obtain (((((rfl | rfl) | rfl) | rfl) | rfl) | rfl) | ((rfl | rfl) | rfl) | rfl := h <;> decide

theorem isBasicText_replaceChar {old : Char} {new : String} (hnew : IsBasicText new)
    (h : IsBasicText value) : IsBasicText (replaceChar old new value) := by
  intro c hc
  rw [replaceChar, String.toList_ofList, List.mem_flatMap] at hc
  obtain ⟨d, hd, hc⟩ := hc
  split at hc
  · exact hnew c hc
  · exact List.mem_singleton.1 hc ▸ h d hd

theorem mem_collapse {inside : Bool} {cs : List Char} {c : Char} (h : c ∈ Markup.collapse inside cs) :
    c ∈ cs ∨ c = ' ' := by
  fun_induction Markup.collapse inside cs with
  | case1 => cases h
  | case2 d cs _ ih => exact (ih h).imp_left (List.mem_cons_of_mem d)
  | case3 inside d cs _ _ ih =>
      obtain rfl | h := List.mem_cons.1 h
      · exact .inr rfl
      · exact (ih h).imp_left (List.mem_cons_of_mem d)
  | case4 inside d cs _ ih =>
      obtain rfl | h := List.mem_cons.1 h
      · exact .inl List.mem_cons_self
      · exact (ih h).imp_left (List.mem_cons_of_mem d)

theorem isBasicText_normalize (h : IsBasicText value) : IsBasicText (Markup.normalize value) := by
  have hkept (c : Char) (hc : c ∈ dropEndWhile Markup.isNewline (value.toList.dropWhile Markup.isNewline)) :
      c ∈ value.toList := by
    rw [dropEndWhile, List.mem_reverse] at hc
    exact List.dropWhile_subset _ (List.mem_reverse.1 (List.dropWhile_subset _ hc))
  intro c hc
  rw [Markup.normalize] at hc
  split at hc
  · obtain rfl : c = ' ' := by simpa using hc
    rfl
  · rw [String.toList_ofList] at hc
    obtain hc | rfl := mem_collapse hc
    · exact h c (hkept c hc)
    · rfl

theorem isBasicText_convertText (hs : BlankLayout s) (h : IsBasicText value) :
    IsBasicText (convertText s value) := by
  have hindent : IsBasicText s.indent := fun c hc => isBasic_of_isGap (hs.indent c hc)
  have hnewline : IsBasicText s.newline := fun c hc => isBasic_of_isGap (hs.newline c hc)
  rw [convertText]
  split
  · dsimp only
    split <;> split
    · exact isBasicText_replaceChar hnewline (isBasicText_replaceChar hindent h)
    · exact isBasicText_replaceChar hnewline h
    · exact isBasicText_replaceChar hindent h
    · exact h
  · exact h

theorem isBasicText_shownText (hs : BlankLayout s) (h : IsBasicText value) :
    IsBasicText (shownText s verbatim value) := by
  rw [shownText]
  split
  · exact isBasicText_normalize h
  · exact isBasicText_convertText hs h

theorem shownText_of_unblanked (h : ∀ c ∈ name.toList, Markup.isCollapsible c = false) :
    shownText s verbatim name = name := by
  unfold shownText
  split_ifs with hnormalize
  · simp only [Bool.and_eq_true, decide_eq_true_eq] at hnormalize
    exact Markup.normalize_of_unblanked h hnormalize.2
  · exact convertText_of_spaces fun c hc hblank => by simp [h c hc] at hblank

theorem writeText_eq : writeText s verbatim value = stringLiteral (shownText s verbatim value) := by
  rw [writeText, shownText]
  split <;> rfl

theorem lexes_writeText (hs : BlankLayout s) (verbatim : Bool) (h : IsBasicText value) :
    Lexes Anywhere (writeText s verbatim value) [.text (shownText s verbatim value)] := by
  rw [writeText_eq]
  exact lexed_stringLiteral (isBasicText_shownText hs h)

theorem exists_operand_codeTree (h : IsClosedFunction source) :
    ∃ ls, Lexes Anywhere source ls ∧ Operand (codeTree source) ls := by
  obtain ⟨⟨i, f, hparse⟩, ts, j, hts⟩ := h
  have hoperand := operand_function hts hparse
  rw [List.map_append] at hoperand
  refine ⟨_, lexed_of_tokenize (by decide) hts, ?_⟩
  rw [codeTree, hparse]
  dsimp only
  rwa [unplaced_function]

def valueTree (s : Settings) (verbatim : Bool) : Value → Expr
  | .null => .null 0
  | .on => .bool 0 true
  | .text value => .text 0 (shownText s verbatim value)
  | .code source => codeTree source

def attributeProperty (s : Settings) (verbatim : Bool) (a : String × Value) : String × Expr :=
  (shownText s verbatim a.1, valueTree s verbatim a.2)

theorem blockTree_eq (b : CodeBlock) : blockTree s b = codeTree (blockCode s b) := rfl

theorem viewTree_text (kind : TextKind) (value : String) (position : Option Position) :
    viewTree s (.text kind value position) =
      codeTree (blockCode s { kind := .expression, value := s.clientName value }) := rfl

theorem plainText_text (kind : TextKind) (value : String) (position : Option Position) :
    plainText (.text kind value position) = value := by
  rw [plainText]

theorem valueTree_attributeValue (name : String) (value : Option Node) :
    valueTree s verbatim (attributeValue s name value) = attributeTree s verbatim name value := by
  have hempty : shownText s verbatim "" = "" := shownText_of_unblanked nofun
  unfold attributeValue attributeTree
  match value with
  | none =>
      dsimp only
      split <;> rfl
  | some (.code b) => rfl
  | some (.text kind value position) =>
      cases kind <;> dsimp only <;> split <;> simp only [valueTree, plainText_text, hempty]
  | some (.element _) | some (.view _) | some (.choice _) | some (.branch _) | some (.loop _)
  | some (.call _) | some (.part _) =>
      dsimp only
      split <;> rfl

theorem commandValue_text (kind : TextKind) (value : String) (position : Option Position) :
    commandValue s (.text kind value position) = .code (blockCode s { kind := .expression, value }) := by
  rw [commandValue, plainText_text]
  · rfl
  · nofun

theorem viewValue_text (kind : TextKind) (value : String) (position : Option Position) :
    viewValue s (.text kind value position) =
      .code (blockCode s { kind := .expression, value := s.clientName value }) := by
  rw [viewValue, plainText_text]
  · rfl
  · nofun

theorem valueTree_commandValue (n : Node) :
    valueTree s verbatim (commandValue s n) = argumentTree s n := by
  cases n with
  | text kind value position =>
      rw [commandValue_text]
      rfl
  | _ => rfl

theorem valueTree_viewValue (n : Node) : valueTree s verbatim (viewValue s n) = viewTree s n := by
  cases n with
  | text kind value position =>
      rw [viewValue_text]
      rfl
  | code b =>
      unfold viewValue viewTree
      dsimp only
      split <;> rfl
  | _ => rfl

@[simp] theorem given_none (name : String) : given s (name, none) = [] := rfl

@[simp] theorem given_code (name : String) (b : CodeBlock) :
    given s (name, some (.code b)) = [(name, blockTree s b)] := rfl

@[simp] theorem given_text (name : String) (kind : TextKind) (value : String) (position : Option Position) :
    given s (name, some (.text kind value position)) =
      [(name, blockTree s { kind := .expression, value })] := rfl

theorem map_commandAttributes {attributes : List (String × Option Node)}
    (h : ∀ a ∈ attributes, ∀ c ∈ a.1.toList, Markup.isCollapsible c = false) :
    (commandAttributes s attributes).map (attributeProperty s verbatim) = attributes.flatMap (given s) := by
  induction attributes with
  | nil => rfl
  | cons a attributes ih =>
      obtain ⟨hname, hmore⟩ := List.forall_mem_cons.1 h
      obtain ⟨name, value⟩ := a
      rw [List.flatMap_cons, ← ih hmore]
      cases value with
      | none => rfl
      | some n =>
          have hproperty : attributeProperty s verbatim (name, commandValue s n) = (name, argumentTree s n) := by
            rw [attributeProperty, shownText_of_unblanked hname, valueTree_commandValue]
          simp [commandAttributes, given, hproperty]

end TwinView.Client
