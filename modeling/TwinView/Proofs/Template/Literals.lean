import TwinView.Proofs.Server.Nodes

/-!
Templates without code, and how their texts are shown where blanks are kept or not.
-/

namespace TwinView

/-- The text of a value that the template fixes, if there is a value. -/
def fixedText? : Option Node → Option (Option String)
  | none => some none
  | some (.text .literal text _) => some (some text)
  | _ => none

theorem exists_of_fixedText? {n : Node} {text : Option String} (h : fixedText? (some n) = some text) :
    ∃ value position, n = .text .literal value position ∧ text = some value := by
  unfold fixedText? at h
  split at h
  · contradiction
  · next heq =>
      cases h
      cases heq
      exact ⟨_, _, rfl, rfl⟩
  · cases h

/-- A template of literals and of elements whose attributes are fixed. -/
inductive IsLiteral : Node → Prop
  | text (value : String) (position : Option Position) : IsLiteral (.text .literal value position)
  | element {e : Element} (hattributes : ∀ a ∈ e.attributes, (fixedText? a.2).isSome)
      (hchildren : ∀ n ∈ e.children, IsLiteral n) : IsLiteral (.element e)

def Settings.verbatim (s : Settings) : Settings := { s with normalizeWhitespace := false }

def shownAs (kept : Bool) (value : String) : String :=
  if kept || value = "" then value else Markup.normalize value

section

variable {α β : Type} {kept : Bool} {p : α → Bool} {items : List α}

/-- The items that are shown. Those of a sort are dropped at the edges, unless blanks are kept. -/
def trimmed (kept : Bool) (p : α → Bool) (items : List α) : List α :=
  if kept then items else Markup.trimEdges p items

theorem trimmed_map (kept : Bool) (p : β → Bool) (f : α → β) (items : List α) :
    trimmed kept p (items.map f) = (trimmed kept (fun x => p (f x)) items).map f := by
  cases kept with
  | true => rfl
  | false => exact Server.trimEdges_map p f items

theorem trimmed_sublist (kept : Bool) (p : α → Bool) (items : List α) : (trimmed kept p items).Sublist items := by
  cases kept with
  | true => exact .refl items
  | false =>
      change (Markup.trimEdges p items).Sublist items
      unfold Markup.trimEdges
      dsimp only
      split <;> split
      · exact (List.dropLast_sublist _).trans (List.tail_sublist items)
      · exact List.tail_sublist items
      · exact List.dropLast_sublist items
      · exact .refl items

theorem trimmed_subset (kept : Bool) (p : α → Bool) (items : List α) : trimmed kept p items ⊆ items :=
  (trimmed_sublist kept p items).subset

theorem mem_trimmed_or (kept : Bool) (p : α → Bool) {x : α} (hx : x ∈ items) :
    x ∈ trimmed kept p items ∨ kept = false ∧ p x := by
  have hhead (ys : List α) (hy : x ∈ ys) : x ∈ (if ys.head?.any p then ys.tail else ys) ∨ p x := by
    split
    · next hp =>
        cases ys with
        | nil => cases hy
        | cons y ys =>
            obtain rfl | hy := List.mem_cons.1 hy
            · exact .inr hp
            · exact .inl hy
    · exact .inl hy
  have hlast (ys : List α) (hy : x ∈ ys) : x ∈ (if ys.getLast?.any p then ys.dropLast else ys) ∨ p x := by
    split
    · next hp =>
        obtain ⟨y, hend, hdropped⟩ := (Option.any_eq_true ..).1 hp
        obtain ⟨zs, rfl⟩ := List.getLast?_eq_some_iff.1 hend
        obtain hy | hy := List.mem_append.1 hy
        · exact .inl (by rwa [List.dropLast_concat])
        · exact .inr (List.mem_singleton.1 hy ▸ hdropped)
    · exact .inl hy
  cases kept with
  | true => exact .inl hx
  | false =>
      obtain hx | hp := hhead items hx
      · exact (hlast _ hx).imp_right fun hp => ⟨rfl, hp⟩
      · exact .inr ⟨rfl, hp⟩

theorem trimmed_eq_of_length {kept' : Bool}
    (h : (trimmed kept p items).length = (trimmed kept' p items).length) :
    trimmed kept p items = trimmed kept' p items := by
  cases kept <;> cases kept'
  · rfl
  · exact (trimmed_sublist false p items).eq_of_length h
  · exact ((trimmed_sublist false p items).eq_of_length h.symm).symm
  · rfl

/-- Two ways to show the items of a list agree if they drop the same items and agree on each. -/
theorem map_trimmed_eq_iff {kept' : Bool} {f g : α → β}
    (hdropped : ∀ x ∈ items, p x → kept = kept' → f x = g x) :
    (trimmed kept p items).map f = (trimmed kept' p items).map g ↔
      trimmed kept p items = trimmed kept' p items ∧ ∀ x ∈ items, f x = g x := by
  constructor
  · intro h
    have hsame : trimmed kept p items = trimmed kept' p items :=
      trimmed_eq_of_length (by simpa using congrArg List.length h)
    refine ⟨hsame, fun x hx => ?_⟩
    have hshown {x : α} (hx : x ∈ trimmed kept' p items) : f x = g x :=
      List.map_inj_left.1 (hsame ▸ h) x hx
    obtain hx' | ⟨hkept', hp⟩ := mem_trimmed_or kept' p hx
    · exact hshown hx'
    · obtain hx' | ⟨hkept, -⟩ := mem_trimmed_or kept p hx
      · exact hshown (hsame ▸ hx')
      · exact hdropped x hx hp (hkept.trans hkept'.symm)
  · rintro ⟨hsame, h⟩
    rw [hsame]
    exact List.map_congr_left fun x hx => h x (trimmed_subset _ _ _ hx)

end

end TwinView
