import TwinView.Proofs.Client.Names
import Mathlib.Data.List.Chain

/-!
Namespaces over a sequence of names that share one list of those seen. Each namespace is declared
once and behind the one around it, whatever names are refused in between.
-/

namespace TwinView.Client

open Text

variable {name ns parent : String} {heads seen : List String} {done cs : List Char} {l : Layout}

/-- A namespace of a dotted name is what stands in front of one of its points. -/
def IsNamespaceOf (ns name : String) : Prop := ∃ rest, name.toList = ns.toList ++ '.' :: rest

def IsParent (parent name : String) : Prop :=
  ∃ last, name.toList = parent.toList ++ '.' :: last ∧ '.' ∉ last

def isPresent (ns : String) : Bool := isRoot ns && isGlobalName ns

theorem mem_dottedHeads_iff :
    ns ∈ dottedHeads done cs ↔
      ∃ before after, cs = before ++ '.' :: after ∧ ns.toList = done.reverse ++ before := by
  constructor
  · exact mem_dottedHeads
  · rintro ⟨before, after, rfl, hns⟩
    induction before generalizing done with
    | nil =>
        have hhead : String.ofList done.reverse = ns := by
          rw [← String.toList_inj, String.toList_ofList, hns, List.append_nil]
        simp [dottedHeads, hhead]
    | cons c before ih =>
        have hmore : ns ∈ dottedHeads (c :: done) (before ++ '.' :: after) := ih (by simp [hns])
        rw [List.cons_append, dottedHeads]
        split
        · exact List.mem_cons_of_mem _ hmore
        · exact hmore

theorem mem_dottedHeads_name : ns ∈ dottedHeads [] name.toList ↔ IsNamespaceOf ns name := by
  rw [mem_dottedHeads_iff]
  constructor
  · rintro ⟨before, after, hname, hns⟩
    exact ⟨after, by rw [hname, hns]; rfl⟩
  · rintro ⟨rest, hname⟩
    exact ⟨ns.toList, rest, hname, rfl⟩

/-- Behind a namespace that has been met, each one is right around the next. -/
theorem isChain_dottedHeads (piece : List Char) (hdone : done = piece ++ '.' :: parent.toList.reverse)
    (hpiece : '.' ∉ piece) : (parent :: dottedHeads done cs).IsChain IsParent := by
  -- `piece` is what has been read since the point behind `parent`.
  induction cs generalizing done parent piece with
  | nil => exact .singleton _
  | cons c cs ih =>
      rw [dottedHeads]
      split
      · next hc =>
          refine .cons_cons ⟨piece.reverse, by simp [hdone], by simpa using hpiece⟩ ?_
          exact ih [] (by simp [hc]) List.not_mem_nil
      · next hc =>
          apply ih (c :: piece)
          · rw [hdone, List.cons_append]
          · simpa [Ne.symm hc] using hpiece

theorem isRoot_iff : isRoot ns ↔ '.' ∉ ns.toList := by simp [isRoot]

/-- The outermost namespace is a root, and each one is right around the next. -/
theorem dottedHeads_outward (cs : List Char) (hdone : '.' ∉ done) :
    (∀ ns ∈ (dottedHeads done cs).head?, isRoot ns) ∧ (dottedHeads done cs).IsChain IsParent := by
  induction cs generalizing done with
  | nil => exact ⟨nofun, .nil⟩
  | cons c cs ih =>
      rw [dottedHeads]
      split
      · next hc =>
          constructor
          · rintro ns ⟨⟩
            rw [isRoot_iff]
            simpa using hdone
          · exact isChain_dottedHeads [] (by simp [hc]) List.not_mem_nil
      · next hc => exact ih (by simpa [Ne.symm hc] using hdone)

/-- What is declared is new, each once, and goes behind what has been seen. -/
theorem exists_declareEach (l : Layout) (heads : List String) (st : Declared) :
    ∃ new, declareEach l heads st =
        (!new.isEmpty, ⟨st.output ++ String.join (new.map (declaration l)), st.names ++ new⟩) ∧
      new.Nodup ∧ ∀ ns, ns ∈ new ↔ ns ∈ heads ∧ ns ∉ st.names ∧ ¬ isPresent ns := by
  induction heads generalizing st with
  | nil => exact ⟨[], by simp [declareEach], .nil, by simp⟩
  | cons head heads ih =>
      rw [declareEach]
      by_cases hknown : isPresent head ∨ head ∈ st.names
      · obtain ⟨new, hrun, hnodup, hmem⟩ := ih st
        have hskip : ((isRoot head && isGlobalName head) || st.names.contains head) = true := by
          simpa [isPresent] using hknown
        refine ⟨new, by rw [if_pos hskip, hrun], hnodup, fun ns => ?_⟩
        rw [hmem, List.mem_cons]
        constructor
        · rintro ⟨hns, hrest⟩
          exact ⟨.inr hns, hrest⟩
        · rintro ⟨rfl | hns, hseen, hpresent⟩
          · exact absurd hknown (not_or.2 ⟨hpresent, hseen⟩)
          · exact ⟨hns, hseen, hpresent⟩
      · obtain ⟨new, hrun, hnodup, hmem⟩ := ih ⟨st.output ++ declaration l head, st.names ++ [head]⟩
        have hdeclare : ¬ ((isRoot head && isGlobalName head) || st.names.contains head) = true := by
          simpa [isPresent] using hknown
        rw [not_or] at hknown
        refine ⟨head :: new, ?_, ?_, fun ns => ?_⟩
        · rw [if_neg hdeclare, hrun]
          simp [String.join_cons, String.append_assoc]
        · refine List.nodup_cons.2 ⟨fun hhead => ?_, hnodup⟩
          exact ((hmem head).1 hhead).2.1 (by simp)
        · rw [List.mem_cons, List.mem_cons, hmem, List.mem_append, List.mem_singleton]
          by_cases hns : ns = head
          · simp [hns, hknown]
          · simp [hns]

/-- Every namespace in the list is a root, or stands behind the one around it unless that is present. -/
def Outward (seen : List String) : Prop :=
  ∀ before ns after, seen = before ++ ns :: after → isRoot ns = false →
    ∃ parent, IsParent parent ns ∧ (parent ∈ before ∨ isPresent parent)

theorem Outward.snoc (h : Outward seen)
    (hns : isRoot ns = false → ∃ parent, IsParent parent ns ∧ (parent ∈ seen ∨ isPresent parent)) :
    Outward (seen ++ [ns]) := by
  intro before name after hsplit hname
  obtain rfl | ⟨last, after, rfl⟩ := List.eq_nil_or_concat' after
  · obtain ⟨rfl, rfl⟩ := List.append_inj' hsplit rfl |>.imp_right List.singleton_inj.1
    exact hns hname
  · rw [← List.cons_append, ← List.append_assoc] at hsplit
    exact h _ _ _ (List.append_inj' hsplit rfl).1 hname

/-- From a root on, or from a namespace whose parent is known, the order stays outermost first. -/
theorem outward_declareEach {st : Declared} (h : Outward st.names) (hchain : heads.IsChain IsParent)
    (hfirst : ∀ ns ∈ heads.head?, isRoot ns = false →
      ∃ parent, IsParent parent ns ∧ (parent ∈ st.names ∨ isPresent parent)) :
    Outward (declareEach l heads st).2.names := by
  induction heads generalizing st with
  | nil => exact h
  | cons head heads ih =>
      have hparent : ∀ ns ∈ heads.head?, IsParent head ns := (List.isChain_cons.1 hchain).1
      rw [declareEach]
      split
      · next hknown =>
          refine ih h hchain.tail fun ns hns _ => ⟨head, hparent ns hns, ?_⟩
          simpa [isPresent, or_comm] using hknown
      · exact ih (h.snoc (hfirst head rfl)) hchain.tail fun ns hns _ =>
          ⟨head, hparent ns hns, .inl (by simp)⟩

def Declared.after (l : Layout) (names : List String) : Declared :=
  names.foldl (fun st name => (declareNamespaces l st name).2) {}

theorem declareNamespaces_refused {st : Declared} (h : isDottedName name = false) :
    declareNamespaces l st name = (.error (.invalidName name), st) := by
  simp [declareNamespaces, h]

theorem exists_declareNamespaces (l : Layout) (st : Declared) (h : isDottedName name) :
    ∃ new, declareNamespaces l st name =
        (.ok !new.isEmpty, ⟨st.output ++ String.join (new.map (declaration l)), st.names ++ new⟩) ∧
      new.Nodup ∧ ∀ ns, ns ∈ new ↔ IsNamespaceOf ns name ∧ ns ∉ st.names ∧ ¬ isPresent ns := by
  obtain ⟨new, hrun, hnodup, hmem⟩ := exists_declareEach l (dottedHeads [] name.toList) st
  refine ⟨new, ?_, hnodup, fun ns => by rw [hmem, mem_dottedHeads_name]⟩
  rw [declareNamespaces, if_pos h, hrun]

theorem outward_declareNamespaces {st : Declared} (h : Outward st.names) :
    Outward (declareNamespaces l st name).2.names := by
  unfold declareNamespaces
  split
  · obtain ⟨hroot, hchain⟩ := dottedHeads_outward name.toList List.not_mem_nil
    refine outward_declareEach h hchain fun ns hns hnot => ?_
    rw [hroot ns hns] at hnot
    cases hnot
  · exact h

/-- What holds of a list of namespaces after some names. -/
structure Registers (l : Layout) (names : List String) (st : Declared) : Prop where
  nodup : st.names.Nodup
  mem_iff : ∀ ns, ns ∈ st.names ↔
    (∃ name ∈ names, isDottedName name ∧ IsNamespaceOf ns name) ∧ ¬ isPresent ns
  outward : Outward st.names
  output : st.output = String.join (st.names.map (declaration l))

theorem Registers.declare {names : List String} {st : Declared} (h : Registers l names st) :
    Registers l (names ++ [name]) (declareNamespaces l st name).2 := by
  have houtward : Outward (declareNamespaces l st name).2.names := outward_declareNamespaces h.outward
  by_cases hname : isDottedName name
  · obtain ⟨new, hrun, hnodup, hmem⟩ := exists_declareNamespaces l st hname
    rw [hrun] at houtward ⊢
    refine ⟨?_, fun ns => ?_, houtward, ?_⟩
    · refine List.nodup_append.2 ⟨h.nodup, hnodup, fun ns hseen other hnew => ?_⟩
      rintro rfl
      exact ((hmem ns).1 hnew).2.1 hseen
    · simp only [List.mem_append, List.mem_singleton, hmem, h.mem_iff]
      constructor
      · rintro (⟨⟨other, hother, hns⟩, hpresent⟩ | ⟨hns, -, hpresent⟩)
        · exact ⟨⟨other, .inl hother, hns⟩, hpresent⟩
        · exact ⟨⟨name, .inr rfl, hname, hns⟩, hpresent⟩
      · rintro ⟨⟨other, hother | rfl, hns⟩, hpresent⟩
        · exact .inl ⟨⟨other, hother, hns⟩, hpresent⟩
        · by_cases hseen : ∃ other ∈ names, isDottedName other ∧ IsNamespaceOf ns other
          · exact .inl ⟨hseen, hpresent⟩
          · exact .inr ⟨hns.2, fun hboth => hseen hboth.1, hpresent⟩
    · rw [h.output, List.map_append, String.join_append]
  · rw [declareNamespaces_refused (by simpa using hname)]
    refine ⟨h.nodup, fun ns => ?_, h.outward, h.output⟩
    rw [h.mem_iff]
    simp [or_and_right, exists_or, hname]

theorem registers_after (l : Layout) (names : List String) : Registers l names (.after l names) := by
  induction names using List.reverseRecOn with
  | nil => exact ⟨.nil, by simp [Declared.after], by rintro (_ | ⟨_, _⟩) _ _ ⟨⟩, rfl⟩
  | append_singleton names name ih =>
      rw [Declared.after, List.foldl_append]
      exact ih.declare

theorem space_not_mem (h : isDottedName name) : ' ' ∉ name.toList := by
  obtain ⟨root, parts, htext, hsimple⟩ := exists_dottedName h
  have hpart : ∀ part ∈ root :: parts, ' ' ∉ part.toList := by
    intro part hp hspace
    obtain ⟨c, cs, htoList, -, hchars⟩ := exists_of_isSimpleName (hsimple part hp)
    exact absurd (hchars ' ' (htoList ▸ hspace)) (by decide)
  simpa [htext] using hpart

/-- What a declaration is: only a root is a variable. -/
theorem declaration_guard (l : Layout) (ns : String) :
    declaration l ns = (if '.' ∈ ns.toList then "" else "var ") ++
      ((if l.newline = "" ∧ l.indent = "" then ns ++ "=" ++ ns ++ "||\x7b\x7d;"
        else ns ++ " = " ++ ns ++ " || \x7b\x7d;") ++ l.newline) := by
  have hpretty : l.isPretty = true ↔ ¬ (l.newline = "" ∧ l.indent = "") := by
    rw [not_and_or]
    simp [Layout.isPretty]
  have hline : l.line 0 = l.newline := by simp [Layout.line, repeated]
  rw [declaration, hline]
  by_cases hcompact : l.newline = "" ∧ l.indent = ""
  · have hspace : l.isPretty = false := by simpa [hcompact] using hpretty
    by_cases hroot : '.' ∈ ns.toList <;>
      simp [hspace, hcompact, hroot, isRoot, String.append_assoc]
  · have hspace : l.isPretty = true := hpretty.2 hcompact
    by_cases hroot : '.' ∈ ns.toList <;>
      simp [hspace, hcompact, hroot, isRoot, String.append_assoc]

theorem declaration_ne_empty (h : isDottedName ns) : declaration l ns ≠ "" := by
  obtain ⟨root, parts, hns, hsimple⟩ := exists_dottedName h
  obtain ⟨c, cs, hroot, -⟩ := exists_of_isSimpleName (hsimple root List.mem_cons_self)
  intro hempty
  rw [declaration_eq] at hempty
  simpa [hns, hroot] using congrArg String.toList hempty

theorem IsNamespaceOf.isDottedName (h : IsNamespaceOf ns name) (hname : isDottedName name) : isDottedName ns :=
  isDottedName_head hname (mem_dottedHeads_name.2 h)

/-- Whether something has been written is told by the text, since no declaration is empty. -/
theorem exists_grew (l : Layout) (st : Declared) (h : isDottedName name) :
    ∃ grew st', declareNamespaces l st name = (.ok grew, st') ∧ (grew ↔ st'.output ≠ st.output) := by
  obtain ⟨new, hrun, -, hmem⟩ := exists_declareNamespaces l st h
  refine ⟨_, _, hrun, ?_⟩
  cases new with
  | nil => simp
  | cons ns new =>
      have hne : declaration l ns ≠ "" :=
        declaration_ne_empty (((hmem ns).1 List.mem_cons_self).1.isDottedName h)
      simp [hne]

/-- A text that starts with a name of several parts does not start with the keyword. -/
theorem var_not_prefix (h : isDottedName ns) (hparts : '.' ∈ ns.toList) {cs : List Char}
    (hname : ns.toList <+: cs) : ¬ "var ".toList <+: cs := by
  intro hvar
  obtain hshort | hlong := List.prefix_or_prefix_of_prefix hname hvar
  · exact absurd (hshort.subset hparts) (by decide)
  · exact space_not_mem h (hlong.subset (by decide))

/-- A namespace is declared once, behind the one around it, and only a root as a variable. What has
been written is one guard for each in order; a name that is accepted tells whether it has added to it,
and one that is refused leaves no trace. -/
theorem declared_once (l : Layout) (names : List String) :
    let st := Declared.after l names
    let guarded (ns : String) : String :=
      (if l.newline = "" ∧ l.indent = "" then ns ++ "=" ++ ns ++ "||\x7b\x7d;"
        else ns ++ " = " ++ ns ++ " || \x7b\x7d;") ++ l.newline
    st.names.Nodup ∧
      (∀ ns, ns ∈ st.names ↔
        (∃ name ∈ names, isDottedName name ∧ IsNamespaceOf ns name) ∧
          ¬ ('.' ∉ ns.toList ∧ isGlobalName ns)) ∧
      (∀ before ns after, st.names = before ++ ns :: after → '.' ∈ ns.toList →
        ∃ parent, IsParent parent ns ∧
          (parent ∈ before ∨ ('.' ∉ parent.toList ∧ isGlobalName parent))) ∧
      st.output = String.join (st.names.map fun ns =>
        if '.' ∈ ns.toList then guarded ns else "var " ++ guarded ns) ∧
      (∀ ns ∈ st.names, '.' ∈ ns.toList → ¬ "var ".toList <+: (guarded ns).toList) ∧
      ∀ name, if isDottedName name then
          ∃ grew st', declareNamespaces l st name = (.ok grew, st') ∧ (grew ↔ st'.output ≠ st.output)
        else declareNamespaces l st name = (.error (.invalidName name), st) := by
  intro st guarded
  have h : Registers l names st := registers_after l names
  have hpresent (ns : String) : isPresent ns ↔ '.' ∉ ns.toList ∧ isGlobalName ns := by
    simp [isPresent, isRoot]
  refine ⟨h.nodup, ?_, ?_, ?_, fun ns hns hparts => ?_, fun name => ?_⟩
  · simpa only [hpresent] using h.mem_iff
  · simpa only [Outward, hpresent, isRoot, Bool.not_eq_false', List.contains_iff_mem] using h.outward
  · have htext (ns : String) :
        declaration l ns = if '.' ∈ ns.toList then guarded ns else "var " ++ guarded ns := by
      rw [declaration_guard]
      split <;> simp [guarded]
    rw [h.output, funext htext]
  · obtain ⟨⟨name, -, hname, hof⟩, -⟩ := (h.mem_iff ns).1 hns
    have hstart : ns.toList <+: (guarded ns).toList := by
      dsimp only [guarded]
      split <;> simp
    exact var_not_prefix (hof.isDottedName hname) hparts hstart
  · split
    · next hname => exact exists_grew l st hname
    · next hname => exact declareNamespaces_refused (by simpa using hname)

/-- Roots that browsers bring along, a name that is refused and one that comes again. -/
example : (Declared.after {} ["window.app.Page", "app..Bad", "app.page.Part", "app.page.Part"]).names =
    ["window.app", "app", "app.page"] := by decide

end TwinView.Client
