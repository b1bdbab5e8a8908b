import TwinView.Code.Class

/-!
Members of a class by name. Where no two members share a name, a method is found under its name, and
changing one method leaves the others alone.
-/

namespace TwinView.Code

def Member.name? : Member → Option String
  | .constructor _ => none
  | m => some m.name

/-- The names of the members; constructors have none. -/
def ClassOf.names (c : ClassDecl) : List String := c.members.filterMap Member.name?

def ClassOf.Distinct (c : ClassDecl) : Prop := c.names.Nodup

theorem Member.name?_eq_some {m : Member} {name : String} (h : m.name? = some name) :
    m.name = name := by
  cases m <;> simp_all [Member.name?]

namespace ClassOf

variable {c : ClassDecl} {m : Member} {name : String} {f : Method → Method} {members : List Member}

theorem mem_names : name ∈ c.names ↔ ∃ m ∈ c.members, m.name? = some name := by
  simp [names]

theorem mem_names_of_mem (h : m ∈ c.members) (hn : m.name? = some name) : name ∈ c.names :=
  mem_names.2 ⟨m, h, hn⟩

@[simp] theorem names_add (c : ClassDecl) (m : Member) : (c.add m).names = c.names ++ m.name?.toList := by
  cases h : m.name? <;> simp [names, add, h]

theorem nodup_names_tail {first : Member} {rest : List Member}
    (h : ((first :: rest).filterMap Member.name?).Nodup) : (rest.filterMap Member.name?).Nodup :=
  h.sublist ((List.sublist_cons_self first rest).filterMap _)

theorem Distinct.eq_of_name {m m' : Member} (hc : c.Distinct) (h : m ∈ c.members)
    (h' : m' ∈ c.members) (hm : m.name? = some name) (hm' : m'.name? = some name) : m = m' := by
  unfold Distinct names at hc
  generalize c.members = members at hc h h'
  induction members with
  | nil => cases h
  | cons first rest ih =>
      have hfirst (m : Member) (h : m ∈ rest) (hm : m.name? = some name) : first.name? ≠ some name := by
        intro hf
        rw [List.filterMap_cons_some hf] at hc
        exact (List.nodup_cons.1 hc).1 (List.mem_filterMap.2 ⟨m, h, hm⟩)
      rcases List.mem_cons.1 h with he | h <;> rcases List.mem_cons.1 h' with he' | h'
      · rw [he, he']
      · exact absurd (he ▸ hm) (hfirst m' h' hm')
      · exact absurd (he' ▸ hm') (hfirst m h hm)
      · exact ih (nodup_names_tail hc) h h'

theorem findMethod?_of_mem {m : Method} (hc : c.Distinct) (h : .method m ∈ c.members) :
    c.findMethod? m.name = some m := by
  unfold findMethod?
  have hsome : (c.members.find? (·.isMethod m.name)).isSome := by
    rw [List.find?_isSome]
    exact ⟨.method m, h, by simp [Member.isMethod]⟩
  obtain ⟨found, hf⟩ := Option.isSome_iff_exists.1 hsome
  have hp := List.find?_some hf
  have hmem := List.mem_of_find?_eq_some hf
  cases found with
  | method m' =>
      have hname : m'.name = m.name := by simpa [Member.isMethod] using hp
      have hname? : (Member.method m').name? = some m.name := by simp [Member.name?, Member.name, hname]
      cases hc.eq_of_name hmem h hname? rfl
      simp [hf, Member.method?]
  | field | constructor | nested => simp [Member.isMethod] at hp

theorem mem_of_findMethod? {m : Method} (h : c.findMethod? name = some m) :
    .method m ∈ c.members ∧ m.name = name := by
  unfold findMethod? at h
  obtain ⟨found, hf, hm⟩ := Option.bind_eq_some_iff.1 h
  have hp := List.find?_some hf
  have hmem := List.mem_of_find?_eq_some hf
  cases found with
  | method m' =>
      cases hm
      exact ⟨hmem, by simpa [Member.isMethod] using hp⟩
  | field | constructor | nested => cases hm

theorem mem_of_mem_modifyFirst (h : m ∈ modifyFirst name f members) :
    m ∈ members ∨ ∃ m', .method m' ∈ members ∧ m'.name = name ∧ m = .method (f m') := by
  fun_induction modifyFirst name f members with
  | case1 => cases h
  | case2 m' rest hname =>
      rcases List.mem_cons.1 h with rfl | h
      · exact Or.inr ⟨m', List.mem_cons_self, hname, rfl⟩
      · exact Or.inl (List.mem_cons_of_mem _ h)
  | case3 m' rest hname ih | case4 m' rest _ ih =>
      rcases List.mem_cons.1 h with rfl | h
      · exact Or.inl List.mem_cons_self
      · rcases ih h with h | ⟨m'', hm, hn, he⟩
        · exact Or.inl (List.mem_cons_of_mem _ h)
        · exact Or.inr ⟨m'', List.mem_cons_of_mem _ hm, hn, he⟩

theorem mem_modifyFirst_of_ne (h : m ∈ members) (hne : m.name ≠ name) :
    m ∈ modifyFirst name f members := by
  fun_induction modifyFirst name f members with
  | case1 => cases h
  | case2 m' rest hname =>
      rcases List.mem_cons.1 h with rfl | h
      · exact absurd hname hne
      · exact List.mem_cons_of_mem _ h
  | case3 m' rest hname ih | case4 m' rest _ ih =>
      rcases List.mem_cons.1 h with rfl | h
      · exact List.mem_cons_self
      · exact List.mem_cons_of_mem _ (ih h)

theorem mem_modifyFirst (name : String) (f : Method → Method) (h : m ∈ members) :
    m ∈ modifyFirst name f members ∨
      ∃ m', m = .method m' ∧ .method (f m') ∈ modifyFirst name f members := by
  fun_induction modifyFirst name f members with
  | case1 => cases h
  | case2 m' rest hname =>
      rcases List.mem_cons.1 h with rfl | h
      · exact Or.inr ⟨m', rfl, List.mem_cons_self⟩
      · exact Or.inl (List.mem_cons_of_mem _ h)
  | case3 m' rest hname ih | case4 m' rest _ ih =>
      rcases List.mem_cons.1 h with rfl | h
      · exact Or.inl List.mem_cons_self
      · rcases ih h with h | ⟨m'', he, h⟩
        · exact Or.inl (List.mem_cons_of_mem _ h)
        · exact Or.inr ⟨m'', he, List.mem_cons_of_mem _ h⟩

theorem mem_modifyFirst_self {m : Method} (hc : (members.filterMap Member.name?).Nodup)
    (h : .method m ∈ members) : .method (f m) ∈ modifyFirst m.name f members := by
  induction members with
  | nil => cases h
  | cons first rest ih =>
      rcases List.mem_cons.1 h with rfl | hm
      · simp [modifyFirst]
      · have hrest := ih (nodup_names_tail hc) hm
        cases first with
        | method m' =>
            have hne : m'.name ≠ m.name := by
              intro he
              rw [List.filterMap_cons_some (rfl : Member.name? (.method m') = some m'.name)] at hc
              exact (List.nodup_cons.1 hc).1 (List.mem_filterMap.2 ⟨_, hm, congrArg some he.symm⟩)
            rw [modifyFirst, if_neg hne]
            exact List.mem_cons_of_mem _ hrest
        | field | nested | constructor => exact List.mem_cons_of_mem _ hrest

theorem names_modifyMethod (hf : ∀ m, (f m).name = m.name) (c : ClassDecl) (name : String) :
    (c.modifyMethod name f).names = c.names := by
  show (modifyFirst name f c.members).filterMap Member.name? = c.members.filterMap Member.name?
  fun_induction modifyFirst name f c.members with
  | case1 => rfl
  | case2 m' rest hname => simp [Member.name?, Member.name, hf]
  | case3 m' rest hname ih => simp [Member.name?, ih]
  | case4 m' rest _ ih => simp [List.filterMap_cons, ih]

theorem name_of_mem_rename {given : String} (hf : ∀ m, (f m).name = given) {x : String}
    (h : x ∈ (modifyFirst name f members).filterMap Member.name?) :
    x = given ∨ x ∈ members.filterMap Member.name? := by
  obtain ⟨m, hm, hx⟩ := List.mem_filterMap.1 h
  rcases mem_of_mem_modifyFirst hm with hm | ⟨m', -, -, rfl⟩
  · exact Or.inr (List.mem_filterMap.2 ⟨m, hm, hx⟩)
  · cases hx
    exact Or.inl (hf m')

theorem nodup_rename {given : String} (hf : ∀ m, (f m).name = given)
    (hc : (members.filterMap Member.name?).Nodup) (hg : given ∉ members.filterMap Member.name?) :
    ((modifyFirst name f members).filterMap Member.name?).Nodup := by
  fun_induction modifyFirst name f members with
  | case1 => exact hc
  | case2 m' rest hname =>
      simp only [List.filterMap_cons, Member.name?, Member.name, hf] at hc hg ⊢
      exact List.nodup_cons.2 ⟨fun h => hg (List.mem_cons_of_mem _ h), (List.nodup_cons.1 hc).2⟩
  | case3 m' rest hname ih =>
      simp only [List.filterMap_cons, Member.name?, Member.name] at hc hg ⊢
      obtain ⟨hm, hrest⟩ := List.nodup_cons.1 hc
      refine List.nodup_cons.2 ⟨fun h => ?_, ih hrest fun h => hg (List.mem_cons_of_mem _ h)⟩
      rcases name_of_mem_rename hf h with rfl | h
      · exact hg List.mem_cons_self
      · exact hm h
  | case4 m' rest _ ih =>
      cases hn : m'.name? with
      | none =>
          rw [List.filterMap_cons_none hn] at hc hg ⊢
          exact ih hc hg
      | some x =>
          rw [List.filterMap_cons_some hn] at hc hg ⊢
          obtain ⟨hm, hrest⟩ := List.nodup_cons.1 hc
          refine List.nodup_cons.2 ⟨fun h => ?_, ih hrest fun h => hg (List.mem_cons_of_mem _ h)⟩
          rcases name_of_mem_rename hf h with rfl | h
          · exact hg List.mem_cons_self
          · exact hm h

end ClassOf

end TwinView.Code
