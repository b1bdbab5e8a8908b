import TwinView.Proofs.Code.Members
import TwinView.Server.Builder

/-!
Runs of a class, as far as client scripts go. Every condition may turn out either way, every loop may
run any number of times, and parts may be rendered or not. What counts is that the client is set up
before the first call of a script.
-/

namespace TwinView.Server

open Code

inductive Act
  | setUp
  /-- A client script makes its call. -/
  | call
deriving DecidableEq

def actsOf : Stmt → List Act
  | .expr (.invoke _ _ "writeExtras" _ _) _ => [.setUp]
  | .expr _ .clientCall => [.call]
  | _ => []

def callee? (c : ClassDecl) : Stmt → Option Method
  | .expr (.invoke _ (.this _) method _ _) _ => c.findMethod? method
  | _ => none

def partsOf : Stmt → List String
  | .expr _ (.parts names) => names
  | _ => []

def isSimple : Stmt → Bool
  | .cond _ _ _ | .loop _ _ _ _ => false
  | _ => true

/-- A way through statements of a class, with what is done on it. -/
inductive Run : ClassDecl → List Stmt → List Act → Prop
  | nil {c} : Run c [] []
  | step {c stmt rest t} (hs : isSimple stmt) (hc : callee? c stmt = none) (hrest : Run c rest t) :
      Run c (stmt :: rest) (actsOf stmt ++ t)
  | call {c stmt m rest t t'} (hc : callee? c stmt = some m) (hbody : Run c m.body t)
      (hrest : Run c rest t') : Run c (stmt :: rest) (t ++ t')
  | part {c stmt p m rest t t'} (hp : p.name ∈ partsOf stmt) (hn : .nested p ∈ c.members)
      (hm : p.findMethod? "render" = some m) (hbody : Run p m.body t)
      (hrest : Run c (stmt :: rest) t') : Run c (stmt :: rest) (t ++ t')
  | yes {c test yes no rest t t'} (hbody : Run c yes t) (hrest : Run c rest t') :
      Run c (.cond test yes no :: rest) (t ++ t')
  | no {c test yes no rest t t'} (hbody : Run c no t) (hrest : Run c rest t') :
      Run c (.cond test yes no :: rest) (t ++ t')
  | again {c init test step body rest t t'} (hbody : Run c body t)
      (hrest : Run c (.loop init test step body :: rest) t') :
      Run c (.loop init test step body :: rest) (t ++ t')
  | done {c init test step body rest t} (hrest : Run c rest t) :
      Run c (.loop init test step body :: rest) t

/-- On every way through rendering, the client is set up before a script makes its call. -/
def SetUpFirst (c : ClassDecl) : Prop :=
  ∀ m t before after, c.findMethod? "render" = some m → Run c m.body t →
    t = before ++ .call :: after → .setUp ∈ before

structure Summary where
  /-- The client is set up on every way. -/
  always : Bool := false
  /-- On some way a script makes its call first. -/
  exposed : Bool := false
deriving DecidableEq

namespace Summary

def andThen (S T : Summary) : Summary where
  always := S.always || T.always
  exposed := S.exposed || (!S.always && T.exposed)

def orElse (S T : Summary) : Summary where
  always := S.always && T.always
  exposed := S.exposed || T.exposed

def perhaps (S : Summary) : Summary where
  exposed := S.exposed

def ofAct : Act → Summary
  | .setUp => { always := true }
  | .call => { exposed := true }

@[simp] theorem nil_andThen (S : Summary) : ({} : Summary).andThen S = S := by
  simp [andThen]

@[simp] theorem andThen_nil (S : Summary) : S.andThen {} = S := by
  simp [andThen]

theorem andThen_assoc (S T U : Summary) : (S.andThen T).andThen U = S.andThen (T.andThen U) := by
  obtain ⟨a, e⟩ := S
  obtain ⟨a', e'⟩ := T
  simp only [andThen, mk.injEq]
  cases a <;> cases a' <;> simp [Bool.or_assoc]

def ofActs : List Act → Summary
  | [] => {}
  | a :: rest => (ofAct a).andThen (ofActs rest)

theorem ofActs_append (t t' : List Act) : ofActs (t ++ t') = (ofActs t).andThen (ofActs t') := by
  induction t with
  | nil => simp [ofActs]
  | cons a rest ih => rw [List.cons_append, ofActs, ih, ofActs, andThen_assoc]

theorem exposed_ofActs (t : List Act) :
    (ofActs t).exposed ↔ ∃ before after, t = before ++ .call :: after ∧ .setUp ∉ before := by
  induction t with
  | nil => simp [ofActs]
  | cons a rest ih =>
      cases a with
      | setUp =>
          refine iff_of_false (by simp [ofActs, ofAct, andThen]) ?_
          rintro ⟨before, after, h, hn⟩
          cases before with
          | nil => cases h
          | cons a before =>
              cases h
              exact hn List.mem_cons_self
      | call => exact iff_of_true (by simp [ofActs, ofAct, andThen]) ⟨[], rest, rfl, by simp⟩

end Summary

/-- The summary holds of all ways through the statements, and of no fewer. -/
structure Sums (c : ClassDecl) (stmts : List Stmt) (S : Summary) : Prop where
  exists_run : ∃ t, Run c stmts t
  always : S.always ↔ ∀ t, Run c stmts t → (Summary.ofActs t).always
  exposed : S.exposed ↔ ∃ t, Run c stmts t ∧ (Summary.ofActs t).exposed

variable {c p : ClassDecl} {stmts stmts' : List Stmt} {stmt : Stmt} {S T : Summary} {t t' : List Act}

theorem Run.append (h : Run c stmts t) (h' : Run c stmts' t') : Run c (stmts ++ stmts') (t ++ t') := by
  induction h with
  | nil => exact h'
  | step hs hc _ ih =>
      rw [List.append_assoc]
      exact .step hs hc (ih h')
  | call hc hbody _ _ ih =>
      rw [List.append_assoc]
      exact .call hc hbody (ih h')
  | part hp hn hm hbody _ _ ih =>
      rw [List.append_assoc]
      exact .part hp hn hm hbody (ih h')
  | yes hbody _ _ ih =>
      rw [List.append_assoc]
      exact .yes hbody (ih h')
  | no hbody _ _ ih =>
      rw [List.append_assoc]
      exact .no hbody (ih h')
  | again hbody _ _ ih =>
      rw [List.append_assoc]
      exact .again hbody (ih h')
  | done _ ih => exact .done (ih h')

theorem Run.uncons {rest : List Stmt} (h : Run c (stmt :: rest) t) :
    ∃ t₁ t₂, t = t₁ ++ t₂ ∧ Run c [stmt] t₁ ∧ Run c rest t₂ := by
  generalize hl : stmt :: rest = l at h
  induction h with
  | nil => cases hl
  | step hs hc hrest _ =>
      cases hl
      exact ⟨_ ++ [], _, by simp, .step hs hc .nil, hrest⟩
  | call hc hbody hrest _ _ =>
      cases hl
      exact ⟨_ ++ [], _, by simp, .call hc hbody .nil, hrest⟩
  | part hp hn hm hbody _ _ ih =>
      cases hl
      obtain ⟨t₁, t₂, rfl, h₁, h₂⟩ := ih rfl
      exact ⟨_ ++ t₁, t₂, by simp, .part hp hn hm hbody h₁, h₂⟩
  | yes hbody hrest _ _ =>
      cases hl
      exact ⟨_ ++ [], _, by simp, .yes hbody .nil, hrest⟩
  | no hbody hrest _ _ =>
      cases hl
      exact ⟨_ ++ [], _, by simp, .no hbody .nil, hrest⟩
  | again hbody _ _ ih =>
      cases hl
      obtain ⟨t₁, t₂, rfl, h₁, h₂⟩ := ih rfl
      exact ⟨_ ++ t₁, t₂, by simp, .again hbody h₁, h₂⟩
  | done hrest _ =>
      cases hl
      exact ⟨[], _, rfl, .done .nil, hrest⟩

/-- A way through two lists is a way through the first and a way through the second. -/
theorem run_append : Run c (stmts ++ stmts') t ↔
    ∃ t₁ t₂, t = t₁ ++ t₂ ∧ Run c stmts t₁ ∧ Run c stmts' t₂ := by
  constructor
  · intro h
    induction stmts generalizing t with
    | nil => exact ⟨[], t, rfl, .nil, h⟩
    | cons stmt rest ih =>
        obtain ⟨t₁, t₂, rfl, h₁, h₂⟩ := h.uncons
        obtain ⟨t₃, t₄, rfl, h₃, h₄⟩ := ih h₂
        exact ⟨t₁ ++ t₃, t₄, (List.append_assoc ..).symm, h₁.append h₃, h₄⟩
  · rintro ⟨t₁, t₂, rfl, h₁, h₂⟩
    exact h₁.append h₂

theorem Sums.exists_miss (h : Sums c stmts S) (hs : ¬ S.always) :
    ∃ t, Run c stmts t ∧ ¬ (Summary.ofActs t).always := by
  rw [h.always] at hs
  simpa using hs

theorem Sums.append (h : Sums c stmts S) (h' : Sums c stmts' T) :
    Sums c (stmts ++ stmts') (S.andThen T) := by
  obtain ⟨t, ht⟩ := h.exists_run
  obtain ⟨t', ht'⟩ := h'.exists_run
  refine ⟨⟨t ++ t', ht.append ht'⟩, ?_, ?_⟩
  · constructor
    · intro hor t hr
      obtain ⟨t₁, t₂, rfl, h₁, h₂⟩ := run_append.1 hr
      rw [Summary.ofActs_append]
      simp only [Summary.andThen, Bool.or_eq_true] at hor ⊢
      exact hor.imp (fun hs => h.always.1 hs t₁ h₁) fun hs => h'.always.1 hs t₂ h₂
    · intro hall
      simp only [Summary.andThen, Bool.or_eq_true]
      -- a way that misses the setup in both lists would miss it in the whole
      by_cases hs : S.always
      · exact Or.inl hs
      · refine Or.inr (h'.always.2 fun t₂ h₂ => ?_)
        obtain ⟨t₁, h₁, hn⟩ := h.exists_miss hs
        have := hall (t₁ ++ t₂) (h₁.append h₂)
        rw [Summary.ofActs_append] at this
        simpa [Summary.andThen, hn] using this
  · constructor
    · intro hor
      simp only [Summary.andThen, Bool.or_eq_true, Bool.and_eq_true, Bool.not_eq_true'] at hor
      rcases hor with hs | ⟨hs, hs'⟩
      · obtain ⟨t₁, h₁, he⟩ := h.exposed.1 hs
        refine ⟨t₁ ++ t', h₁.append ht', ?_⟩
        rw [Summary.ofActs_append]
        simp [Summary.andThen, he]
      · obtain ⟨t₂, h₂, he⟩ := h'.exposed.1 hs'
        obtain ⟨t₁, h₁, hn⟩ := h.exists_miss (by simp [hs])
        refine ⟨t₁ ++ t₂, h₁.append h₂, ?_⟩
        rw [Summary.ofActs_append]
        simp [Summary.andThen, he, hn]
    · rintro ⟨t, hr, he⟩
      obtain ⟨t₁, t₂, rfl, h₁, h₂⟩ := run_append.1 hr
      rw [Summary.ofActs_append] at he
      simp only [Summary.andThen, Bool.or_eq_true, Bool.and_eq_true, Bool.not_eq_true'] at he ⊢
      rcases he with he | ⟨hn, he⟩
      · exact Or.inl (h.exposed.2 ⟨t₁, h₁, he⟩)
      · refine Or.inr ⟨?_, h'.exposed.2 ⟨t₂, h₂, he⟩⟩
        cases hs : S.always with
        | false => rfl
        | true => exact absurd (h.always.1 hs t₁ h₁) (by simp [hn])

theorem sums_nil (c : ClassDecl) : Sums c [] {} := by
  have honly (t : List Act) (h : Run c [] t) : t = [] := by
    cases h
    rfl
  refine ⟨⟨[], .nil⟩, iff_of_false (by simp) fun h => ?_, iff_of_false (by simp) ?_⟩
  · cases h [] .nil
  · rintro ⟨t, h, he⟩
    rw [honly t h] at he
    cases he

theorem sums_of_unique (h : Run c stmts t) (hu : ∀ t', Run c stmts t' → t' = t) :
    Sums c stmts (Summary.ofActs t) := by
  refine ⟨⟨t, h⟩, ⟨fun hs t' h' => by rw [hu t' h']; exact hs, fun hall => hall t h⟩,
    ⟨fun hs => ⟨t, h, hs⟩, ?_⟩⟩
  rintro ⟨t', h', he⟩
  rwa [hu t' h'] at he

theorem sums_step (hs : isSimple stmt) (hc : callee? c stmt = none) (hp : partsOf stmt = []) :
    Sums c [stmt] (Summary.ofActs (actsOf stmt)) := by
  rw [← List.append_nil (actsOf stmt)]
  refine sums_of_unique (.step hs hc .nil) fun t h => ?_
  cases h with
  | step _ _ hrest =>
      cases hrest
      rfl
  | call hc' => simp [hc] at hc'
  | part hp' => simp [hp] at hp'
  | yes | no | again | done => cases hs

theorem Sums.of_iff (h : Sums c stmts S) (hr : ∀ t, Run p stmts' t ↔ Run c stmts t) :
    Sums p stmts' S := by
  refine ⟨?_, ?_, ?_⟩
  · obtain ⟨t, ht⟩ := h.exists_run
    exact ⟨t, (hr t).2 ht⟩
  · simp only [hr]
    exact h.always
  · simp only [hr]
    exact h.exposed

theorem sums_call {m : Method} (hc : callee? c stmt = some m) (hp : partsOf stmt = [])
    (h : Sums c m.body S) : Sums c [stmt] S := by
  refine h.of_iff fun t => ⟨fun hr => ?_, fun hr => ?_⟩
  · cases hr with
    | step _ hc' => simp [hc] at hc'
    | call hc' hbody hrest =>
        rw [hc] at hc'
        cases hc'
        cases hrest
        rwa [List.append_nil]
    | part hp' => simp [hp] at hp'
    | yes | no | again | done => cases hc
  · rw [← List.append_nil t]
    exact .call hc hr .nil

theorem run_cond {test : Expr} {yes no : List Stmt} :
    Run c [.cond test yes no] t ↔ Run c yes t ∨ Run c no t := by
  constructor
  · intro h
    cases h with
    | step hs => cases hs
    | call hc => cases hc
    | part hp => cases hp
    | yes hbody hrest =>
        cases hrest
        rw [List.append_nil]
        exact Or.inl hbody
    | no hbody hrest =>
        cases hrest
        rw [List.append_nil]
        exact Or.inr hbody
  · intro h
    rw [← List.append_nil t]
    exact h.elim (fun hy => .yes hy .nil) fun hn => .no hn .nil

theorem sums_cond {test : Expr} (h : Sums c stmts S) (h' : Sums c stmts' T) :
    Sums c [.cond test stmts stmts'] (S.orElse T) := by
  refine ⟨?_, ?_, ?_⟩
  · obtain ⟨t, ht⟩ := h.exists_run
    exact ⟨t, run_cond.2 (Or.inl ht)⟩
  · simp only [Summary.orElse, Bool.and_eq_true, h.always, h'.always, run_cond]
    constructor
    · rintro ⟨hs, hs'⟩ t (hr | hr)
      · exact hs t hr
      · exact hs' t hr
    · intro hall
      exact ⟨fun t hr => hall t (Or.inl hr), fun t hr => hall t (Or.inr hr)⟩
  · simp only [Summary.orElse, Bool.or_eq_true, h.exposed, h'.exposed, run_cond]
    constructor
    · rintro (⟨t, hr, he⟩ | ⟨t, hr, he⟩)
      · exact ⟨t, Or.inl hr, he⟩
      · exact ⟨t, Or.inr hr, he⟩
    · rintro ⟨t, hr | hr, he⟩
      · exact Or.inl ⟨t, hr, he⟩
      · exact Or.inr ⟨t, hr, he⟩

theorem Summary.exposed_append (h : (ofActs (t ++ t')).exposed) :
    (ofActs t).exposed ∨ (ofActs t').exposed := by
  rw [ofActs_append] at h
  simp only [andThen, Bool.or_eq_true, Bool.and_eq_true] at h
  exact h.imp_right And.right

/-- Ways that may be left out, and that are exposed if one of them is. -/
theorem sums_perhaps (hnil : Run c stmts []) (hstep : S.exposed → ∃ t, Run c stmts t ∧
      (Summary.ofActs t).exposed) (hall : ∀ t, Run c stmts t → (Summary.ofActs t).exposed → S.exposed) :
    Sums c stmts S.perhaps := by
  refine ⟨⟨[], hnil⟩, iff_of_false (by simp [Summary.perhaps]) fun h => ?_, hstep, ?_⟩
  · cases h [] hnil
  · rintro ⟨t, hr, he⟩
    exact hall t hr he

theorem sums_loop {init : Option Stmt} {test : Expr} {step : Option Stmt} (h : Sums c stmts S) :
    Sums c [.loop init test step stmts] S.perhaps := by
  refine sums_perhaps (.done .nil) (fun hs => ?_) fun t hr he => ?_
  · obtain ⟨t, hr, he⟩ := h.exposed.1 hs
    exact ⟨t ++ [], .again hr (.done .nil), by rwa [List.append_nil]⟩
  · generalize hl : [Stmt.loop init test step stmts] = l at hr
    induction hr with
    | nil => cases hl
    | step hs =>
        cases hl
        cases hs
    | call hc =>
        cases hl
        cases hc
    | part hp =>
        cases hl
        cases hp
    | yes | no => cases hl
    | again hbody _ _ ih =>
        cases hl
        rcases Summary.exposed_append he with he | he
        · exact h.exposed.2 ⟨_, hbody, he⟩
        · exact ih h he rfl
    | done hrest _ =>
        cases hl
        cases hrest
        cases he

def PartSum (p : ClassDecl) (S : Summary) : Prop :=
  ∃ m, p.findMethod? "render" = some m ∧ Sums p m.body S

theorem sums_parts {parts : List (ClassDecl × Summary)} (hd : c.Distinct) (hs : isSimple stmt)
    (hc : callee? c stmt = none) (ha : actsOf stmt = [])
    (hp : partsOf stmt = parts.map fun q => q.1.name)
    (hparts : ∀ q ∈ parts, .nested q.1 ∈ c.members ∧ PartSum q.1 q.2) :
    Sums c [stmt] { exposed := parts.any (·.2.exposed) } := by
  have hdone : Run c [stmt] [] := by
    have := Run.step hs hc (Run.nil (c := c))
    rwa [ha] at this
  refine sums_perhaps (S := { exposed := parts.any (·.2.exposed) }) hdone (fun he => ?_)
    fun t hr he => ?_
  · obtain ⟨q, hq, he⟩ := List.any_eq_true.1 he
    obtain ⟨hn, m, hm, hsums⟩ := hparts q hq
    obtain ⟨t, hr, he⟩ := hsums.exposed.1 he
    refine ⟨t ++ [], .part ?_ hn hm hr hdone, by rwa [List.append_nil]⟩
    rw [hp]
    exact List.mem_map_of_mem hq
  · generalize hl : [stmt] = l at hr
    induction hr with
    | nil => cases hl
    | step _ _ hrest _ =>
        cases hl
        cases hrest
        rw [ha] at he
        cases he
    | call hc' =>
        cases hl
        simp [hc] at hc'
    | @part c stmt p m rest t t' hp' hn hm hbody _ _ ih =>
        cases hl
        rcases Summary.exposed_append he with he | he
        · rw [hp] at hp'
          obtain ⟨q, hq, hname⟩ := List.mem_map.1 hp'
          obtain ⟨hn', m', hm', hsums⟩ := hparts q hq
          -- the class of a part is found under its name
          cases hd.eq_of_name hn hn' rfl (by simp [Member.name?, Member.name, hname])
          cases hm.symm.trans hm'
          exact List.any_eq_true.2 ⟨q, hq, hsums.exposed.2 ⟨t, hbody, he⟩⟩
        · exact ih hd hc hparts hdone he rfl
    | yes | no | again | done =>
        cases hl
        cases hs

theorem setUpFirst_iff (h : PartSum c S) : SetUpFirst c ↔ S.exposed = false := by
  obtain ⟨m, hm, hsums⟩ := h
  constructor
  · intro hfirst
    cases he : S.exposed with
    | false => rfl
    | true =>
        obtain ⟨t, hr, ht⟩ := hsums.exposed.1 he
        obtain ⟨before, after, heq, hn⟩ := (Summary.exposed_ofActs t).1 ht
        exact absurd (hfirst m t before after hm hr heq) hn
  · intro he m' t before after hm' hr heq
    cases hm.symm.trans hm'
    refine Decidable.byContradiction fun hn => ?_
    have ht := (Summary.exposed_ofActs t).2 ⟨before, after, heq, hn⟩
    have := hsums.exposed.2 ⟨t, hr, ht⟩
    simp [he] at this

end TwinView.Server
