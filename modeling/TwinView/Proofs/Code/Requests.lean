import TwinView.Proofs.Code.Naming

/-!
Sequences of requests for names. A name that is given out for the first time differs from all names
given out before it, whatever they were asked for; so two requests are answered alike exactly if both
ask for the same local. The induction is over the later requests, with the names already given out kept
apart by their stems and numbers.
-/

namespace TwinView.Code

inductive Request
  /-- A new name with this stem. -/
  | fresh (stem : String)
  /-- The name that stands for a local of a script. -/
  | rename (name : String)
deriving DecidableEq

namespace Request

def stem : Request → String
  | .fresh stem => stem
  | .rename name => name ++ "_"

def IsOpen (r : Request) : Prop := endsInDigit r.stem = false

theorem isOpen_rename (name : String) : (rename name).IsOpen := not_endsInDigit ⟨name, rfl⟩

end Request

namespace Names

variable {n n' : Names} {r : Request} {requests : List Request} {name given stem : String}

def answer (n : Names) : Request → String × Names
  | .fresh stem => n.fresh stem
  | .rename name => n.rename name

/-- A sequence of requests, each with the name that it is given. -/
def answers (n : Names) : List Request → List (Request × String)
  | [] => []
  | r :: rest => (r, (n.answer r).1) :: (n.answer r).2.answers rest

def after (n : Names) (requests : List Request) : Names :=
  requests.foldl (fun n r => (n.answer r).2) n

def Numbered (n : Names) (stem name : String) : Prop := ∃ k ≤ n.count stem, name = stem ++ k.repr

def AllNumbered (n : Names) : Prop :=
  ∀ name given, n.locals.lookup name = some given → n.Numbered (name ++ "_") given

theorem Numbered.mono (h : n.Numbered stem name) (hle : n.Le n') : n'.Numbered stem name := by
  obtain ⟨k, hk, rfl⟩ := h
  exact ⟨k, Nat.le_trans hk (hle stem), rfl⟩

theorem numbered_fresh (n : Names) (stem : String) : (n.fresh stem).2.Numbered stem (n.fresh stem).1 := by
  have hcount : (n.fresh stem).2.count stem = n.count stem + 1 := by rw [count_fresh, if_pos rfl]
  exact ⟨n.count stem + 1, Nat.le_of_eq hcount.symm, rfl⟩

theorem fresh_ne {stem' : String} (hs : endsInDigit stem = false) (hs' : endsInDigit stem' = false)
    (h : n.Numbered stem given) : (n.fresh stem').1 ≠ given := by
  obtain ⟨k, hk, rfl⟩ := h
  intro he
  obtain ⟨rfl, rfl⟩ := stem_append_inj hs' hs he
  exact absurd hk (Nat.not_succ_le_self _)

/-- The name of a local is known already, or it is a new one. -/
theorem rename_cases (n : Names) (name : String) :
    (∃ given, n.locals.lookup name = some given ∧ n.rename name = (given, n)) ∨
      n.locals.lookup name = none ∧ n.rename name = ((n.fresh (name ++ "_")).1,
        { (n.fresh (name ++ "_")).2 with locals := (name, (n.fresh (name ++ "_")).1) :: n.locals }) := by
  unfold rename
  cases h : n.locals.lookup name with
  | none => exact .inr ⟨rfl, rfl⟩
  | some given => exact .inl ⟨given, rfl, rfl⟩

theorem le_answer (n : Names) (r : Request) : n.Le (n.answer r).2 := by
  cases r with
  | fresh stem => exact le_fresh n stem
  | rename name => exact le_rename n name

theorem count_answer_le (n : Names) (r : Request) (stem : String) :
    (n.answer r).2.count stem ≤ n.count stem + 1 := by
  have hfresh (stem' : String) : (n.fresh stem').2.count stem ≤ n.count stem + 1 := by
    rw [count_fresh]
    split
    · next h =>
        subst h
        exact Nat.le_refl _
    · exact Nat.le_succ _
  cases r with
  | fresh stem' => exact hfresh stem'
  | rename name =>
      obtain ⟨_, -, h⟩ | ⟨-, h⟩ := rename_cases n name
      · rw [answer, h]
        exact Nat.le_succ _
      · rw [answer, h]
        exact hfresh (name ++ "_")

theorem isLocal_answer (n : Names) (r : Request) (name : String) :
    (n.answer r).2.isLocal name ↔ r = .rename name ∨ n.isLocal name := by
  cases r with
  | fresh stem => simp [answer, isLocal_fresh]
  | rename name' => rw [answer, isLocal_rename, Bool.or_eq_true, beq_iff_eq, Request.rename.injEq, eq_comm]

theorem numbered_answer (h : n.AllNumbered) (r : Request) :
    (n.answer r).2.Numbered r.stem (n.answer r).1 := by
  cases r with
  | fresh stem => exact numbered_fresh n stem
  | rename name =>
      obtain ⟨given, hgiven, hrename⟩ | ⟨-, hrename⟩ := rename_cases n name
      · rw [answer, hrename]
        exact h name given hgiven
      · rw [answer, hrename]
        exact numbered_fresh n (name ++ "_")

theorem AllNumbered.answer (h : n.AllNumbered) (r : Request) : (n.answer r).2.AllNumbered := by
  intro name given hl
  have hanswer := numbered_answer h r
  have hle := le_answer n r
  cases r with
  | fresh stem => exact (h name given hl).mono hle
  | rename name' =>
      obtain ⟨_, -, hrename⟩ | ⟨-, hrename⟩ := rename_cases n name'
      · rw [Names.answer, hrename] at hl hle ⊢
        exact h name given hl
      · rw [Names.answer, hrename] at hl hle hanswer ⊢
        by_cases hname : name = name'
        · subst hname
          obtain rfl : _ = given := by simpa using hl
          exact hanswer
        · have hother : (name == name') = false := by simpa using hname
          exact (h name given (by simpa [List.lookup_cons, hother] using hl)).mono hle

/-- No later request takes a name that has been given out for some local, or gives it to another. -/
theorem lookup_answer (hs : endsInDigit stem = false) (h : n.Numbered stem given) (r : Request) :
    (n.answer r).2.locals.lookup name = some given ↔ n.locals.lookup name = some given := by
  cases r with
  | fresh stem => rfl
  | rename name' =>
      obtain ⟨_, -, hrename⟩ | ⟨hnone, hrename⟩ := rename_cases n name'
      · rw [answer, hrename]
      · rw [answer, hrename]
        by_cases hname : name = name'
        · subst hname
          have hne : (n.fresh (name ++ "_")).1 ≠ given := fresh_ne hs (Request.isOpen_rename name) h
          simp [hnone, hne]
        · have hother : (name == name') = false := by simpa using hname
          simp [List.lookup_cons, hother]

/-- The local that a request is about stands under the answer, and no other one does. -/
theorem lookup_answer_self (h : n.AllNumbered) (hr : r.IsOpen) :
    (n.answer r).2.locals.lookup name = some (n.answer r).1 ↔ r = .rename name := by
  have hall := h.answer r
  cases r with
  | fresh stem =>
      refine ⟨fun hl => ?_, fun he => by cases he⟩
      exact absurd rfl (fresh_ne (Request.isOpen_rename name) hr (h name _ hl))
  | rename name' =>
      have hself : (n.answer (.rename name')).2.locals.lookup name' = some (n.answer (.rename name')).1 := by
        obtain ⟨given, hgiven, hrename⟩ | ⟨-, hrename⟩ := rename_cases n name'
        · rw [answer, hrename]
          exact hgiven
        · rw [answer, hrename]
          simp
      refine ⟨fun hl => ?_, fun he => ?_⟩
      · obtain ⟨k, -, hk⟩ := hall name _ hl
        obtain ⟨k', -, hk'⟩ := hall name' _ hself
        obtain ⟨hstem, -⟩ := stem_append_inj (Request.isOpen_rename name')
          (Request.isOpen_rename name) (hk'.symm.trans hk)
        exact congrArg Request.rename ((String.append_left_inj "_").1 hstem)
      · cases he
        exact hself

theorem map_fst_answers (n : Names) (requests : List Request) :
    (n.answers requests).map (·.1) = requests := by
  induction requests generalizing n with
  | nil => rfl
  | cons r rest ih => rw [answers, List.map_cons, ih]

theorem isLocal_after (n : Names) (requests : List Request) (name : String) :
    (n.after requests).isLocal name ↔ .rename name ∈ requests ∨ n.isLocal name := by
  induction requests generalizing n with
  | nil => simp [after]
  | cons r rest ih =>
      have htail := ih (n.answer r).2
      rw [isLocal_answer, ← or_assoc, or_comm (b := r = _)] at htail
      rw [List.mem_cons, eq_comm (b := r)]
      exact htail

theorem count_after_le (n : Names) (requests : List Request) (stem : String) :
    (n.after requests).count stem ≤ n.count stem + requests.length := by
  induction requests generalizing n with
  | nil => exact Nat.le_refl _
  | cons r rest ih =>
      have htail := ih (n.answer r).2
      have hhead := count_answer_le n r stem
      rw [List.length_cons]
      exact Nat.le_trans htail (by omega)

/-- A name that has been given out is the answer only where its local is asked for. -/
theorem eq_answer_iff (hs : endsInDigit stem = false) (hgiven : n.Numbered stem given) (hr : r.IsOpen) :
    given = (n.answer r).1 ↔ ∃ name, n.locals.lookup name = some given ∧ r = .rename name := by
  cases r with
  | fresh stem' =>
      refine ⟨fun he => absurd he.symm (fresh_ne hs hr hgiven), ?_⟩
      rintro ⟨_, -, he⟩
      cases he
  | rename name' =>
      simp only [Request.rename.injEq, exists_eq_right']
      obtain ⟨given', hlookup, hrename⟩ | ⟨hnone, hrename⟩ := rename_cases n name'
      · rw [answer, hrename, hlookup, Option.some.injEq, eq_comm]
      · rw [answer, hrename, hnone]
        have hne : given ≠ (n.fresh (name' ++ "_")).1 := (fresh_ne hs hr hgiven).symm
        simp [hne]

theorem eq_iff_of_mem_answers (hall : n.AllNumbered) (hs : endsInDigit stem = false)
    (hgiven : n.Numbered stem given) (h : ∀ r ∈ requests, r.IsOpen) :
    ∀ x ∈ n.answers requests, given = x.2 ↔
      ∃ name, n.locals.lookup name = some given ∧ x.1 = .rename name := by
  induction requests generalizing n with
  | nil => simp [answers]
  | cons r rest ih =>
      obtain ⟨hr, hrest⟩ := List.forall_mem_cons.1 h
      have htail := ih (hall.answer r) (hgiven.mono (le_answer n r)) hrest
      simp only [lookup_answer hs hgiven] at htail
      exact List.forall_mem_cons.2 ⟨eq_answer_iff hs hgiven hr, htail⟩

theorem pairwise_answers (hall : n.AllNumbered) (h : ∀ r ∈ requests, r.IsOpen) :
    (n.answers requests).Pairwise
      (fun x y => x.2 = y.2 ↔ ∃ name, x.1 = .rename name ∧ y.1 = .rename name) := by
  induction requests generalizing n with
  | nil => exact .nil
  | cons r rest ih =>
      obtain ⟨hr, hrest⟩ := List.forall_mem_cons.1 h
      -- behind the head its answer is a name that has been given out
      have hhead := eq_iff_of_mem_answers (hall.answer r) hr (numbered_answer hall r) hrest
      simp only [lookup_answer_self hall hr] at hhead
      exact .cons hhead (ih (hall.answer r) hrest)

/-- Names that are given out never clash, whatever order they are asked for in. Two requests are given
one name exactly if both ask for the same local, and the locals are those that have been asked for. A
counter is at most the number of requests, so that it needs no more bits than that number. -/
theorem answers_never_clash (requests : List Request)
    (h : ∀ stem, .fresh stem ∈ requests → endsInDigit stem = false) :
    (answers {} requests).map (·.1) = requests ∧
      (answers {} requests).Pairwise
        (fun x y => x.2 = y.2 ↔ ∃ name, x.1 = .rename name ∧ y.1 = .rename name) ∧
      (∀ name, (after {} requests).isLocal name ↔ .rename name ∈ requests) ∧
      ∀ stem, (after {} requests).count stem ≤ requests.length := by
  have hopen : ∀ r ∈ requests, r.IsOpen := by
    intro r hr
    cases r with
    | fresh stem => exact h stem hr
    | rename name => exact Request.isOpen_rename name
  refine ⟨map_fst_answers {} requests, pairwise_answers (by simp [AllNumbered]) hopen, ?_, ?_⟩
  · intro name
    simpa [isLocal] using isLocal_after {} requests name
  · intro stem
    simpa [count] using count_after_le {} requests stem

theorem answers_never_clash_interleaved :
    let requests : List Request :=
      [.fresh "x_", .rename "x", .fresh "x", .fresh "", .rename "y", .rename "x", .fresh "x_"]
    (answers {} requests).map (·.2) = ["x_1", "x_2", "x1", "1", "y_1", "x_2", "x_3"] ∧
      (∀ stem, .fresh stem ∈ requests → endsInDigit stem = false) ∧
      (answers {} requests).Pairwise
        (fun x y => x.2 = y.2 ↔ ∃ name, x.1 = .rename name ∧ y.1 = .rename name) ∧
      ∀ name, (after {} requests).isLocal name ↔ .rename name ∈ requests := by
  intro requests
  have hstems : ∀ stem, .fresh stem ∈ requests → endsInDigit stem = false := by
    intro stem hstem
    simp only [requests, List.mem_cons, Request.fresh.injEq, reduceCtorEq, List.not_mem_nil, false_or,
      or_false] at hstem
    obtain rfl | rfl | rfl | rfl := hstem <;> decide
  obtain ⟨-, hpairs, hlocals, -⟩ := answers_never_clash requests hstems
  exact ⟨by decide, hstems, hpairs, hlocals⟩

end Names

end TwinView.Code
