import TwinView.Proofs.Server.Generated

/-!
Which values reach the markup without being encoded. A value is written as it is if its static type is
a number or a boolean. That type is not the type of all its results: a conditional reports the type of
one branch, so that a text in the other branch gets through.
-/

namespace TwinView.Server

open Code

variable {s : Settings} {blocks : List CodeBlock} {v : View} {c : ClassDecl}

@[simp] theorem write_inj {e e' : Expr} {origin origin' : Origin} :
    write e origin = write e' origin' ↔ e = e' ∧ origin = origin' := by
  simp [write, renderCall, Expr.invokeSelf, Expr.invokeOn]

@[simp] theorem write_ne_writeEncoded {e e' : Expr} {origin origin' : Origin} :
    write e origin ≠ writeEncoded e' origin' := by
  simp [write, writeEncoded, renderCall, Expr.invokeSelf, Expr.invokeOn]

/-- What is written as it is has a plain type or is known. -/
theorem writeSafe_cases (s : Settings) (e : Expr) (origin : Origin) :
    (writeSafe s e origin = write e origin ∧ e.resultType.isPlain) ∨
    (∃ text, writeSafe s e origin = write (.text text) origin) ∨
    writeSafe s e origin = writeEncoded e origin := by
  unfold writeSafe
  dsimp only
  rw [Ty.isPlain_eq]
  split
  · next h => exact Or.inl ⟨rfl, h⟩
  · split
    · exact Or.inr (Or.inl ⟨_, rfl⟩)
    · exact Or.inr (Or.inr rfl)

/-- A value that is written as it is without being known: an id, or the value of a block, which has a
plain type unless the block is marked as markup. -/
theorem emitted_write {e : Expr} {origin : Origin} (h : Emitted s blocks (write e origin))
    (he : e.primitive? = none) :
    (∃ name, e = .variableRef .string name ∧ origin = .plain) ∨
    ∃ b ∈ blocks, origin = .value b ∧ e.HasValue ∧ (b.kind ≠ .markup → e.resultType.isPlain) := by
  generalize hw : write e origin = stmt at h
  cases h with
  | code h =>
      subst hw
      exact absurd rfl h.1.type
  | markup value ho =>
      obtain ⟨rfl, -⟩ := write_inj.1 hw
      cases he
  | @value b hb e' hv =>
      unfold writeValue at hw
      split at hw
      · next hk =>
          obtain ⟨rfl, rfl⟩ := write_inj.1 hw
          exact Or.inr ⟨b, hb, rfl, hv, fun h => absurd hk h⟩
      · obtain ⟨heq, ht⟩ | ⟨text, heq⟩ | heq := writeSafe_cases s e' (.value b)
        · rw [heq] at hw
          obtain ⟨rfl, rfl⟩ := write_inj.1 hw
          exact Or.inr ⟨b, hb, rfl, hv, fun _ => ht⟩
        · rw [heq] at hw
          obtain ⟨rfl, -⟩ := write_inj.1 hw
          cases he
        · rw [heq] at hw
          exact absurd hw write_ne_writeEncoded
  | link url => exact absurd hw write_ne_writeEncoded
  | id name => exact Or.inl ⟨name, write_inj.1 hw⟩
  | call hm args ho =>
      cases hw
      exact absurd rfl hm

/-- The value of a block that is not marked as markup is written in one of two ways. -/
theorem emitted_value {call : Expr} {b : CodeBlock} (h : Emitted s blocks (.expr call (.value b)))
    (hk : b.kind ≠ .markup) :
    b ∈ blocks ∧ ∃ e, .expr call (.value b) = write e (.value b) ∨
      .expr call (.value b) = writeEncoded e (.value b) := by
  generalize hw : Stmt.expr call (.value b) = stmt at h
  cases h with
  | code h =>
      subst hw
      cases h.2
  | markup value ho =>
      cases hw
      rcases ho with ho | ho <;> cases ho
  | @value b' hb e hv =>
      have horigin : b' = b := by
        unfold writeValue at hw
        split at hw
        · cases hw
          rfl
        · obtain ⟨heq, -⟩ | ⟨_, heq⟩ | heq := writeSafe_cases s e (.value b') <;>
            (rw [heq] at hw; cases hw; rfl)
      subst horigin
      refine ⟨hb, ?_⟩
      rw [writeValue, if_neg hk]
      obtain ⟨heq, -⟩ | ⟨text, heq⟩ | heq := writeSafe_cases s e (.value b')
      · exact ⟨e, Or.inl heq⟩
      · exact ⟨.text text, Or.inl heq⟩
      · exact ⟨e, Or.inr heq⟩
  | link url => cases hw
  | id name => cases hw
  | call hm args ho =>
      cases hw
      exact absurd rfl (ho b)

/-- Every value of a block that is not marked as markup is written encoded, unless it is known or each
of its results is a number or a boolean. -/
def Escapes (c : ClassDecl) : Prop :=
  ∀ b e, b.kind ≠ .markup → e.primitive? = none → write e (.value b) ∈ c.stmts → e.allPlain

/-- All that a class writes as it is without knowing it are ids and values of the view's blocks; a
block that is not marked as markup has its value written as it is or encoded; and the latter is done
whenever it should be exactly if no conditional that is written as it is mixes plain values with
others. -/
theorem escapes_iff_no_mixes (h : buildView s v = .ok c) :
    (∀ e origin, write e origin ∈ c.stmts → e.primitive? = none →
      (∃ name, e = .variableRef .string name ∧ origin = .plain) ∨
        ∃ b ∈ v.blocks, origin = .value b) ∧
    (∀ call b, .expr call (.value b) ∈ c.stmts → b.kind ≠ .markup →
      b ∈ v.blocks ∧ ∃ e, .expr call (.value b) = write e (.value b) ∨
        .expr call (.value b) = writeEncoded e (.value b)) ∧
    (Escapes c ↔
      ∀ b e, b.kind ≠ .markup → write e (.value b) ∈ c.stmts → e.mixes = false) := by
  have hall := emitted_of_buildView h
  refine ⟨?_, fun call b hs hk => emitted_value (hall _ hs) hk, ?_⟩
  · intro e origin hs he
    exact (emitted_write (hall _ hs) he).imp_right fun ⟨b, hb, ho, _⟩ => ⟨b, hb, ho⟩
  · -- for a value that is written raw the static type is plain, which leaves the mixing ones
    have hiff (b : CodeBlock) (e : Expr) (hk : b.kind ≠ .markup) (he : e.primitive? = none)
        (hs : write e (.value b) ∈ c.stmts) : e.allPlain ↔ e.mixes = false := by
      obtain ⟨_, _, ho⟩ | ⟨b', _, ho, hv, ht⟩ := emitted_write (hall _ hs) he
      · cases ho
      · cases ho
        exact e.allPlain_iff hv.settled (ht hk)
    constructor
    · intro hesc b e hk hs
      cases he : e.primitive? with
      | none => exact (hiff b e hk he hs).1 (hesc b e hk he hs)
      | some value =>
          cases e with
          | prim value p => rfl
          | _ => cases he
    · intro hmix b e hk he hs
      exact (hiff b e hk he hs).2 (hmix b e hk hs)

/-- The value of a property is encoded. -/
theorem escapes_iff_no_mixes_property :
    ∃ c, buildView {} { name := "V", children := [.code { kind := .expression, value := "data.a" }] }
        = .ok c ∧
      (Escapes c ↔ ∀ b e, b.kind ≠ .markup → write e (.value b) ∈ c.stmts → e.mixes = false) := by
  have hok : (buildView {} {
      name := "V", children := [.code { kind := .expression, value := "data.a" }] }).isOk := by
    decide +kernel
  obtain ⟨c, h⟩ := exists_ok hok
  exact ⟨c, h, (escapes_iff_no_mixes h).2.2⟩

/-- Whether a class writes a value that should be encoded as it is. -/
def leaks (c : ClassDecl) : Bool :=
  c.stmts.any fun stmt =>
    match stmt with
    | .expr (.invoke .void (.this false) "write" [.var "context" .context false, e] false)
        (.value b) => b.kind ≠ .markup && e.primitive?.isNone && !e.allPlain
    | _ => false

theorem not_escapes_of_leaks (h : leaks c) : ¬ Escapes c := by
  intro hesc
  obtain ⟨stmt, hs, h⟩ := List.any_eq_true.1 h
  split at h
  · next e b =>
      simp only [Bool.and_eq_true, Bool.not_eq_true', decide_eq_true_eq, Option.isNone_iff_eq_none]
        at h
      exact absurd (hesc b e h.1.1 h.1.2 hs) (by simp [h.2])
  · cases h

/-- A number in one branch and data in the other: the data is written as it is. -/
theorem not_escapes_mixed :
    ∃ c, buildView {} { name := "V", children :=
        [.code { kind := .expression, value := "data.a ? 1 : data.b" }] } = .ok c ∧
      ¬ Escapes c := by
  have hok : (buildView {} {
      name := "V", children := [.code { kind := .expression, value := "data.a ? 1 : data.b" }] }).toOption.any
        leaks := by
    decide +kernel
  obtain ⟨c, h, hleaks⟩ := exists_ok_of_any hok
  exact ⟨c, h, not_escapes_of_leaks hleaks⟩

end TwinView.Server
