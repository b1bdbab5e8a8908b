import Mathlib.Tactic.SplitIfs
import TwinView.Proofs.Script.Similar
import TwinView.Proofs.Script.Soundness

/-!
Where scripts are refused. The compiler blames the start of a token, one that belongs to what it is
compiling; and the tokens of a source start one behind the other.
-/

namespace TwinView.Script

variable {α β : Type} {S : List Token → Prop} {ts us rest : List Token} {loose : Bool}

/-- Every token starts in front of those behind it. -/
abbrev InOrder (ts : List Token) : Prop := ts.Pairwise fun t u => t.start < u.start

theorem inOrder_of_tokenize {source : String} (h : tokenize source = .ok ts) : InOrder ts := by
  have hscans := scans_tokenize source
  rw [h] at hscans
  have htiles := tiles_of_scans hscans
  refine htiles.pairwise.imp_of_mem fun {t u} ht _ hle => ?_
  obtain ⟨_, slice, _, _, hne, _, hstop, _⟩ := htiles.liesIn t ht
  have := byteLength_pos hne
  omega

def HasStart (ts : List Token) (i : Nat) : Prop := ∃ t ∈ ts, t.start = i

theorem HasStart.mono {i : Nat} (h : HasStart ts i) (hs : ts ⊆ us) : HasStart us i := by
  obtain ⟨t, ht, hi⟩ := h
  exact ⟨t, hs ht, hi⟩

theorem StartsAt.hasStart {i : Nat} (h : StartsAt i ts) : HasStart ts i := by
  obtain ⟨t, rest, rfl, hi⟩ := h
  exact ⟨t, List.mem_cons_self, hi⟩

/-- The compiler refuses at the start of a token, if it refuses. -/
def RefusesAt (ts : List Token) (x : Compile α) : Prop :=
  ∀ s r, (x.run.run s).1 = .error r → HasStart ts r.index

namespace RefusesAt

theorem pure (a : α) : RefusesAt ts (Pure.pure a) := fun _ _ h => by cases h

theorem refuse {fault : ScriptFault} {i : Nat} (h : HasStart ts i) :
    RefusesAt ts (Script.refuse fault i : Compile α) := by
  intro s r hr
  cases hr
  exact h

theorem bind {x : Compile α} {f : α → Compile β} (hx : RefusesAt ts x)
    (hf : ∀ a, RefusesAt ts (f a)) : RefusesAt ts (x >>= f) := by
  intro s r h
  have hx' := hx s
  rw [run_bind] at h
  generalize x.run.run s = y at h hx'
  obtain ⟨y, s'⟩ := y
  cases y with
  | error e =>
      cases h
      exact hx' r rfl
  | ok a => exact hf a s' r h

theorem mono {x : Compile α} (hx : RefusesAt ts x) (hs : ts ⊆ us) : RefusesAt us x :=
  fun s r h => (hx s r h).mono hs

end RefusesAt

theorem refusesAt_compileName (usage : Usage) (name : String) :
    RefusesAt ts (compileName usage name) := by
  have hextra : RefusesAt ts (noteExtra name usage) := fun _ _ h => by cases h
  unfold compileName
  split
  · split
    iterate 3 exact .pure _
    exact hextra
  · split
    iterate 4 exact .pure _
    intro s
    rw [run_get_bind]
    split
    · exact fun _ h => by cases h
    · exact hextra s

theorem Separated.split_first {γ : Type} {W : γ → List Token → List Token → Prop} {a : γ} {as : List γ}
    (h : Separated loose W (a :: as) ts rest) :
    ∃ us gap vs rest' rest'', ts = us ++ (gap ++ vs) ∧ W a us rest' ∧
      Separated loose W as vs rest'' := by
  cases h with
  | one h => exact ⟨ts, [], [], rest, rest, by simp, h, .nil⟩
  | last _ h => exact ⟨_, [_], [], _, rest, rfl, h, .nil⟩
  | more h hm => exact ⟨_, [_], _, _, _, rfl, h, hm⟩

theorem Written.new_inv {i : Nat} {target : Expr} {args : List Expr}
    (h : Written S (.new i target args) ts rest) :
    ∃ us rest', us ⊆ ts ∧ Separated false (Written S) args us rest' := by
  cases h with
  | new _ ha => exact ⟨_, _, fun t ht => by simp [ht], ha⟩
  | newBare => exact ⟨[], rest, List.nil_subset _, .nil⟩

mutual

theorem refusesAt_compileExpr : ∀ (e : Expr) {ts rest us : List Token}, Written S e ts rest →
    ts ⊆ us → RefusesAt us (compileExpr e)
  | .name _ _, _, _, _, _, _ => refusesAt_compileName _ _
  | .number _ _, _, _, _, _, _ | .text _ _, _, _, _, _, _ | .bool _ _, _, _, _, _, _
  | .null _, _, _, _, _, _ => .pure _
  | .this _, _, _, _, h, hs | .comma _ _, _, _, _, h, hs => .refuse (h.startsAt.hasStart.mono hs)
  | .function _ _, _, _, _, h, hs => by
      cases h with
      | function hf hi =>
          refine .refuse ?_
          rw [hi]
          exact (Written.function hf hi).startsAt.hasStart.mono hs
  | .parens _ inner, _, _, _, h, hs => by
      cases h with
      | parens h =>
          exact (refusesAt_compileExpr inner h fun t ht => hs (by simp [ht])).bind fun _ => .pure _
  | .member _ target _, _, _, _, h, hs => by
      cases h with
      | member _ h _ =>
          exact (refusesAt_compileExpr target h fun t ht => hs (by simp [ht])).bind fun _ => .pure _
  | .index _ target key, _, _, _, h, hs => by
      cases h with
      | index _ ht hk =>
          exact (refusesAt_compileExpr target ht fun t ht => hs (by simp [ht])).bind fun _ =>
            (refusesAt_compileExpr key hk fun t ht => hs (by simp [ht])).bind fun _ => .pure _
  | .call _ target args, _, _, us, h, hs => by
      cases h with
      | call _ ht ha =>
          have hstart : HasStart us target.start :=
            ht.startsAt.hasStart.mono fun t ht => hs (by simp [ht])
          unfold compileExpr
          refine (refusesAt_compileExpr target ht fun t ht => hs (by simp [ht])).bind fun callee => ?_
          split
          · exact .refuse hstart
          · refine (refusesAt_compileExprs args ha fun t ht => hs (by simp [ht])).bind fun _ => ?_
            split
            · exact .pure _
            · exact .refuse hstart
  | .new i target args, _, _, _, h, hs => by
      have hstart := h.startsAt.hasStart.mono hs
      obtain ⟨vs, _, hvs, ha⟩ := h.new_inv
      have hargs := List.Subset.trans hvs hs
      obtain ⟨-, -, ⟨arg, x, hone, -, ⟨size, h⟩ | h⟩ | h⟩ | h := compileExpr_new i target args
      · rw [h]
        exact .pure _
      · rw [h]
        subst hone
        obtain ⟨_, _, _, _, _, rfl, harg, -⟩ := ha.split_first
        exact .refuse (harg.startsAt.hasStart.mono fun t ht => hargs (by simp [ht]))
      · rw [h]
        exact (refusesAt_compileExprs args ha hargs).bind fun _ => .pure _
      · rw [h]
        exact .refuse hstart
  | .unary _ op operand, _, _, _, h, hs => by
      cases h with
      | before _ h | behind _ _ h =>
          exact (refusesAt_compileExpr operand h fun t ht => hs (by simp [ht])).bind fun _ => .pure _
  | .typeOf _ operand, _, _, _, h, hs => by
      cases h with
      | typeOf h =>
          exact (refusesAt_compileExpr operand h fun t ht => hs (by simp [ht])).bind fun _ => .pure _
  | .binary _ op left right, _, _, us, h, hs => by
      cases h with
      | binary _ hl hr =>
          have hleft : RefusesAt us (compileExpr left) :=
            refusesAt_compileExpr left hl fun t ht => hs (by simp [ht])
          have hright (l : Code.Expr) : RefusesAt us
              (compileExpr right >>= fun r => pure (Code.Expr.lowerBinary op l r)) :=
            (refusesAt_compileExpr right hr fun t ht => hs (by simp [ht])).bind fun _ => .pure _
          unfold compileExpr
          dsimp only
          split
          · exact (refusesAt_compileName _ _).bind hright
          · exact hleft.bind hright
  | .isIn _ key target, _, _, _, h, hs => by
      cases h with
      | isIn _ hk ht =>
          exact (refusesAt_compileExpr key hk fun t ht => hs (by simp [ht])).bind fun _ =>
            (refusesAt_compileExpr target ht fun t ht => hs (by simp [ht])).bind fun _ => .pure _
  | .instanceOf _ target type, _, _, us, h, hs => by
      have hstart := h.startsAt.hasStart.mono hs
      cases h with
      | instanceOf _ ht hty =>
          have htype : HasStart us type.start :=
            hty.startsAt.hasStart.mono fun t ht => hs (by simp [ht])
          unfold compileExpr
          refine (refusesAt_compileExpr target ht fun t ht => hs (by simp [ht])).bind fun _ => ?_
          split
          · split
            · exact .pure _
            · exact .refuse hstart
          · exact .refuse htype
  | .cond _ test yes no, _, _, _, h, hs => by
      cases h with
      | cond _ ht hy hn =>
          exact (refusesAt_compileExpr test ht fun t ht => hs (by simp [ht])).bind fun _ =>
            (refusesAt_compileExpr yes hy fun t ht => hs (by simp [ht])).bind fun _ =>
              (refusesAt_compileExpr no hn fun t ht => hs (by simp [ht])).bind fun _ => .pure _
  | .object _ props, _, _, _, h, hs => by
      cases h with
      | object h =>
          exact (refusesAt_compileProps props h fun t ht => hs (by simp [ht])).bind fun _ => .pure _
  | .array _ items, _, _, _, h, hs => by
      cases h with
      | array h =>
          exact (refusesAt_compileExprs items h fun t ht => hs (by simp [ht])).bind fun _ => .pure _

theorem refusesAt_compileExprs : ∀ (es : List Expr) {loose : Bool} {ts rest us : List Token},
    Separated loose (Written S) es ts rest → ts ⊆ us → RefusesAt us (compileExprs es)
  | [], _, _, _, _, _, _ => .pure _
  | e :: es, _, _, _, _, h, hs => by
      obtain ⟨_, _, _, _, _, rfl, he, hes⟩ := h.split_first
      exact (refusesAt_compileExpr e he fun t ht => hs (by simp [ht])).bind fun _ =>
        (refusesAt_compileExprs es hes fun t ht => hs (by simp [ht])).bind fun _ => .pure _

theorem refusesAt_compileProps : ∀ (props : List (PropertyKey × Expr)) {ts rest us : List Token},
    Separated true (WrittenProp S) props ts rest → ts ⊆ us → RefusesAt us (compileProps props)
  | [], _, _, _, _, _ => .pure _
  | (_, value) :: props, _, _, _, h, hs => by
      obtain ⟨_, _, _, _, _, rfl, hprop, hprops⟩ := h.split_first
      cases hprop with
      | prop _ hvalue =>
          exact (refusesAt_compileExpr value hvalue fun t ht => hs (by simp [ht])).bind fun _ =>
            (refusesAt_compileProps props hprops fun t ht => hs (by simp [ht])).bind fun _ => .pure _

end

theorem refusesAt_compileOption {e : Option Expr} (h : WrittenOption S e ts rest) :
    RefusesAt ts (compileOption e) := by
  cases h with
  | none => exact .pure _
  | some h => exact (refusesAt_compileExpr _ h (List.Subset.refl _)).bind fun _ => .pure _

theorem refusesAt_compileTest {e : Option Expr} (h : WrittenOption S e ts rest) :
    RefusesAt ts (compileTest e) := by
  cases h with
  | none => exact .pure _
  | some h => exact refusesAt_compileExpr _ h (List.Subset.refl _)

end TwinView.Script
