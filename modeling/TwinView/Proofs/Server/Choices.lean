import Mathlib.Data.List.Forall2
import TwinView.Proofs.Server.Setup

/-!
What a choice runs. Its branches are built one by one and chained, later ones into the false parts of
earlier ones. Running the chain runs the first branch whose test holds or that has none, and nothing
else, exactly if no statements are built for branches behind one that has no test.
-/

namespace TwinView.Server

open Code

/-- What statements do: conditions run here, everything else is left to the interpreter. -/
structure Interpreter (m : Type → Type) where
  test : Expr → m Bool
  step : Stmt → m Unit

namespace Interpreter

variable {m : Type → Type} [Monad m] (M : Interpreter m)

mutual

def run : Stmt → m Unit
  | .cond test yes no => do if ← M.test test then exec yes else exec no
  | .expr e origin => M.step (.expr e origin)
  | .var decl => M.step (.var decl)
  | .vars decls => M.step (.vars decls)
  | .loop init test step body => M.step (.loop init test step body)
  | .ret value => M.step (.ret value)
  | .comment value => M.step (.comment value)

def exec : List Stmt → m Unit
  | [] => return
  | stmt :: rest => do
    run stmt
    exec rest

end

def takeFirst : List BuiltBranch → m Unit
  | [] => return
  | .tested test body :: rest => do if ← M.test test then M.exec body else takeFirst rest
  | .plain body :: _ => M.exec body

end Interpreter

/-- The statements of the first branch whose test holds or that has no test. -/
def firstOpen (holds : Expr → Bool) : List BuiltBranch → List Stmt
  | [] => []
  | .tested test body :: rest => if holds test then body else firstOpen holds rest
  | .plain body :: _ => body

/-- Running the chain takes one branch, in every interpreter. -/
def Exclusive (built : List BuiltBranch) : Prop :=
  ∀ (m : Type → Type) [Monad m] [LawfulMonad m] (M : Interpreter m),
    M.exec (chain built) = M.takeFirst built

def fallbackIsLast : List BuiltBranch → Bool
  | [] => true
  | .tested _ _ :: rest => fallbackIsLast rest
  | .plain _ :: rest => (chain rest).isEmpty

section

variable {m : Type → Type} [Monad m] [LawfulMonad m] {M : Interpreter m} {built : List BuiltBranch}

theorem exec_append (stmts rest : List Stmt) : M.exec (stmts ++ rest) = (do
    M.exec stmts
    M.exec rest) := by
  induction stmts with
  | nil => simp [Interpreter.exec]
  | cons stmt tail ih => simp [Interpreter.exec, ih]

theorem exec_cond (test : Expr) (yes no : List Stmt) :
    M.exec [.cond test yes no] = (do if ← M.test test then M.exec yes else M.exec no) := by
  simp [Interpreter.exec, Interpreter.run]

theorem exec_chain (h : fallbackIsLast built) : M.exec (chain built) = M.takeFirst built := by
  induction built with
  | nil => rfl
  | cons b rest ih =>
      cases b with
      | tested test body =>
          rw [chain, exec_cond, Interpreter.takeFirst, ih h]
      | plain body =>
          rw [chain, List.isEmpty_iff.1 h, List.append_nil, Interpreter.takeFirst]

/-- Where tests only look at values, their values tell which branch is taken. -/
theorem takeFirst_eq_exec {holds : Expr → Bool} (h : ∀ e, M.test e = pure (holds e)) :
    M.takeFirst built = M.exec (firstOpen holds built) := by
  induction built with
  | nil => rfl
  | cons b rest ih =>
      cases b with
      | tested test body =>
          rw [Interpreter.takeFirst, firstOpen, h, pure_bind]
          split
          · rfl
          · exact ih
      | plain body => rfl

end

/-- Counts the tests and the statements that run. No test holds. -/
def counter : Interpreter (StateM Nat) where
  test _ := do
    modify (· + 1)
    return false
  step _ := modify (· + 1)

def counted (stmts : List Stmt) (n : Nat) : Nat := ((counter.exec stmts).run n).2

theorem counted_append (stmts rest : List Stmt) (n : Nat) :
    counted (stmts ++ rest) n = counted rest (counted stmts n) := by
  rw [counted, exec_append]
  rfl

theorem counted_cons (stmt : Stmt) (rest : List Stmt) (n : Nat) :
    counted (stmt :: rest) n = counted rest (counted [stmt] n) := counted_append [stmt] rest n

theorem counted_cond (test : Expr) (yes no : List Stmt) (n : Nat) :
    counted [.cond test yes no] n = counted no (n + 1) := by
  rw [counted, exec_cond]
  rfl

mutual

theorem lt_counted_single : ∀ (stmt : Stmt) (n : Nat), n < counted [stmt] n
  | .cond test yes no, n => by
      rw [counted_cond]
      exact Nat.lt_of_succ_le (le_counted no (n + 1))
  | .expr _ _, n | .var _, n | .vars _, n | .loop _ _ _ _, n | .ret _, n | .comment _, n =>
      Nat.lt_succ_self n

theorem le_counted : ∀ (stmts : List Stmt) (n : Nat), n ≤ counted stmts n
  | [], n => Nat.le_refl n
  | stmt :: rest, n => by
      rw [counted_cons]
      exact Nat.le_trans (Nat.le_of_lt (lt_counted_single stmt n)) (le_counted rest _)

end

theorem lt_counted {stmts : List Stmt} (h : stmts ≠ []) (n : Nat) : n < counted stmts n := by
  cases stmts with
  | nil => exact absurd rfl h
  | cons stmt rest =>
      rw [counted_cons]
      exact Nat.lt_of_lt_of_le (lt_counted_single stmt n) (le_counted rest _)

/-- Where no test holds, a fallback and the statements behind it both run. -/
theorem takeFirst_lt_counted {built : List BuiltBranch} (h : fallbackIsLast built = false) (n : Nat) :
    ((counter.takeFirst built).run n).2 < counted (chain built) n := by
  induction built generalizing n with
  | nil => cases h
  | cons b rest ih =>
      cases b with
      | tested test body =>
          rw [chain, counted_cond]
          exact ih h (n + 1)
      | plain body =>
          rw [chain, counted_append]
          refine lt_counted (fun hnil => ?_) (counted body n)
          rw [fallbackIsLast, hnil] at h
          cases h

theorem exclusive_iff {built : List BuiltBranch} : Exclusive built ↔ fallbackIsLast built := by
  constructor
  · intro h
    by_contra hlast
    have hlt := takeFirst_lt_counted (Bool.eq_false_iff.2 hlast) 0
    rw [counted, h (StateM Nat) counter] at hlt
    exact Nat.lt_irrefl _ hlt
  · intro h m _ _ M
    exact exec_chain h

/-- A branch is built from its test and its children. -/
inductive BuiltFrom (s : Settings) : Branch → BuiltBranch → Prop
  | tested {b : CodeBlock} {children : List Node} {position : Option Position} {test : Expr}
      {body : List Stmt} {d₀ d₁ d₂ : Draft} (ht : Runs (requiredExpr b) d₀ test d₁)
      (hb : Runs (inFrame false (runAll (buildEach s children))) d₁ body d₂) :
      BuiltFrom s ⟨some b, children, position⟩ (.tested test body)
  | plain {children : List Node} {position : Option Position} {body : List Stmt} {inherited : Bool}
      {d₀ d₁ : Draft} (hb : Runs (inFrame inherited (runAll (buildEach s children))) d₀ body d₁) :
      BuiltFrom s ⟨none, children, position⟩ (.plain body)

variable {s : Settings} {d d' : Draft} {branches : List Branch} {built : List BuiltBranch}

theorem buffer_inFrame {ofMethod : Bool} {body : Build Unit} {stmts : List Stmt}
    (h : Runs (inFrame ofMethod body) d stmts d') : d'.buffer = "" := by
  obtain ⟨e, -, he⟩ := runs_inFrame.1 h
  obtain rfl := congrArg Prod.snd he
  unfold Draft.close
  split <;> exact buffer_flush e

theorem builtFrom_buildBranches {inherited : Bool} (hd : d.buffer = "")
    (h : Runs (buildBranches s inherited branches) d built d') :
    List.Forall₂ (BuiltFrom s) branches built ∧ d'.buffer = "" := by
  induction branches generalizing inherited d built with
  | nil =>
      obtain ⟨rfl, rfl⟩ := runs_pure.1 h
      exact ⟨.nil, hd⟩
  | cons b rest ih =>
      obtain ⟨test, children, position⟩ := b
      cases test with
      | some test =>
          simp only [buildBranches, runs_bind, runs_pure] at h
          obtain ⟨e, d₁, ht, body, d₂, hbody, built, d₃, hr, rfl, rfl⟩ := h
          obtain ⟨hbuilt, hbuffer⟩ := ih (buffer_inFrame hbody) hr
          exact ⟨.cons (.tested ht hbody) hbuilt, hbuffer⟩
      | none =>
          simp only [buildBranches, runs_bind, runs_pure] at h
          obtain ⟨body, d₁, hbody, built, d₂, hr, rfl, rfl⟩ := h
          obtain ⟨hbuilt, hbuffer⟩ := ih (buffer_inFrame hbody) hr
          exact ⟨.cons (.plain hbody) hbuilt, hbuffer⟩

def Draft.watch (d : Draft) : Watch where
  names := d.names
  armed := d.needsExtras
  scripts := d.hasScripts

theorem agrees_watch (hd : Tidy d) : Agrees d.watch d :=
  ⟨⟨fun _ => rfl, hd.renamed, hd.renamed⟩, rfl, rfl⟩

/-- A choice adds the markup that was pending and its branches, chained, and leaves nothing pending. -/
theorem added_choice {c : Choice} (hd : Tidy d) (hf : d.frames ≠ [])
    (h : Runs (buildNode s (.choice c)) d () d') :
    ∃ built, List.Forall₂ (BuiltFrom s) c.branches built ∧
      d'.frames = extendTop (d.flushed ++ chain built) d.frames ∧ d'.buffer = "" := by
  obtain ⟨branches, position⟩ := c
  unfold buildNode at h
  simp only [flush, inMethodFrame, runs_bind, runs_modify, runs_get, runs_pure] at h
  obtain ⟨_, _, rfl, inherited, _, ⟨_, _, ⟨rfl, rfl⟩, -, rfl⟩, built, e, hb, h⟩ := h
  obtain rfl := runs_addAll.1 h
  obtain ⟨hbuilt, hbuffer⟩ := builtFrom_buildBranches (buffer_flush d) hb
  have hflush := Extends.flush hd
  have hgathered : ∃ added S, Gathered [] _ _ _ _ added (chain built) S :=
    gathered_buildBranches (fun b _ n _ => tracked_buildNode n) hflush.tidy
      (agrees_watch hflush.tidy) (frames_ne_nil hflush hf) rfl (hasCall_flush hd) hb
  obtain ⟨added, S, hg⟩ := hgathered
  refine ⟨built, hbuilt, ?_, hbuffer⟩
  rw [hg.ext.frames, hflush.frames, extendTop_nil, extendTop_extendTop]

/-- A choice runs one of its branches, the first whose test holds or that has none, exactly if no
statements are built for branches behind one that has no test. -/
theorem exclusive_iff_fallbackIsLast {c : Choice} (hd : Tidy d) (hf : d.frames ≠ [])
    (h : Runs (buildNode s (.choice c)) d () d') :
    ∃ built, List.Forall₂ (BuiltFrom s) c.branches built ∧
      d'.frames = extendTop (d.flushed ++ chain built) d.frames ∧ d'.buffer = "" ∧
      (Exclusive built ↔ fallbackIsLast built) := by
  obtain ⟨built, hbuilt, hframes, hbuffer⟩ := added_choice hd hf h
  exact ⟨built, hbuilt, hframes, hbuffer, exclusive_iff⟩

/-- The draft of a view whose method for rendering has just been opened. -/
def Draft.inView (name : String) : Draft :=
  Draft.opened { target := viewClass none name } true

def literal (value : String) : Node := .text .literal value none

def guardedChoice : Choice where
  branches := [
    { test := some { kind := .expression, value := "data" }, children := [literal "a"] },
    { test := some { kind := .expression, value := "index" }, children := [literal "b"] },
    { children := [literal "c"] }]

theorem exclusive_iff_fallbackIsLast_guardedChoice :
    ∃ d' built, Runs (buildNode {} (.choice guardedChoice)) (.inView "V") () d' ∧
      List.Forall₂ (BuiltFrom {}) guardedChoice.branches built ∧
      d'.frames = [{ ofMethod := true, stmts := chain built }] ∧ Exclusive built ∧
      ∀ (m : Type → Type) [Monad m] [LawfulMonad m] (M : Interpreter m) (holds : Expr → Bool),
        (∀ e, M.test e = pure (holds e)) →
          M.exec (chain built) = M.exec (firstOpen holds built) := by
  have hok : ((buildNode {} (.choice guardedChoice)).run (.inView "V")).isOk := by
    decide +kernel
  obtain ⟨_, d', hr⟩ := exists_runs hok
  obtain ⟨built, hbuilt, hframes, -, hiff⟩ := exclusive_iff_fallbackIsLast
    ((tidy_view none "V").opened true) (List.cons_ne_nil _ _) hr
  have hlast : fallbackIsLast built = true := by
    obtain _ | ⟨⟨-, -⟩, _ | ⟨⟨-, -⟩, _ | ⟨⟨-⟩, ⟨⟩⟩⟩⟩ := hbuilt
    rfl
  refine ⟨d', built, hr, hbuilt, hframes, hiff.2 hlast, fun m _ _ M holds hholds => ?_⟩
  rw [hiff.2 hlast m M, takeFirst_eq_exec hholds]

def fallbackFirst : Choice where
  branches := [
    { children := [literal "a"] },
    { test := some { kind := .expression, value := "data" }, children := [literal "b"] }]

def endsInCondition (stmts : List Stmt) : Bool :=
  match stmts.getLast? with
  | some (.cond _ (_ :: _) _) => true
  | _ => false

/-- Where the test behind the fallback holds, the fallback and the other branch both run. -/
theorem not_exclusive_fallbackFirst :
    ∃ d' body test other, Runs (buildNode {} (.choice fallbackFirst)) (.inView "V") () d' ∧
      List.Forall₂ (BuiltFrom {}) fallbackFirst.branches [.plain body, .tested test other] ∧
      d'.frames = [{ ofMethod := true, stmts := chain [.plain body, .tested test other] }] ∧
      other ≠ [] ∧
      (∀ (m : Type → Type) [Monad m] [LawfulMonad m] (M : Interpreter m),
        (∀ e, M.test e = pure true) →
          M.exec (chain [.plain body, .tested test other]) = (do
            M.exec body
            M.exec other)) ∧
      ¬ Exclusive [.plain body, .tested test other] := by
  have hok : ((buildNode {} (.choice fallbackFirst)).run (.inView "V")).toOption.any
      (·.2.frames.head?.any (endsInCondition ·.stmts)) := by
    decide +kernel
  obtain ⟨⟨_, d'⟩, hr, hends⟩ := exists_ok_of_any hok
  obtain ⟨built, hbuilt, hframes, -⟩ := added_choice
    ((tidy_view none "V").opened true) (List.cons_ne_nil _ _) hr
  obtain ⟨body, test, other, rfl⟩ : ∃ body test other,
      built = [.plain body, .tested test other] := by
    obtain _ | ⟨⟨-⟩, _ | ⟨⟨-, -⟩, ⟨⟩⟩⟩ := hbuilt
    exact ⟨_, _, _, rfl⟩
  have hstmts : d'.frames =
      [{ ofMethod := true, stmts := chain [.plain body, .tested test other] }] := hframes
  refine ⟨d', body, test, other, hr, hbuilt, hstmts, ?_, fun m _ _ M htrue => ?_, ?_⟩
  · rintro rfl
    simp [hstmts, chain, endsInCondition] at hends
  · simp [chain, exec_append, exec_cond, htrue]
  · rw [exclusive_iff]
    exact Bool.false_ne_true

end TwinView.Server
