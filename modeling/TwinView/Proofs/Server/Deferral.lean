import Mathlib.Tactic.SplitIfs
import TwinView.Proofs.Server.Contents
import TwinView.Proofs.Template.Mentions

/-!
What code on the client is given. A client function has the bound names as parameters up to the last one
that its fragment mentions, and whoever calls it passes as many of the bound values or more. So every
bound name that the scanner finds in a fragment is a parameter, and gets its value.
-/

namespace TwinView.Server

open Code

variable {α β : Type} {s : Settings} {e : Element} {b : CodeBlock} {ts : List Script.Token} {t : Script.Token} {i n : Nat}
  {name : String} {d d' : Draft} {p p' : Pending}

/-- The `i`-th of the first `n` bound values is the one of the bound name. -/
def PassesAt (n i : Nat) (name : String) : Prop :=
  ∃ param, boundParams[i]? = some param ∧ param.name = name ∧ (boundValues n)[i]? = some param.ref

theorem boundParams_names : boundParams.map Param.name = CodeBlock.boundNames := rfl

theorem passesAt_of_lt (hi : CodeBlock.boundNames[i]? = some name) (hn : i < n) : PassesAt n i name := by
  rw [← boundParams_names, List.getElem?_map, Option.map_eq_some_iff] at hi
  obtain ⟨param, hparam, hname⟩ := hi
  refine ⟨param, hparam, hname, ?_⟩
  rw [boundValues, List.getElem?_map, List.getElem?_take_of_lt hn, hparam]
  rfl

theorem clientCode_params (b : CodeBlock) (pretty : Bool) : ∃ behind, b.clientCode pretty =
    "function(" ++ (if pretty then ", " else ",").intercalate (CodeBlock.boundNames.take b.arity) ++
      ")" ++ behind := by
  have hopening : ∃ body, b.clientOpening pretty =
      "function(" ++ (if pretty then ", " else ",").intercalate (CodeBlock.boundNames.take b.arity) ++
        (")" ++ body) := by
    unfold CodeBlock.clientOpening
    cases b.kind <;> cases pretty
    · exact ⟨"\x7breturn(", rfl⟩
    · exact ⟨" \x7b return (", rfl⟩
    · exact ⟨"\x7breturn duel.raw(", rfl⟩
    · exact ⟨" \x7b return duel.raw(", rfl⟩
    · exact ⟨"\x7b", rfl⟩
    · exact ⟨" \x7b ", rfl⟩
  obtain ⟨body, hbody⟩ := hopening
  exact ⟨body ++ Text.trim b.value ++ b.clientClosing pretty, by
    simp only [CodeBlock.clientCode, hbody, String.append_assoc]⟩

theorem arity_of_clientCode {b' : CodeBlock} (h : clientCode b = clientCode b') : b.arity = b'.arity := by
  have hparams {n m : Nat} {rest rest' : List Char} (hn : n ≤ 4) (hm : m ≤ 4)
      (h : (",".intercalate (CodeBlock.boundNames.take n)).toList ++ ')' :: rest =
        (",".intercalate (CodeBlock.boundNames.take m)).toList ++ ')' :: rest') : n = m := by
    have hplain : ∀ n < 5, ∀ c ∈ (",".intercalate (CodeBlock.boundNames.take n)).toList,
        decide (c ≠ ')') = true := by
      decide
    have hinj : ∀ n < 5, ∀ m < 5, (",".intercalate (CodeBlock.boundNames.take n)).toList =
        (",".intercalate (CodeBlock.boundNames.take m)).toList → n = m := by
      decide
    have heq := congrArg (List.takeWhile fun c => decide (c ≠ ')')) h
    rw [Script.takeWhile_front (hplain n (by omega)) rfl,
      Script.takeWhile_front (hplain m (by omega)) rfl] at heq
    exact hinj n (by omega) m (by omega) heq
  obtain ⟨rest, hb⟩ := clientCode_params b false
  obtain ⟨rest', hb'⟩ := clientCode_params b' false
  have heq := congrArg String.toList (hb.symm.trans (h.trans hb'))
  simp only [String.toList_append, List.append_assoc, List.append_cancel_left_eq] at heq
  exact hparams (CodeBlock.arityOf_le _ _) (CodeBlock.arityOf_le _ _) heq

/-- Every attribute that is left to the client is called with enough of the bound values. -/
structure Pending.Served (p : Pending) : Prop where
  deferred : ∀ a ∈ p.deferred, ∃ b, a.2 = .snippet (clientCode b) ∧ b.arity ≤ p.arity
  hybrids : ∀ h ∈ p.hybrids, ∃ b, h.code = clientCode b ∧ h.arity = b.arity

theorem mem_of_mem_put {γ : Type} {key : String} {value : γ} {entries : List (String × γ)}
    {a : String × γ} (h : a ∈ Json.put key value entries) : a ∈ entries ∨ a = (key, value) := by
  induction entries with
  | nil => exact .inr (List.mem_singleton.1 h)
  | cons entry rest ih =>
      obtain ⟨k, v⟩ := entry
      unfold Json.put at h
      split at h
      · next hk =>
          rcases List.mem_cons.1 h with rfl | h
          · exact .inr (by rw [hk])
          · exact .inl (List.mem_cons_of_mem _ h)
      · rcases List.mem_cons.1 h with rfl | h
        · exact .inl List.mem_cons_self
        · exact (ih h).imp_left (List.mem_cons_of_mem _)

theorem mem_put_of_ne {γ : Type} {key : String} {value : γ} {entries : List (String × γ)} {a : String × γ}
    (hne : key ≠ a.1) (h : a ∈ entries) : a ∈ Json.put key value entries := by
  induction entries with
  | nil => cases h
  | cons entry rest ih =>
      unfold Json.put
      split
      · next hk =>
          rcases List.mem_cons.1 h with rfl | h
          · exact absurd hk.symm hne
          · exact List.mem_cons_of_mem _ h
      · rcases List.mem_cons.1 h with rfl | h
        · exact List.mem_cons_self
        · exact List.mem_cons_of_mem _ (ih h)

theorem mem_put_self {γ : Type} (key : String) (value : γ) (entries : List (String × γ)) :
    (key, value) ∈ Json.put key value entries := by
  induction entries with
  | nil => exact List.mem_cons_self
  | cons entry rest ih =>
      unfold Json.put
      split
      · next hk => rw [hk]; exact List.mem_cons_self
      · exact List.mem_cons_of_mem _ ih

/-- What an attribute can do to what is pending: nothing, if the server writes it; it may be left to the
client; or its value may turn out to be undefined. -/
inductive Pending.Step (name : String) : Pending → Pending → Prop
  | written (p : Pending) : Step name p p
  | deferred (p : Pending) (b : CodeBlock) : Step name p (p.defer name b)
  | hybrid (p : Pending) (value : Expr) (b : CodeBlock) : Step name p { p with
      hybrids := p.hybrids ++ [{ value, name, code := clientCode b, arity := b.arity }] }

def Results (x : Build α) (Q : α → Prop) : Prop := ∀ d a d', Runs x d a d' → Q a

namespace Results

theorem pure {a : α} {Q : α → Prop} (h : Q a) : Results (Pure.pure a) Q := by
  intro d b d' hr
  rw [(runs_pure.1 hr).1]
  exact h

theorem bind {x : Build α} {f : α → Build β} {Q : α → Prop} {R : β → Prop} (hx : Results x Q)
    (hf : ∀ a, Q a → Results (f a) R) : Results (x >>= f) R := by
  intro d b d' hr
  obtain ⟨a, e, ha, hb⟩ := runs_bind.1 hr
  exact hf a (hx d a e ha) e b d' hb

theorem seq {x : Build α} {f : α → Build β} {R : β → Prop} (hf : ∀ a, Results (f a) R) :
    Results (x >>= f) R := bind (Q := fun _ => True) (fun _ _ _ _ => True.intro) fun a _ => hf a

theorem throw {e : Error} {Q : α → Prop} : Results (throw e) Q := fun _ _ _ hr => absurd hr runs_throw

end Results

theorem step_buildFlag (name : String) (n : Node) : Results (buildFlag s p name n) (p.Step name) := by
  unfold buildFlag
  split
  · dsimp only
    split
    · exact .seq fun _ => .pure (.written p)
    · exact .pure (.written p)
  · refine .seq fun r => ?_
    split
    · exact .seq fun _ => .seq fun _ => .pure (.written p)
    · exact .pure (.deferred p _)
  · exact .pure (.written p)

theorem step_buildLink (name : String) (n : Node) : Results (buildLink s e p name n) (p.Step name) := by
  unfold buildLink
  split
  · exact .seq fun _ => .pure (.written p)
  · refine .seq fun r => ?_
    split
    · exact .seq fun _ => .pure (.written p)
    · exact .pure (.deferred p _)
  · exact .throw

theorem step_buildPlain (name : String) (n : Node) : Results (buildPlain s e p name n) (p.Step name) := by
  unfold buildPlain
  split
  · exact .seq fun _ => .pure (.written p)
  · refine .seq fun r => ?_
    split
    · exact .pure (.deferred p _)
    · split
      · exact .seq fun _ => .seq fun value => .seq fun _ => .pure (.hybrid p value _)
      · exact .seq fun _ => .pure (.written p)
  · exact .throw

/-- What the attributes of an element keep up step by step holds of what they leave pending. -/
theorem results_buildAttributes {I : Pending → Prop} {attributes : List (String × Option Node)}
    (hstep : ∀ a ∈ attributes, ∀ p p', Pending.Step a.1 p p' → I p → I p') (hp : I p) :
    Results (buildAttributes s e p attributes) I := by
  induction attributes generalizing p with
  | nil => exact .pure hp
  | cons a rest ih =>
      obtain ⟨hfirst, hrest⟩ := List.forall_mem_cons.1 hstep
      obtain ⟨name, value⟩ := a
      cases value with
      | none => exact .seq fun _ => ih hrest hp
      | some n =>
          have hbehind (p' : Pending) (h : p.Step name p') :
              Results (buildAttributes s e p' rest) I := ih hrest (hfirst p p' h hp)
          unfold buildAttributes
          dsimp only
          split_ifs
          · exact (step_buildFlag name n).bind hbehind
          · exact (step_buildLink name n).bind hbehind
          · exact (step_buildPlain name n).bind hbehind

theorem Pending.Served.step (hp : p.Served) (h : Pending.Step name p p') : p'.Served := by
  cases h with
  | written => exact hp
  | deferred b =>
      refine ⟨fun a ha => ?_, hp.hybrids⟩
      rcases mem_of_mem_put ha with ha | rfl
      · obtain ⟨b', hb, hle⟩ := hp.deferred a ha
        exact ⟨b', hb, Nat.le_trans hle (Nat.le_max_left _ _)⟩
      · exact ⟨b, rfl, Nat.le_max_right _ _⟩
  | hybrid value b =>
      refine ⟨hp.deferred, fun h hh => ?_⟩
      rcases List.mem_append.1 hh with hh | hh
      · exact hp.hybrids h hh
      · rw [List.mem_singleton.1 hh]
        exact ⟨b, rfl, rfl⟩

/-- What the attributes of an element leave to the client is called with enough of the bound values. -/
theorem served_buildAttributes (attributes : List (String × Option Node)) :
    Results (buildAttributes s e {} attributes) Pending.Served :=
  results_buildAttributes (fun _ _ _ _ h hp => hp.step h) ⟨by simp, by simp⟩

/-- The client function of a block has a name for its parameter at the place `i`, and is given the value
of this name wherever it is called. -/
structure Receives (b : CodeBlock) (i : Nat) (name : String) : Prop where
  param : (CodeBlock.boundNames.take b.arity)[i]? = some name
  declared : ∀ pretty, ∃ behind, b.clientCode pretty =
    "function(" ++ (if pretty then ", " else ",").intercalate (CodeBlock.boundNames.take b.arity) ++
      ")" ++ behind
  passed : PassesAt b.arity i name
  /-- The call of a block that is left to the client. -/
  block : ∀ s d d', d.frames ≠ [] → Runs (buildDeferredBlock s b) d () d' →
    ∃ opening id, d'.contents = d.contents ++ (opening ++
      (scriptCall (clientCode b) (boundValues b.arity) [.stmt (writeData id)] ++
        spell (");" ++ Markup.endTag "script")))
  /-- The arities with which attributes of an element are called. -/
  attributes : ∀ s e attributes d p d', Runs (buildAttributes s e {} attributes) d p d' →
    (∀ a ∈ p.deferred, a.2 = .snippet (clientCode b) → PassesAt p.arity i name) ∧
    ∀ h ∈ p.hybrids, h.code = clientCode b → PassesAt h.arity i name
  /-- The call of attributes with an arity. -/
  call : ∀ attributes id n d d', d.frames ≠ [] → Runs (putAttributeCall attributes id n) d () d' →
    ∃ setup, d'.contents = d.contents ++ (setup ++
      (scriptCall ((Client.Data.object attributes).write .compact .script 1) (boundValues n) id.pieces ++
        spell ",1);"))

theorem receives_of_lt (hi : CodeBlock.boundNames[i]? = some name) (hlt : i < b.arity) :
    Receives b i name where
  param := by rw [List.getElem?_take_of_lt hlt, hi]
  declared := clientCode_params b
  passed := passesAt_of_lt hi hlt
  block := fun s d d' hd hr => by
    obtain ⟨_, hheld, -, opening, id, -, rfl⟩ := fills_buildDeferredBlock b d () d' hd False.elim hr
    exact ⟨opening, id, hheld.contents⟩
  attributes := fun s e attributes d p d' hr => by
    have hp := served_buildAttributes attributes d p d' hr
    refine ⟨fun a ha hcode => ?_, fun h hh hcode => ?_⟩
    · obtain ⟨b', hb, hle⟩ := hp.deferred a ha
      have harity := arity_of_clientCode (Client.Data.snippet.inj (hcode.symm.trans hb))
      exact passesAt_of_lt hi (by omega)
    · obtain ⟨b', hb, harity'⟩ := hp.hybrids h hh
      have harity := arity_of_clientCode (hcode.symm.trans hb)
      exact passesAt_of_lt hi (by omega)
  call := fun attributes id n d d' hd hr => by
    obtain ⟨_, hheld, -, setup, -, rfl⟩ := fills_putAttributeCall attributes id n d () d' hd False.elim hr
    exact ⟨setup, hheld.contents⟩

/-- A bound name that a fragment has for a name, and that no number abuts, is a parameter of the client
function, in its place, and the function is given its value there. -/
theorem receives_mentioned (h : Script.tokenize b.value = .ok ts)
    (hi : CodeBlock.boundNames[i]? = some name) (ht : t ∈ ts) (hname : t.lexeme = .name name)
    (hnumber : Script.NoNumberAt ts t.start) : i < b.arity ∧ Receives b i name :=
  have hlt := CodeBlock.lt_arity h hi ht hname hnumber
  ⟨hlt, receives_of_lt hi hlt⟩

/-- A name between an operator and a comment, behind a name with characters that words do not have. -/
theorem receives_mentioned_index :
    ∃ b : CodeBlock, b.value = "$x+index/*é*/.a" ∧ 1 < b.arity ∧ Receives b 1 "index" := by
  have hok : (Script.tokenize "$x+index/*é*/.a").toOption.any (· = [⟨0, 2, .name "$x"⟩,
      ⟨2, 3, .operator "+"⟩, ⟨3, 8, .name "index"⟩, ⟨14, 15, .mark '.'⟩, ⟨15, 16, .name "a"⟩]) := by
    decide +kernel
  obtain ⟨ts, h, hts⟩ := exists_ok_of_any hok
  obtain rfl := of_decide_eq_true hts
  exact ⟨⟨.expression, "$x+index/*é*/.a", none⟩, rfl,
    receives_mentioned (t := ⟨3, 8, .name "index"⟩) h rfl (by simp) rfl (by simp [Script.NoNumberAt])⟩

end TwinView.Server
