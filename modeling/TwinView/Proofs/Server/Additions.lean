import TwinView.Proofs.Server.Finishing
import TwinView.Proofs.Server.Generated

/-!
Whatever a template holds, its nodes only add to what a method renders: what has been rendered before a
node stays in front of what the node renders.
-/

namespace TwinView.Server

open Code

variable {α β : Type} {s : Settings} {w : Site} {e : Element} {i j k : Prop}

namespace Prints

variable {P : α → List Piece → Prop} {x : Build α}

theorem bindRuns {f : α → Build β} (hx : Prints i x P j) (hf : ∀ d a d', Runs x d a d' → Inserts j (f a) k) :
    Inserts i (x >>= f) k := by
  intro d b d' hd hi hr
  obtain ⟨a, c, ha, hb⟩ := runs_bind.1 hr
  obtain ⟨ps, hps, hj, -⟩ := hx d a c hd hi ha
  obtain ⟨qs, hqs, hk, -⟩ := hf d a c ha c b d' hps.opened hj hb
  exact ⟨ps ++ qs, hps.trans hqs, hk, trivial⟩

theorem seq {f : α → Build β} (hx : Prints i x P j) (hf : ∀ a, Inserts j (f a) k) :
    Inserts i (x >>= f) k := hx.bindRuns fun _ a _ _ => hf a

theorem result (a : α) : Inserts i (Pure.pure a : Build α) i := .pure True.intro

end Prints

def Draft.SameMarkup (d d' : Draft) : Prop := d'.frames = d.frames ∧ d'.buffer = d.buffer

theorem Inserts.changed {f : Draft → Draft} {g : Unit → Build β} (hf : ∀ d : Draft, d.SameMarkup (f d))
    (hg : Inserts i (g ()) j) : Inserts i (modify f >>= g) j := (spells_modify hf).prints.seq fun _ => hg

theorem Inserts.reset {f : Draft → Draft} {g : Draft → Build β} (hf : ∀ d : Draft, d.SameMarkup (f d))
    (hg : ∀ d, Inserts i (g d) j) : Inserts i (do let d ← get; set (f d); g d) j := by
  intro d b d' hd hi hr
  simp only [runs_bind, runs_get, runs_set] at hr
  obtain ⟨outer, _, ⟨houter, rfl⟩, _, _, rfl, hrest⟩ := hr
  subst houter
  exact Inserts.changed (g := fun _ => g outer) hf (hg outer) outer b d' hd hi
    (runs_bind.2 ⟨(), _, runs_modify.2 rfl, hrest⟩)

theorem inserts_modify {f : Draft → Draft} (hf : ∀ d : Draft, d.SameMarkup (f d)) : Inserts i (modify f) i :=
  (spells_modify hf).prints.inserts

theorem inserts_freshName (stem : String) : Inserts i (freshName stem) i :=
  (fills_freshName stem).prints.inserts

theorem inserts_addMember (m : Member) : Inserts i (addMember m) i := inserts_modify fun _ => ⟨rfl, rfl⟩

theorem inserts_addToInit (stmt : Stmt) : Inserts i (addToInit stmt) i :=
  fills_get.prints.seq fun _ => .ite ((inserts_addMember _).seq fun _ => inserts_modify fun _ => ⟨rfl, rfl⟩)
    (inserts_modify fun _ => ⟨rfl, rfl⟩)

theorem prints_fragment? (b : CodeBlock) (canDefer : Bool) :
    Prints i (fragment? b canDefer) (fun _ ps => ps = []) i := by
  refine prints_keeping fun d r d' hr => ?_
  obtain ⟨-, -, rfl, -⟩ | ⟨-, -, -, -, -, -, rfl⟩ := runs_fragment? hr
  · exact ⟨rfl, rfl⟩
  · exact ⟨rfl, rfl⟩

/-- Whatever a builder is made of, it only adds to what is rendered. -/
theorem Made.inserts {Q : α → Prop} {x : Probed α} (h : Made w i x Q j) : Inserts i (x noProbe) j := by
  induction h with
  | result => exact .result _
  | bind hx _ ihx ihf => exact ihx.bindRuns fun _ a _ hr => ihf a (hx.generates hr).1
  | weaken _ hi _ hj ih => exact ih.weaken hi hj
  | throw => exact .throw
  | get => exact fills_get.prints.inserts
  | put markup => exact (spells_put markup).prints.inserts
  | flush => exact spells_flush.prints.inserts
  | note hf =>
      refine inserts_modify fun d => ?_
      obtain ⟨_, _, _, hf⟩ := hf d
      rw [hf]
      exact ⟨rfl, rfl⟩
  | add => exact (spells_add _).prints.inserts
  | freshName stem => exact inserts_freshName stem
  | declare type stem init => exact (prints_declare type stem init).inserts
  | addToInit => exact inserts_addToInit _
  | newField => exact (inserts_freshName _).seq fun _ => (inserts_addMember _).seq fun _ => .result _
  | fragment? b canDefer => exact (prints_fragment? b canDefer).inserts
  | tryArguments _ ih =>
      refine fills_get.prints.seq fun _ => ih.seq fun r => ?_
      cases r with
      | error _ => exact Inserts.changed (fun _ => ⟨rfl, rfl⟩) (.result _)
      | ok _ => exact .result _
  | inFrame _ _ ih => exact (prints_inFrame ih).inserts
  | inContent _ _ ih =>
      exact fills_get.prints.seq fun _ => Inserts.changed (fun _ => ⟨rfl, rfl⟩)
        (ih.seq fun _ => inserts_modify fun _ => ⟨rfl, rfl⟩)
  | buildRenderMethod _ ih =>
      exact (inserts_freshName _).seq fun _ => (inserts_addMember _).seq fun _ => spells_flush.prints.seq fun _ =>
        (prints_inFrame ih).seq fun _ => Inserts.changed (fun _ => ⟨rfl, rfl⟩) (.result _)
  | buildPart _ _ _ ih =>
      refine (inserts_freshName _).seq fun name => Inserts.reset (fun _ => ⟨rfl, rfl⟩) fun outer => ?_
      exact Prints.seq (ih.weaken False.elim id) fun _ =>
        Inserts.changed (fun _ => ⟨rfl, rfl⟩) (Inserts.changed (fun _ => ⟨rfl, rfl⟩) (.result _))
  | visit _ ih => exact ih

def tagEnd (s : Settings) (e : Element) : String :=
  if e.canHaveChildren then ">" else if s.xhtmlStyle then " />" else ">"

theorem made_children (ns : List Node) : ∀ n ∈ ns,
    Made ⟨s, Node.blocksOf ns, Node.requiredOf ns⟩ False (fun _ => visit (buildNode s n)) (fun _ => True) False :=
  made_visit ns (List.Subset.refl _) (List.Subset.refl _)

theorem prints_buildBody (e : Element) : Prints False (buildBody s e (buildEach s e.children))
    (fun _ ps => ∃ more, ps = spell (tagEnd s e) ++ more) False := by
  unfold buildBody tagEnd
  split
  · rw [buildContent_eq, buildEach_eq_visit]
    refine .after (spells_put _) (.mono (P := fun _ _ => True) ?_ fun _ ps _ => ⟨ps, rfl⟩)
    exact (((made_buildChildren (made_children e.children)).inContent e).bind fun _ _ => made_endContent).inserts
  · refine (spells_put _).prints.mono ?_
    rintro _ _ rfl
    exact ⟨[], (List.append_nil _).symm⟩

theorem inserts_buildFlag (p : Pending) (name : String) (n : Node) : Inserts i (buildFlag s p name n) False :=
  (made_buildFlag (w := ⟨s, [], []⟩) p name n).inserts

theorem inserts_buildLink (p : Pending) (name : String) (n : Node) : Inserts i (buildLink s e p name n) False :=
  (made_buildLink (w := ⟨s, n.blocks, []⟩) p name (by rintro b rfl; exact List.mem_cons_self)).inserts

theorem inserts_buildPlain (p : Pending) (name : String) (n : Node) : Inserts i (buildPlain s e p name n) False :=
  (made_buildPlain (w := ⟨s, n.blocks, []⟩) p name (by rintro b rfl; exact List.mem_cons_self)).inserts

theorem inserts_buildAttributes (p : Pending) (attributes : List (String × Option Node)) :
    Inserts False (buildAttributes s e p attributes) False :=
  (made_buildAttributes (w := ⟨s, attributeBlocks attributes, []⟩) p (List.Subset.refl _)).inserts

theorem inserts_buildUpTo (attributes : List (String × Option Node)) :
    Inserts False (buildUpTo s e attributes) False :=
  (made_buildUpTo (w := ⟨s, attributeBlocks attributes, []⟩) (List.Subset.refl _)).inserts

theorem inserts_buildBehind (p : Pending) : Inserts False (buildBehind s e (buildEach s e.children) p) False := by
  rw [buildEach_eq_visit]
  exact (made_buildBehind p (made_children e.children)).inserts

end TwinView.Server
