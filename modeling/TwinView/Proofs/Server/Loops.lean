import TwinView.Proofs.Server.Output

/-!
The loops of a class. A loop runs its body once for each binding that is left; what is left is read off
the variables of the loop.
-/

namespace TwinView.Server

open Code

variable {ν : Type} {w : World ν} {known : List Method} {mode : TextMode}
  {out : Binding ν → List (Event ν)} {i : Prop} {find : String → Option Method} {b : Binding ν}
  {σ σ' : Store ν} {name name' : String}

theorem exec_loop {test : Expr} {step : Stmt} {body : List Stmt}
    (left : Store ν → List (Binding ν) → Prop)
    (hexit : ∀ σ, left σ [] → loopTest σ test = some false)
    (hagain : ∀ σ b' rest, left σ (b' :: rest) → loopTest σ test = some true ∧
      ∃ σ₁ σ₂, Exec find w b σ (.stmts body) (out b') σ₁ ∧
        simpleStep find w b σ₁ step = some ([], σ₂) ∧ left σ₂ rest)
    {bindings : List (Binding ν)} (h : left σ bindings) :
    ∃ σ', Exec find w b σ (.loop test step body) (bindings.flatMap out) σ' := by
  induction bindings generalizing σ with
  | nil => exact ⟨σ, .exit (hexit σ h)⟩
  | cons b' rest ih =>
      obtain ⟨htest, σ₁, σ₂, hbody, hstep, hleft⟩ := hagain σ b' rest h
      obtain ⟨σ', hloop⟩ := ih hleft
      exact ⟨σ', .again htest hbody hstep hloop⟩

theorem lookup_head (name : String) (v : Val ν) (σ : Store ν) :
    List.lookup name ((name, v) :: σ) = some v := by simp

theorem lookup_tail (h : name ≠ name') (v : Val ν) (σ : Store ν) :
    List.lookup name ((name', v) :: σ) = List.lookup name σ := by
  have : (name == name') = false := by simpa using h
  simp [List.lookup_cons, this]

theorem ne_of_unnumbered (h : unnumbered name ≠ unnumbered name') : name ≠ name' :=
  fun he => h (congrArg unnumbered he)

theorem shows_freshName {stem : String} (hs : IsStem stem) :
    Shows w known mode i (freshName stem) silent i fun _ name => unnumbered name = stem := by
  intro d name d' hd hcalm hi hr
  obtain ⟨rfl, rfl⟩ := runs_freshName.1 hr
  refine ⟨[], [], shown_same ⟨hcalm.mode, hcalm.scripts⟩ (extends_fresh hd stem) rfl (by simp), hi, ?_⟩
  exact unnumbered_append hs _

theorem exec_call {render : String} {args : List Expr} {b' : Binding ν}
    (hr : Performs w known render out) (hk : Knows find known)
    (hargs : callBinding σ args = some (b', σ')) :
    Exec find w b σ (.stmts [.expr (.invokeSelf .void render args)]) (out b') σ' := by
  obtain ⟨m, hm, hparams, hbody⟩ := hr find hk
  obtain ⟨σ₁, hexec⟩ := hbody b'
  have hcall : calledMethod find σ (.expr (.invokeSelf .void render args)) = some (m, b', σ') := by
    simp only [Expr.invokeSelf, Expr.invokeOn, Expr.self, calledMethod, hm, hargs]
    simp [hparams]
  have hsimple : simpleStep find w b σ (.expr (.invokeSelf .void render args)) = none := by
    unfold callBinding at hargs
    split at hargs
    · rfl
    · cases hargs
  have hall : Exec find w b σ (.stmts [.expr (.invokeSelf .void render args)]) (out b' ++ []) σ' :=
    .call hsimple hcall hexec .nil
  rwa [List.append_nil] at hall

theorem step_index {type : Ty} {p p' : Bool} {n : Int} {origin : Origin}
    (h : σ.lookup name = some (.whole n)) :
    simpleStep find w b σ (.expr (.unary .postIncrement (.var name type p) p') origin) =
      some ([], (name, .whole (n + 1)) :: σ) := by
  simp only [simpleStep, h]

/-- The bindings of a loop that counts, from the one with the index `i` on. -/
def countBindings (data : ν) (n : Int) (i : Nat) : List (Binding ν) :=
  (List.range' i (n.toNat - i)).map fun (i : Nat) => { data, index := i, count := n, key := none }

theorem countBindings_of_lt (data : ν) {n : Int} {i : Nat} (h : (i : Int) < n) :
    countBindings data n i =
      { data, index := i, count := n, key := none } :: countBindings data n (i + 1) := by
  obtain ⟨k, hk⟩ : ∃ k, n.toNat - i = k + 1 := ⟨n.toNat - i - 1, by omega⟩
  have hk' : n.toNat - (i + 1) = k := by omega
  rw [countBindings, hk, List.range'_succ, List.map_cons, countBindings, hk']

theorem countBindings_of_ge (data : ν) {n : Int} {i : Nat} (h : n ≤ i) :
    countBindings data n i = [] := by
  have hk : n.toNat - i = 0 := by omega
  rw [countBindings, hk]
  rfl

def countLoop (render : String) (data index count : VarDecl) : List Stmt :=
  [.var data, .loop (some (.vars [index, count]))
    (.operate (.compare .less) index.ref count.ref)
    (some (.expr (.apply .postIncrement index.ref)))
    [.expr (.invokeSelf .void render [.context, data.ref, index.ref, count.ref, .null])]]

structure Counting (σ : Store ν) (data index count : String) (v : ν) (i : Nat) (n : Int) : Prop where
  data : σ.lookup data = some (.item (.object v))
  index : σ.lookup index = some (.whole i)
  count : σ.lookup count = some (.whole n)

section Counting

variable {render data index count : String} {v : ν} {n : Int} {k : Nat}

theorem loopTest_counting (h : Counting σ data index count v k n) :
    loopTest σ (.operate (.compare .less) (.variableRef .int index) (.variableRef .int count)) =
      some (decide ((k : Int) < n)) := by
  simp only [Expr.operate, Expr.variableRef, loopTest, h.index, h.count]

theorem callBinding_counting (h : Counting σ data index count v k n) :
    callBinding σ [.context, .variableRef .object data, .variableRef .int index,
      .variableRef .int count, .null] = some ({ data := v, index := k, count := n, key := none }, σ) := by
  simp [Expr.variableRef, Expr.null, Expr.const, callBinding, loopData, wholeVar, loopKey, h.data,
    h.index, h.count]

theorem Counting.next (h : Counting σ data index count v k n) (hdi : data ≠ index)
    (hic : index ≠ count) :
    Counting ((index, .whole (k + 1)) :: σ) data index count v (k + 1) n where
  data := by rw [lookup_tail hdi, h.data]
  index := by rw [lookup_head]; rfl
  count := by rw [lookup_tail hic.symm, h.count]

theorem exec_counting (hr : Performs w known render out) (hk : Knows find known) (hdi : data ≠ index)
    (hic : index ≠ count) (h : Counting σ data index count v k n) :
    ∃ σ', Exec find w b σ (.loop
      (.operate (.compare .less) (.variableRef .int index) (.variableRef .int count))
      (.expr (.apply .postIncrement (.variableRef .int index)))
      [.expr (.invokeSelf .void render [.context, .variableRef .object data, .variableRef .int index,
        .variableRef .int count, .null])]) ((countBindings v n k).flatMap out) σ' := by
  refine exec_loop (fun σ bindings => ∃ k : Nat, Counting σ data index count v k n ∧
    bindings = countBindings v n k) ?_ ?_ ⟨k, h, rfl⟩
  · rintro σ ⟨k, h, hleft⟩
    rw [loopTest_counting h, decide_eq_false]
    intro hlt
    rw [countBindings_of_lt v hlt] at hleft
    cases hleft
  · rintro σ b' rest ⟨k, h, hleft⟩
    rcases Int.lt_or_le k n with hlt | hge
    · rw [countBindings_of_lt v hlt] at hleft
      cases hleft
      refine ⟨by rw [loopTest_counting h, decide_eq_true hlt], σ, _,
        exec_call hr hk (callBinding_counting h), step_index h.index, k + 1, h.next hdi hic, rfl⟩
    · rw [countBindings_of_ge v hge] at hleft
      cases hleft

end Counting

theorem initial_zero (σ : Store ν) : initial find w b σ .int (.int 0) = some (.whole 0, σ) := by
  show some (Val.whole (w.whole ⟨.int 0, []⟩ b), σ) = _
  rw [w.whole_int]

theorem says_countLoop {render data index count : String} {dataExpr countExpr : Expr}
    {v : Binding ν → ν} {n : Binding ν → Int} (hr : Performs w known render out)
    (hdata : ∀ find, Knows find known → ∀ b, w.object (termOf find dataExpr) b = v b)
    (hcount : ∀ find, Knows find known → ∀ b σ,
      initial find w b σ .int countExpr = some (.whole (n b), σ))
    (hdi : data ≠ index) (hdc : data ≠ count) (hic : index ≠ count) :
    Says w known (countLoop render { type := .object, name := data, init := some dataExpr }
        { type := .int, name := index, init := some (.int 0) }
        { type := .int, name := count, init := some countExpr })
      fun b => (countBindings (v b) (n b) 0).flatMap out := by
  intro find hk b σ
  have hfirst : simpleStep find w b σ
      (.var { type := .object, name := data, init := some dataExpr }) =
      some ([], (data, .item (.object (v b))) :: σ) := by
    simp [simpleStep, declareOne, initial, hdata find hk]
  have hsecond (σ : Store ν) : simpleStep find w b σ
      (.vars [{ type := .int, name := index, init := some (.int 0) },
        { type := .int, name := count, init := some countExpr }]) =
      some ([], (count, .whole (n b)) :: (index, .whole 0) :: σ) := by
    simp [simpleStep, declareAll, declareOne, initial_zero, hcount find hk]
  have hcounting : Counting
      ((count, .whole (n b)) :: (index, .whole 0) :: (data, .item (.object (v b))) :: σ)
      data index count (v b) 0 (n b) := by
    refine ⟨?_, ?_, lookup_head _ _ _⟩
    · rw [lookup_tail hdc, lookup_tail hdi, lookup_head]
    · rw [lookup_tail hic, lookup_head]
      rfl
  obtain ⟨σ', hloop⟩ := exec_counting (b := b) hr hk hdi hic hcounting
  have hexec := Exec.simple hfirst (.loop (hsecond _) hloop .nil)
  rw [List.append_nil, List.nil_append] at hexec
  exact ⟨σ', hexec⟩

/-- The variables of a loop over a collection: what is left of it, and how far it has come. -/
structure Walking (σ : Store ν) (index count iterator : String) (rest : List (Item ν)) (k n : Nat) :
    Prop where
  index : σ.lookup index = some (.whole k)
  count : σ.lookup count = some (.whole n)
  iterator : σ.lookup iterator = some (.iterator rest)

section Walking

variable {ι : Type} {item : ι → Item ν} {made : ι → Nat → Nat → Binding ν} {body : List Stmt}
  {index count iterator : String} {k n : Nat}

theorem initial_size {items : List (Item ν)} (h : σ.lookup name = some (.collection items)) :
    initial find w b σ .int (.invokeOn .int (.variableRef .collection name) "size" []) =
      some (.whole items.length, σ) := by
  simp only [Expr.invokeOn, Expr.variableRef, initial, h]

theorem initial_iterator {items : List (Item ν)} (h : σ.lookup name = some (.collection items)) :
    initial find w b σ .iterator (.invokeOn .iterator (.variableRef .collection name) "iterator" []) =
      some (.iterator items, σ) := by
  simp only [Expr.invokeOn, Expr.variableRef, initial, h]

theorem loopTest_walking {rest : List (Item ν)} (h : Walking σ index count iterator rest k n) :
    loopTest σ (.invokeOn .boolean (.variableRef .iterator iterator) "hasNext" []) =
      some !rest.isEmpty := by
  simp only [Expr.invokeOn, Expr.variableRef, loopTest, h.iterator]

theorem Walking.next {rest : List (Item ν)} (h : Walking σ index count iterator rest k n)
    (hic : index ≠ count) (hii : index ≠ iterator) :
    Walking ((index, .whole (k + 1)) :: σ) index count iterator rest (k + 1) n where
  index := by rw [lookup_head]; rfl
  count := by rw [lookup_tail hic.symm, h.count]
  iterator := by rw [lookup_tail hii.symm, h.iterator]

/-- A body that takes one item out of the iterator and renders it. -/
def TakesOne (w : World ν) (known : List Method) (out : Binding ν → List (Event ν))
    (item : ι → Item ν) (made : ι → Nat → Nat → Binding ν) (index count iterator : String)
    (body : List Stmt) : Prop :=
  ∀ find, Knows find known → ∀ b σ x rest k n,
    Walking σ index count iterator (item x :: rest) k n →
    ∃ σ', Exec find w b σ (.stmts body) (out (made x k n)) σ' ∧
      Walking σ' index count iterator rest k n

theorem exec_walking (hbody : TakesOne w known out item made index count iterator body)
    (hk : Knows find known) (hic : index ≠ count) (hii : index ≠ iterator) {xs : List ι}
    (h : Walking σ index count iterator (xs.map item) k n) :
    ∃ σ', Exec find w b σ (.loop (.invokeOn .boolean (.variableRef .iterator iterator) "hasNext" [])
      (.expr (.apply .postIncrement (.variableRef .int index))) body)
      (((xs.zipIdx k).map fun p => made p.1 p.2 n).flatMap out) σ' := by
  refine exec_loop (fun σ bindings => ∃ (xs : List ι) (k : Nat),
    Walking σ index count iterator (xs.map item) k n ∧
      bindings = (xs.zipIdx k).map fun p => made p.1 p.2 n) ?_ ?_ ⟨xs, k, h, rfl⟩
  · rintro σ ⟨xs, k, h, hleft⟩
    cases xs with
    | nil => exact loopTest_walking h
    | cons x xs => cases hleft
  · rintro σ b' rest ⟨xs, k, h, hleft⟩
    cases xs with
    | nil => cases hleft
    | cons x xs =>
        cases hleft
        obtain ⟨σ', hexec, hrest⟩ := hbody find hk b σ x (xs.map item) k n h
        exact ⟨loopTest_walking h, σ', _, hexec, step_index hrest.index, xs, k + 1,
          hrest.next hic hii, rfl⟩

def cursorLoop (c : Cursor) (body : List Stmt) : List Stmt :=
  [.var c.items, .vars [c.index, c.count],
    .loop (some (.var c.iterator)) (.invokeOn .boolean c.iterator.ref "hasNext" [])
      (some (.expr (.apply .postIncrement c.index.ref))) body]

def cursorOf (items index count iterator : String) (e : Expr) : Cursor where
  items := { type := .collection, name := items, init := some e }
  index := { type := .int, name := index, init := some (.int 0) }
  count := {
    type := .int, name := count
    init := some (.invokeOn .int (.variableRef .collection items) "size" []) }
  iterator := {
    type := .iterator, name := iterator
    init := some (.invokeOn .iterator (.variableRef .collection items) "iterator" []) }

theorem says_cursorLoop {items : String} {e : Expr} {xs : Binding ν → List ι}
    (hbody : TakesOne w known out item made index count iterator body)
    (hitems : ∀ find, Knows find known → ∀ b σ,
      initial find w b σ .collection e = some (.collection ((xs b).map item), σ))
    (hxi : items ≠ index) (hxc : items ≠ count) (hic : index ≠ count) (hii : index ≠ iterator)
    (hci : count ≠ iterator) :
    Says w known (cursorLoop (cursorOf items index count iterator e) body)
      fun b => ((xs b).zipIdx.map fun p => made p.1 p.2 (xs b).length).flatMap out := by
  intro find hk b σ
  have hfirst : simpleStep find w b σ (.var (cursorOf items index count iterator e).items) =
      some ([], (items, .collection ((xs b).map item)) :: σ) := by
    simp [simpleStep, cursorOf, declareOne, hitems find hk]
  have hsecond : simpleStep find w b ((items, .collection ((xs b).map item)) :: σ)
      (.vars [(cursorOf items index count iterator e).index,
        (cursorOf items index count iterator e).count]) =
      some ([], (count, .whole (xs b).length) :: (index, .whole 0) ::
        (items, .collection ((xs b).map item)) :: σ) := by
    have hlookup : List.lookup items ((index, .whole 0) ::
        (items, .collection ((xs b).map item)) :: σ) = some (.collection ((xs b).map item)) := by
      rw [lookup_tail hxi, lookup_head]
    have hsize : initial find w b _ .int (.invokeOn .int (.variableRef .collection items) "size" []) =
        _ := initial_size hlookup
    simp [simpleStep, cursorOf, declareAll, declareOne, initial_zero, hsize]
  have hthird (σ : Store ν) (h : σ.lookup items = some (.collection ((xs b).map item))) :
      simpleStep find w b σ (.var (cursorOf items index count iterator e).iterator) =
        some ([], (iterator, .iterator ((xs b).map item)) :: σ) := by
    simp [simpleStep, cursorOf, declareOne, initial_iterator h]
  have hwalking : Walking ((iterator, .iterator ((xs b).map item)) :: (count, .whole (xs b).length) ::
      (index, .whole 0) :: (items, .collection ((xs b).map item)) :: σ)
      index count iterator ((xs b).map item) 0 (xs b).length := by
    refine ⟨?_, ?_, lookup_head _ _ _⟩
    · rw [lookup_tail hii, lookup_tail hic, lookup_head]
      rfl
    · rw [lookup_tail hci, lookup_head]
  obtain ⟨σ', hloop⟩ := exec_walking (b := b) hbody hk hic hii hwalking
  have hexec := Exec.simple hfirst (.simple hsecond (.loop (hthird _ (by
    rw [lookup_tail hxc, lookup_tail hxi, lookup_head])) hloop .nil))
  rw [List.append_nil, List.nil_append, List.nil_append] at hexec
  exact ⟨σ', hexec⟩

theorem nextItem_walking {x : Item ν} {rest : List (Item ν)}
    (h : Walking σ index count iterator (x :: rest) k n) :
    nextItem σ iterator = some (x, (iterator, .iterator rest) :: σ) := by
  unfold nextItem
  rw [h.iterator]

theorem Walking.taken {x : Item ν} {rest : List (Item ν)}
    (h : Walking σ index count iterator (x :: rest) k n) (hii : index ≠ iterator)
    (hci : count ≠ iterator) :
    Walking ((iterator, .iterator rest) :: σ) index count iterator rest k n where
  index := by rw [lookup_tail hii, h.index]
  count := by rw [lookup_tail hci, h.count]
  iterator := lookup_head _ _ _

theorem takesOne_object {render items : String} {e : Expr} (hr : Performs w known render out)
    (hii : index ≠ iterator) (hci : count ≠ iterator) :
    TakesOne w known out Item.object (fun x k n => { data := x, index := k, count := n, key := none })
      index count iterator [(cursorOf items index count iterator e).renderItem render
        (cursorOf items index count iterator e).next .null] := by
  intro find hk b σ x rest k n h
  have hrest := h.taken hii hci
  refine ⟨_, exec_call hr hk ?_, hrest⟩
  simp [cursorOf, Cursor.next, VarDecl.ref, Expr.invokeOn, Expr.variableRef, Expr.null, Expr.const,
    callBinding, loopData, nextItem_walking h, wholeVar, hrest.index, hrest.count, loopKey]

/-- The item is an entry, of which key and value are handed over. -/
theorem takesOne_entry {render items entry : String} {e : Expr} (hr : Performs w known render out)
    (hii : index ≠ iterator) (hci : count ≠ iterator) (hie : index ≠ entry) (hce : count ≠ entry)
    (hte : iterator ≠ entry) :
    TakesOne w known out (fun p : ν × ν => Item.entry p.1 p.2)
      (fun p k n => { data := p.2, index := k, count := n, key := some p.1 }) index count iterator
      [.var {
          type := .mapEntry, name := entry
          init := some (.cast .mapEntry (cursorOf items index count iterator e).next false) },
        (cursorOf items index count iterator e).renderItem render
          (.invokeOn .object (.variableRef .mapEntry entry) "getValue" [])
          (Expr.invokeOn .object (.variableRef .mapEntry entry) "getKey" []).ensureText] := by
  intro find hk b σ x rest k n h
  have hrest := h.taken hii hci
  have hfirst : simpleStep find w b σ (.var {
        type := .mapEntry, name := entry
        init := some (.cast .mapEntry (cursorOf items index count iterator e).next false) }) =
      some ([], (entry, .item (.entry x.1 x.2)) :: (iterator, .iterator rest) :: σ) := by
    simp [simpleStep, declareOne, initial, cursorOf, Cursor.next, VarDecl.ref, Expr.invokeOn,
      Expr.variableRef, nextItem_walking h]
  have hwalking : Walking ((entry, .item (.entry x.1 x.2)) :: (iterator, .iterator rest) :: σ)
      index count iterator rest k n :=
    ⟨by rw [lookup_tail hie, hrest.index], by rw [lookup_tail hce, hrest.count],
      by rw [lookup_tail hte, hrest.iterator]⟩
  have hkey : (Expr.invokeOn .object (.variableRef .mapEntry entry) "getKey" []).ensureText =
      .invokeHelper .string "coerceString"
        [.invokeOn .object (.variableRef .mapEntry entry) "getKey" []] := rfl
  refine ⟨_, .simple hfirst (exec_call hr hk ?_), hwalking⟩
  rw [hkey]
  simp [cursorOf, VarDecl.ref, Expr.invokeOn, Expr.variableRef, Expr.invokeHelper, callBinding,
    loopData, wholeVar, hwalking.index, hwalking.count, loopKey]

end Walking

theorem shows_newCursor (e : Expr) :
    Shows w known mode i (newCursor e) silent i fun _ c => ∃ items index count iterator,
      c = cursorOf items index count iterator e ∧ unnumbered items = "items_" ∧
      unnumbered index = "index_" ∧ unnumbered count = "count_" ∧ unnumbered iterator = "iterator_" := by
  refine (shows_freshName ⟨"items", rfl⟩).andThen fun _ items _ hitems => ?_
  refine (shows_freshName ⟨"index", rfl⟩).andThen fun _ index _ hindex => ?_
  refine (shows_freshName ⟨"count", rfl⟩).andThen fun _ count _ hcount => ?_
  refine (shows_freshName ⟨"iterator", rfl⟩).andThen fun _ iterator _ hiterator => ?_
  exact .pure ⟨items, index, count, iterator, rfl, hitems, hindex, hcount, hiterator⟩

theorem addLoop_eq (c : Cursor) (body : List Stmt) : c.addLoop body = addAll (cursorLoop c body) := by
  simp [Cursor.addLoop, cursorLoop, addAll]

theorem IsFragment.ne_invoke {e : Expr} (h : IsFragment e) {method : String}
    (hm : method ∉ Expr.scriptMethods) (hc : unnumbered method ≠ "code_") (result : Ty) (target : Expr)
    (args : List Expr) (p : Bool) : e ≠ .invoke result target method args p := by
  intro he
  rcases h _ _ _ _ _ he with hmem | hcode
  · exact hm hmem
  · exact hc hcode

theorem initial_collection {e : Expr}
    (h : ∀ result target args p, e ≠ .invoke result target "entrySet" args p) :
    initial find w b σ .collection e = some (.collection ((w.items (termOf find e) b).map .object), σ) := by
  unfold initial
  split
  · exact absurd rfl (h _ _ _ _)
  · rfl
  all_goals contradiction

theorem initial_int {e : Expr} (h : ∀ result target args p, e ≠ .invoke result target "size" args p) :
    initial find w b σ .int e = some (.whole (w.whole (termOf find e) b), σ) := by
  unfold initial
  split
  · contradiction
  · contradiction
  · contradiction
  · contradiction
  · exact absurd rfl (h _ _ _ _)
  · rfl
  all_goals contradiction

theorem initial_whole {e : Expr} {count : CodeBlock} (h : CodeIs known e count)
    (hk : Knows find known) (σ : Store ν) :
    initial find w b σ .int (wholeExpr e) =
      some (.whole (w.whole (blockTerm wholeExpr count) b), σ) := by
  rw [← h.termOf_eq hk wraps_wholeExpr]
  apply initial_int
  intro result target args p
  rw [wholeExpr_eq]
  split
  · exact h.shape.ne_invoke (by decide) (by decide) result target args p
  · simp

theorem initial_entries {e : Expr} {source : CodeBlock} (h : CodeIs known e source)
    (hk : Knows find known) (σ : Store ν) :
    initial find w b σ .collection (.invokeOn .collection e.ensureMap "entrySet" []) =
      some (.collection ((w.entries (blockTerm Expr.ensureMap source) b).map fun p =>
        .entry p.1 p.2), σ) := by
  rw [← h.termOf_eq hk wraps_ensureMap]
  rfl

theorem initial_items {e : Expr} {source : CodeBlock} (h : CodeIs known e source)
    (hk : Knows find known) (σ : Store ν) :
    initial find w b σ .collection e.ensureCollection =
      some (.collection ((w.items (blockTerm Expr.ensureCollection source) b).map .object), σ) := by
  rw [← h.termOf_eq hk wraps_ensureCollection]
  apply initial_collection
  intro result target args p
  unfold Expr.ensureCollection
  split
  · exact h.shape.ne_invoke (by decide) (by decide) result target args p
  · simp [Expr.invokeHelper, Expr.invokeOn]

theorem puts_buildListLoop {render : String} {e : Expr} {source : CodeBlock}
    (h : CodeIs known e source) (hr : Performs w known render out) :
    Puts w known mode True (buildListLoop render e) (fun b =>
      ((w.items (blockTerm Expr.ensureCollection source) b).zipIdx.map fun p =>
        { data := p.1, index := p.2, count := (w.items (blockTerm Expr.ensureCollection source) b).length,
          key := none }).flatMap out) True := by
  refine (shows_newCursor _).andThen fun known' c hsub hc => ?_
  obtain ⟨items, index, count, iterator, rfl, hitems, hindex, hcount, hiterator⟩ := hc
  rw [addLoop_eq]
  refine puts_addAll (says_cursorLoop (takesOne_object (hr.mono hsub) ?_ ?_)
    (fun find hk b σ => initial_items (h.mono hsub) hk σ) ?_ ?_ ?_ ?_ ?_)
  all_goals
    apply ne_of_unnumbered
    simp [hitems, hindex, hcount, hiterator]

theorem puts_buildMapLoop {render : String} {e : Expr} {source : CodeBlock}
    (h : CodeIs known e source) (hr : Performs w known render out) :
    Puts w known mode True (buildMapLoop render e) (fun b =>
      ((w.entries (blockTerm Expr.ensureMap source) b).zipIdx.map fun p =>
        { data := p.1.2, index := p.2,
          count := (w.entries (blockTerm Expr.ensureMap source) b).length,
          key := some p.1.1 }).flatMap out) True := by
  refine (shows_newCursor _).andThen fun known' c hsub hc => ?_
  obtain ⟨items, index, count, iterator, rfl, hitems, hindex, hcount, hiterator⟩ := hc
  refine (shows_freshName ⟨"entry", rfl⟩).andThen fun known'' entry hsub' hentry => ?_
  have hsub'' := List.Subset.trans hsub hsub'
  rw [addLoop_eq]
  refine puts_addAll (says_cursorLoop (takesOne_entry (hr.mono hsub'') ?_ ?_ ?_ ?_ ?_)
    (fun find hk b σ => initial_entries (h.mono hsub'') hk σ) ?_ ?_ ?_ ?_ ?_)
  all_goals
    apply ne_of_unnumbered
    simp [hitems, hindex, hcount, hiterator, hentry]

theorem countBindings_zero (data : ν) (n : Int) :
    countBindings data n 0 =
      (List.range n.toNat).map fun (k : Nat) => { data, index := k, count := n, key := none } := by
  rw [countBindings, Nat.sub_zero, List.range_eq_range']

theorem puts_buildCountLoop {render : String} {e data : Expr} {count : CodeBlock} {v : Binding ν → ν}
    (h : CodeIs known e count) (hr : Performs w known render out)
    (hdata : ∀ find, Knows find known → ∀ b, w.object (termOf find data) b = v b) :
    Puts w known mode True (buildCountLoop render e data) (fun b =>
      ((List.range (w.whole (blockTerm wholeExpr count) b).toNat).map fun (k : Nat) =>
        { data := v b, index := k, count := w.whole (blockTerm wholeExpr count) b,
          key := none }).flatMap out) True := by
  refine (shows_freshName ⟨"data", rfl⟩).andThen fun known₁ dataName hs₁ hd => ?_
  refine (shows_freshName ⟨"index", rfl⟩).andThen fun known₂ indexName hs₂ hi => ?_
  refine (shows_freshName ⟨"count", rfl⟩).andThen fun known₃ countName hs₃ hc => ?_
  have hsub := List.Subset.trans hs₁ (List.Subset.trans hs₂ hs₃)
  have hdi : dataName ≠ indexName := ne_of_unnumbered (by rw [hd, hi]; decide)
  have hdc : dataName ≠ countName := ne_of_unnumbered (by rw [hd, hc]; decide)
  have hic : indexName ≠ countName := ne_of_unnumbered (by rw [hi, hc]; decide)
  have hputs : Puts w known₃ mode True _ _ True := puts_addAll (says_countLoop (hr.mono hsub)
    (fun find hk => hdata find (hk.mono hsub))
    (fun find hk b σ => initial_whole (h.mono hsub) hk σ) hdi hdc hic)
  simp only [countBindings_zero, countLoop, addAll, bind_pure_unit, wholeExpr_eq] at hputs
  exact hputs

theorem object_data (find : String → Option Method) (b : Binding ν) :
    w.object (termOf find (.variableRef .object "data")) b = b.data := w.object_data b

-- comparing two ways to write a result must not run the compiler
attribute [local irreducible] Script.compile

/-- The head of a loop calls the body for the bindings of the loop. -/
theorem puts_buildLoopHead {l : Loop} {render : String}
    (hl : [l.each, l.within, l.count, l.data].all fun n => (argumentBlock? n).all isAlone)
    (hr : Performs w known render out) :
    Puts w known mode True (buildLoopHead l render) (fun b => (loopBindings w b l).flatMap out)
      True := by
  simp only [List.all_cons, List.all_nil, Bool.and_true, Bool.and_eq_true] at hl
  obtain ⟨heach, hwithin, hcount, hdata⟩ := hl
  unfold buildLoopHead
  cases hc : argumentBlock? l.count with
  | some count =>
      rw [hc] at hcount
      refine (shows_requiredExpr hcount).andThen fun known₁ e hs₁ he => ?_
      cases hd : argumentBlock? l.data with
      | some data =>
          rw [hd] at hdata
          refine (shows_requiredExpr hdata).andThen fun known₂ e' hs₂ he' => ?_
          refine (puts_buildCountLoop (he.mono hs₂) (hr.mono (List.Subset.trans hs₁ hs₂))
            fun find hk b => congrArg (w.object · b) (he'.termOf_eq hk wraps_id)).congr fun b => ?_
          simp only [loopBindings, hc, hd]
      | none =>
          refine (puts_buildCountLoop he (hr.mono hs₁) fun find _ b => object_data find b).congr
            fun b => ?_
          simp only [loopBindings, hc, hd]
  | none =>
      cases hw : argumentBlock? l.within with
      | some source =>
          rw [hw] at hwithin
          refine (shows_requiredExpr hwithin).andThen fun known₁ e hs₁ he => ?_
          refine (puts_buildMapLoop he (hr.mono hs₁)).congr fun b => ?_
          simp only [loopBindings, hc, hw, mapExpr_eq]
      | none =>
          cases hx : argumentBlock? l.each with
          | some source =>
              rw [hx] at heach
              refine (shows_requiredExpr heach).andThen fun known₁ e hs₁ he => ?_
              refine (puts_buildListLoop he (hr.mono hs₁)).congr fun b => ?_
              simp only [loopBindings, hc, hw, hx, listExpr_eq]
          | none => exact .throw

end TwinView.Server
