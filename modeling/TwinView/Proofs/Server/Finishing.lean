import TwinView.Proofs.Server.Fallbacks
import TwinView.Proofs.Server.Pages

/-!
What the scripts that finish attributes render. All values of hybrid attributes may be defined or not;
a script element is opened once if there is a call to make, whichever is the first, and closed behind
the last.
-/

namespace TwinView.Server

open Code

variable {s : Settings} {truth : Expr → Bool} {page : Page} {i : Prop} {e : Element} {p : Pending}
  {id : ElementId}

def Plain (ps : List Piece) : Prop := ∀ truth page, perform truth ps page = page.write ps

theorem plain_nil : Plain [] := fun _ _ => by simp

theorem plain_spell (text : String) : Plain (spell text) := fun _ _ => perform_spell text

theorem Plain.append {ps qs : List Piece} (hp : Plain ps) (hq : Plain qs) : Plain (ps ++ qs) :=
  fun truth page => by rw [perform_append, hp, hq, Page.write_write]

theorem plain_renderCall {method : String} {args : List Expr}
    (h : markup? (renderCall method args) = none) : Plain [.stmt (renderCall method args)] := by
  intro truth page
  have hpiece : pieceOf (renderCall method args) = [.stmt (renderCall method args)] := by
    simp only [pieceOf, h]
  rw [perform_stmt, ← hpiece]
  rfl

theorem plain_writeData (e : Expr) : Plain [.stmt (writeData e)] := plain_renderCall rfl

theorem plain_argumentPieces (es : List Expr) : Plain (argumentPieces es) := by
  induction es with
  | nil => exact plain_nil
  | cons e rest ih =>
      cases rest with
      | nil => exact plain_writeData e
      | cons e' rest => exact (plain_writeData e).append ((plain_spell ",").append ih)

theorem plain_elementId (id : ElementId) : Plain id.pieces := by
  cases id with
  | declared id => exact plain_writeData id
  | given id => exact plain_spell _

theorem plain_scriptCall {code : String} {values : List Expr} {place : List Piece} (h : Plain place) :
    Plain (scriptCall code values place) :=
  (((plain_spell _).append (plain_argumentPieces values)).append (plain_spell _)).append h

theorem plain_attributeCall (attributes : List (String × Client.Data)) (n : Nat) (id : ElementId) :
    Plain (attributeCall attributes n id) := (plain_scriptCall (plain_elementId id)).append (plain_spell _)

theorem IsSetup.plain {ps : List Piece} (h : IsSetup ps) : Plain ps := by
  obtain rfl | rfl := h
  · exact plain_nil
  · exact plain_renderCall rfl

def Hybrid.isMissing (truth : Expr → Bool) (h : Hybrid) : Bool :=
  truth (.operate (.compare .identical) h.value .undefined)

def Hybrid.call (h : Hybrid) (id : ElementId) : List Piece :=
  attributeCall [(h.name, .snippet h.code)] h.arity id

def hybridCalls (truth : Expr → Bool) (id : ElementId) (hs : List Hybrid) : List (List Piece) :=
  (hs.filter (·.isMissing truth)).map (·.call id)

/-- One call for all that has been left to the client, and then those for undefined values. -/
def Pending.calls (truth : Expr → Bool) (p : Pending) (id : ElementId) : List (List Piece) :=
  (if p.deferred.isEmpty then [] else [attributeCall p.deferred p.arity id]) ++
    hybridCalls truth id p.hybrids

def Pending.isCalled (truth : Expr → Bool) (p : Pending) : Bool :=
  !p.deferred.isEmpty || p.hybrids.any (·.isMissing truth)

/-- Calls one after the other, some of them behind the setup of the client. -/
inductive InTurn : List (List Piece) → List Piece → Prop
  | nil : InTurn [] []
  | cons {call setup rest : List Piece} {calls : List (List Piece)} (hs : IsSetup setup)
      (h : InTurn calls rest) : InTurn (call :: calls) (setup ++ call ++ rest)

def scriptTag (s : Settings) : String :=
  if s.scriptTypeAttr then "<script type=\"text/javascript\">" else "<script>"

/-- A script element around the calls, if there are any. -/
inductive Finishes (s : Settings) (truth : Expr → Bool) (p : Pending) (id : ElementId) :
    List Piece → Prop
  | script {turn : List Piece} (hc : p.isCalled truth) (ht : InTurn (p.calls truth id) turn) :
      Finishes s truth p id (spell (scriptTag s) ++ turn ++ spell "</script>")
  | nothing (hc : p.isCalled truth = false) : Finishes s truth p id []

/-- How the scripts of an element find it: by its own id, or by a new one, which is written if there is
a call to make. -/
inductive IdAttribute (e : Element) (isCalled : Bool) : ElementId → List Piece → Prop
  | own {value : String} {position : Option Position}
      (h : e.attribute? "id" = some (.text .literal value position)) :
      IdAttribute e isCalled (.given value) []
  | new {name : String} (h : e.attribute? "id" = none) :
      IdAttribute e isCalled (.declared (.variableRef .string name))
        (if isCalled then attributePieces "id" [.stmt (write (.variableRef .string name))] else [])

theorem hybridCalls_eq_nil {hs : List Hybrid} (h : hs.any (·.isMissing truth) = false) :
    hybridCalls truth id hs = [] := by
  rw [hybridCalls, List.map_eq_nil_iff, List.filter_eq_nil_iff]
  exact List.any_eq_false.1 h

namespace Pending

theorem isCalled_of_deferred (h : p.deferred.isEmpty = false) : p.isCalled truth := by
  simp [isCalled, h]

theorem isCalled_eq_any (h : p.deferred.isEmpty) :
    p.isCalled truth = p.hybrids.any (·.isMissing truth) := by
  rw [isCalled, h, Bool.not_true, Bool.false_or]

theorem calls_eq_hybridCalls (h : p.deferred.isEmpty) : p.calls truth id = hybridCalls truth id p.hybrids := by
  rw [calls, if_pos h, List.nil_append]

theorem calls_eq_cons (h : p.deferred.isEmpty = false) :
    p.calls truth id = attributeCall p.deferred p.arity id :: hybridCalls truth id p.hybrids := by
  rw [calls, if_neg (Bool.eq_false_iff.1 h)]
  rfl

theorem hybrids_ne_nil (hp : p.isEmpty = false) (h : p.deferred.isEmpty) : p.hybrids ≠ [] := by
  rintro hnil
  simp [isEmpty, h, hnil] at hp

end Pending

theorem scriptTag_eq (s : Settings) : scriptTag s = scriptOpening s false ++ Markup.closeTag := by
  unfold scriptTag scriptOpening
  cases s.scriptTypeAttr <;> decide

theorem endTag_script : Markup.endTag "script" = "</script>" := by decide

theorem spells_putScriptTag : Spells i (putScriptTag s) (spell (scriptTag s)) False :=
  (spells_putScriptOpen false).after ((spells_put _).mono fun _ ps hps => by simp [hps, scriptTag_eq])

theorem prints_putAttributeCall (attributes : List (String × Client.Data)) (id : ElementId) (n : Nat) :
    Prints i (putAttributeCall attributes id n) (fun _ ps => ∃ setup, IsSetup setup ∧
      ∀ truth page, perform truth ps page = page.write (setup ++ attributeCall attributes n id)) False := by
  refine (fills_putAttributeCall attributes id n).prints.mono ?_
  rintro _ _ ⟨setup, hsetup, rfl⟩
  exact ⟨setup, hsetup, hsetup.plain.append (plain_attributeCall attributes n id)⟩

/-- Whether the script element is open; where no flag tells, it is. -/
def isOpen (flag? : Option String) (page : Page) : Bool := flag?.all page.flags

def openingFor (s : Settings) (isOpen : Bool) : List Piece :=
  if isOpen then [] else spell (scriptTag s)

theorem rendered_openOnce {flag : String} {tag : List Stmt} {text : String}
    (htag : ∀ truth page, rendered truth tag page = perform truth (spell text) page) :
    rendered truth [.cond (.apply .not (.variableRef .boolean flag))
        (.expr (.operate .assign (.variableRef .boolean flag) (.bool true)) :: tag) []] page =
      if page.flags flag then page else (page.set flag true).write (spell text) := by
  have hbody : rendered truth
      (.expr (.operate .assign (.variableRef .boolean flag) (.bool true)) :: tag) page =
        (page.set flag true).write (spell text) := by
    rw [rendered_cons, htag, perform_spell]
    rfl
  have hholds : page.holds truth (.apply .not (.variableRef .boolean flag)) = !page.flags flag := rfl
  rw [rendered_cond, hbody, hholds, rendered_nil]
  cases page.flags flag <;> rfl

/-- The call of a hybrid attribute opens the script element if no call has done so before. -/
theorem prints_hybridCall (flag? : Option String) (h : Hybrid) :
    Prints True (hybridCall s id (flag?.map (.variableRef .boolean)) h) (fun _ ps => ∀ truth page,
      ∃ setup, IsSetup setup ∧ isOpen flag? (perform truth ps page) ∧
        (perform truth ps page).out =
          page.out ++ openingFor s (isOpen flag? page) ++ (setup ++ h.call id)) False := by
  cases flag? with
  | none =>
      refine (prints_putAttributeCall _ id _).mono ?_
      rintro _ ps ⟨setup, hsetup, hcall⟩ truth page
      refine ⟨setup, hsetup, rfl, ?_⟩
      rw [hcall, Page.out_write, openingFor, isOpen, Option.all_none, if_pos rfl, List.append_nil]
      rfl
  | some flag =>
      refine .after spells_noteScript ((prints_inFrame spells_putScriptTag.prints).bind ?_)
      rintro tag _ ⟨rfl, _, rfl, htag⟩
      refine .after (spells_add _) ((prints_putAttributeCall _ id _).mono ?_)
      rintro _ ps ⟨setup, hsetup, hcall⟩ truth page
      refine ⟨setup, hsetup, ?_⟩
      rw [List.nil_append, List.nil_append, perform_append, hcall, perform_pieceOf, rendered_openOnce htag]
      cases hflag : page.flags flag with
      | true => simp [openingFor, isOpen, hflag, Hybrid.call]
      | false => simp [openingFor, isOpen, hflag, Hybrid.call]

/-- The calls of the hybrid attributes, behind one opening tag if it was not there before. -/
theorem prints_buildHybridCalls (flag? : Option String) (hs : List Hybrid) :
    Prints i (buildHybridCalls s id (flag?.map (.variableRef .boolean)) hs) (fun _ ps => ∀ truth page,
      ∃ turn, InTurn (hybridCalls truth id hs) turn ∧
        isOpen flag? (perform truth ps page) = (isOpen flag? page || hs.any (·.isMissing truth)) ∧
        (perform truth ps page).out =
          page.out ++ openingFor s (isOpen flag? page || !hs.any (·.isMissing truth)) ++ turn)
      (hs ≠ [] ∨ i) := by
  induction hs generalizing i with
  | nil =>
      refine (Prints.pure fun truth page => ⟨[], .nil, ?_, ?_⟩).weaken (fun h => h)
        (Or.resolve_left · (absurd rfl))
      · simp
      · simp [openingFor]
  | cons h rest ih =>
      rw [buildHybridCalls_cons]
      refine .after spells_flush ((prints_addCondition (prints_hybridCall flag? h)).bind ?_)
      rintro _ ps ⟨qs, hcall, hps⟩
      refine (ih.weaken (fun h => h) fun _ => .inr True.intro).mono fun _ qs' hrest truth page => ?_
      have htest : page.holds truth (isUndefined h.value) = h.isMissing truth := rfl
      rw [List.nil_append, perform_append, hps, htest]
      cases hm : h.isMissing truth with
      | false =>
          obtain ⟨turn, hturn, hopen, hout⟩ := hrest truth page
          refine ⟨turn, ?_, ?_, ?_⟩
          · simpa [hybridCalls, hm] using hturn
          · simpa [hm] using hopen
          · simpa [hm] using hout
      | true =>
          -- the rest starts behind a call, that is with the element open
          obtain ⟨setup, hsetup, hopened, hcalled⟩ := hcall truth page
          obtain ⟨turn, hturn, hopen, hout⟩ := hrest truth (perform truth qs page)
          refine ⟨setup ++ h.call id ++ turn, ?_, ?_, ?_⟩
          · simpa [hybridCalls, hm] using InTurn.cons hsetup hturn
          · simpa [hm, hopened] using hopen
          · simp [hm, hopened, hout, hcalled, openingFor]

theorem InTurn.eq_nil {turn : List Piece} (h : InTurn [] turn) : turn = [] := by
  cases h
  rfl

/-- Where nothing is left to the client for sure, the first call that is made opens the script element,
and the flag tells behind the calls whether it has to be closed. -/
theorem prints_openedByCalls (hd : p.deferred.isEmpty) (hp : p.isEmpty = false) : Prints i (do
      let flag ← declare .boolean "hasTags_" (.bool false)
      buildHybridCalls s id (some flag) p.hybrids
      addCondition flag (put (Markup.endTag "script")))
    (fun _ ps => ∀ truth page, ∃ script, Finishes s truth p id script ∧
      (perform truth ps page).out = page.out ++ script) False := by
  refine (prints_declare _ _ _).bind ?_
  rintro _ _ ⟨flag, rfl, rfl⟩
  refine (prints_buildHybridCalls (some flag) p.hybrids).bind fun _ ps hps => ?_
  refine ((prints_addCondition (spells_put _).prints).weaken
    (fun _ => .inl (Pending.hybrids_ne_nil hp hd)) False.elim).mono ?_
  rintro _ qs ⟨_, rfl, hqs⟩ truth page
  obtain ⟨turn, hturn, hopen, hout⟩ := hps truth (page.set flag false)
  have hdeclared : perform truth [.stmt (.var
      { type := .boolean, name := flag, init := some (.bool false) })] page = page.set flag false := rfl
  have hclosed : isOpen (some flag) (page.set flag false) = false := by simp [isOpen]
  have htest (page : Page) : page.holds truth (.variableRef .boolean flag) = isOpen (some flag) page :=
    (Option.all_some ..).symm
  rw [hclosed, Bool.false_or] at hopen hout
  rw [perform_append, hdeclared, perform_append, hqs, htest, hopen]
  -- the flag is set just if a call has been made
  cases hany : p.hybrids.any (·.isMissing truth) with
  | true =>
      refine ⟨_, .script ((Pending.isCalled_eq_any hd).trans hany)
        (Pending.calls_eq_hybridCalls hd ▸ hturn), ?_⟩
      simp [hout, hany, openingFor, endTag_script]
  | false =>
      rw [hybridCalls_eq_nil hany] at hturn
      refine ⟨[], .nothing ((Pending.isCalled_eq_any hd).trans hany), ?_⟩
      simp [hout, hany, openingFor, hturn.eq_nil]

/-- Where something is left to the client, the script element is there in any case. -/
theorem prints_openedFirst (hd : p.deferred.isEmpty = false) : Prints i (do
      noteScript
      putScriptTag s
      putAttributeCall p.deferred id p.arity
      buildHybridCalls s id none p.hybrids
      put (Markup.endTag "script"))
    (fun _ ps => ∀ truth page, ∃ script, Finishes s truth p id script ∧
      (perform truth ps page).out = page.out ++ script) False := by
  refine .after spells_noteScript
    (.after spells_putScriptTag ((prints_putAttributeCall _ id _).bind ?_))
  rintro _ call ⟨setup, hsetup, hcall⟩
  refine (prints_buildHybridCalls none p.hybrids).bind fun _ ps hps => ?_
  refine (spells_put _).prints.mono ?_
  rintro _ _ rfl truth page
  obtain ⟨turn, hturn, -, hout⟩ := hps truth ((page.write (spell (scriptTag s))).write
    (setup ++ attributeCall p.deferred p.arity id))
  refine ⟨_, .script (Pending.isCalled_of_deferred hd)
    (Pending.calls_eq_cons hd ▸ InTurn.cons hsetup hturn), ?_⟩
  rw [List.nil_append, perform_append, perform_spell, perform_append, hcall, perform_append, perform_spell,
    Page.out_write, hout]
  simp [openingFor, isOpen, endTag_script]

/-- Behind an element there is one script element if there is a call to make. -/
theorem prints_buildPending (hp : p.isEmpty = false) : Prints i (buildPending s p id)
    (fun _ ps => ∀ truth page, ∃ script, Finishes s truth p id script ∧
      (perform truth ps page).out = page.out ++ script) False := by
  unfold buildPending
  split
  · next hd => exact prints_openedByCalls hd hp
  · next hd => exact prints_openedFirst (Bool.eq_false_iff.2 hd)

theorem holds_someUndefined {hs : List Hybrid} {test : Expr} (h : someUndefined hs = some test) :
    page.holds truth test = hs.any (·.isMissing truth) := by
  have hfold (rest : List Hybrid) (test : Expr) :
      page.holds truth (rest.foldl (fun test h => .operate .or test (isUndefined h.value)) test) =
        (page.holds truth test || rest.any (·.isMissing truth)) := by
    induction rest generalizing test with
    | nil => simp
    | cons h rest ih =>
        have hor : page.holds truth (.operate .or test (isUndefined h.value)) =
          (page.holds truth test || h.isMissing truth) := rfl
        rw [List.foldl_cons, ih, hor, List.any_cons, Bool.or_assoc]
  cases hs with
  | nil => cases h
  | cons first rest =>
      cases h
      exact hfold rest _

theorem prints_buildElementId (hp : p.isEmpty = false) :
    Prints i (buildElementId e p) (fun id ps => ∀ truth page,
      ∃ written, IdAttribute e (p.isCalled truth) id written ∧
        perform truth ps page = page.write written) False := by
  unfold buildElementId
  split
  · next hid =>
      refine (prints_declare _ _ _).bind ?_
      rintro _ _ ⟨name, rfl, rfl⟩
      have hplain : Plain (attributePieces "id" [.stmt (write (.variableRef .string name))]) :=
        ((plain_spell _).append (plain_renderCall rfl)).append (plain_spell _)
      cases hd : p.deferred.isEmpty with
      | false =>
          refine .after (spells_putAttribute _ _) ((Prints.pure fun truth page => ?_).forget)
          refine ⟨_, .new hid, ?_⟩
          rw [List.append_nil, perform_append, if_pos (Pending.isCalled_of_deferred hd)]
          exact hplain truth _
      | true =>
          cases hsome : someUndefined p.hybrids with
          | none =>
              have hnil : p.hybrids = [] := by
                cases hh : p.hybrids with
                | nil => rfl
                | cons h rest =>
                    rw [hh] at hsome
                    cases hsome
              exact absurd hnil (Pending.hybrids_ne_nil hp hd)
          | some test =>
              refine .after spells_flush ((prints_addCondition (spells_putAttribute _ _).prints).bind ?_)
              rintro _ ps ⟨_, rfl, hps⟩
              refine (Prints.pure fun truth page => ⟨_, .new hid, ?_⟩).forget
              rw [List.append_nil, List.nil_append, perform_append, hps, holds_someUndefined hsome,
                Pending.isCalled_eq_any hd]
              split
              · exact hplain truth _
              · exact (Page.write_nil _).symm
  · next value position hid =>
      exact (Prints.pure fun truth page => ⟨[], .own hid, by simp⟩).forget
  · exact .throw

end TwinView.Server
