import TwinView.Proofs.Client.Lexemes
import TwinView.Proofs.Script.Bindings
import TwinView.Proofs.Text.Pieces

/-!
Dotted names in client text. Each part is a name token, so that a binding of a dotted name is a
statement, and so is the declaration of each of its namespaces.
-/

namespace TwinView.Client

open Text Script

variable {s : Settings} {name root : String} {parts : List String} {cs rest : List Char}
  {P : List Char → Prop}

structure DottedName (name root : String) (parts : List String) : Prop where
  text : name.toList = root.toList ++ parts.flatMap fun part => '.' :: part.toList
  simple : ∀ part ∈ root :: parts, isSimpleName part

theorem exists_dottedName (h : isDottedName name) : ∃ root parts, DottedName name root parts := by
  obtain ⟨piece, pieces, hsplit⟩ := exists_splitAt '.' name.toList
  rw [isDottedName, hsplit, List.all_eq_true] at h
  refine ⟨String.ofList piece, pieces.map String.ofList, ?_, ?_⟩
  · rw [eq_of_splitAt hsplit]
    simp [List.flatMap_map]
  · rw [← List.map_cons, List.forall_mem_map]
    exact h

theorem isKeyword_of_isSimpleName (h : isSimpleName name) : isKeyword name = false := by
  have hreserved : ∀ word ∈ keywords, reservedWords.contains word := by decide
  simp only [isSimpleName, Bool.and_eq_true, Bool.not_eq_true', Bool.or_eq_false_iff] at h
  rw [Bool.eq_false_iff]
  intro hk
  rw [hreserved name (List.contains_iff_mem.1 hk)] at h
  cases h.1.1

theorem exists_of_isSimpleName (h : isSimpleName name) :
    ∃ c cs, name.toList = c :: cs ∧ isNameStart c ∧ ∀ d ∈ c :: cs, isNamePart d := by
  simp only [isSimpleName, Bool.and_eq_true] at h
  obtain ⟨-, h⟩ := h
  split at h
  · cases h
  · next c cs hname =>
      rw [Bool.and_eq_true, List.all_eq_true] at h
      refine ⟨c, cs, hname, h.1, List.forall_mem_cons.2 ⟨?_, h.2⟩⟩
      rw [isNamePart, h.1, Bool.true_or]

theorem lexes_simpleName (h : isSimpleName name) : Lexes Apart name [.name name] := by
  obtain ⟨c, cs, hname, hstart, hparts⟩ := exists_of_isSimpleName h
  have hword := lexed_word name (by rw [hname]; exact hstart)
    (by rw [hname]; exact List.all_eq_true.2 hparts)
  rwa [wordLexeme, isKeyword_of_isSimpleName h] at hword

theorem not_isDigit_of_isNameStart {c : Char} (h : isNameStart c) : isDigit c = false := by
  rw [Bool.eq_false_iff]
  intro hdigit
  simp only [isDigit, Bool.and_eq_true, decide_eq_true_eq] at hdigit
  have hlow (d : Char) (hd : '9' < d) : ¬ d ≤ c := fun hle => Char.not_le.2 hd (Char.le_trans hle hdigit.2)
  simp only [isNameStart, isLetter, Bool.or_eq_true, Bool.and_eq_true, decide_eq_true_eq] at h
  obtain (((h | h) | h) | h) | h := h
  · exact hlow 'a' (by decide) h.1
  · exact hlow 'A' (by decide) h.1
  · exact hlow '_' (by decide) (h ▸ Char.le_refl _)
  · subst h
    exact absurd hdigit (by decide)
  · exact hlow '\x7F' (by decide) (Char.not_lt.1 (Char.lt_asymm h.1))

theorem lexed_parts (h : ∀ part ∈ parts, isSimpleName part) :
    Lexed Apart (parts.flatMap fun part => '.' :: part.toList)
      (parts.flatMap fun part => [.mark '.', .name part]) := by
  induction parts with
  | nil => exact .nil
  | cons part parts ih =>
      obtain ⟨hpart, hss⟩ := List.forall_mem_cons.1 h
      obtain ⟨c, cs, hname, hstart, -⟩ := exists_of_isSimpleName hpart
      have hmore : Lexed Apart (part.toList ++ parts.flatMap fun part => '.' :: part.toList)
          ([.name part] ++ parts.flatMap fun part => [.mark '.', .name part]) := by
        refine Lexed.append (lexes_simpleName hpart) (ih hss) fun rest hrest => ?_
        cases parts with
        | nil => exact hrest
        | cons part parts => exact apart_cons (by decide) _
      refine lexed_dot.append hmore fun rest _ => ?_
      rw [hname]
      exact not_isDigit_of_isNameStart hstart

namespace DottedName

variable (h : DottedName name root parts)

include h

theorem lexes : Lexes Apart name (pathLexemes root parts) := by
  obtain ⟨hs, hss⟩ := List.forall_mem_cons.1 h.simple
  rw [Lexes, h.text]
  refine Lexed.append (lexes_simpleName hs) (lexed_parts hss) fun rest hrest => ?_
  cases parts with
  | nil => exact hrest
  | cons part parts => exact apart_cons (by decide) _

theorem isRoot_eq : isRoot name = parts.isEmpty := by
  rw [isRoot, h.text]
  cases parts with
  | nil =>
      obtain ⟨c, cs, hname, -, hparts⟩ := exists_of_isSimpleName (h.simple root List.mem_cons_self)
      have hdot : '.' ∉ root.toList := fun hdot => absurd (hparts _ (hname ▸ hdot)) (by decide)
      simpa using hdot
  | cons part parts => simp

theorem dotted?_pathExpr : dotted? (pathExpr root parts) = some name := by
  have hpath (e : Expr) (t : String) (he : dotted? e = some t) (parts : List String) :
      dotted? (parts.foldl (.member 0) e) =
        some (String.ofList (t.toList ++ parts.flatMap fun part => '.' :: part.toList)) := by
    induction parts generalizing e t with
    | nil => simp [he]
    | cons part parts ih =>
        rw [List.foldl_cons, ih (.member 0 e part) (t ++ "." ++ part) (by simp [dotted?, he])]
        simp
  rw [pathExpr, hpath _ root rfl, ← h.text, String.ofList_toList]

end DottedName

theorem mem_dottedHeads {done : List Char} {head : String} (h : head ∈ dottedHeads done cs) :
    ∃ before after, cs = before ++ '.' :: after ∧ head.toList = done.reverse ++ before := by
  induction cs generalizing done with
  | nil => cases h
  | cons c cs ih =>
      rw [dottedHeads] at h
      have hmore (h : head ∈ dottedHeads (c :: done) cs) :
          ∃ before after, c :: cs = before ++ '.' :: after ∧ head.toList = done.reverse ++ before := by
        obtain ⟨before, after, rfl, hhead⟩ := ih h
        exact ⟨c :: before, after, rfl, by simp [hhead]⟩
      split at h
      · next hc =>
          obtain rfl | h := List.mem_cons.1 h
          · exact ⟨[], cs, by rw [hc]; rfl, by simp⟩
          · exact hmore h
      · exact hmore h

theorem isDottedName_head {head : String} (hname : isDottedName name)
    (h : head ∈ dottedHeads [] name.toList) : isDottedName head := by
  obtain ⟨before, after, htext, hhead⟩ := mem_dottedHeads h
  rw [List.reverse_nil, List.nil_append] at hhead
  rw [isDottedName, htext, splitAt_append, List.all_append, Bool.and_eq_true] at hname
  rw [isDottedName, hhead]
  exact hname.1

/-- The text is read as these statements, up to offsets, wherever it stands. -/
def Sentences (text : String) (sts : List Stmt) : Prop :=
  ∃ lss, Lexes Anywhere text lss.flatten ∧ List.Forall₂ Sentence sts lss

namespace Sentences

variable {text text' : String} {sts sts' : List Stmt} {st : Stmt} {ls : List Lexeme}

theorem blank (h : Lexes Anywhere text []) : Sentences text [] := ⟨[], h, .nil⟩

theorem one (h : Lexes Anywhere text ls) (hst : Sentence st ls) : Sentences text [st] :=
  ⟨[ls], by rwa [List.flatten_singleton], .cons hst .nil⟩

theorem append (h : Sentences text sts) (h' : Sentences text' sts') :
    Sentences (text ++ text') (sts ++ sts') := by
  obtain ⟨lss, hlexes, hall⟩ := h
  obtain ⟨lss', hlexes', hall'⟩ := h'
  exact ⟨lss ++ lss', by rw [List.flatten_append]; exact hlexes.before hlexes', List.rel_append hall hall'⟩

theorem exists_parse (h : Sentences text sts) :
    ∃ program, parse text = .ok program ∧ Stmt.allUnplaced program = sts := by
  obtain ⟨lss, hlexes, hall⟩ := h
  obtain ⟨ts, hts, hls⟩ := tokenize_of_lexed hlexes
  exact parse_of_sentences hts hall hls

end Sentences

def equals (pretty : Bool) : String := if pretty then " = " else "="

theorem toList_equals (pretty : Bool) :
    (equals pretty).toList = (if pretty then [' '] else []) ++ ('=' :: if pretty then [' '] else []) := by
  cases pretty <;> rfl

theorem lexed_space (pretty : Bool) : Lexed P (if pretty then [' '] else []) [] := by
  refine lexed_gap fun c hc => ?_
  cases pretty with
  | false => cases hc
  | true =>
      obtain rfl := List.mem_singleton.1 hc
      rfl

theorem lexes_equals (pretty : Bool) :
    Lexes (fun rest => rest.head? ≠ some '=') (equals pretty) [.operator "="] := by
  rw [Lexes, toList_equals]
  refine (lexed_space pretty).before (lexed_assign.append (lexed_space pretty) fun rest hrest => ?_)
  cases pretty with
  | false => exact hrest
  | true => exact fun hspace => absurd (Option.some.inj hspace) (by decide)

theorem lexes_var (h : DottedName name root parts) :
    Lexes Anywhere (if isRoot name then "var " else "")
      (if parts.isEmpty then [.keyword "var"] else []) := by
  rw [h.isRoot_eq]
  cases parts.isEmpty with
  | false => exact .nil
  | true =>
      have hvar : Lexes Apart "var" [.keyword "var"] := lexed_word _ (by decide) (by decide)
      have hspace : Lexes Anywhere " " [] := lexed_gap (by decide)
      exact hvar.append hspace fun rest _ => apart_cons (by decide) rest

theorem lexes_bind {value : String} {ls : List Lexeme} {c : Char} (h : DottedName name root parts)
    (pretty : Bool) (hvalue : Lexes Anywhere value ls)
    (hhead : value.toList.head? = some c) (hc : c ≠ '=') :
    Lexes Anywhere ((if isRoot name then "var " else "") ++ (name ++ (equals pretty ++ (value ++ ";"))))
      (bindLexemes root parts ls) := by
  have hsemicolon : Lexes Anywhere (value ++ ";") (ls ++ [.mark ';']) :=
    hvalue.before (lexed_mark (by decide))
  have hequals := (lexes_equals pretty).append hsemicolon fun rest _ => by
    cases hvalue : value.toList <;> simp_all
  refine (lexes_var h).before (h.lexes.append hequals fun rest _ => ?_)
  rw [String.toList_append, toList_equals]
  cases pretty with
  | false => exact apart_cons (by decide) _
  | true => exact apart_cons (by decide) _

/-- A namespace as it is declared: what already stands there, or an empty object. -/
def orEmptyText (pretty : Bool) (name : String) : String :=
  if pretty then name ++ " || \x7b\x7d" else name ++ "||\x7b\x7d"

theorem lexes_orEmptyText (h : DottedName name root parts) (pretty : Bool) :
    Lexes Anywhere (orEmptyText pretty name)
      (pathLexemes root parts ++ [.operator "||", .mark '\x7b', .mark '\x7d']) := by
  have hbraces : Lexed Anywhere ['\x7b', '\x7d'] [.mark '\x7b', .mark '\x7d'] :=
    (lexed_mark (by decide)).before (lexed_mark (by decide))
  have hspace := lexed_space (P := Anywhere) pretty
  have htext : (orEmptyText pretty name).toList = name.toList ++ ((if pretty then [' '] else []) ++
      (['|', '|'] ++ ((if pretty then [' '] else []) ++ ['\x7b', '\x7d']))) := by
    cases pretty <;> simp [orEmptyText]
  rw [Lexes, htext]
  refine Lexed.append h.lexes (hspace.before (lexed_or.before (hspace.before hbraces))) fun rest _ => ?_
  cases pretty with
  | false => exact apart_cons (by decide) _
  | true => exact apart_cons (by decide) _

theorem DottedName.exists_head (h : DottedName name root parts) (text : String) :
    ∃ c, (name ++ text).toList.head? = some c ∧ isNameStart c := by
  obtain ⟨c, cs, hroot, hstart, -⟩ := exists_of_isSimpleName (h.simple root List.mem_cons_self)
  exact ⟨c, by rw [String.toList_append, h.text, hroot]; rfl, hstart⟩

theorem declaration_eq (l : Layout) (name : String) :
    declaration l name = ((if isRoot name then "var " else "") ++ (name ++ (equals l.isPretty ++
      (orEmptyText l.isPretty name ++ ";")))) ++ l.line 0 := by
  rw [declaration]
  cases l.isPretty <;> simp [equals, orEmptyText, String.append_assoc]

/-- The declaration of a namespace is a statement that binds no name to a call. -/
theorem sentences_declaration (hs : BlankLayout s) (h : isDottedName name) :
    ∃ st, Sentences (declaration (layoutOf s) name) [st] ∧ ∀ f, binding? f st = none := by
  obtain ⟨root, parts, h⟩ := exists_dottedName h
  refine ⟨_, ?_, fun f => binding?_orEmpty f root parts⟩
  rw [declaration_eq]
  obtain ⟨c, hc, hstart⟩ : ∃ c,
      (orEmptyText (layoutOf s).isPretty name).toList.head? = some c ∧ isNameStart c := by
    unfold orEmptyText
    split
    · exact h.exists_head _
    · exact h.exists_head _
  have hne : c ≠ '=' := by
    rintro rfl
    exact absurd hstart (by decide)
  have hlexes := lexes_bind h (layoutOf s).isPretty (lexes_orEmptyText h _) hc hne
  exact (Sentences.one hlexes (sentence_bind (assigned_orEmpty _ _))).append (.blank (lexes_line hs 0))

theorem sentences_declareEach (hs : BlankLayout s) {names : List String}
    (h : ∀ name ∈ names, isDottedName name) (st : Declared) :
    ∃ text sts, (declareEach (layoutOf s) names st).2.output = st.output ++ text ∧
      Sentences text sts ∧ ∀ f, sts.filterMap (binding? f) = [] := by
  induction names generalizing st with
  | nil => exact ⟨"", [], by simp [declareEach], .blank .nil, fun _ => rfl⟩
  | cons name names ih =>
      obtain ⟨hname, hnames⟩ := List.forall_mem_cons.1 h
      rw [declareEach]
      split
      · exact ih hnames st
      · obtain ⟨one, hone, hnone⟩ := sentences_declaration hs hname
        obtain ⟨text, sts, htext, hsts, hnones⟩ :=
          ih hnames ⟨st.output ++ declaration (layoutOf s) name, st.names ++ [name]⟩
        refine ⟨declaration (layoutOf s) name ++ text, one :: sts, ?_, hone.append hsts, fun f => ?_⟩
        · rw [htext, String.append_assoc]
        · rw [List.filterMap_cons, hnone, hnones]

theorem sentences_declareNamespaces (hs : BlankLayout s) {seen : List String} {grew : Bool}
    {st : Declared} (h : declareNamespaces (layoutOf s) { names := seen } name = (.ok grew, st)) :
    isDottedName name ∧ ∃ sts, Sentences st.output sts ∧ ∀ f, sts.filterMap (binding? f) = [] := by
  unfold declareNamespaces at h
  split at h
  · next hname =>
      obtain ⟨text, sts, htext, hsts⟩ :=
        sentences_declareEach hs (fun head hhead => isDottedName_head hname hhead) { names := seen }
      obtain rfl : (declareEach _ _ _).2 = st := congrArg Prod.snd h
      rw [htext, String.empty_append]
      exact ⟨hname, sts, hsts⟩
  · cases congrArg Prod.fst h

theorem sentences_call (hs : BlankLayout s) (h : isDottedName name) {roots : String} {tree : Option Expr}
    {ls : List Lexeme} (hroots : Lexes Anywhere roots ls) (htree : ListEntry tree ls) :
    ∃ st, Sentences
        ((if isRoot name then "var " else "") ++ name ++ " = duel(" ++ roots ++ ");" ++ line s 0) [st] ∧
      binding? "duel" st = some (name, tree.toList) := by
  obtain ⟨root, parts, h⟩ := exists_dottedName h
  refine ⟨_, ?_, binding?_call h.dotted?_pathExpr⟩
  have htext : (if isRoot name then "var " else "") ++ name ++ " = duel(" ++ roots ++ ");" ++ line s 0 =
      ((if isRoot name then "var " else "") ++
        (name ++ (equals true ++ (("duel" ++ ("(" ++ (roots ++ ")"))) ++ ";")))) ++
        line s 0 := by
    rw [← String.toList_inj]
    simp [equals]
  have hduel : Lexes Apart "duel" [.name "duel"] := lexed_word _ (by decide) (by decide)
  have hargs : Lexes Anywhere ("(" ++ (roots ++ ")")) ([.mark '('] ++ (ls ++ [.mark ')'])) :=
    Lexes.before (lexed_mark (by decide)) (hroots.before (lexed_mark (by decide)))
  have hcall : Lexes Anywhere ("duel" ++ ("(" ++ (roots ++ ")")))
      (.name "duel" :: .mark '(' :: (ls ++ [.mark ')'])) := by
    refine hduel.append hargs fun rest _ => ?_
    rw [String.toList_append]
    exact apart_cons (c := '(') (by decide) _
  have hhead : ("duel" ++ ("(" ++ (roots ++ ")"))).toList.head? = some 'd' := by
    rw [String.toList_append]
    rfl
  rw [htext]
  have hlexes := lexes_bind h true hcall hhead (by decide)
  exact (Sentences.one hlexes (sentence_bind (assigned_call htree))).append
    (.blank (lexes_line hs 0))

end TwinView.Client
