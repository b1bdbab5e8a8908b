import TwinView.Proofs.Client.Names
import TwinView.Proofs.Json.Reading

/-!
Data that is written is read back: as a script by the parser of the binding language, and as JSON. The
induction over the data is the same for both readers, and so is what a layout puts around the items of a
list; it remains to say what each reader makes of a list of texts that it can read.
-/

namespace TwinView.Client

open Text Script

/-- The texts that come back from a format: of scripts, those whose characters are each one code unit. -/
def Format.keeps (format : Format) (value : String) : Bool := format = .json || decide (IsBasicText value)

mutual

/-- The data that comes back from a format: truth values, `null` and texts, in lists and objects, and
`undefined` in scripts. -/
def Data.isKept (format : Format) : Data → Bool
  | .null | .bool _ => true
  | .undefined => format = .script
  | .number _ | .snippet _ => false
  | .text value => format.keeps value
  | .list items => Data.areKept format items
  | .object members => Data.areMembersKept format members

def Data.areKept (format : Format) : List Data → Bool
  | [] => true
  | d :: rest => d.isKept format && Data.areKept format rest

def Data.areMembersKept (format : Format) : List (String × Data) → Bool
  | [] => true
  | (name, d) :: rest => format.keeps name && d.isKept format && Data.areMembersKept format rest

end

mutual

def Data.hasDistinctKeys : Data → Bool
  | .list items => Data.haveDistinctKeys items
  | .object members => decide (members.map (·.1)).Nodup && Data.membersHaveDistinctKeys members
  | _ => true

def Data.haveDistinctKeys : List Data → Bool
  | [] => true
  | d :: rest => d.hasDistinctKeys && Data.haveDistinctKeys rest

def Data.membersHaveDistinctKeys : List (String × Data) → Bool
  | [] => true
  | (_, d) :: rest => d.hasDistinctKeys && Data.membersHaveDistinctKeys rest

end

mutual

/-- The JSON value for the data; numbers are left out, as they may be written with rounding. -/
def Data.json? : Data → Option Json
  | .null => some .null
  | .bool b => some (.bool b)
  | .text value => some (.str value)
  | .list items => (Data.jsonItems? items).map .arr
  | .object members => (Data.jsonMembers? members).map .obj
  | .undefined | .number _ | .snippet _ => none

def Data.jsonItems? : List Data → Option (List Json)
  | [] => some []
  | d :: rest => do return (← d.json?) :: (← Data.jsonItems? rest)

def Data.jsonMembers? : List (String × Data) → Option (List (String × Json))
  | [] => some []
  | (name, d) :: rest => do return (name, ← d.json?) :: (← Data.jsonMembers? rest)

end

def keyText? : PropertyKey → Option String
  | .name s | .text _ s => some s
  | .number _ _ => none

mutual

/-- The data that an expression of literals denotes. -/
def data? : Expr → Option Data
  | .null _ => some .null
  | .name _ s => if s = "undefined" then some .undefined else none
  | .bool _ b => some (.bool b)
  | .number _ x => some (.number x)
  | .text _ s => some (.text s)
  | .array _ items => (dataItems? items).map .list
  | .object _ props => (dataMembers? props).map .object
  | _ => none

def dataItems? : List Expr → Option (List Data)
  | [] => some []
  | e :: rest => do return (← data? e) :: (← dataItems? rest)

def dataMembers? : List (PropertyKey × Expr) → Option (List (String × Data))
  | [] => some []
  | (key, e) :: rest => do return (← keyText? key, ← data? e) :: (← dataMembers? rest)

end

mutual

theorem data?_unplaced : ∀ e : Expr, data? e.unplaced = data? e
  | .name _ _ | .number _ _ | .text _ _ | .bool _ _ | .null _ | .this _ => rfl
  | .parens _ _ | .member _ _ _ | .index _ _ _ | .call _ _ _ | .new _ _ _ | .unary _ _ _ => rfl
  | .typeOf _ _ | .binary _ _ _ _ | .isIn _ _ _ | .instanceOf _ _ _ | .cond _ _ _ _ | .comma _ _ => rfl
  | .function _ ⟨_, _, _, _⟩ => rfl
  | .array _ items => by rw [Expr.unplaced, data?, data?, dataItems?_unplaced items]
  | .object _ props => by rw [Expr.unplaced, data?, data?, dataMembers?_unplaced props]

theorem dataItems?_unplaced : ∀ es : List Expr, dataItems? (Expr.allUnplaced es) = dataItems? es
  | [] => rfl
  | e :: rest => by rw [Expr.allUnplaced, dataItems?, dataItems?, data?_unplaced e, dataItems?_unplaced rest]

theorem dataMembers?_unplaced : ∀ props : List (PropertyKey × Expr),
    dataMembers? (propsUnplaced props) = dataMembers? props
  | [] => rfl
  | (key, e) :: rest => by
      have hkey : keyText? key.unplaced = keyText? key := by cases key <;> rfl
      rw [propsUnplaced, dataMembers?, dataMembers?, hkey, data?_unplaced e, dataMembers?_unplaced rest]

end

variable {l : Layout} {p : Char → Bool} {name first : String} {written : List String} {ls : List Lexeme}
  {lss : List (List Lexeme)}

/-- Between the brackets stand the items, with commas between them and blanks in front of each and behind
the last one. -/
theorem enclose_cons (h : l.IsMadeOf p) (hspace : p ' ') (depth : Nat) (left right first : String)
    (written : List String) : ∃ gap gap' : String, (∀ c ∈ gap.toList, p c) ∧ (∀ c ∈ gap'.toList, p c) ∧
      enclose l depth left right (first :: written) =
        left ++ (",".intercalate ((first :: written).map (gap ++ ·)) ++ (gap' ++ right)) := by
  cases hpretty : l.isPretty with
  | false =>
      refine ⟨"", "", by simp, by simp, ?_⟩
      cases written <;> simp [enclose, hpretty, String.append_assoc]
  | true =>
      cases written with
      | nil =>
          refine ⟨" ", " ", by simpa using hspace, by simpa using hspace, ?_⟩
          simp [enclose, hpretty, String.append_assoc]
      | cons second written =>
          refine ⟨l.line (depth + 1), l.line depth, h.line _, h.line _, ?_⟩
          simp [enclose, hpretty, String.append_assoc]

section

variable {format : Format} {Reads : Data → String → Prop}

/-- The text is a key, a colon and a text that is read as the value. -/
def ReadsMember (l : Layout) (format : Format) (Reads : Data → String → Prop) (m : String × Data)
    (text : String) : Prop :=
  format.keeps m.1 ∧ ∃ value, Reads m.2 value ∧
    text = propertyName format m.1 ++ (if l.isPretty then ": " else ":") ++ value

/-- A reader that takes the texts of lists and objects for what they are, if it does so for the texts that
they are made up of. -/
structure Reader (l : Layout) (format : Format) (Reads : Data → String → Prop) : Prop where
  null : Reads .null "null"
  undefined : format = .script → Reads .undefined "undefined"
  bool : ∀ b, Reads (.bool b) (if b then "true" else "false")
  text : ∀ value, format.keeps value → Reads (.text value) (quoted format value)
  list : ∀ depth items written, List.Forall₂ Reads items written →
    Reads (.list items) (enclose l depth "[" "]" written)
  object : ∀ depth members written, List.Forall₂ (ReadsMember l format Reads) members written →
    Reads (.object members) (enclose l depth "\x7b" "\x7d" written)

mutual

theorem Reader.write (r : Reader l format Reads) :
    ∀ (depth : Nat) (d : Data), d.isKept format → Reads d (d.write l format depth)
  | _, .null, _ => r.null
  | _, .undefined, h => r.undefined (of_decide_eq_true h)
  | _, .bool b, _ => r.bool b
  | _, .text value, h => r.text value h
  | _, .number _, h => nomatch h
  | _, .snippet _, h => nomatch h
  | depth, .list items, h => r.list depth items _ (r.writeItems (depth + 1) items h)
  | depth, .object members, h => r.object depth members _ (r.writeMembers (depth + 1) members h)

theorem Reader.writeItems (r : Reader l format Reads) :
    ∀ (depth : Nat) (items : List Data), Data.areKept format items →
      List.Forall₂ Reads items (Data.writeItems l format depth items)
  | _, [], _ => .nil
  | depth, d :: rest, h =>
      have h := Bool.and_eq_true_iff.1 h
      .cons (r.write depth d h.1) (r.writeItems depth rest h.2)

theorem Reader.writeMembers (r : Reader l format Reads) :
    ∀ (depth : Nat) (members : List (String × Data)), Data.areMembersKept format members →
      List.Forall₂ (ReadsMember l format Reads) members (Data.writeMembers l format depth members)
  | _, [], _ => .nil
  | depth, (_, d) :: rest, h =>
      have h := Bool.and_eq_true_iff.1 h
      have hfirst := Bool.and_eq_true_iff.1 h.1
      .cons ⟨hfirst.1, _, r.write depth d hfirst.2, rfl⟩ (r.writeMembers depth rest h.2)

end

end

theorem lexes_enclose (h : l.IsMadeOf isGap) (depth : Nat) {c d : Char} (hc : c ∈ marks) (hd : d ∈ marks)
    (hfirst : Lexes Apart first ls) (hwritten : List.Forall₂ (Lexes Apart) written lss) :
    Lexes Anywhere (enclose l depth (String.singleton c) (String.singleton d) (first :: written))
      (.mark c :: (ls ++ (further lss ++ [.mark d]))) := by
  obtain ⟨gap, gap', hgap, hgap', henclose⟩ := enclose_cons h (by decide) depth (String.singleton c)
    (String.singleton d) first written
  rw [henclose]
  exact lexes_bracketed hc hd hgap hgap' hfirst hwritten

theorem isBasicText_of_keeps {value : String} (h : Format.script.keeps value) : IsBasicText value :=
  of_decide_eq_true h

theorem lexes_propertyName (h : Format.script.keeps name) : ∃ lexeme key,
    Lexes Apart (propertyName .script name) [lexeme] ∧ IsKeyLexeme key lexeme ∧ keyText? key = some name := by
  unfold propertyName
  simp only [decide_true, Bool.true_and]
  split
  · next hname => exact ⟨_, _, lexes_simpleName hname, isKeyLexeme_name name, rfl⟩
  · exact ⟨_, _, (lexed_stringLiteral (isBasicText_of_keeps h)).anywhere, isKeyLexeme_text name, rfl⟩

/-- A text whose lexemes are parsed as an expression that denotes the data. -/
def IsScriptOf (d : Data) (text : String) : Prop :=
  ∃ e ls, Lexes Apart text ls ∧ Operand e ls ∧ data? e = some d

theorem exists_operands {items : List Data} (h : List.Forall₂ IsScriptOf items written) : ∃ es lss,
    List.Forall₂ (Lexes Apart) written lss ∧ List.Forall₂ Operand es lss ∧ dataItems? es = some items := by
  induction h with
  | nil => exact ⟨[], [], .nil, .nil, rfl⟩
  | cons hfirst _ ih =>
      obtain ⟨e, ls, hlexes, hoperand, hdata⟩ := hfirst
      obtain ⟨es, lss, hlexes', hoperands, hdata'⟩ := ih
      exact ⟨e :: es, ls :: lss, .cons hlexes hlexes', .cons hoperand hoperands, by simp [dataItems?, hdata, hdata']⟩

theorem lexes_colon (l : Layout) : Lexes Anywhere (if l.isPretty then ": " else ":") [.mark ':'] := by
  have hcolon : Lexes Anywhere ":" [.mark ':'] := lexed_mark (by decide)
  have hgap : Lexed Anywhere [' '] [] := lexed_gap (by decide)
  split
  · exact Lexed.before hcolon hgap
  · exact hcolon

theorem exists_entry {m : String × Data} {text : String} (h : ReadsMember l .script IsScriptOf m text) :
    ∃ p ls, Lexes Apart text ls ∧ IsEntry p ls ∧ keyText? p.1 = some m.1 ∧ data? p.2 = some m.2 := by
  obtain ⟨hkey, value, ⟨e, ls, hlexes, hoperand, hdata⟩, rfl⟩ := h
  obtain ⟨lexeme, key, hname, hlexeme, htext⟩ := lexes_propertyName hkey
  refine ⟨(key, e), _, ?_, ⟨lexeme, ls, rfl, hlexeme, hoperand⟩, htext, hdata⟩
  refine (hname.append (lexes_colon l) fun rest _ => ?_).before hlexes
  split <;> exact apart_cons (c := ':') (by decide) _

theorem exists_entries {members : List (String × Data)}
    (h : List.Forall₂ (ReadsMember l .script IsScriptOf) members written) : ∃ ps lss,
      List.Forall₂ (Lexes Apart) written lss ∧ List.Forall₂ IsEntry ps lss ∧ dataMembers? ps = some members := by
  induction h with
  | nil => exact ⟨[], [], .nil, .nil, rfl⟩
  | cons hfirst _ ih =>
      obtain ⟨p, ls, hlexes, hentry, htext, hdata⟩ := exists_entry hfirst
      obtain ⟨ps, lss, hlexes', hentries, hdata'⟩ := ih
      exact ⟨p :: ps, ls :: lss, .cons hlexes hlexes', .cons hentry hentries,
        by simp [dataMembers?, htext, hdata, hdata']⟩

theorem reader_script (h : l.IsMadeOf isGap) : Reader l .script IsScriptOf where
  null := ⟨_, _, lexed_word "null" (by decide) (by decide), operand_null, rfl⟩
  undefined _ := ⟨_, _, lexed_word "undefined" (by decide) (by decide), operand_name _, rfl⟩
  bool b := by
    cases b with
    | false => exact ⟨_, _, lexed_word "false" (by decide) (by decide), operand_false, rfl⟩
    | true => exact ⟨_, _, lexed_word "true" (by decide) (by decide), operand_true, rfl⟩
  text value hvalue :=
    ⟨_, _, (lexed_stringLiteral (isBasicText_of_keeps hvalue)).anywhere, operand_text value, rfl⟩
  list depth items written hitems := by
    obtain ⟨es, lss, hlexes, hoperands, hdata⟩ := exists_operands hitems
    cases hlexes with
    | nil =>
        cases hoperands
        cases hdata
        have hopen : Lexes Anywhere "[" [.mark '['] := lexed_mark (by decide)
        have hclose : Lexes Anywhere "]" [.mark ']'] := lexed_mark (by decide)
        exact ⟨_, _, (hopen.before hclose).anywhere, operand_emptyArray, rfl⟩
    | cons hfirst hmore =>
        cases hoperands with
        | cons hoperand hoperands =>
            exact ⟨_, _, (lexes_enclose h depth (c := '[') (d := ']') (by decide) (by decide) hfirst hmore).anywhere,
              operand_array hoperand hoperands, by rw [data?, hdata]; rfl⟩
  object depth members written hmembers := by
    obtain ⟨ps, lss, hlexes, hentries, hdata⟩ := exists_entries hmembers
    cases hlexes with
    | nil =>
        cases hentries
        cases hdata
        have hopen : Lexes Anywhere "\x7b" [.mark '\x7b'] := lexed_mark (by decide)
        have hclose : Lexes Anywhere "\x7d" [.mark '\x7d'] := lexed_mark (by decide)
        exact ⟨_, _, (hopen.before hclose).anywhere, operand_emptyObject, rfl⟩
    | cons hfirst hmore =>
        cases hentries with
        | cons hentry hentries =>
            exact ⟨_, _, (lexes_enclose h depth (c := '\x7b') (d := '\x7d') (by decide) (by decide) hfirst
              hmore).anywhere, operand_entries hentry hentries, by rw [data?, hdata]; rfl⟩

theorem parse_script {d : Data} {text : String} (h : IsScriptOf d text) :
    ∃ i j e, parse ("(" ++ text ++ ")") = .ok [.expr i (.parens j e)] ∧ data? e = some d := by
  obtain ⟨e, ls, hlexes, hoperand, hdata⟩ := h
  have hopen : Lexes Anywhere "(" [.mark '('] := lexed_mark (by decide)
  have hclose : Lexes Anywhere ")" [.mark ')'] := lexed_mark (by decide)
  have hall := hopen.before (hlexes.append hclose fun rest _ => apart_cons (c := ')') (by decide) rest)
  obtain ⟨ts, hts, hlexemes⟩ := tokenize_of_lexed hall
  rw [← String.append_assoc] at hts
  obtain ⟨i, j, e', hparse, rfl⟩ := parse_parens hoperand hts hlexemes
  exact ⟨i, j, e', hparse, (data?_unplaced e').symm.trans hdata⟩

/-- Each character of a text is read back from how it is written. -/
theorem readsChar_escapeChar (c : Char) : Json.ReadsChar (escapeChar .json c) c := by
  obtain ⟨hprintable, hquote, hslash, hescape⟩ | ⟨k, hk, hescape⟩ | ⟨-, hescape⟩ := escapeChar_spec .json c
  · rw [hescape]
    simp only [isPrintable, Bool.and_eq_true, decide_eq_true_eq] at hprintable
    exact Json.readsChar_plain hquote hslash hprintable.1
  · have hletters : ∀ p ∈ shortEscapes .json, ∀ rest, Json.readEscape (p.1 :: rest) = some (some p.2, rest) := by
      simp [shortEscapes, Format.quote, Json.readEscape]
    rw [hescape]
    exact Json.readsChar_escape (hletters _ hk)
  · obtain ⟨es, hunits, hread⟩ := Json.readEscape_unitEscapes c
    rw [hescape, hunits]
    exact Json.readsChar_escape hread

theorem toList_intercalate (gap first : String) (written : List String) :
    (",".intercalate ((first :: written).map (gap ++ ·))).toList = gap.toList ++ (first.toList ++
      (written.map (·.toList)).flatMap fun text => ',' :: (gap.toList ++ text)) := by
  induction written generalizing first with
  | nil => simp
  | cons second written ih =>
      have hmore := ih second
      rw [List.map_cons] at hmore ⊢
      rw [List.map_cons, String.intercalate_cons_cons, String.toList_append, String.toList_append, hmore]
      simp

/-- A text that spells the JSON value for the data. -/
def IsJsonOf (d : Data) (text : String) : Prop := ∃ j, d.json? = some j ∧ Json.Spells text.toList j

theorem toList_enclose (h : l.IsMadeOf Json.isJsonSpace) (depth : Nat) (c d : Char) (first : String)
    (written : List String) : ∃ gap gap', Json.IsSpaces gap ∧ Json.IsSpaces gap' ∧
      (enclose l depth (String.singleton c) (String.singleton d) (first :: written)).toList =
        c :: (gap ++ (first.toList ++
          ((written.map (·.toList)).flatMap (fun text => ',' :: (gap ++ text)) ++ (gap' ++ [d])))) := by
  obtain ⟨gap, gap', hgap, hgap', henclose⟩ := enclose_cons h (by decide) depth (String.singleton c)
    (String.singleton d) first written
  refine ⟨gap.toList, gap'.toList, hgap, hgap', ?_⟩
  rw [henclose, String.toList_append, String.toList_append, toList_intercalate]
  simp

theorem exists_items {items : List Data} (h : List.Forall₂ IsJsonOf items written) : ∃ js,
    Data.jsonItems? items = some js ∧ List.Forall₂ Json.Spells (written.map (·.toList)) js := by
  induction h with
  | nil => exact ⟨[], rfl, .nil⟩
  | cons hfirst _ ih =>
      obtain ⟨j, hj, hspells⟩ := hfirst
      obtain ⟨js, hjs, hmore⟩ := ih
      exact ⟨j :: js, by simp [Data.jsonItems?, hj, hjs], .cons hspells hmore⟩

theorem toList_member (pretty : Bool) (key value : String) :
    (propertyName .json key ++ (if pretty then ": " else ":") ++ value).toList =
      Json.memberText (escapeChar .json) key (if pretty then [' '] else []) value.toList := by
  cases pretty <;> simp [propertyName, toList_quoted, Json.memberText, Format.quote]

theorem exists_members {members : List (String × Data)}
    (h : List.Forall₂ (ReadsMember l .json IsJsonOf) members written) : ∃ ms,
      Data.jsonMembers? members = some ms ∧
      List.Forall₂ (Json.SpellsOne Json.readMembers '\x7d' some) (written.map (·.toList)) ms ∧
        ∀ text ∈ written, text.toList.head? = some '"' := by
  induction h with
  | nil => exact ⟨[], rfl, .nil, by simp⟩
  | @cons m _ _ _ hfirst _ ih =>
      obtain ⟨-, value, ⟨j, hj, hspells⟩, rfl⟩ := hfirst
      obtain ⟨ms, hms, hmore, hheads⟩ := ih
      have hgap : Json.IsSpaces (if l.isPretty then [' '] else []) := by
        split <;> simp [Json.IsSpaces, Json.isJsonSpace]
      have hmember := hspells.member readsChar_escapeChar (escapeChar_ne_nil _) m.1 hgap
      rw [← toList_member] at hmember
      refine ⟨(m.1, j) :: ms, by simp [Data.jsonMembers?, hj, hms], .cons hmember hmore, ?_⟩
      exact List.forall_mem_cons.2 ⟨by rw [toList_member]; rfl, hheads⟩

theorem reader_json (h : l.IsMadeOf Json.isJsonSpace) : Reader l .json IsJsonOf where
  null := ⟨.null, rfl, Json.spells_null⟩
  undefined h := nomatch h
  bool b := by
    cases b with
    | false => exact ⟨.bool false, rfl, Json.spells_false⟩
    | true => exact ⟨.bool true, rfl, Json.spells_true⟩
  text value _ := by
    have hspells := Json.spells_string readsChar_escapeChar (escapeChar_ne_nil _) value.toList
    rw [String.ofList_toList] at hspells
    exact ⟨.str value, rfl, toList_quoted .json value ▸ hspells⟩
  list depth items written hitems := by
    obtain ⟨js, hjs, hspells⟩ := exists_items hitems
    cases written with
    | nil =>
        cases hspells
        have htext : (enclose l depth "[" "]" []).toList = ['[', ']'] := by simp [enclose]
        exact ⟨.arr [], by rw [Data.json?, hjs]; rfl, htext ▸ Json.spells_emptyList⟩
    | cons first written =>
        obtain ⟨gap, gap', hgap, hgap', htext⟩ := toList_enclose h depth '[' ']' first written
        cases hspells with
        | cons hfirst hmore =>
            exact ⟨_, by rw [Data.json?, hjs]; rfl, htext ▸ Json.spells_list hgap hgap' hfirst hmore⟩
  object depth members written hmembers := by
    obtain ⟨ms, hms, hspells, hheads⟩ := exists_members hmembers
    cases written with
    | nil =>
        cases hspells
        have htext : (enclose l depth "\x7b" "\x7d" []).toList = ['\x7b', '\x7d'] := by simp [enclose]
        exact ⟨.obj [], by rw [Data.json?, hms]; rfl, htext ▸ Json.spells_emptyObject⟩
    | cons first written =>
        obtain ⟨gap, gap', hgap, hgap', htext⟩ := toList_enclose h depth '\x7b' '\x7d' first written
        cases hspells with
        | cons hfirst hmore =>
            have hopen := hheads first List.mem_cons_self
            exact ⟨_, by rw [Data.json?, hms]; rfl, htext ▸ Json.spells_object hgap hgap' hfirst hopen hmore⟩

mutual

theorem ofJson_of_json? : ∀ {d : Data} {j : Json}, d.json? = some j → Data.ofJson j = d
  | .null, _, h => by cases h; rfl
  | .bool _, _, h => by cases h; rfl
  | .text _, _, h => by cases h; rfl
  | .list items, _, h => by
      obtain ⟨js, hjs, rfl⟩ := Option.map_eq_some_iff.1 h
      rw [Data.ofJson, ofItems_of_jsonItems? hjs]
  | .object members, _, h => by
      obtain ⟨ms, hms, rfl⟩ := Option.map_eq_some_iff.1 h
      rw [Data.ofJson, ofMembers_of_jsonMembers? hms]

theorem ofItems_of_jsonItems? : ∀ {items : List Data} {js : List Json},
    Data.jsonItems? items = some js → Data.ofItems js = items
  | [], _, h => by cases h; rfl
  | d :: rest, _, h => by
      obtain ⟨j, hj, h⟩ := Option.bind_eq_some_iff.1 h
      obtain ⟨js, hjs, h⟩ := Option.bind_eq_some_iff.1 h
      cases h
      rw [Data.ofItems, ofJson_of_json? hj, ofItems_of_jsonItems? hjs]

theorem ofMembers_of_jsonMembers? : ∀ {members : List (String × Data)} {ms : List (String × Json)},
    Data.jsonMembers? members = some ms → Data.ofMembers ms = members
  | [], _, h => by cases h; rfl
  | (name, d) :: rest, _, h => by
      obtain ⟨j, hj, h⟩ := Option.bind_eq_some_iff.1 h
      obtain ⟨ms, hms, h⟩ := Option.bind_eq_some_iff.1 h
      cases h
      rw [Data.ofMembers, ofJson_of_json? hj, ofMembers_of_jsonMembers? hms]

end

mutual

theorem settle_of_json? : ∀ {d : Data} {j : Json}, d.hasDistinctKeys → d.json? = some j → j.settle = j
  | .null, _, _, h => by cases h; rfl
  | .bool _, _, _, h => by cases h; rfl
  | .text _, _, _, h => by cases h; rfl
  | .list items, _, hkeys, h => by
      obtain ⟨js, hjs, rfl⟩ := Option.map_eq_some_iff.1 h
      rw [Json.settle, settleAll_of_jsonItems? hkeys hjs]
  | .object members, _, hkeys, h => by
      obtain ⟨hdistinct, hkeys⟩ := Bool.and_eq_true_iff.1 hkeys
      obtain ⟨ms, hms, rfl⟩ := Option.map_eq_some_iff.1 h
      obtain ⟨hsettle, hnames⟩ := settleMembers_of_jsonMembers? hkeys hms
      have hnodup : (ms.map (·.1)).Nodup := hnames ▸ of_decide_eq_true hdistinct
      rw [Json.settle, hsettle, Json.foldl_put hnodup]

theorem settleAll_of_jsonItems? : ∀ {items : List Data} {js : List Json},
    Data.haveDistinctKeys items → Data.jsonItems? items = some js → Json.settleAll js = js
  | [], _, _, h => by cases h; rfl
  | d :: rest, _, hkeys, h => by
      obtain ⟨hfirst, hmore⟩ := Bool.and_eq_true_iff.1 hkeys
      obtain ⟨j, hj, h⟩ := Option.bind_eq_some_iff.1 h
      obtain ⟨js, hjs, h⟩ := Option.bind_eq_some_iff.1 h
      cases h
      rw [Json.settleAll, settle_of_json? hfirst hj, settleAll_of_jsonItems? hmore hjs]

theorem settleMembers_of_jsonMembers? : ∀ {members : List (String × Data)} {ms : List (String × Json)},
    Data.membersHaveDistinctKeys members → Data.jsonMembers? members = some ms →
      Json.settleMembers ms = ms ∧ ms.map (·.1) = members.map (·.1)
  | [], _, _, h => by cases h; exact ⟨rfl, rfl⟩
  | (name, d) :: rest, _, hkeys, h => by
      obtain ⟨hfirst, hmore⟩ := Bool.and_eq_true_iff.1 hkeys
      obtain ⟨j, hj, h⟩ := Option.bind_eq_some_iff.1 h
      obtain ⟨ms, hms, h⟩ := Option.bind_eq_some_iff.1 h
      cases h
      obtain ⟨hsettle, hnames⟩ := settleMembers_of_jsonMembers? hmore hms
      exact ⟨by rw [Json.settleMembers, settle_of_json? hfirst hj, hsettle], by rw [List.map_cons, hnames]; rfl⟩

end

/-- Written data is read back, in any layout of blanks and at any depth: as a script in parentheses by the
parser of the binding language, and as JSON by a reader of JSON, whether or not it settles repeated keys. -/
theorem write_read_back (l : Layout) (depth : Nat) (d : Data) :
    (l.IsMadeOf isGap → d.isKept .script →
      ∃ i j e, parse ("(" ++ d.write l .script depth ++ ")") = .ok [.expr i (.parens j e)] ∧
        data? e = some d) ∧
    (l.IsMadeOf Json.isJsonSpace → d.isKept .json →
      ∃ j, Json.parse (d.write l .json depth) = some j ∧ d.json? = some j ∧ Data.ofJson j = d ∧
        (d.hasDistinctKeys → j.settle = j)) := by
  refine ⟨fun hl hd => parse_script ((reader_script hl).write depth d hd), fun hl hd => ?_⟩
  obtain ⟨j, hj, hspells⟩ := (reader_json hl).write depth d hd
  exact ⟨j, Json.parse_of_spells hspells, hj, ofJson_of_json? hj, fun hkeys => settle_of_json? hkeys hj⟩

def nested : Data := .object [
  ("a", .null), ("b c", .list [.text "it's é"]), ("d", .object [("if", .bool true)])]

theorem write_read_back_nested :
    (∃ i j e, parse
        "(\x7b\n  a: null,\n  'b c': [ 'it\\'s \\u00E9' ],\n  d: \x7b 'if': true \x7d\n\x7d)" =
          .ok [.expr i (.parens j e)] ∧ data? e = some nested) ∧
      ∃ j, Json.parse
        "\x7b\n  \"a\": null,\n  \"b c\": [ \"it's \\u00E9\" ],\n  \"d\": \x7b \"if\": true \x7d\n\x7d" =
          some j ∧ nested.json? = some j ∧ Data.ofJson j = nested ∧ j.settle = j := by
  have hscript : "(" ++ nested.write ⟨"\n", "  "⟩ .script 0 ++ ")" =
      "(\x7b\n  a: null,\n  'b c': [ 'it\\'s \\u00E9' ],\n  d: \x7b 'if': true \x7d\n\x7d)" := by decide
  have hjson : nested.write ⟨"\n", "  "⟩ .json 0 =
      "\x7b\n  \"a\": null,\n  \"b c\": [ \"it's \\u00E9\" ],\n  \"d\": \x7b \"if\": true \x7d\n\x7d" := by
    decide
  obtain ⟨hread, hread'⟩ := write_read_back ⟨"\n", "  "⟩ 0 nested
  obtain ⟨j, hparse, hj, hback, hsettle⟩ := hread' (by decide) (by decide)
  exact ⟨hscript ▸ hread (by decide) (by decide), j, hjson ▸ hparse, hj, hback, hsettle (by decide)⟩

end TwinView.Client
