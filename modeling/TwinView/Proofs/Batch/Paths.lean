import Mathlib.Data.List.Basic
import TwinView.Batch.Outputs
import TwinView.Proofs.Script.Tiling
import TwinView.Proofs.Text.Breaks
import TwinView.Proofs.Text.Pieces

/-!
Where generated files lie. The path of a generated file leads into the directory of its side and from
there only down, so that it stays inside any output directory. It is otherwise if the name of the file
starts with a dot or a slash: the path is absolute then, and leaves the output directory.
-/

namespace TwinView

open Text

namespace Path

variable {p q : Path} {s : String} {front back : List (List Char)} {before rest : List Step}

theorem Step.ofPiece_of_notMem {piece : List Char} (h : '.' ∉ piece) :
    Step.ofPiece piece = if piece = [] then .here else .name (String.ofList piece) := by
  have hdot : piece ≠ ['.'] := fun heq => h (by simp [heq])
  have hdots : piece ≠ ['.', '.'] := fun heq => h (by simp [heq])
  simp [Step.ofPiece, hdot, hdots]

theorem join_of_isAbsolute (p : Path) (h : q.isAbsolute) : p.join q = q := by
  rw [join, h, Bool.true_or, if_pos rfl]

/-- The steps that pieces spell. An empty piece in front stands for the root. -/
def stepsOf : List (List Char) → List Step
  | [] :: rest => .root :: rest.map Step.ofPiece
  | pieces => pieces.map Step.ofPiece

theorem stepsOf_append (h : front ≠ []) :
    stepsOf (front ++ back) = stepsOf front ++ back.map Step.ofPiece := by
  match front, h with
  | [] :: rest, _ => simp [stepsOf]
  | (c :: piece) :: rest, _ => simp [stepsOf]

theorem isAbsolute_iff {piece : List Char} (h : p.pieces = piece :: back) :
    p.isAbsolute ↔ piece = [] ∧ back ≠ [] := by
  have htext : p.text.toList = piece ++ back.flatMap ('/' :: ·) := eq_of_splitAt h
  have hslash : '/' ∉ piece := (of_mem_splitAt (h ▸ List.mem_cons_self)).1
  rw [isAbsolute, htext]
  match piece, back with
  | [], [] => simp
  | [], _ :: _ => simp
  | c :: piece, back => simpa using fun hc => hslash (by rw [hc]; exact List.mem_cons_self)

theorem steps_eq (h : p.text ≠ "") : p.steps = stepsOf p.pieces := by
  obtain ⟨piece, pieces, hpieces⟩ := exists_splitAt '/' p.text.toList
  have habsolute := isAbsolute_iff hpieces
  have htext : p.text.toList = piece ++ pieces.flatMap ('/' :: ·) := eq_of_splitAt hpieces
  have hpieces : p.pieces = piece :: pieces := hpieces
  rw [steps, if_neg h, hpieces]
  cases piece with
  | nil =>
      have hne : pieces ≠ [] := by
        rintro rfl
        exact h (String.toList_inj.1 htext)
      rw [if_pos (habsolute.2 ⟨rfl, hne⟩)]
      rfl
  | cons c piece =>
      rw [if_neg fun ha => List.cons_ne_nil _ _ (habsolute.1 ha).1]
      rfl

def partsOf : List Step → List Step
  | [] => []
  | first :: rest => first :: rest.filter (· ≠ .here)

theorem parts_eq (p : Path) : p.parts = partsOf p.steps := rfl

theorem partsOf_append (h : before ≠ []) :
    partsOf (before ++ rest) = partsOf before ++ rest.filter (· ≠ .here) := by
  cases before with
  | nil => exact absurd rfl h
  | cons step before => simp [partsOf]

theorem of_steps_eq (h : q.steps = .name s :: rest) :
    q.isAbsolute = false ∧ q.text ≠ "" ∧ q.pieces.map Step.ofPiece = .name s :: rest := by
  have htext : q.text ≠ "" := by
    intro htext
    simp [steps, htext] at h
  rw [steps, if_neg htext] at h
  cases habsolute : q.isAbsolute with
  | true => simp [habsolute] at h
  | false => exact ⟨rfl, htext, by simpa [habsolute] using h⟩

theorem pieces_slash (before after : String) :
    (Path.mk (before ++ "/" ++ after)).pieces = (Path.mk before).pieces ++ (Path.mk after).pieces := by
  simpa [pieces] using splitAt_append '/' before.toList after.toList

theorem exists_join (hp : p.text ≠ "") :
    ∃ before, (p.text = before ∨ p.text = before ++ "/" ++ "") ∧
      ∀ q : Path, q.isAbsolute = false → p.join q = ⟨before ++ "/" ++ q.text⟩ := by
  by_cases hslash : p.text.toList.getLast? = some '/'
  · obtain ⟨before, hbefore⟩ := List.getLast?_eq_some_iff.1 hslash
    have htext : p.text = String.ofList before ++ "/" := String.toList_inj.1 (by simp [hbefore])
    refine ⟨String.ofList before, .inr (by simpa using htext), fun q hq => ?_⟩
    rw [join, hq, Bool.false_or, if_neg (by simpa using hp), if_pos hslash, htext]
  · refine ⟨p.text, .inl rfl, fun q hq => ?_⟩
    rw [join, hq, Bool.false_or, if_neg (by simpa using hp), if_neg hslash]

/-- A path that starts with a name goes on where the other one ends. -/
theorem steps_join (p : Path) :
    ∃ front, (p.steps = front ∨ front ≠ [] ∧ p.steps = front ++ [.here]) ∧
      ∀ {q : Path} {s : String} {rest : List Step}, q.steps = .name s :: rest →
        (p.join q).steps = front ++ q.steps := by
  by_cases hp : p.text = ""
  · exact ⟨[], .inl (by simp [steps, hp]), fun {q s rest} _ => by simp [join, hp]⟩
  · obtain ⟨before, hcases, hjoin⟩ := exists_join hp
    obtain ⟨piece, behind, hbefore⟩ : ∃ piece behind, (Path.mk before).pieces = piece :: behind :=
      exists_splitAt '/' before.toList
    have hne : (Path.mk before).pieces ≠ [] := hbefore ▸ List.cons_ne_nil _ _
    refine ⟨stepsOf (Path.mk before).pieces, ?_, fun hq => ?_⟩
    · rw [steps_eq hp]
      obtain h | h := hcases
      · exact .inl (by rw [pieces, h]; rfl)
      · right
        constructor
        · rw [hbefore]
          cases piece <;> simp [stepsOf]
        · have hslash := pieces_slash before ""
          rw [← h] at hslash
          exact hslash ▸ stepsOf_append hne
    · obtain ⟨habsolute, htext, hpieces⟩ := of_steps_eq hq
      rw [hjoin _ habsolute, steps_eq (by simp), pieces_slash, stepsOf_append hne, hpieces, hq]

theorem parts_join (p : Path) (hq : q.steps = .name s :: rest) : (p.join q).parts = p.parts ++ q.parts := by
  obtain ⟨front, hp, hjoin⟩ := steps_join p
  have hparts : q.steps.filter (· ≠ .here) = partsOf q.steps := by
    rw [hq, List.filter_cons_of_pos (by simp)]
    rfl
  rw [parts_eq, parts_eq, parts_eq, hjoin hq]
  cases front with
  | nil =>
      obtain h | ⟨h, _⟩ := hp
      · rw [h]
        rfl
      · exact absurd rfl h
  | cons step front =>
      rw [partsOf_append (List.cons_ne_nil _ _), hparts]
      obtain h | ⟨-, h⟩ := hp
      · rw [h]
      · rw [h, partsOf_append (List.cons_ne_nil _ _), List.filter_cons_of_neg (by simp)]
        simp

end Path

/-- The part of the generated program to which a file belongs. -/
inductive Side
  | client
  | server
deriving DecidableEq, Repr

namespace Side

def directory : Side → String
  | client => "client"
  | server => "server"

def extension : Side → String
  | client => ".js"
  | server => ".java"

end Side

/-- A file to generate, by the name that its path is made of. -/
structure Target where
  side : Side
  name : String
deriving DecidableEq, Repr

/-- The two characters between which the steps of a path stand in a name. -/
def separates (c : Char) : Bool := c = '.' || c = '/'

def isRooted (name : String) : Bool := name.toList.head?.any separates

namespace Target

def path (t : Target) : Path :=
  (Path.mk t.side.directory).join ⟨Settings.pathOf t.name t.side.extension⟩

def segments (t : Target) : List (List Char) := splitAt '/' (replaced '.' ['/'] t.name.toList)

def folders (t : Target) : List (List Char) := t.segments.dropLast

def stem (t : Target) : List Char := t.segments.getLastD []

def file (t : Target) : Path.Step := .name (String.ofList (t.stem ++ t.side.extension.toList))

end Target

def Settings.clientFileName (s : Settings) (view : String) : String :=
  if s.lowercaseClientPaths then lowercase (s.clientName view) else s.clientName view

def targets (s : Settings) : List View → List Target
  | [] => []
  | first :: rest =>
    let views := first :: rest
    (if views.all (·.serverOnly) then [] else [⟨.client, s.clientFileName first.name⟩]) ++
      (views.filter (!·.clientOnly)).map fun v => ⟨.server, s.serverName v.name⟩

namespace Target

variable {t : Target}

theorem segments_eq (t : Target) : t.segments = t.folders ++ [t.stem] := by
  obtain ⟨piece, pieces, h⟩ := exists_splitAt '/' (replaced '.' ['/'] t.name.toList)
  have hne : t.segments ≠ [] := by simp [segments, h]
  rw [folders, stem, List.getLastD_eq_getLast?, List.getLast?_eq_some_getLast hne]
  exact (List.dropLast_concat_getLast hne).symm

theorem of_mem_segments {piece : List Char} (h : piece ∈ t.segments) : '/' ∉ piece ∧ '.' ∉ piece := by
  obtain ⟨hslash, hsubset⟩ := of_mem_splitAt h
  refine ⟨hslash, fun hdot => ?_⟩
  obtain ⟨-, hne⟩ | ⟨-, hdot⟩ := mem_replaced.1 (hsubset hdot)
  · exact hne rfl
  · simp at hdot

theorem toList_pathOf (name : String) (side : Side) :
    (Settings.pathOf name side.extension).toList = replaced '.' ['/'] name.toList ++ side.extension.toList := by
  rw [Settings.pathOf, String.toList_append, toList_replaceChar]
  rfl

theorem pieces_pathOf (t : Target) :
    (Path.mk (Settings.pathOf t.name t.side.extension)).pieces =
      t.folders ++ [t.stem ++ t.side.extension.toList] := by
  have hextension : '/' ∉ t.side.extension.toList := by
    cases t.side <;> decide
  rw [Path.pieces, toList_pathOf]
  exact splitAt_append_tail t.segments_eq hextension

theorem ofPiece_file (t : Target) : Path.Step.ofPiece (t.stem ++ t.side.extension.toList) = t.file := by
  have hlength : 2 < (t.stem ++ t.side.extension.toList).length := by
    rw [List.length_append]
    cases t.side <;> simp +arith [Side.extension]
  have hdot : t.stem ++ t.side.extension.toList ≠ ['.'] := fun h => by simp [h] at hlength
  have hdots : t.stem ++ t.side.extension.toList ≠ ['.', '.'] := fun h => by simp [h] at hlength
  have hempty : t.stem ++ t.side.extension.toList ≠ [] := fun h => by simp [h] at hlength
  rw [Path.Step.ofPiece, if_neg (not_or.2 ⟨hempty, hdot⟩), if_neg hdots]
  rfl

theorem isAbsolute_pathOf (name : String) (side : Side) :
    (Path.mk (Settings.pathOf name side.extension)).isAbsolute = isRooted name := by
  rw [Path.isAbsolute, toList_pathOf, isRooted]
  cases name.toList with
  | nil => cases side <;> rfl
  | cons c cs =>
      rw [replaced_cons]
      by_cases hc : c = '.'
      · simp [hc, separates]
      · simp [hc, separates, beq_eq_decide]

/-- The file of a name with a dot or a slash in front lies in the same place for every directory. -/
theorem path_of_rooted (h : isRooted t.name) : t.path.isAbsolute := by
  have habsolute := (isAbsolute_pathOf t.name t.side).trans h
  rw [path, Path.join_of_isAbsolute _ habsolute, habsolute]

theorem steps_path (h : isRooted t.name = false) :
    t.path.steps = .name t.side.directory :: (t.folders.map Path.Step.ofPiece ++ [t.file]) := by
  have habsolute := (isAbsolute_pathOf t.name t.side).trans h
  have htext : t.path.text =
      t.side.directory ++ "/" ++ Settings.pathOf t.name t.side.extension := by
    rw [path, Path.join, habsolute]
    cases t.side <;> rfl
  have hpieces : t.path.pieces =
      [t.side.directory.toList] ++ (t.folders ++ [t.stem ++ t.side.extension.toList]) := by
    have hdirectory : (Path.mk t.side.directory).pieces = [t.side.directory.toList] := by
      cases t.side <;> rfl
    rw [← pieces_pathOf, ← hdirectory, ← Path.pieces_slash, Path.pieces, htext]
    rfl
  rw [Path.steps_eq (by simp [htext]), hpieces, Path.stepsOf_append (List.cons_ne_nil _ _),
    List.map_append, List.map_singleton, ofPiece_file]
  cases t.side <;> rfl

end Target

section

variable {s : Settings} {views : List View} {files : List (Path × String)}

theorem forall₂_of_mapM {ε α β : Type} {f : α → Except ε β} {xs : List α} {ys : List β}
    (h : xs.mapM f = .ok ys) : List.Forall₂ (fun x y => f x = .ok y) xs ys := by
  induction xs generalizing ys with
  | nil =>
      cases h
      exact .nil
  | cons x xs ih =>
      rw [List.mapM_cons] at h
      obtain ⟨y, hy, h⟩ := bind_eq_ok.1 h
      obtain ⟨ys, hys, h⟩ := bind_eq_ok.1 h
      cases h
      exact .cons hy (ih hys)

theorem map_of_mapM {ε α β γ : Type} {f : α → Except ε β} {g : β → γ} {k : α → γ} {xs : List α}
    {ys : List β} (hf : ∀ x y, f x = .ok y → g y = k x) (h : xs.mapM f = .ok ys) :
    ys.map g = xs.map k := by
  have hall := forall₂_of_mapM h
  clear h
  induction hall with
  | nil => rfl
  | cons hy _ ih => rw [List.map_cons, List.map_cons, hf _ _ hy, ih]

theorem map_fst_clientOutput {first : View} (h : clientOutput s first views = .ok files) :
    files.map (·.1) =
      (if views.all (·.serverOnly) then [] else [⟨.client, s.clientFileName first.name⟩]).map Target.path := by
  rw [clientOutput] at h
  split at h
  · next hall =>
      cases h
      rw [if_pos hall, List.map_nil, List.map_nil]
  · next hall =>
      obtain ⟨text, -, h⟩ := bind_eq_ok.1 h
      cases h
      have hpath : clientDir.join ⟨s.clientPath first.name ".js"⟩ =
          Target.path ⟨.client, s.clientFileName first.name⟩ := rfl
      rw [if_neg hall, List.map_singleton, List.map_singleton, hpath]

theorem fst_serverOutput {v : View} {f : Path × String} (h : serverOutput s v = .ok f) :
    f.1 = Target.path ⟨.server, s.serverName v.name⟩ := by
  obtain ⟨text, -, h⟩ := bind_eq_ok.1 h
  have hpath : serverDir.join ⟨s.serverPath v.name ".java"⟩ =
      Target.path ⟨.server, s.serverName v.name⟩ := rfl
  rw [← Except.ok.inj h, hpath]

theorem map_fst_outputs (h : outputs s views = .ok files) :
    files.map (·.1) = (targets s views).map Target.path := by
  cases views with
  | nil =>
      cases h
      rfl
  | cons first rest =>
      obtain ⟨client, hclient, h⟩ := bind_eq_ok.1 h
      obtain ⟨server, hserver, h⟩ := bind_eq_ok.1 h
      cases h
      rw [targets, List.map_append, List.map_append, List.map_map, map_fst_clientOutput hclient,
        map_of_mapM (fun _ _ => fst_serverOutput) hserver, Function.comp_def]

theorem not_separates_of_le {c : Char} (h : 0x30 ≤ c.toNat) : separates c = false := by
  have hdot : c ≠ '.' := fun hc => by simp [hc] at h
  have hslash : c ≠ '/' := fun hc => by simp [hc] at h
  simp [separates, hdot, hslash]

theorem not_separates_ofNat {n : Nat} (h : 0x30 ≤ n) : separates (Char.ofNat n) = false := by
  by_cases hn : n.isValidChar
  · rw [Char.ofNat, dif_pos hn]
    exact not_separates_of_le h
  · rw [Char.ofNat, dif_neg hn]
    rfl

/-- The letters that have a lowercase are none of the two separators, nor are their lowercases. -/
theorem separates_lowerChar (c : Char) : separates (lowerChar c) = separates c := by
  have hruns : ∀ r ∈ caseRuns, 0x30 ≤ r.first ∧ (0x30 : Int) ≤ r.first + r.shift := by decide +kernel
  rw [lowerChar]
  split
  · next r hr =>
      obtain ⟨hfirst, hshift⟩ := hruns r (List.mem_of_find?_eq_some hr)
      have hcovers := List.find?_some hr
      have hle : r.first ≤ c.toNat := by
        simp only [CaseRun.covers, Bool.and_eq_true, decide_eq_true_eq] at hcovers
        exact hcovers.1.1
      rw [not_separates_ofNat (by omega), not_separates_of_le (by omega)]
  · rfl

theorem isRooted_lowercase (name : String) : isRooted (lowercase name) = isRooted name := by
  rw [isRooted, isRooted, lowercase, String.toList_ofList]
  cases name.toList with
  | nil => rfl
  | cons c cs =>
      -- The two letters whose lowercase is not one letter of their own.
      by_cases hsigma : c = '\u03A3'
      · rw [hsigma, lowerFrom, if_pos rfl, List.singleton_append, List.head?_cons, List.head?_cons]
        split
        · rfl
        · rfl
      · by_cases hdotted : c = '\u0130'
        · rw [hdotted, lowerFrom, if_neg (by decide), if_pos rfl]
          rfl
        · simpa [lowerFrom, hsigma, hdotted] using separates_lowerChar c

theorem isRooted_clientFileName (s : Settings) (view : String) :
    isRooted (s.clientFileName view) = isRooted (s.clientName view) := by
  rw [Settings.clientFileName]
  split
  · exact isRooted_lowercase _
  · rfl

/-- There is a file for each view that is not for the client only, and one for the client unless all
views are for the server only. -/
theorem forall_mem_targets {P : Target → Prop} :
    (∀ t ∈ targets s views, P t) ↔
      (∀ v ∈ views, v.clientOnly = false → P ⟨.server, s.serverName v.name⟩) ∧
        ∀ first ∈ views.head?, (∃ v ∈ views, v.serverOnly = false) →
          P ⟨.client, s.clientFileName first.name⟩ := by
  cases views with
  | nil => simp [targets]
  | cons first rest =>
      have hall : (first :: rest).all (·.serverOnly) = false ↔ ∃ v ∈ first :: rest, v.serverOnly = false := by
        rw [List.all_eq_false]
        simp only [Bool.not_eq_true]
      rw [targets, List.forall_mem_append, List.forall_mem_map, and_comm, ← hall]
      refine and_congr ?_ ?_
      · simp only [List.mem_filter, Bool.not_eq_true', and_imp]
      · cases (first :: rest).all (·.serverOnly) <;> simp

end

namespace Path

variable {p q : Path}

/-- A path into the directory of a side that goes only down from there. -/
def StaysBelow (p : Path) : Prop :=
  ∃ side : Side, ∃ rest, p.steps = .name side.directory :: rest ∧ .root ∉ rest ∧ .up ∉ rest

/-- A path to a place below a directory: the parts of the directory, then names. -/
def IsInside (dir p : Path) : Prop :=
  ∃ names : List String, names ≠ [] ∧ p.parts = dir.parts ++ names.map .name

theorem StaysBelow.isInside (h : q.StaysBelow) (p : Path) : p.IsInside (p.join q) := by
  obtain ⟨side, rest, hsteps, hroot, hup⟩ := h
  have hnames : ∃ names : List String, rest.filter (· ≠ .here) = names.map .name := by
    clear hsteps
    induction rest with
    | nil => exact ⟨[], rfl⟩
    | cons step rest ih =>
        obtain ⟨names, hnames⟩ := ih (fun h => hroot (List.mem_cons_of_mem _ h))
          fun h => hup (List.mem_cons_of_mem _ h)
        cases step with
        | root => exact absurd List.mem_cons_self hroot
        | up => exact absurd List.mem_cons_self hup
        | here => exact ⟨names, hnames⟩
        | name s => exact ⟨s :: names, by rw [List.filter_cons_of_pos (by simp), hnames]; rfl⟩
  obtain ⟨names, hnames⟩ := hnames
  refine ⟨side.directory :: names, List.cons_ne_nil _ _, ?_⟩
  rw [parts_join p hsteps, parts_eq q, hsteps, partsOf, hnames]
  rfl

end Path

theorem Target.staysBelow_iff (t : Target) : t.path.StaysBelow ↔ ¬ isRooted t.name := by
  constructor
  · rintro ⟨side, rest, hsteps, -⟩ hrooted
    have habsolute := t.path_of_rooted hrooted
    rw [(Path.of_steps_eq hsteps).1] at habsolute
    cases habsolute
  · intro hrooted
    refine ⟨t.side, _, t.steps_path (by simpa using hrooted), ?_⟩
    have hstep : ∀ step ∈ t.folders.map Path.Step.ofPiece ++ [t.file], step ≠ .root ∧ step ≠ .up := by
      intro step hstep
      obtain hstep | hstep := List.mem_append.1 hstep
      · obtain ⟨piece, hpiece, rfl⟩ := List.mem_map.1 hstep
        rw [Path.Step.ofPiece_of_notMem (of_mem_segments (List.mem_of_mem_dropLast hpiece)).2]
        split <;> simp
      · rw [List.mem_singleton.1 hstep]
        exact ⟨nofun, nofun⟩
    exact ⟨fun h => (hstep _ h).1 rfl, fun h => (hstep _ h).2 rfl⟩

/-- Generated files lie below any output directory as long as no name of theirs starts with a dot or a
slash. One that does gives a path that ignores the output directory. -/
theorem staysBelow_iff_not_rooted {s : Settings} {views : List View} {files : List (Path × String)}
    (h : outputs s views = .ok files) :
    ((∀ f ∈ files, f.1.StaysBelow) ↔
      (∀ v ∈ views, v.clientOnly = false → ¬ isRooted (s.serverName v.name)) ∧
        ∀ first ∈ views.head?, (∃ v ∈ views, v.serverOnly = false) → ¬ isRooted (s.clientName first.name)) ∧
      ∀ f ∈ files, (f.1.StaysBelow → ∀ outDir : Path, outDir.IsInside (outDir.join f.1)) ∧
        (¬ f.1.StaysBelow → f.1.isAbsolute ∧ ∀ outDir : Path, outDir.join f.1 = f.1) := by
  have hpaths := map_fst_outputs h
  constructor
  · have hbelow : (∀ f ∈ files, f.1.StaysBelow) ↔ ∀ t ∈ targets s views, ¬ isRooted t.name := by
      have hmap : (∀ p ∈ files.map (·.1), p.StaysBelow) ↔ ∀ f ∈ files, f.1.StaysBelow :=
        List.forall_mem_map
      rw [← hmap, hpaths, List.forall_mem_map]
      exact forall₂_congr fun t _ => t.staysBelow_iff
    rw [hbelow, forall_mem_targets]
    simp only [isRooted_clientFileName]
  · intro f hf
    refine ⟨fun hbelow outDir => hbelow.isInside outDir, fun hbelow => ?_⟩
    obtain ⟨t, -, ht⟩ := List.mem_map.1 (hpaths ▸ List.mem_map_of_mem hf)
    rw [← ht, t.staysBelow_iff, not_not] at hbelow
    rw [← ht]
    have habsolute := t.path_of_rooted hbelow
    exact ⟨habsolute, fun outDir => Path.join_of_isAbsolute _ habsolute⟩

theorem staysBelow_iff_not_rooted_cart :
    ∃ files, outputs { serverRoot := some "acme" } [{ name := " shop.Cart " }] = .ok files ∧
      files.map (·.1.text) = ["client/shop/cart.js", "server/acme/shop/Cart.java"] ∧
      ∀ f ∈ files, f.1.StaysBelow := by
  obtain ⟨files, h⟩ : ∃ files, outputs { serverRoot := some "acme" } [{ name := " shop.Cart " }] = .ok files :=
    exists_ok (by decide)
  refine ⟨files, h, ?_, (staysBelow_iff_not_rooted h).1.2 ⟨by decide, ?_⟩⟩
  · have hpaths := congrArg (List.map Path.text) (map_fst_outputs h)
    rw [List.map_map] at hpaths
    exact hpaths.trans (by decide)
  · intro first hfirst
    cases hfirst
    exact fun _ => by decide

/-- A class of the default package on the server is not written below the output directory if its name
starts with a slash. -/
theorem not_staysBelow_rootedName :
    ∃ files, outputs {} [{ name := "/x", serverOnly := true }] = .ok files ∧
      ¬ ∀ f ∈ files, f.1.StaysBelow := by
  obtain ⟨files, h⟩ : ∃ files, outputs {} [{ name := "/x", serverOnly := true }] = .ok files :=
    exists_ok (by decide)
  have hpaths := map_fst_outputs h
  have htargets : targets {} [{ name := "/x", serverOnly := true }] = [⟨.server, "/x"⟩] := by decide
  rw [htargets] at hpaths
  refine ⟨files, h, fun hbelow => ?_⟩
  obtain ⟨f, hf, hpath⟩ : ∃ f ∈ files, f.1 = Target.path ⟨.server, "/x"⟩ :=
    List.mem_map.1 (hpaths ▸ List.mem_singleton_self _)
  exact (Target.staysBelow_iff _).1 (hpath ▸ hbelow f hf) (by decide)

end TwinView
