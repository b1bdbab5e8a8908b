import TwinView.Main
import TwinView.Proofs.Batch.Paths

/-!
What a disk holds after a file has been written. A path leads from place to place. Writing succeeds iff
no file lies on that way, and then changes only what it must: it makes the directories that are missing
on the way, and puts the file at its end.
-/

namespace TwinView

open CommandLine (destination)

def visits : Location → List Path.Step → List Location
  | _, [] => []
  | place, s :: rest => place :: visits (destination place [s]) rest

namespace Path

def way (p : Path) (home : Location) : List Location := visits home p.steps

def place (p : Path) (home : Location) : Location := destination home p.steps

/-- A path that is short enough, with names that are short enough. -/
structure Fits (p : Path) : Prop where
  text_ne : p.text ≠ ""
  nul_notMem : '\x00' ∉ p.text.toList
  text_le : p.text.utf8ByteSize ≤ Disk.maxPath
  name_le : ∀ n, .name n ∈ p.steps → n.utf8ByteSize ≤ Disk.maxName

end Path

variable {d e : Disk} {home place x : Location} {entry : Entry} {p q : Path} {f : DiskFault} {text : String}
  {steps : List Path.Step} {places : List Location}

theorem destination_append (place : Location) (front back : List Path.Step) :
    destination place (front ++ back) = destination (destination place front) back :=
  List.foldl_append

theorem visits_append (place : Location) (front back : List Path.Step) :
    visits place (front ++ back) = visits place front ++ visits (destination place front) back := by
  induction front generalizing place with
  | nil => rfl
  | cons s front ih => exact congrArg (place :: ·) (ih (destination place [s]))

theorem mem_visits_iff :
    x ∈ visits place steps ↔ ∃ front back, steps = front ++ back ∧ back ≠ [] ∧ x = destination place front := by
  induction steps generalizing place with
  | nil => simp [visits]
  | cons s rest ih =>
      rw [visits, List.mem_cons, ih]
      constructor
      · rintro (rfl | ⟨front, back, rfl, hback, rfl⟩)
        · exact ⟨[], s :: rest, rfl, List.cons_ne_nil _ _, rfl⟩
        · exact ⟨s :: front, back, rfl, hback, rfl⟩
      · rintro ⟨front, back, hsteps, hback, rfl⟩
        cases front with
        | nil => exact .inl rfl
        | cons s' front =>
            obtain ⟨rfl, rfl⟩ := List.cons.inj hsteps
            exact .inr ⟨front, back, rfl, hback, rfl⟩

theorem destination_filter (place : Location) (steps : List Path.Step) :
    destination place (steps.filter (· ≠ .here)) = destination place steps := by
  induction steps generalizing place with
  | nil => rfl
  | cons s rest ih =>
      cases s with
      | here => exact ih place
      | root | up | name => exact ih _

theorem destination_names (place names : List String) :
    destination place (names.map .name) = place ++ names := by
  induction names generalizing place with
  | nil => exact (List.append_nil place).symm
  | cons n names ih => exact (ih (place ++ [n])).trans (List.append_assoc _ _ _)

namespace Disk

def IsFile (d : Disk) (place : Location) : Prop := ∃ text, d.entry? place = some (.file text)

theorem entry?_root (d : Disk) : d.entry? [] = some .directory := rfl

theorem not_isFile_of_directory (h : d.entry? x = some .directory) : ¬ d.IsFile x := by
  rintro ⟨text, htext⟩
  rw [h] at htext
  cases htext

theorem lookup_filter_ne (entries : List (Location × Entry)) (place x : Location) :
    (entries.filter (·.1 ≠ place)).lookup x = if x = place then none else entries.lookup x := by
  induction entries with
  | nil => simp
  | cons entry entries ih =>
      by_cases hentry : entry.1 = place
      · rw [List.filter_cons_of_neg (by simpa using hentry), ih, List.lookup_cons]
        by_cases hx : x = place
        · rw [if_pos hx, if_pos hx]
        · have hne : (x == entry.1) = false := by simpa [hentry] using hx
          rw [if_neg hx, if_neg hx, hne]
      · rw [List.filter_cons_of_pos (by simpa using hentry), List.lookup_cons, List.lookup_cons, ih]
        cases hx : x == entry.1 with
        | false => rfl
        | true => exact (if_neg fun hplace : x = place => hentry ((eq_of_beq hx).symm.trans hplace)).symm

theorem entry?_put (hplace : place ≠ []) (x : Location) :
    Disk.entry? (d.put place entry) x = if x = place then some entry else d.entry? x := by
  by_cases hroot : x = []
  · rw [hroot, if_neg hplace.symm]
    rfl
  · rw [ entry?, entry?, if_neg hroot, if_neg hroot, put, List.lookup_append, lookup_filter_ne,
      List.lookup_cons, List.lookup_nil]
    by_cases hx : x = place
    · simp [hx]
    · have hne : (x == place) = false := by simpa using hx
      rw [hne, if_neg hx, if_neg hx]
      exact Option.or_none

/-! Walks. -/

theorem step_of_fits {s : Path.Step} (h : ∀ n, s = .name n → n.utf8ByteSize ≤ maxName) :
    step place s = .ok (destination place [s]) := by
  cases s with
  | name n => exact if_neg (Nat.not_lt.2 (h n rfl))
  | root | here | up => rfl

theorem walk_of_directories (hnames : ∀ n, .name n ∈ steps → n.utf8ByteSize ≤ maxName)
    (h : ∀ x ∈ visits place steps, d.entry? x = some .directory) :
    d.walk place steps = .ok (destination place steps) := by
  induction steps generalizing place with
  | nil => rfl
  | cons s rest ih =>
      have hplace : d.entry? place = some .directory := h place List.mem_cons_self
      have hstep : step place s = .ok (destination place [s]) :=
        step_of_fits fun n hn => hnames n (hn ▸ List.mem_cons_self)
      rw [walk, hplace]
      simp only [hstep]
      exact ih (fun n hn => hnames n (List.mem_cons_of_mem s hn)) fun x hx => h x (List.mem_cons_of_mem _ hx)

theorem of_walk_eq_error (hnames : ∀ n, .name n ∈ steps → n.utf8ByteSize ≤ maxName)
    (h : d.walk place steps = .error f) : f = .missing ∨ ∃ x ∈ visits place steps, d.IsFile x := by
  induction steps generalizing place with
  | nil => cases h
  | cons s rest ih =>
      have hstep : step place s = .ok (destination place [s]) :=
        step_of_fits fun n hn => hnames n (hn ▸ List.mem_cons_self)
      rw [walk] at h
      split at h
      · cases h
        exact .inl rfl
      · next text hplace => exact .inr ⟨place, List.mem_cons_self, text, hplace⟩
      · simp only [hstep] at h
        obtain hmissing | ⟨x, hx, hfile⟩ := ih (fun n hn => hnames n (List.mem_cons_of_mem s hn)) h
        · exact .inl hmissing
        · exact .inr ⟨x, List.mem_cons_of_mem _ hx, hfile⟩

theorem of_walk_eq_ok (h : d.walk place steps = .ok x) :
    (∀ n, .name n ∈ steps → n.utf8ByteSize ≤ maxName) ∧
      (∀ y ∈ visits place steps, d.entry? y = some .directory) ∧ x = destination place steps := by
  induction steps generalizing place with
  | nil =>
      cases h
      exact ⟨nofun, nofun, rfl⟩
  | cons s rest ih =>
      rw [walk] at h
      split at h
      · cases h
      · cases h
      · next hplace =>
          obtain ⟨next, hnext, h⟩ := bind_eq_ok.1 h
          have hfits : ∀ n, s = .name n → n.utf8ByteSize ≤ maxName := by
            rintro n rfl
            by_contra hlong
            rw [step, if_pos (Nat.not_le.1 hlong)] at hnext
            cases hnext
          rw [step_of_fits hfits] at hnext
          cases hnext
          obtain ⟨hnames, hvisits, hx⟩ := ih h
          refine ⟨?_, List.forall_mem_cons.2 ⟨hplace, hvisits⟩, hx⟩
          intro n hn
          obtain hn | hn := List.mem_cons.1 hn
          · exact hfits n hn.symm
          · exact hnames n hn

theorem locate_of_directories (hfits : p.Fits) (h : ∀ x ∈ p.way d.home, d.entry? x = some .directory) :
    d.locate p = .ok (p.place d.home) := by
  have hnul : p.text.toList.contains '\x00' = false := by simpa using hfits.nul_notMem
  rw [locate, if_neg hfits.text_ne, hnul, if_neg Bool.false_ne_true, if_neg (Nat.not_lt.2 hfits.text_le)]
  exact walk_of_directories hfits.name_le h

theorem of_locate_eq_error (hfits : p.Fits) (h : d.locate p = .error f) :
    f = .missing ∨ ∃ x ∈ p.way d.home, d.IsFile x := by
  have hnul : p.text.toList.contains '\x00' = false := by simpa using hfits.nul_notMem
  rw [locate, if_neg hfits.text_ne, hnul, if_neg Bool.false_ne_true, if_neg (Nat.not_lt.2 hfits.text_le)] at h
  exact of_walk_eq_error hfits.name_le h

theorem of_locate_eq_ok (h : d.locate p = .ok x) :
    p.Fits ∧ (∀ y ∈ p.way d.home, d.entry? y = some .directory) ∧ x = p.place d.home := by
  rw [locate] at h
  split at h
  · cases h
  · next htext =>
      split at h
      · cases h
      · next hnul =>
          split at h
          · cases h
          · next hlong =>
              obtain ⟨hnames, hway, hx⟩ := of_walk_eq_ok h
              exact ⟨⟨htext, by simpa using hnul, Nat.not_lt.1 hlong, hnames⟩, hway, hx⟩

theorem read_eq_ok_iff :
    d.read p = .ok text ↔
      p.Fits ∧ (∀ x ∈ p.way d.home, d.entry? x = some .directory) ∧
        d.entry? (p.place d.home) = some (.file text) := by
  constructor
  · intro h
    cases hlocate : d.locate p with
    | error f =>
        simp [read, find, hlocate, bind, Except.bind] at h
    | ok x =>
        obtain ⟨hfits, hway, rfl⟩ := of_locate_eq_ok hlocate
        refine ⟨hfits, hway, ?_⟩
        cases hentry : d.entry? (p.place d.home) with
        | none => simp [read, find, hlocate, hentry, bind, Except.bind] at h
        | some entry =>
            cases entry with
            | directory => simp [read, find, hlocate, hentry, bind, Except.bind] at h
            | file text' => simpa [read, find, hlocate, hentry, bind, Except.bind] using h
  · rintro ⟨hfits, hway, hentry⟩
    simp [read, find, locate_of_directories hfits hway, hentry, bind, Except.bind]

/-! Directories. -/

/-- The disk `e` is `d` with directories at those of some places where nothing was. -/
def Adds (d : Disk) (places : List Location) (e : Disk) : Prop :=
  e.home = d.home ∧
    ∀ x, e.entry? x = if x ∈ places ∧ d.entry? x = none then some .directory else d.entry? x

/-- What making directories at some places comes to. It succeeds iff none of them is a file. -/
def Makes (d : Disk) (places : List Location) (r : Except DiskFault Disk) : Prop :=
  (∀ e, r = .ok e → d.Adds places e) ∧ ((∃ e, r = .ok e) ↔ ∀ x ∈ places, ¬ d.IsFile x)

theorem entry?_cases (d : Disk) (x : Location) :
    d.entry? x = none ∨ d.entry? x = some .directory ∨ d.IsFile x := by
  cases h : d.entry? x with
  | none => exact .inl rfl
  | some entry =>
      cases entry with
      | directory => exact .inr (.inl rfl)
      | file text => exact .inr (.inr ⟨text, h⟩)

theorem Adds.isFile_iff (h : d.Adds places e) : e.IsFile x ↔ d.IsFile x := by
  rw [IsFile, IsFile, h.2]
  split
  · next hnew => simp [hnew.2]
  · exact Iff.rfl

theorem Adds.directory (h : d.Adds places e) (hx : x ∈ places) (hfile : ¬ d.IsFile x) :
    e.entry? x = some .directory := by
  rw [h.2]
  obtain hnone | hdirectory | hfile' := d.entry?_cases x
  · exact if_pos ⟨hx, hnone⟩
  · rw [hdirectory, if_neg (by simp)]
  · exact absurd hfile' hfile

theorem Adds.of_directories (h : ∀ x ∈ places, d.entry? x = some .directory) : d.Adds places d := by
  refine ⟨rfl, fun x => (if_neg ?_).symm⟩
  rintro ⟨hx, hnone⟩
  rw [h x hx] at hnone
  cases hnone

theorem Adds.snoc (h : d.Adds places e) (hx : e.entry? x = some .directory) : d.Adds (places ++ [x]) e := by
  refine ⟨h.1, fun y => ?_⟩
  have hy := h.2 y
  simp only [List.mem_append, List.mem_singleton]
  by_cases hyx : y = x
  · subst hyx
    rw [hx] at hy ⊢
    split
    · rfl
    · next hnew => rw [hy, if_neg fun hold => hnew ⟨.inl hold.1, hold.2⟩]
  · simpa [hyx] using hy

theorem Adds.put (h : d.Adds places e) (hx : e.entry? x = none) :
    d.Adds (places ++ [x]) (e.put x .directory) := by
  have hroot : x ≠ [] := fun hroot => by simp [hroot, entry?_root] at hx
  refine ⟨h.1, fun y => ?_⟩
  simp only [entry?_put hroot, List.mem_append, List.mem_singleton]
  by_cases hyx : y = x
  · subst hyx
    have hold : d.entry? y = none := by
      have hy := h.2 y
      rw [hx] at hy
      split at hy
      · cases hy
      · exact hy.symm
    rw [if_pos rfl, if_pos ⟨.inr rfl, hold⟩]
  · rw [if_neg hyx, h.2 y]
    simp [hyx]

theorem orPresent_error (h : d.locate p = .error f) (f' : DiskFault) :
    d.orPresent p (.error f') = .error f' := by
  simp [orPresent, isDirectory, find, h, bind, Except.bind]

theorem orPresent_directory (h : d.locate p = .ok x) (hx : d.entry? x = some .directory) :
    d.orPresent p (.error f) = .ok d := by
  simp [orPresent, isDirectory, find, h, hx, bind, Except.bind]

theorem orPresent_file (h : d.locate p = .ok x) (hx : d.IsFile x) : d.orPresent p (.error f) = .error f := by
  obtain ⟨text, hx⟩ := hx
  simp [orPresent, isDirectory, find, h, hx, bind, Except.bind]

theorem makeDirectory_eq (h : d.locate p = .ok x) :
    d.makeDirectory p =
      match d.entry? x with
      | some _ => .error .exists
      | none => .ok (d.put x .directory) := by
  rw [makeDirectory, h]
  rfl

theorem makes_last (hadds : d.Adds places e) (hfiles : ∀ x ∈ places, ¬ d.IsFile x) (hfits : p.Fits)
    (hway : ∀ x ∈ p.way d.home, x ∈ places) :
    d.Makes (places ++ [p.place d.home]) (e.orPresent p (e.makeDirectory p)) := by
  have hlocate : e.locate p = .ok (p.place d.home) := by
    rw [← hadds.1]
    refine locate_of_directories hfits fun x hx => ?_
    rw [hadds.1] at hx
    exact hadds.directory (hway x hx) (hfiles x (hway x hx))
  have hiff : (∀ x ∈ places ++ [p.place d.home], ¬ d.IsFile x) ↔ ¬ e.IsFile (p.place d.home) := by
    rw [List.forall_mem_append, List.forall_mem_singleton, and_iff_right hfiles, hadds.isFile_iff]
  rw [Makes, hiff, makeDirectory_eq hlocate]
  obtain hnone | hdirectory | hfile := e.entry?_cases (p.place d.home)
  · have hnot : ¬ e.IsFile (p.place d.home) := by simp [IsFile, hnone]
    simp only [hnone, orPresent]
    refine ⟨?_, fun _ => hnot, fun _ => ⟨_, rfl⟩⟩
    intro e' he
    rw [← Except.ok.inj he]
    exact hadds.put hnone
  · simp only [hdirectory, orPresent_directory hlocate hdirectory]
    refine ⟨?_, fun _ => not_isFile_of_directory hdirectory, fun _ => ⟨_, rfl⟩⟩
    intro e' he
    rw [← Except.ok.inj he]
    exact hadds.snoc hdirectory
  · obtain ⟨text, htext⟩ := hfile
    simp only [htext, orPresent_file hlocate ⟨text, htext⟩]
    exact ⟨nofun, nofun, fun hnot => absurd ⟨text, htext⟩ hnot⟩

theorem makeDirectories_of_missing (h : d.makeDirectory p = .error .missing) (above : List Path) :
    d.makeDirectories (p :: above) =
      d.makeDirectories above >>= fun e => e.orPresent p (e.makeDirectory p) := by
  rw [makeDirectories, h]

theorem makeDirectories_of_ne (h : d.makeDirectory p ≠ .error .missing) (above : List Path) :
    d.makeDirectories (p :: above) = d.orPresent p (d.makeDirectory p) := by
  rw [makeDirectories]
  split
  · next hmissing => exact absurd hmissing h
  · rfl

theorem makeDirectory_error (h : d.locate p = .error f) : d.makeDirectory p = .error f := by
  rw [makeDirectory, h]
  rfl

/-- One more directory behind those that are made for the way to it. -/
theorem makes_cons {above : List Path} (h : d.Makes places (d.makeDirectories above)) (hfits : p.Fits)
    (hway : ∀ x ∈ p.way d.home, x ∈ places)
    (hplaces : ∀ x ∈ places, x ∈ p.way d.home ∨ d.entry? x = some .directory) :
    d.Makes (places ++ [p.place d.home]) (d.makeDirectories (p :: above)) := by
  -- The directory is looked for first. If that works, nothing above it is missing.
  have hdirectories (x) (hx : d.locate p = .ok x) (y) (hy : y ∈ places) : d.entry? y = some .directory :=
    (hplaces y hy).elim ((of_locate_eq_ok hx).2.1 y) id
  by_cases hfiles : ∀ x ∈ places, ¬ d.IsFile x
  · cases hlocate : d.locate p with
    | ok x =>
        have hadds : d.Adds places d := .of_directories (hdirectories x hlocate)
        rw [makeDirectories_of_ne]
        · exact makes_last hadds hfiles hfits hway
        · rw [makeDirectory_eq hlocate]
          split <;> simp
    | error f =>
        obtain rfl | ⟨x, hx, hfile⟩ := of_locate_eq_error hfits hlocate
        · obtain ⟨e, he⟩ := h.2.2 hfiles
          rw [makeDirectories_of_missing (makeDirectory_error hlocate), he]
          exact makes_last (h.1 e he) hfiles hfits hway
        · exact absurd hfile (hfiles x (hway x hx))
  · have herror (e : Disk) : d.makeDirectories (p :: above) ≠ .ok e := by
      intro he
      cases hlocate : d.locate p with
      | ok x => exact hfiles fun y hy => not_isFile_of_directory (hdirectories x hlocate y hy)
      | error f =>
          by_cases hmissing : f = .missing
          · subst hmissing
            rw [makeDirectories_of_missing (makeDirectory_error hlocate)] at he
            obtain ⟨e', he', -⟩ := bind_eq_ok.1 he
            exact hfiles (h.2.1 ⟨e', he'⟩)
          · rw [makeDirectories_of_ne (by simpa [makeDirectory_error hlocate] using hmissing),
              makeDirectory_error hlocate, orPresent_error hlocate] at he
            cases he
    refine ⟨fun e he => absurd he (herror e), fun ⟨e, he⟩ => absurd he (herror e), fun hall => ?_⟩
    exact absurd (fun x hx => hall x (List.mem_append_left _ hx)) hfiles

end Disk

/-! The directories above the end of a path. -/

namespace Path

variable {front : List (List Char)} {last : List Char}

theorem stops_snoc (before front : List (List Char)) (last : List Char) :
    stops before (front ++ [last]) =
      stops before front ++
        if before ++ front = [] ∨ Step.ofPiece last ≠ .here then [before ++ front ++ [last]] else [] := by
  induction front generalizing before with
  | nil => simp [stops]
  | cons piece front ih =>
      rw [List.cons_append, stops, stops, ih]
      simp only [List.append_assoc, List.singleton_append]
      split <;> simp

/-- The directories that lead to the end of some pieces, the nearest first. -/
def chain (pieces : List (List Char)) : List Path := (stops [] pieces).reverse.map ofPieces

theorem above_eq (h : p.pieces = front ++ [last]) (hlast : Step.ofPiece last ≠ .here) :
    p.above = chain front := by
  rw [above, h, stops_snoc, if_pos (.inr hlast), List.dropLast_concat, chain]

theorem ofPieces_text {piece : List Char} {pieces : List (List Char)} (h : piece :: pieces ≠ [[]]) :
    (ofPieces (piece :: pieces)).text.toList = piece ++ pieces.flatMap ('/' :: ·) := by
  have hintercalate (piece : List Char) (pieces : List (List Char)) :
      ['/'].intercalate (piece :: pieces) = piece ++ pieces.flatMap ('/' :: ·) := by
    induction pieces generalizing piece with
    | nil => simp
    | cons next pieces ih => rw [List.intercalate_cons_cons, ih]; simp
  rw [ofPieces, if_neg h, String.toList_ofList, hintercalate]

theorem pieces_ofPieces (h : ∀ piece ∈ front, '/' ∉ piece) (hne : front ≠ []) (hroot : front ≠ [[]]) :
    (ofPieces front).pieces = front := by
  obtain ⟨piece, rest, rfl⟩ := List.exists_cons_of_ne_nil hne
  rw [pieces, ofPieces_text hroot, Text.splitAt_flatMap h]

theorem text_ne_of_pieces (h : p.pieces = front) (hne : front ≠ [[]]) : p.text ≠ "" := by
  intro htext
  rw [pieces, htext] at h
  exact hne h.symm

theorem steps_ofPieces (h : ∀ piece ∈ front, '/' ∉ piece) (hne : front ≠ []) (hroot : front ≠ [[]]) :
    (ofPieces front).steps = stepsOf front := by
  have hpieces := pieces_ofPieces h hne hroot
  rw [steps_eq (text_ne_of_pieces hpieces hroot), hpieces]

theorem notMem_of_pieces {piece : List Char} (h : piece ∈ p.pieces) : '/' ∉ piece :=
  (Text.of_mem_splitAt h).1

/-- A path to a place on the way of one that is short enough is short enough as well. -/
theorem Fits.ofPieces {back : List (List Char)} (h : p.Fits) (hpieces : p.pieces = front ++ back)
    (hne : front ≠ []) : (ofPieces front).Fits := by
  by_cases hroot : front = [[]]
  · subst hroot
    refine ⟨by decide, by decide, by decide, fun n hn => ?_⟩
    have hsteps : (Path.ofPieces [[]]).steps = [.root, .here] := by decide
    rw [hsteps] at hn
    simp at hn
  · have hslash : ∀ piece ∈ front, '/' ∉ piece := fun piece hpiece =>
      notMem_of_pieces (hpieces ▸ List.mem_append_left back hpiece)
    have hfront := pieces_ofPieces hslash hne hroot
    have hsteps := steps_ofPieces hslash hne hroot
    obtain ⟨piece, rest, rfl⟩ := List.exists_cons_of_ne_nil hne
    have htext : p.text = (Path.ofPieces (piece :: rest)).text ++ String.ofList (back.flatMap ('/' :: ·)) := by
      apply String.toList_inj.1
      rw [String.toList_append, String.toList_ofList, ofPieces_text hroot, List.append_assoc,
        ← List.flatMap_append]
      exact Text.eq_of_splitAt hpieces
    refine ⟨text_ne_of_pieces hfront hroot, ?_, ?_, ?_⟩
    · intro hnul
      apply h.nul_notMem
      rw [htext, String.toList_append]
      exact List.mem_append_left _ hnul
    · have hle := h.text_le
      rw [htext, String.utf8ByteSize_append] at hle
      omega
    · intro n hn
      apply h.name_le
      rw [steps_eq h.text_ne, hpieces, stepsOf_append hne]
      exact List.mem_append_left _ (hsteps ▸ hn)

/-- The places to which the beginnings of some pieces lead, and the root. -/
def trail (home : Location) (pieces : List (List Char)) : List Location :=
  [] :: (visits home (stepsOf pieces) ++ [destination home (stepsOf pieces)])

theorem destination_mem_trail (home : Location) (pieces : List (List Char)) :
    destination home (stepsOf pieces) ∈ trail home pieces := by
  simp [trail]

theorem trail_snoc (home : Location) (front : List (List Char)) (last : List Char) :
    trail home (front ++ [last]) =
      trail home front ++ [destination home (stepsOf (front ++ [last]))] := by
  cases front with
  | nil => cases last <;> rfl
  | cons piece front =>
      rw [trail, trail, stepsOf_append (List.cons_ne_nil _ _), visits_append]
      rfl

theorem place_ofPieces (h : ∀ piece ∈ front, '/' ∉ piece) (hne : front ≠ []) (home : Location) :
    (ofPieces front).place home = destination home (stepsOf front) := by
  by_cases hroot : front = [[]]
  · subst hroot
    rfl
  · rw [place, steps_ofPieces h hne hroot]

theorem mem_trail_iff (hpieces : p.pieces = front ++ [last]) (htext : p.text ≠ "") :
    x ∈ trail home front ↔ x = [] ∨ x ∈ p.way home := by
  rw [way, steps_eq htext, hpieces]
  cases front with
  | nil => cases last <;> simp [trail, stepsOf, visits, destination]
  | cons piece front =>
      rw [stepsOf_append (List.cons_ne_nil _ _), visits_append, trail, List.mem_cons]
      rfl

theorem mem_trail_ofPieces_iff (h : ∀ piece ∈ front ++ [last], '/' ∉ piece) :
    x ∈ trail home front ↔ x = [] ∨ x ∈ (ofPieces (front ++ [last])).way home := by
  by_cases hroot : front ++ [last] = [[]]
  · obtain ⟨rfl, hlast⟩ := @List.append_inj' _ front [last] [] [[]] hroot rfl
    obtain rfl := List.singleton_inj.1 hlast
    have hway : (ofPieces [[]]).way home = [home, []] := rfl
    have htrail : trail home [] = [[], home] := rfl
    rw [List.nil_append, hway, htrail]
    simp only [List.mem_cons, List.not_mem_nil, or_false]
    tauto
  · have hpieces := pieces_ofPieces h (by simp) hroot
    exact mem_trail_iff hpieces (text_ne_of_pieces hpieces hroot)

/-- A path that ends in a name ends in the piece that spells it. -/
theorem exists_pieces {init : List Step} {n : String} (h : p.steps = init ++ [.name n]) :
    ∃ front last, p.pieces = front ++ [last] ∧ Step.ofPiece last = .name n := by
  have htext : p.text ≠ "" := by
    intro htext
    simp [steps, htext] at h
  rw [steps_eq htext] at h
  obtain ⟨front, last, hpieces⟩ : ∃ front last, p.pieces = front ++ [last] := by
    obtain ⟨piece, rest, hpieces⟩ := Text.exists_splitAt '/' p.text.toList
    have hne : p.pieces ≠ [] := by simp [pieces, hpieces]
    exact ⟨_, _, (List.dropLast_concat_getLast hne).symm⟩
  refine ⟨front, last, hpieces, ?_⟩
  rw [hpieces] at h
  cases front with
  | nil =>
      cases last with
      | nil => exact absurd (@List.append_inj' _ [] _ _ _ h rfl).2 (by simp)
      | cons c last => exact List.singleton_inj.1 (@List.append_inj' _ [] _ _ _ h rfl).2
  | cons piece front =>
      rw [stepsOf_append (List.cons_ne_nil _ _)] at h
      exact List.singleton_inj.1 (List.append_inj' h rfl).2

end Path

namespace Disk

variable {pieces front : List (List Char)} {last : List Char}

theorem Makes.congr {places' : List Location} {r : Except DiskFault Disk} (h : d.Makes places r)
    (hplaces : ∀ x, x ∈ places' ↔ x ∈ places) : d.Makes places' r := by
  simpa only [Makes, Adds, hplaces] using h

/-- The directories on a way are made iff no file lies on it. -/
theorem makes_chain (hhome : d.entry? d.home = some .directory) (hslash : ∀ piece ∈ pieces, '/' ∉ piece)
    (hfits : ∀ front ≠ [], front <+: pieces → (Path.ofPieces front).Fits) :
    d.Makes (Path.trail d.home pieces) (d.makeDirectories (Path.chain pieces)) := by
  -- The nearest directory is made last, so the pieces are taken from their end.
  induction pieces using List.reverseRecOn with
  | nil =>
      have hall : ∀ x ∈ Path.trail d.home [], d.entry? x = some .directory := by
        have htrail : Path.trail d.home [] = [[], d.home] := rfl
        rw [htrail, List.forall_mem_cons, List.forall_mem_singleton]
        exact ⟨d.entry?_root, hhome⟩
      refine ⟨fun e he => ?_, fun _ x hx => not_isFile_of_directory (hall x hx), fun _ => ⟨d, rfl⟩⟩
      rw [← Except.ok.inj he]
      exact .of_directories hall
  | append_singleton front last ih =>
      have hmakes := ih (fun piece hpiece => hslash piece (List.mem_append_left _ hpiece))
        fun front' hne hpre => hfits front' hne (hpre.trans (List.prefix_append front [last]))
      rw [Path.trail_snoc]
      by_cases hstop : front = [] ∨ Path.Step.ofPiece last ≠ .here
      · have hchain : Path.chain (front ++ [last]) =
            Path.ofPieces (front ++ [last]) :: Path.chain front := by
          rw [Path.chain, Path.stops_snoc, List.nil_append, if_pos hstop, List.reverse_append]
          rfl
        rw [hchain, ← Path.place_ofPieces hslash (by simp)]
        apply makes_cons hmakes
        · exact hfits _ (by simp) (List.prefix_refl _)
        · exact fun x hx => (Path.mem_trail_ofPieces_iff hslash).2 (.inr hx)
        · intro x hx
          obtain rfl | hx := (Path.mem_trail_ofPieces_iff hslash).1 hx
          · exact .inr d.entry?_root
          · exact .inl hx
      -- A piece that stays where it is stands for no directory of its own.
      · rw [not_or, not_not] at hstop
        have hchain : Path.chain (front ++ [last]) = Path.chain front := by
          rw [Path.chain, Path.stops_snoc, List.nil_append, if_neg (by simpa using hstop), List.append_nil]
          rfl
        have hplace : destination d.home (Path.stepsOf (front ++ [last])) =
            destination d.home (Path.stepsOf front) := by
          rw [Path.stepsOf_append hstop.1, destination_append, List.map_singleton, hstop.2]
          rfl
        rw [hchain, hplace]
        refine hmakes.congr fun x => ?_
        rw [List.mem_append, List.mem_singleton]
        exact or_iff_left_of_imp fun hx => hx ▸ Path.destination_mem_trail d.home front

/-! Files. -/

/-- Whether a file can be written: the way to it is free of files, and no directory lies or is made at
its place. -/
structure Accepts (d : Disk) (p : Path) : Prop where
  fits : p.Fits
  way : ∀ x ∈ p.way d.home, ¬ d.IsFile x
  apart : p.place d.home ∉ p.way d.home
  free : d.entry? (p.place d.home) ≠ some .directory

section

variable {init : List Path.Step} {n : String}

theorem place_ne_root (hend : p.steps = init ++ [.name n]) (home : Location) : p.place home ≠ [] := by
  rw [Path.place, hend, destination_append]
  exact List.concat_ne_nil _ _

theorem makes_above (hhome : d.entry? d.home = some .directory) (hend : p.steps = init ++ [.name n])
    (hfits : p.Fits) : d.Makes ([] :: p.way d.home) (d.makeDirectories p.above) := by
  obtain ⟨front, last, hpieces, hlast⟩ := Path.exists_pieces hend
  rw [Path.above_eq hpieces (by simp [hlast])]
  have hslash : ∀ piece ∈ front, '/' ∉ piece := fun piece hpiece =>
    Path.notMem_of_pieces (hpieces ▸ List.mem_append_left _ hpiece)
  refine (makes_chain hhome hslash ?_).congr fun x => ?_
  · rintro front' hne ⟨back, rfl⟩
    exact hfits.ofPieces (hpieces.trans (List.append_assoc _ _ _)) hne
  · rw [Path.mem_trail_iff hpieces hfits.text_ne, List.mem_cons]

theorem writeFile_eq (h : d.locate p = .ok x) :
    d.writeFile p text =
      match d.entry? x with
      | some .directory => .error .isDirectory
      | _ => .ok (d.put x (.file text)) := by
  rw [writeFile, h]
  rfl

theorem exists_write (hhome : d.entry? d.home = some .directory) (hend : p.steps = init ++ [.name n])
    (h : d.Accepts p) (text : String) : ∃ e, d.write p text = .ok e := by
  have hfiles : ∀ x ∈ [] :: p.way d.home, ¬ d.IsFile x :=
    List.forall_mem_cons.2 ⟨not_isFile_of_directory d.entry?_root, h.way⟩
  have hmakes := makes_above hhome hend h.fits
  obtain ⟨e, he⟩ := hmakes.2.2 hfiles
  have hadds := hmakes.1 e he
  have hlocate : e.locate p = .ok (p.place d.home) := by
    rw [← hadds.1]
    refine locate_of_directories h.fits fun x hx => ?_
    rw [hadds.1] at hx
    exact hadds.directory (List.mem_cons_of_mem _ hx) (h.way x hx)
  have hentry : e.entry? (p.place d.home) = d.entry? (p.place d.home) := by
    rw [hadds.2]
    apply if_neg
    rintro ⟨hmem, -⟩
    exact (List.mem_cons.1 hmem).elim (place_ne_root hend d.home) h.apart
  refine ⟨e.put (p.place d.home) (.file text), ?_⟩
  rw [write, he]
  refine (writeFile_eq hlocate).trans ?_
  rw [hentry]
  split
  · next hdirectory => exact absurd hdirectory h.free
  · rfl

theorem of_write (hhome : d.entry? d.home = some .directory) (hend : p.steps = init ++ [.name n])
    (h : d.write p text = .ok e) :
    d.Accepts p ∧ e.home = d.home ∧
      ∀ x, e.entry? x =
        if x = p.place d.home then some (.file text)
        else if x ∈ p.way d.home ∧ d.entry? x = none then some .directory
        else d.entry? x := by
  obtain ⟨e', he', h⟩ := bind_eq_ok.1 h
  obtain ⟨place, hlocate, h⟩ := bind_eq_ok.1 h
  obtain ⟨hfits, hdirectories, hplace⟩ := of_locate_eq_ok hlocate
  have hmakes := makes_above hhome hend hfits
  have hadds := hmakes.1 e' he'
  have hfiles := hmakes.2.1 ⟨e', he'⟩
  rw [hadds.1] at hdirectories hplace
  subst hplace
  have hroot := place_ne_root hend d.home
  split at h
  · cases h
  · next hnot =>
      rw [← Except.ok.inj h]
      refine ⟨⟨hfits, (List.forall_mem_cons.1 hfiles).2, fun hmem => ?_, fun hfree => ?_⟩, hadds.1, fun x => ?_⟩
      · have hmem' := List.mem_cons_of_mem [] hmem
        exact hnot (hadds.directory hmem' (hfiles _ hmem'))
      · exact hnot (by rw [hadds.2, hfree, if_neg (by simp)])
      · rw [entry?_put hroot, hadds.2]
        by_cases hx : x = []
        · subst hx
          simp [entry?_root]
        · simp [hx]

end

end Disk

end TwinView
