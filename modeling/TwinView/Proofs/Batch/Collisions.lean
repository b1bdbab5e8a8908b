import Mathlib.Data.List.Nodup
import TwinView.Proofs.Batch.Schedules

/-!
Which names share a file. The path of a file is made of what stands between the dots and slashes of its
name, without empty folders. A batch writes no file twice iff its names differ in that, and then what it
writes does not depend on the order in which its inputs are compiled.
-/

namespace TwinView

open CommandLine (destination)

namespace Target

variable {t u : Target} {home place x : Location} {front rest : List Path.Step} {pieces : List (List Char)}

def key (t : Target) : Side × List (List Char) × List Char := (t.side, t.folders.filter (· ≠ []), t.stem)

def fileName (t : Target) : String := String.ofList (t.stem ++ t.side.extension.toList)

def names (t : Target) : List String :=
  t.side.directory :: ((t.folders.filter (· ≠ [])).map String.ofList ++ [t.fileName])

theorem directory_inj {a b : Side} (h : a.directory = b.directory) : a = b := by
  cases a <;> cases b <;> first | rfl | simp [Side.directory] at h

theorem names_inj : t.names = u.names ↔ t.key = u.key := by
  constructor
  · intro h
    rw [names, names] at h
    obtain ⟨hside, h⟩ := List.cons.inj h
    obtain ⟨hfolders, hfile⟩ := List.append_inj' h (by simp)
    have hside := directory_inj hside
    have hstem := String.ofList_injective (List.singleton_inj.1 hfile)
    rw [hside] at hstem
    rw [key, key, hside, List.append_cancel_right hstem,
      List.map_injective_iff.2 (fun _ _ => String.ofList_injective) hfolders]
  · intro h
    obtain ⟨hside, h⟩ := Prod.mk.inj h
    obtain ⟨hfolders, hstem⟩ := Prod.mk.inj h
    rw [names, names, fileName, fileName, hside, hfolders, hstem]

theorem filter_map_ofPiece (h : ∀ piece ∈ pieces, '.' ∉ piece) :
    (pieces.map Path.Step.ofPiece).filter (· ≠ .here) =
      ((pieces.filter (· ≠ [])).map String.ofList).map .name := by
  induction pieces with
  | nil => rfl
  | cons piece pieces ih =>
      have ih := ih fun p hp => h p (List.mem_cons_of_mem _ hp)
      rw [List.map_cons, Path.Step.ofPiece_of_notMem (h piece List.mem_cons_self)]
      by_cases hpiece : piece = []
      · rw [if_pos hpiece, List.filter_cons_of_neg (by simp), List.filter_cons_of_neg (by simpa using hpiece), ih]
      · rw [if_neg hpiece, List.filter_cons_of_pos (by simp), List.filter_cons_of_pos (by simpa using hpiece), ih]
        rfl

theorem dot_notMem_folders (t : Target) {piece : List Char} (h : piece ∈ t.folders) : '.' ∉ piece :=
  (of_mem_segments (List.mem_of_mem_dropLast h)).2

theorem parts_path (h : ¬ isRooted t.name) : t.path.parts = t.names.map .name := by
  rw [Path.parts_eq, t.steps_path (by simpa using h), Path.partsOf, List.filter_append,
    filter_map_ofPiece fun _ => t.dot_notMem_folders, names, List.map_cons, List.map_append]
  rfl

/-- Two files have one path iff their names agree between their dots and slashes. -/
theorem parts_join_eq_iff (p : Path) (ht : ¬ isRooted t.name) (hu : ¬ isRooted u.name) :
    (p.join t.path).parts = (p.join u.path).parts ↔ t.key = u.key := by
  rw [Path.parts_join p (t.steps_path (by simpa using ht)), Path.parts_join p (u.steps_path (by simpa using hu)),
    List.append_cancel_left_eq, parts_path ht, parts_path hu, ← names_inj]
  exact (List.map_injective_iff.2 fun a b h => by simpa using h).eq_iff

theorem destination_path (h : ¬ isRooted t.name) (place : Location) :
    destination place t.path.steps = place ++ t.names := by
  have hsteps := t.steps_path (by simpa using h)
  have hparts : t.path.steps.filter (· ≠ .here) = t.path.parts := by
    rw [Path.parts_eq, hsteps, List.filter_cons_of_pos (by simp)]
    rfl
  rw [← destination_filter, hparts, parts_path h, destination_names]

theorem exists_front (p : Path) (home : Location) :
    ∃ front, destination home front = p.place home ∧
      ∀ {t : Target}, ¬ isRooted t.name → (p.join t.path).steps = front ++ t.path.steps := by
  obtain ⟨front, hfront, hjoin⟩ := p.steps_join
  refine ⟨front, ?_, fun {t} ht => hjoin (t.steps_path (by simpa using ht))⟩
  rw [Path.place]
  obtain hfront | ⟨-, hfront⟩ := hfront
  · rw [hfront]
  · rw [hfront, destination_append]
    rfl

theorem place_join (p : Path) (h : ¬ isRooted t.name) (home : Location) :
    (p.join t.path).place home = p.place home ++ t.names := by
  obtain ⟨front, hfront, hjoin⟩ := exists_front p home
  rw [Path.place, hjoin h, destination_append, destination_path h, hfront]

theorem place_join_eq_iff (p : Path) (ht : ¬ isRooted t.name) (hu : ¬ isRooted u.name) (home : Location) :
    (p.join t.path).place home = (p.join u.path).place home ↔ t.key = u.key := by
  rw [place_join p ht, place_join p hu, List.append_cancel_left_eq, names_inj]

/-- The folders on the way to a file are told from files by having no dot in their names. -/
theorem dotless_of_visits (h : ¬ isRooted t.name) (hx : x ∈ visits place t.path.steps) :
    ∃ names : List String, x = place ++ names ∧ ∀ n ∈ names, '.' ∉ n.toList := by
  have hdown {steps : List Path.Step} (hsteps : ∀ s ∈ steps, s = .here ∨ ∃ n, s = .name n ∧ '.' ∉ n.toList)
      (place : Location) :
      ∃ names : List String, destination place steps = place ++ names ∧ ∀ n ∈ names, '.' ∉ n.toList := by
    induction steps generalizing place with
    | nil => exact ⟨[], (List.append_nil place).symm, nofun⟩
    | cons s rest ih =>
        obtain ⟨hs, hrest⟩ := List.forall_mem_cons.1 hsteps
        obtain rfl | ⟨n, rfl, hn⟩ := hs
        · exact ih hrest place
        · obtain ⟨names, hnames, hdotless⟩ := ih hrest (place ++ [n])
          refine ⟨n :: names, hnames.trans (List.append_assoc _ _ _), List.forall_mem_cons.2 ⟨hn, hdotless⟩⟩
  -- The last step leads to the file itself and is not among those of the way.
  obtain ⟨front, back, hsteps, hback, rfl⟩ := mem_visits_iff.1 hx
  apply hdown
  intro s hs
  obtain ⟨back, last, rfl⟩ : ∃ back' last, back = back' ++ [last] :=
    ⟨_, _, (List.dropLast_concat_getLast hback).symm⟩
  rw [t.steps_path (by simpa using h), ← List.cons_append, ← List.append_assoc] at hsteps
  have hmem : s ∈ .name t.side.directory :: t.folders.map Path.Step.ofPiece := by
    rw [(List.append_inj' hsteps rfl).1]
    exact List.mem_append_left _ hs
  obtain rfl | hmem := List.mem_cons.1 hmem
  · exact .inr ⟨_, rfl, by cases t.side <;> decide⟩
  · obtain ⟨piece, hpiece, rfl⟩ := List.mem_map.1 hmem
    have hdot := t.dot_notMem_folders hpiece
    rw [Path.Step.ofPiece_of_notMem hdot]
    split
    · exact .inl rfl
    · exact .inr ⟨_, rfl, by simpa using hdot⟩

theorem dot_mem_fileName (t : Target) : '.' ∈ t.fileName.toList := by
  rw [fileName, String.toList_ofList]
  apply List.mem_append_right
  cases t.side <;> decide

/-- No file of a batch lies on the way to another one, unless it lies on the way to itself. -/
theorem mem_own_way (p : Path) (ht : ¬ isRooted t.name) (hu : ¬ isRooted u.name)
    (h : (p.join u.path).place home ∈ (p.join t.path).way home) :
    (p.join u.path).place home ∈ (p.join u.path).way home := by
  obtain ⟨front, hfront, hjoin⟩ := exists_front p home
  rw [Path.way, hjoin ht, visits_append, List.mem_append] at h
  rw [Path.way, hjoin hu, visits_append, List.mem_append]
  obtain h | h := h
  · exact .inl h
  · obtain ⟨names, hplace, hdotless⟩ := dotless_of_visits ht h
    rw [place_join p hu, hfront, List.append_cancel_left_eq] at hplace
    exact absurd u.dot_mem_fileName (hdotless _ (by simp [← hplace, Target.names]))

end Target

/-- The files of an input. There are none if it is refused. -/
def targetsOf (s : Settings) (d : Disk) (input : Path) : List Target :=
  match d.read input with
  | .error _ => []
  | .ok source =>
    match readViews source with
    | .error _ => []
    | .ok views =>
      match outputs s views with
      | .error _ => []
      | .ok _ => targets s views

/-- No two files of a batch have names that agree between their dots and slashes. -/
def NamesApart (s : Settings) (d : Disk) (inputs : List Path) : Prop :=
  ((inputs.flatMap (targetsOf s d)).map Target.key).Nodup

section

variable {s : Settings} {d : Disk} {outDir input : Path} {inputs : List Path} {o : Options}

theorem map_fst_planned (s : Settings) (d : Disk) (input : Path) :
    (planned s d input).map (·.1) = (targetsOf s d input).map Target.path := by
  rw [planned, targetsOf, compileFile]
  cases hread : d.read input with
  | error fault => rfl
  | ok source =>
      cases hviews : readViews source with
      | error error => simp [hviews, bind, Except.bind, Except.mapError]
      | ok views =>
          cases houtputs : outputs s views with
          | error error => simp [hviews, houtputs, bind, Except.bind, Except.mapError]
          | ok files =>
              simp only [hviews, houtputs, bind, Except.bind, Except.mapError]
              exact map_fst_outputs houtputs

theorem map_fst_flatMap_planned (s : Settings) (d : Disk) (inputs : List Path) :
    (inputs.flatMap (planned s d)).map (·.1) = (inputs.flatMap (targetsOf s d)).map Target.path := by
  rw [List.map_flatMap, List.map_flatMap]
  exact congrArg (inputs.flatMap ·) (funext fun input => map_fst_planned s d input)

theorem map_planned {γ : Type} (s : Settings) (d : Disk) (inputs : List Path) (k : Path → γ) :
    (inputs.flatMap (planned s d)).map (fun f => k f.1) =
      (inputs.flatMap (targetsOf s d)).map fun t => k t.path := by
  have h := congrArg (List.map k) (map_fst_flatMap_planned s d inputs)
  rwa [List.map_map, List.map_map, Function.comp_def, Function.comp_def] at h

theorem exists_target {f : Path × String} (h : f ∈ inputs.flatMap (planned s d)) :
    ∃ t ∈ inputs.flatMap (targetsOf s d), f.1 = t.path := by
  have hmem : f.1 ∈ (inputs.flatMap (targetsOf s d)).map Target.path := by
    rw [← map_fst_flatMap_planned]
    exact List.mem_map_of_mem h
  obtain ⟨t, ht, hpath⟩ := List.mem_map.1 hmem
  exact ⟨t, ht, hpath.symm⟩

theorem mem_firsts {paths : List Path} (h : input ∈ Path.firsts paths) : input ∈ paths := by
  induction paths with
  | nil => exact h
  | cons p paths ih =>
      obtain rfl | h := List.mem_cons.1 h
      · exact List.mem_cons_self
      · exact List.mem_cons_of_mem _ (ih (List.mem_of_mem_filter h))

theorem read_of_isFile (h : d.isFile input) : ∃ text, d.read input = .ok text := by
  rw [Disk.isFile] at h
  split at h
  · next text hfind => exact ⟨text, by rw [Disk.read, hfind]⟩
  · cases h

theorem isFile_of_filesOf {pattern : String} {files : List Path} (h : Options.filesOf d pattern = .ok files) :
    ∀ p ∈ files, d.isFile p := by
  rw [Options.filesOf] at h
  split at h
  · cases h
  · split at h
    · cases h
    · split at h
      · cases h
      · cases h
        exact fun p hp => (List.mem_filter.1 hp).2

theorem readable_of_inputFiles (h : o.inputFiles d = .ok inputs) :
    ∀ i ∈ inputs, ∃ text, d.read i = .ok text := by
  obtain ⟨found, hfound, h⟩ := bind_eq_ok.1 h
  cases h
  intro i hi
  rw [Path.arrange] at hi
  obtain ⟨files, hfiles, hmem⟩ := List.mem_flatten.1 (List.mem_mergeSort.1 (mem_firsts hi))
  have hall : ∀ files ∈ found, ∀ p ∈ files, d.isFile p :=
    ((List.forall₂_and_left _ _).1 ((forall₂_of_mapM hfound).flip.imp fun _ _ h => ⟨isFile_of_filesOf h, h⟩)).1
  exact read_of_isFile (hall files hfiles i hmem)

/-- A batch of files with plain names, none of which lies in the place of an input, is an orderly one. -/
theorem orderly (hhome : d.entry? d.home = some .directory) (hread : ∀ i ∈ inputs, ∃ text, d.read i = .ok text)
    (hplain : ∀ t ∈ inputs.flatMap (targetsOf s d), ¬ isRooted t.name)
    (hspared : ∀ i ∈ inputs, ∀ t ∈ inputs.flatMap (targetsOf s d),
      (outDir.join t.path).place d.home ≠ i.place d.home) : Orderly s outDir d inputs := by
  refine ⟨hhome, hread, fun f hf => ?_, fun i hi f hf => ?_, fun f hf g hg => ?_⟩
  · obtain ⟨t, ht, hpath⟩ := exists_target hf
    obtain ⟨front, -, hjoin⟩ := Target.exists_front outDir d.home
    rw [hpath, hjoin (hplain t ht), t.steps_path (by simpa using hplain t ht), ← List.cons_append,
      ← List.append_assoc]
    exact ⟨_, t.fileName, rfl⟩
  · obtain ⟨t, ht, hpath⟩ := exists_target hf
    rw [hpath]
    exact hspared i hi t ht
  · obtain ⟨t, ht, hpath⟩ := exists_target hf
    obtain ⟨u, hu, hpath'⟩ := exists_target hg
    rw [hpath, hpath']
    exact Target.mem_own_way outDir (hplain t ht) (hplain u hu)

theorem nodup_map_iff {α β : Type} {xs : List Target} {k : Target → α} {k' : Target → β}
    (h : ∀ t ∈ xs, ∀ u ∈ xs, k t = k u ↔ k' t = k' u) : (xs.map k).Nodup ↔ (xs.map k').Nodup := by
  rw [List.Nodup, List.Nodup, List.pairwise_map, List.pairwise_map]
  exact List.Pairwise.iff_of_mem fun ha hb => not_congr (h _ ha _ hb)

theorem nodup_parts_iff (outDir : Path) (hplain : ∀ t ∈ inputs.flatMap (targetsOf s d), ¬ isRooted t.name) :
    ((inputs.flatMap (planned s d)).map fun f => (outDir.join f.1).parts).Nodup ↔ NamesApart s d inputs := by
  have hmap := map_planned s d inputs fun p => (outDir.join p).parts
  beta_reduce at hmap
  rw [hmap, NamesApart]
  exact nodup_map_iff fun t ht u hu => Target.parts_join_eq_iff outDir (hplain t ht) (hplain u hu)

theorem NamesApart.alike (h : NamesApart s d inputs) (outDir : Path) (home : Location)
    (hplain : ∀ t ∈ inputs.flatMap (targetsOf s d), ¬ isRooted t.name) :
    Alike outDir home (inputs.flatMap (planned s d)) := by
  have hnodup : ((inputs.flatMap (planned s d)).map fun f => (outDir.join f.1).place home).Nodup := by
    have hmap := map_planned s d inputs fun p => (outDir.join p).place home
    beta_reduce at hmap
    rw [hmap]
    refine (nodup_map_iff fun t ht u hu => ?_).2 h
    exact Target.place_join_eq_iff outDir (hplain t ht) (hplain u hu) home
  intro f hf g hg hplace
  rw [List.inj_on_of_nodup_map hnodup hf hg hplace]

end

/-- A batch without faults writes no file twice iff its names are apart. If they are, no schedule of the
batch writes a file twice either, and all schedules end with the same report and the same disk. -/
theorem writesOnce_iff_namesApart {o : Options} {s : Settings} {d e : Disk} {inputs : List Path}
    {outcome : Outcome} (hsettings : o.settings d = .ok s) (hinputs : o.inputFiles d = .ok inputs)
    (hhome : d.entry? d.home = some .directory)
    (hplain : ∀ t ∈ inputs.flatMap (targetsOf s d), ¬ isRooted t.name)
    (hspared : ∀ i ∈ inputs, ∀ t ∈ inputs.flatMap (targetsOf s d),
      (o.outDir.join t.path).place d.home ≠ i.place d.home)
    (hrun : run o d = .ok (outcome, e)) :
    (outcome.diagnostics = [] → ((outcome.written.map (·.parts)).Nodup ↔ NamesApart s d inputs)) ∧
      (NamesApart s d inputs →
        (outcome.written.map (·.parts)).Nodup ∧
          ∀ stage, Reaches s o.outDir (.start d inputs) stage → AllFinished stage.2 →
            (outcomeOf o.outDir stage.2).written = outcome.written ∧
              (outcomeOf o.outDir stage.2).diagnostics.map Diagnostic.file =
                outcome.diagnostics.map Diagnostic.file ∧
              ∀ place, Disk.entry? stage.1 place = e.entry? place) := by
  have horderly := orderly hhome (readable_of_inputFiles hinputs) hplain hspared
  have hstart := Underway.start s o.outDir d inputs
  obtain ⟨tasks, hreaches, hfinished, rfl⟩ := run_reaches hsettings hinputs hrun
  have hunderway := hstart.reaches horderly hreaches
  have hnodup := nodup_parts_iff o.outDir hplain
  have hmap : ((inputs.flatMap (planned s d)).map (o.outDir.join ·.1)).map (·.parts) =
      (inputs.flatMap (planned s d)).map fun f => (o.outDir.join f.1).parts := List.map_map
  constructor
  · intro hnone
    rw [hunderway.outcome_eq hfinished hnone, hmap, hnodup]
  · intro hapart
    constructor
    · exact ((hunderway.outcome_sublist.map _).nodup (hmap ▸ hnodup.2 hapart))
    · intro stage hstage hend
      obtain ⟨hplaces, hwritten, hfiles⟩ := (hstart.reaches horderly hstage).agree hunderway hend hfinished
        (hapart.alike o.outDir d.home hplain)
      exact ⟨hwritten, hfiles, hplaces⟩

/-- Two inputs in a directory, to be compiled with their output beside them. -/
def twoInputs : Disk where
  home := ["shop"]
  entries := [(["shop"], .directory),
    (["shop", "a.json"], .file "[\x7b\"name\": \"a.Cart\"\x7d, \x7b\"name\": \"a.Item\", \"serverOnly\": true\x7d]"),
    (["shop", "b.json"], .file "\x7b\"name\": \"b.Cart\"\x7d")]

def twins : Disk where
  home := ["shop"]
  entries := [(["shop"], .directory),
    (["shop", "a.json"], .file "[\x7b\"name\": \"A\", \"serverOnly\": true\x7d, \x7b\"name\": \"A\", \"serverOnly\": true\x7d]")]

def allInputs : Options where
  inputs := ["*.json"]
  outDir := ⟨"."⟩
  serverRoot := none
  clientRoot := none
  config := none
  verbose := false

theorem inputFiles_twoInputs : allInputs.inputFiles twoInputs = .ok [⟨"a.json"⟩, ⟨"b.json"⟩] := by
  have hfound : allInputs.inputs.mapM (Options.filesOf twoInputs) = .ok [[⟨"a.json"⟩, ⟨"b.json"⟩]] := by
    decide +kernel
  have harrange : Path.arrange [⟨"a.json"⟩, ⟨"b.json"⟩] = [⟨"a.json"⟩, ⟨"b.json"⟩] := by
    rw [Path.arrange, List.mergeSort_of_pairwise (by decide)]
    decide
  rw [Options.inputFiles, hfound]
  exact congrArg Except.ok harrange

theorem targets_twoInputs : [⟨"a.json"⟩, ⟨"b.json"⟩].flatMap (targetsOf {} twoInputs) =
    [⟨.client, "a.cart"⟩, ⟨.server, "a.Cart"⟩, ⟨.server, "a.Item"⟩, ⟨.client, "b.cart"⟩,
      ⟨.server, "b.Cart"⟩] := by decide +kernel

theorem writesOnce_iff_namesApart_twoInputs :
    ∃ outcome e, run allInputs twoInputs = .ok (outcome, e) ∧ (outcome.written.map (·.parts)).Nodup ∧
      ∀ stage, Reaches {} allInputs.outDir (.start twoInputs [⟨"a.json"⟩, ⟨"b.json"⟩]) stage →
        AllFinished stage.2 → ∀ place, Disk.entry? stage.1 place = e.entry? place := by
  have hsettings : allInputs.settings twoInputs = .ok {} := by decide
  have hrun := run_eq hsettings inputFiles_twoInputs
  cases hfold : [⟨"a.json"⟩, ⟨"b.json"⟩].foldl (runFile {} allInputs.outDir) ({}, twoInputs) with
  | mk outcome e =>
      rw [hfold] at hrun
      have hapart := (writesOnce_iff_namesApart hsettings inputFiles_twoInputs (by decide)
        (by rw [targets_twoInputs]; decide) (by rw [targets_twoInputs]; decide) hrun).2
        (by rw [NamesApart, targets_twoInputs]; decide)
      exact ⟨outcome, e, hrun, hapart.1, fun stage hstage hend => (hapart.2 stage hstage hend).2.2⟩

/-- Two views of one name are written one over the other, and nothing is reported. -/
theorem not_writesOnce_twins :
    ∃ outcome e, run allInputs twins = .ok (outcome, e) ∧ outcome.diagnostics = [] ∧
      ¬ (outcome.written.map (·.parts)).Nodup := by
  have hall : ((run allInputs twins).toOption.map fun r => (r.1.diagnostics, r.1.written)) =
      some ([], [⟨"./server/A.java"⟩, ⟨"./server/A.java"⟩]) := by decide +kernel
  cases hrun : run allInputs twins with
  | error refusal =>
      rw [hrun] at hall
      cases hall
  | ok done =>
      rw [hrun] at hall
      obtain ⟨hnone, hwritten⟩ := Prod.mk.inj (Option.some.inj hall)
      refine ⟨done.1, done.2, rfl, hnone, ?_⟩
      rw [hwritten]
      decide

end TwinView
