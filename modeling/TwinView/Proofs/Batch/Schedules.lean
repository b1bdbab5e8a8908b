import Mathlib.Logic.Relation
import TwinView.Proofs.Batch.Writing

/-!
Batches whose inputs are compiled side by side. Each input is a task that is read and compiled in one step
and then writes one file after the other, and any task may make the next step. What a task writes depends
on the disk at the start only, so that two schedules of a batch write the same files.
-/

namespace TwinView

/-- What has come of an input: nothing yet, some of its files, or its end, with the fault that ended it. -/
inductive Task
  | waiting
  | writing (done todo : List (Path × String))
  | finished (done : List (Path × String)) (fault : Option Diagnostic)

namespace Task

def made : Task → List (Path × String)
  | waiting => []
  | writing done _ => done
  | finished done _ => done

/-- One step of the task of an input. -/
inductive Step (s : Settings) (outDir input : Path) : Disk → Task → Disk → Task → Prop
  | refuse {d : Disk} {fault : Diagnostic} (h : compileFile s d input = .error fault) :
      Step s outDir input d waiting d (finished [] (some fault))
  | start {d : Disk} {files : List (Path × String)} (h : compileFile s d input = .ok files) :
      Step s outDir input d waiting d (writing [] files)
  | write {d e : Disk} {f : Path × String} (done todo : List (Path × String))
      (h : d.write (outDir.join f.1) f.2 = .ok e) :
      Step s outDir input d (writing done (f :: todo)) e (writing (done ++ [f]) todo)
  | fail {d : Disk} {f : Path × String} {fault : DiskFault} (done todo : List (Path × String))
      (h : d.write (outDir.join f.1) f.2 = .error fault) :
      Step s outDir input d (writing done (f :: todo)) d
        (finished done (some (.disk (outDir.join f.1) fault)))
  | finish {d : Disk} (done : List (Path × String)) :
      Step s outDir input d (writing done []) d (finished done none)

end Task

/-- A batch on its way: the disk, and the inputs with their tasks. -/
abbrev Stage := Disk × List (Path × Task)

/-- One step of a batch, made by any of its tasks. -/
inductive BatchStep (s : Settings) (outDir : Path) : Stage → Stage → Prop
  | task {input : Path} {d e : Disk} {t t' : Task} (before after : List (Path × Task))
      (h : Task.Step s outDir input d t e t') :
      BatchStep s outDir (d, before ++ (input, t) :: after) (e, before ++ (input, t') :: after)

def Reaches (s : Settings) (outDir : Path) : Stage → Stage → Prop := Relation.ReflTransGen (BatchStep s outDir)

def Stage.start (d : Disk) (inputs : List Path) : Stage := (d, inputs.map fun i => (i, Task.waiting))

variable {s : Settings} {outDir input : Path} {d e : Disk} {inputs : List Path} {fs : List (Path × String)}
  {f g : Path × String} {x : Location} {text : String}

def Alike (outDir : Path) (home : Location) (fs : List (Path × String)) : Prop :=
  ∀ f ∈ fs, ∀ g ∈ fs, (outDir.join f.1).place home = (outDir.join g.1).place home → f.2 = g.2

theorem Alike.mono {home : Location} {fs' : List (Path × String)} (h : Alike outDir home fs) (hsub : fs' ⊆ fs) :
    Alike outDir home fs' :=
  fun f hf g hg => h f (hsub hf) g (hsub hg)

/-- What a disk holds after files have been written on `d`. -/
structure Made (outDir : Path) (d : Disk) (fs : List (Path × String)) (e : Disk) : Prop where
  home : e.home = d.home
  directory (x : Location) : e.entry? x = some .directory ↔
    d.entry? x = some .directory ∨ ∃ f ∈ fs, x ∈ (outDir.join f.1).way d.home
  file {x : Location} {text : String} (h : e.entry? x = some (.file text)) :
    (∃ f ∈ fs, (outDir.join f.1).place d.home = x ∧ f.2 = text) ∨
      d.entry? x = some (.file text) ∧ ∀ f ∈ fs, (outDir.join f.1).place d.home ≠ x
  old {x : Location} (h : d.IsFile x) : e.IsFile x
  new {f : Path × String} (h : f ∈ fs) : e.IsFile ((outDir.join f.1).place d.home)

namespace Made

theorem nil (outDir : Path) (d : Disk) : Made outDir d [] d :=
  ⟨rfl, fun _ => by simp, fun h => .inr ⟨h, nofun⟩, id, nofun⟩

theorem congr {fs' : List (Path × String)} (h : Made outDir d fs e) (hmem : ∀ f, f ∈ fs' ↔ f ∈ fs) :
    Made outDir d fs' e :=
  ⟨h.home, by simpa only [hmem] using h.directory, fun hx => by simpa only [hmem] using h.file hx, h.old,
    fun hf => h.new ((hmem _).1 hf)⟩

theorem isFile_iff (h : Made outDir d fs e) :
    e.IsFile x ↔ d.IsFile x ∨ ∃ f ∈ fs, (outDir.join f.1).place d.home = x := by
  constructor
  · rintro ⟨text, hfile⟩
    obtain ⟨f, hf, hplace, -⟩ | ⟨hold, -⟩ := h.file hfile
    · exact .inr ⟨f, hf, hplace⟩
    · exact .inl ⟨text, hold⟩
  · rintro (hold | ⟨f, hf, rfl⟩)
    · exact h.old hold
    · exact h.new hf

theorem atHome (h : Made outDir d fs e) (hhome : d.entry? d.home = some .directory) :
    e.entry? e.home = some .directory := by
  rw [h.home]
  exact (h.directory _).2 (.inl hhome)

theorem write {e' : Disk} {init : List Path.Step} {n : String} (h : Made outDir d fs e)
    (hhome : d.entry? d.home = some .directory) (hend : (outDir.join f.1).steps = init ++ [.name n])
    (hwrite : e.write (outDir.join f.1) f.2 = .ok e') : Made outDir d (f :: fs) e' := by
  obtain ⟨⟨-, hway, hapart, hfree⟩, hkept, hentry⟩ := Disk.of_write (h.atHome hhome) hend hwrite
  rw [h.home] at hway hapart hfree hentry
  have hother {x : Location} (hx : x ≠ (outDir.join f.1).place d.home) (hfile : e.IsFile x) :
      Disk.entry? e' x = e.entry? x := by
    obtain ⟨text, hfile⟩ := hfile
    rw [hentry, if_neg hx, if_neg (by simp [hfile])]
  have hkeep {x : Location} (hx : e.IsFile x) : e'.IsFile x := by
    by_cases hplace : x = (outDir.join f.1).place d.home
    · exact ⟨f.2, by rw [hentry, if_pos hplace]⟩
    · rwa [Disk.IsFile, hother hplace hx]
  refine ⟨hkept.trans h.home, fun x => ?_, fun {x text} hx => ?_, fun hx => hkeep (h.old hx), ?_⟩
  · have hsplit : (∃ g ∈ f :: fs, x ∈ (outDir.join g.1).way d.home) ↔
        x ∈ (outDir.join f.1).way d.home ∨ ∃ g ∈ fs, x ∈ (outDir.join g.1).way d.home := by simp
    rw [hsplit, or_left_comm, ← h.directory, hentry]
    by_cases hplace : x = (outDir.join f.1).place d.home
    · subst hplace
      simp [hapart, hfree]
    · rw [if_neg hplace]
      by_cases hnew : x ∈ (outDir.join f.1).way d.home
      · obtain hnone | hdirectory | hfile := e.entry?_cases x
        · simp [hnew, hnone]
        · simp [hnew, hdirectory]
        · exact absurd hfile (hway x hnew)
      · simp [hnew]
  · rw [hentry] at hx
    by_cases hplace : x = (outDir.join f.1).place d.home
    · rw [if_pos hplace] at hx
      cases hx
      exact .inl ⟨f, List.mem_cons_self, hplace.symm, rfl⟩
    · rw [if_neg hplace] at hx
      split at hx
      · cases hx
      · obtain ⟨g, hg, hgplace⟩ | ⟨hold, hothers⟩ := h.file hx
        · exact .inl ⟨g, List.mem_cons_of_mem _ hg, hgplace⟩
        · exact .inr ⟨hold, List.forall_mem_cons.2 ⟨Ne.symm hplace, hothers⟩⟩
  · intro g hg
    obtain rfl | hg := List.mem_cons.1 hg
    · exact ⟨g.2, by rw [hentry, if_pos rfl]⟩
    · exact hkeep (h.new hg)

/-- What can be written is known from the disk at the start, as long as no file of the batch lies on the
way to another one. -/
theorem accepts_iff (h : Made outDir d fs e) (hmade : ∀ g ∈ fs, d.Accepts (outDir.join g.1))
    (htidy : ∀ g ∈ fs, (outDir.join g.1).place d.home ∈ (outDir.join f.1).way d.home →
      (outDir.join g.1).place d.home ∈ (outDir.join g.1).way d.home)
    (htidy' : ∀ g ∈ fs, (outDir.join f.1).place d.home ∈ (outDir.join g.1).way d.home →
      (outDir.join f.1).place d.home ∈ (outDir.join f.1).way d.home) :
    e.Accepts (outDir.join f.1) ↔ d.Accepts (outDir.join f.1) := by
  constructor
  · rintro ⟨hfits, hway, hapart, hfree⟩
    rw [h.home] at hway hapart hfree
    exact ⟨hfits, fun x hx hfile => hway x hx (h.old hfile), hapart,
      fun hdirectory => hfree ((h.directory _).2 (.inl hdirectory))⟩
  · rintro ⟨hfits, hway, hapart, hfree⟩
    refine ⟨hfits, fun x hx hfile => ?_, h.home ▸ hapart, fun hdirectory => ?_⟩
    · rw [h.home] at hx
      obtain hold | ⟨g, hg, rfl⟩ := h.isFile_iff.1 hfile
      · exact hway x hx hold
      · exact (hmade g hg).apart (htidy g hg hx)
    · rw [h.home] at hdirectory
      obtain hold | ⟨g, hg, hmem⟩ := (h.directory _).1 hdirectory
      · exact hfree hold
      · exact hapart (htidy' g hg hmem)

/-- Two disks on which the same files have been written hold the same, if files in one place are alike. -/
theorem entry?_of_made {e' : Disk} {fs' : List (Path × String)} {entry : Entry} (h : Made outDir d fs e)
    (h' : Made outDir d fs' e') (hmem : ∀ f, f ∈ fs ↔ f ∈ fs')
    (halike : Alike outDir d.home fs) (hentry : e.entry? x = some entry) : Disk.entry? e' x = some entry := by
  have h' := h'.congr hmem
  cases entry with
  | directory => exact (h'.directory x).2 ((h.directory x).1 hentry)
  | file text =>
      obtain ⟨text', hentry'⟩ := h'.isFile_iff.2 (h.isFile_iff.1 ⟨text, hentry⟩)
      rw [hentry']
      obtain ⟨f, hf, rfl, rfl⟩ | ⟨hold, hothers⟩ := h.file hentry
      · obtain ⟨g, hg, hplace, rfl⟩ | ⟨-, hothers⟩ := h'.file hentry'
        · rw [halike g hg f hf hplace]
        · exact absurd rfl (hothers f hf)
      · obtain ⟨g, hg, hplace, -⟩ | ⟨hold', -⟩ := h'.file hentry'
        · exact absurd hplace (hothers g hg)
        · rw [← hold', hold]

theorem entry?_eq {e' : Disk} {fs' : List (Path × String)} (h : Made outDir d fs e)
    (h' : Made outDir d fs' e') (hmem : ∀ f, f ∈ fs ↔ f ∈ fs')
    (halike : Alike outDir d.home fs) (x : Location) : e.entry? x = Disk.entry? e' x := by
  apply Option.ext
  intro entry
  constructor
  · exact h.entry?_of_made h' hmem halike
  · exact h'.entry?_of_made h (fun f => (hmem f).symm) (halike.mono fun f => (hmem f).2)

/-- A file in whose place nothing has been written is read as it was. -/
theorem read (h : Made outDir d fs e) (hread : d.read input = .ok text)
    (hspared : ∀ f ∈ fs, (outDir.join f.1).place d.home ≠ input.place d.home) : e.read input = .ok text := by
  obtain ⟨hfits, hway, hentry⟩ := Disk.read_eq_ok_iff.1 hread
  rw [Disk.read_eq_ok_iff, h.home]
  refine ⟨hfits, fun x hx => (h.directory x).2 (.inl (hway x hx)), ?_⟩
  obtain ⟨text', hentry'⟩ := h.old ⟨text, hentry⟩
  obtain ⟨f, hf, hplace, -⟩ | ⟨hold, -⟩ := h.file hentry'
  · exact absurd hplace (hspared f hf)
  · rw [hentry', ← hold, hentry]

end Made

/-- What is generated from an input, as the disk is at the start. -/
def planned (s : Settings) (d : Disk) (input : Path) : List (Path × String) :=
  match compileFile s d input with
  | .ok files => files
  | .error _ => []

/-- A batch in which no generated file lies in the place of an input or on the way to another file. -/
structure Orderly (s : Settings) (outDir : Path) (d : Disk) (inputs : List Path) : Prop where
  home : d.entry? d.home = some .directory
  readable : ∀ i ∈ inputs, ∃ text, d.read i = .ok text
  named : ∀ f ∈ inputs.flatMap (planned s d), ∃ init n, (outDir.join f.1).steps = init ++ [.name n]
  spared : ∀ i ∈ inputs, ∀ f ∈ inputs.flatMap (planned s d), (outDir.join f.1).place d.home ≠ i.place d.home
  tidy : ∀ f ∈ inputs.flatMap (planned s d), ∀ g ∈ inputs.flatMap (planned s d),
    (outDir.join g.1).place d.home ∈ (outDir.join f.1).way d.home →
      (outDir.join g.1).place d.home ∈ (outDir.join g.1).way d.home

/-- Where a task can stand: it has written the first of its files, up to the first that the disk does not
accept. -/
def Task.Stands (s : Settings) (outDir : Path) (d : Disk) (input : Path) : Task → Prop
  | .waiting => True
  | .writing done todo =>
      compileFile s d input = .ok (done ++ todo) ∧ ∀ f ∈ done, d.Accepts (outDir.join f.1)
  | .finished done none =>
      compileFile s d input = .ok done ∧ ∀ f ∈ done, d.Accepts (outDir.join f.1)
  | .finished done (some fault) =>
      compileFile s d input = .error fault ∧ done = [] ∨
        ∃ f rest cause, compileFile s d input = .ok (done ++ f :: rest) ∧
          (∀ g ∈ done, d.Accepts (outDir.join g.1)) ∧ ¬ d.Accepts (outDir.join f.1) ∧
          fault = .disk (outDir.join f.1) cause

theorem Task.Stands.made {t : Task} (h : t.Stands s outDir d input) :
    t.made <+: planned s d input ∧ ∀ f ∈ t.made, d.Accepts (outDir.join f.1) := by
  cases t with
  | waiting => exact ⟨List.nil_prefix, nofun⟩
  | writing done todo =>
      rw [planned, h.1]
      exact ⟨List.prefix_append _ _, h.2⟩
  | finished done fault =>
      cases fault with
      | none =>
          rw [planned, h.1]
          exact ⟨List.prefix_refl _, h.2⟩
      | some fault =>
          obtain ⟨-, rfl⟩ | ⟨f, rest, cause, hcompile, haccepts, -⟩ := h
          · exact ⟨List.nil_prefix, nofun⟩
          · rw [planned, hcompile]
            exact ⟨List.prefix_append _ _, haccepts⟩

/-- What holds of a batch on its way. -/
structure Underway (s : Settings) (outDir : Path) (d : Disk) (inputs : List Path) (stage : Stage) : Prop where
  inputs : stage.2.map (·.1) = inputs
  stands : ∀ it ∈ stage.2, it.2.Stands s outDir d it.1
  written : Made outDir d (stage.2.flatMap (·.2.made)) stage.1

namespace Underway

theorem start (s : Settings) (outDir : Path) (d : Disk) (inputs : List Path) :
    Underway s outDir d inputs (.start d inputs) := by
  refine ⟨?_, ?_, ?_⟩
  · simp [Stage.start, Function.comp_def]
  · intro it hit
    obtain ⟨i, -, rfl⟩ := List.mem_map.1 hit
    exact trivial
  · have hnone : (Stage.start d inputs).2.flatMap (·.2.made) = [] := by
      simp [Stage.start, List.flatMap_map, Task.made]
    rw [hnone]
    exact .nil outDir d

variable {stage stage' : Stage} {before after : List (Path × Task)} {t t' : Task} {e' : Disk}

theorem mem_generated (h : Underway s outDir d inputs stage) {g : Path × String}
    (hg : g ∈ stage.2.flatMap (·.2.made)) :
    g ∈ inputs.flatMap (planned s d) ∧ d.Accepts (outDir.join g.1) := by
  obtain ⟨it, hit, hg⟩ := List.mem_flatMap.1 hg
  obtain ⟨hpre, haccepts⟩ := (h.stands it hit).made
  refine ⟨List.mem_flatMap.2 ⟨it.1, ?_, hpre.subset hg⟩, haccepts g hg⟩
  rw [← h.inputs]
  exact List.mem_map_of_mem hit

/-- An input is compiled on the way as it would be at the start. -/
theorem compileFile_eq (horderly : Orderly s outDir d inputs) (h : Underway s outDir d inputs stage)
    (hinput : input ∈ inputs) : compileFile s stage.1 input = compileFile s d input := by
  obtain ⟨text, htext⟩ := horderly.readable input hinput
  have hread : stage.1.read input = .ok text :=
    h.written.read htext fun f hf => horderly.spared input hinput f (h.mem_generated hf).1
  rw [compileFile, compileFile, hread, htext]

theorem accepts_iff (horderly : Orderly s outDir d inputs) (h : Underway s outDir d inputs stage)
    (hf : f ∈ inputs.flatMap (planned s d)) :
    stage.1.Accepts (outDir.join f.1) ↔ d.Accepts (outDir.join f.1) := by
  apply h.written.accepts_iff
  · exact fun g hg => (h.mem_generated hg).2
  · exact fun g hg => horderly.tidy f hf g (h.mem_generated hg).1
  · exact fun g hg => horderly.tidy g (h.mem_generated hg).1 f hf

theorem replace (h : Underway s outDir d inputs (e, before ++ (input, t) :: after))
    (hstands : t'.Stands s outDir d input)
    (hmade : Made outDir d ((before ++ (input, t') :: after).flatMap (·.2.made)) e') :
    Underway s outDir d inputs (e', before ++ (input, t') :: after) := by
  refine ⟨?_, fun it hit => ?_, hmade⟩
  · rw [← h.inputs]
    simp
  · obtain hit | hit := List.mem_append.1 hit
    · exact h.stands it (List.mem_append_left _ hit)
    · obtain rfl | hit := List.mem_cons.1 hit
      · exact hstands
      · exact h.stands it (List.mem_append_right _ (List.mem_cons_of_mem _ hit))

theorem replace_of_made (h : Underway s outDir d inputs (e, before ++ (input, t) :: after))
    (hstands : t'.Stands s outDir d input) (hmade : t'.made = t.made) :
    Underway s outDir d inputs (e, before ++ (input, t') :: after) := by
  apply h.replace hstands
  simpa [hmade] using h.written

theorem mem_made_iff :
    g ∈ (before ++ (input, t) :: after).flatMap (·.2.made) ↔
      g ∈ t.made ∨ g ∈ (before ++ after).flatMap (·.2.made) := by
  simp only [List.flatMap_append, List.flatMap_cons, List.mem_append]
  exact or_left_comm

theorem mem_planned {done todo : List (Path × String)} (hinput : input ∈ inputs)
    (hcompile : compileFile s d input = .ok (done ++ f :: todo)) : f ∈ inputs.flatMap (planned s d) := by
  refine List.mem_flatMap.2 ⟨input, hinput, ?_⟩
  simp [planned, hcompile]

theorem step (horderly : Orderly s outDir d inputs) (h : Underway s outDir d inputs stage)
    (hstep : BatchStep s outDir stage stage') : Underway s outDir d inputs stage' := by
  obtain ⟨before, after, hstep⟩ := hstep
  rename_i input e e' t t'
  have hmem : (input, t) ∈ before ++ (input, t) :: after := by simp
  have hinput : input ∈ inputs := by
    rw [← h.inputs]
    exact List.mem_map_of_mem hmem
  have hstands : t.Stands s outDir d input := h.stands _ hmem
  -- Only a write changes the disk. That it succeeds or fails was settled at the start.
  cases hstep with
  | refuse hcompile =>
      rw [h.compileFile_eq horderly hinput] at hcompile
      exact h.replace_of_made (.inl ⟨hcompile, rfl⟩) rfl
  | start hcompile =>
      rw [h.compileFile_eq horderly hinput] at hcompile
      exact h.replace_of_made ⟨hcompile, nofun⟩ rfl
  | finish done =>
      refine h.replace_of_made ?_ rfl
      simpa [Task.Stands] using hstands
  | write done todo hwrite =>
      obtain ⟨hcompile, haccepts⟩ := hstands
      have hplanned := mem_planned hinput hcompile
      obtain ⟨init, n, hend⟩ := horderly.named _ hplanned
      have hnext := (h.accepts_iff horderly hplanned).1
        (Disk.of_write (h.written.atHome horderly.home) hend hwrite).1
      refine h.replace ⟨by simpa using hcompile, ?_⟩ ?_
      · rw [List.forall_mem_append, List.forall_mem_singleton]
        exact ⟨haccepts, hnext⟩
      · refine (h.written.write horderly.home hend hwrite).congr fun g => ?_
        rw [List.mem_cons, mem_made_iff, mem_made_iff, Task.made, Task.made, List.mem_append,
          List.mem_singleton, or_assoc, or_left_comm]
  | fail done todo hwrite =>
      obtain ⟨hcompile, haccepts⟩ := hstands
      have hplanned := mem_planned hinput hcompile
      obtain ⟨init, n, hend⟩ := horderly.named _ hplanned
      refine h.replace_of_made (.inr ⟨_, _, _, hcompile, haccepts, fun hnext => ?_, rfl⟩) rfl
      obtain ⟨e', he'⟩ := Disk.exists_write (h.written.atHome horderly.home) hend
        ((h.accepts_iff horderly hplanned).2 hnext) _
      rw [hwrite] at he'
      cases he'

theorem reaches (horderly : Orderly s outDir d inputs) (h : Underway s outDir d inputs stage)
    (hreaches : Reaches s outDir stage stage') : Underway s outDir d inputs stage' := by
  induction hreaches with
  | refl => exact h
  | tail _ hstep ih => exact ih.step horderly hstep

end Underway

/-! The end of a batch. -/

namespace Task

/-- The paths that a task has to show for itself. One that ended in a fault has none. -/
def written (outDir : Path) : Task → List Path
  | finished done none => done.map (outDir.join ·.1)
  | _ => []

def fault? : Task → Option Diagnostic
  | finished _ fault => fault
  | _ => none

end Task

def outcomeOf (outDir : Path) (tasks : List (Path × Task)) : Outcome where
  written := tasks.flatMap (·.2.written outDir)
  diagnostics := tasks.filterMap (·.2.fault?)

def AllFinished (tasks : List (Path × Task)) : Prop := ∀ it ∈ tasks, ∃ done fault, it.2 = .finished done fault

section

variable {done done' todo : List (Path × String)} {fault fault' : Option Diagnostic} {stage stage' : Stage}

theorem eq_of_append_cons {α : Type} {P : α → Prop} {front front' back back' : List α} {a a' : α}
    (h : front ++ a :: back = front' ++ a' :: back') (hfront : ∀ x ∈ front, P x)
    (hfront' : ∀ x ∈ front', P x) (ha : ¬ P a) (ha' : ¬ P a') : front = front' ∧ a = a' := by
  induction front generalizing front' with
  | nil =>
      cases front' with
      | nil => exact ⟨rfl, (List.cons.inj h).1⟩
      | cons b front' =>
          obtain ⟨rfl, -⟩ := List.cons.inj h
          exact absurd (hfront' a List.mem_cons_self) ha
  | cons b front ih =>
      cases front' with
      | nil =>
          obtain ⟨rfl, -⟩ := List.cons.inj h
          exact absurd (hfront b List.mem_cons_self) ha'
      | cons b' front' =>
          obtain ⟨rfl, hrest⟩ := List.cons.inj h
          obtain ⟨rfl, rfl⟩ := ih hrest (fun x hx => hfront x (List.mem_cons_of_mem _ hx))
            fun x hx => hfront' x (List.mem_cons_of_mem _ hx)
          exact ⟨rfl, rfl⟩

/-- A task that came to its end did not fail where the disk accepts all its files. -/
theorem not_stands_finished (h : (Task.finished done none).Stands s outDir d input) {cause : Diagnostic} :
    ¬ (Task.finished done' (some cause)).Stands s outDir d input := by
  obtain ⟨hcompile, haccepts⟩ := h
  rintro (⟨hcompile', -⟩ | ⟨f, rest, _, hcompile', -, hf, -⟩)
  · rw [hcompile] at hcompile'
    cases hcompile'
  · rw [hcompile] at hcompile'
    obtain rfl := Except.ok.inj hcompile'
    exact hf (haccepts f (by simp))

/-- An input ends in one way, up to the words of a fault. -/
theorem Task.Stands.unique (h : (Task.finished done fault).Stands s outDir d input)
    (h' : (Task.finished done' fault').Stands s outDir d input) :
    done = done' ∧ fault.map Diagnostic.file = fault'.map Diagnostic.file := by
  cases fault with
  | none =>
      cases fault' with
      | none => exact ⟨Except.ok.inj (h.1.symm.trans h'.1), rfl⟩
      | some cause => exact absurd h' (not_stands_finished h)
  | some cause =>
      cases fault' with
      | none => exact absurd h (not_stands_finished h')
      | some cause' =>
          obtain ⟨hcompile, rfl⟩ | ⟨f, rest, _, hcompile, haccepts, hf, rfl⟩ := h
          · obtain ⟨hcompile', rfl⟩ | ⟨f', rest', _, hcompile', -⟩ := h'
            · rw [hcompile] at hcompile'
              cases hcompile'
              exact ⟨rfl, rfl⟩
            · rw [hcompile] at hcompile'
              cases hcompile'
          · obtain ⟨hcompile', -⟩ | ⟨f', rest', _, hcompile', haccepts', hf', rfl⟩ := h'
            · rw [hcompile] at hcompile'
              cases hcompile'
            · rw [hcompile] at hcompile'
              obtain ⟨rfl, rfl⟩ := eq_of_append_cons (Except.ok.inj hcompile') haccepts haccepts' hf hf'
              exact ⟨rfl, rfl⟩

theorem map_eq_of_fst {α β γ : Type} {k : α × β → γ} {xs ys : List (α × β)}
    (hfst : xs.map (·.1) = ys.map (·.1)) (h : ∀ a ∈ xs, ∀ b ∈ ys, a.1 = b.1 → k a = k b) :
    xs.map k = ys.map k := by
  induction xs generalizing ys with
  | nil =>
      obtain rfl := List.map_eq_nil_iff.1 hfst.symm
      rfl
  | cons a xs ih =>
      cases ys with
      | nil => cases hfst
      | cons b ys =>
          obtain ⟨hab, hrest⟩ := List.cons.inj hfst
          rw [List.map_cons, List.map_cons, h a List.mem_cons_self b List.mem_cons_self hab, ih hrest]
          exact fun a' ha b' hb => h a' (List.mem_cons_of_mem _ ha) b' (List.mem_cons_of_mem _ hb)

/-- Two schedules of a batch that have come to their end agree: the disk holds the same in every place, the
same files are reported, and faults are reported of the same files. -/
theorem Underway.agree (h : Underway s outDir d inputs stage) (h' : Underway s outDir d inputs stage')
    (hend : AllFinished stage.2) (hend' : AllFinished stage'.2)
    (halike : Alike outDir d.home (inputs.flatMap (planned s d))) :
    (∀ x, Disk.entry? stage.1 x = Disk.entry? stage'.1 x) ∧
      (outcomeOf outDir stage.2).written = (outcomeOf outDir stage'.2).written ∧
      (outcomeOf outDir stage.2).diagnostics.map Diagnostic.file =
        (outcomeOf outDir stage'.2).diagnostics.map Diagnostic.file := by
  have hfst : stage.2.map (·.1) = stage'.2.map (·.1) := h.inputs.trans h'.inputs.symm
  have hunique : ∀ a ∈ stage.2, ∀ b ∈ stage'.2, a.1 = b.1 →
      a.2.made = b.2.made ∧ a.2.written outDir = b.2.written outDir ∧
        a.2.fault?.map Diagnostic.file = b.2.fault?.map Diagnostic.file := by
    intro a ha b hb hab
    obtain ⟨done, fault, hdone⟩ := hend a ha
    obtain ⟨done', fault', hdone'⟩ := hend' b hb
    have hstands := h.stands a ha
    have hstands' := h'.stands b hb
    rw [hdone] at hstands
    rw [hdone', ← hab] at hstands'
    obtain ⟨rfl, hfile⟩ := hstands.unique hstands'
    rw [hdone, hdone']
    refine ⟨rfl, ?_, hfile⟩
    cases fault with
    | none =>
        obtain rfl := Option.map_eq_none_iff.1 hfile.symm
        rfl
    | some cause =>
        cases fault' with
        | none => cases hfile
        | some cause' => rfl
  have hmade : stage.2.flatMap (·.2.made) = stage'.2.flatMap (·.2.made) := by
    rw [List.flatMap_def, List.flatMap_def, map_eq_of_fst hfst fun a ha b hb hab => (hunique a ha b hb hab).1]
  refine ⟨?_, ?_, ?_⟩
  · refine h.written.entry?_eq h'.written (fun f => by rw [hmade]) (halike.mono fun f hf => ?_)
    exact (h.mem_generated hf).1
  · rw [outcomeOf, outcomeOf, List.flatMap_def, List.flatMap_def,
      map_eq_of_fst hfst fun a ha b hb hab => (hunique a ha b hb hab).2.1]
  · have hfiles (tasks : List (Path × Task)) : (outcomeOf outDir tasks).diagnostics.map Diagnostic.file =
        (tasks.map fun it => it.2.fault?.map Diagnostic.file).filterMap id := by
      rw [outcomeOf, List.map_filterMap, List.filterMap_map]
      rfl
    rw [hfiles, hfiles, map_eq_of_fst hfst fun a ha b hb hab => (hunique a ha b hb hab).2.2]

theorem flatMap_sublist {α β : Type} {k k' : α → List β} {xs : List α} (h : ∀ x ∈ xs, (k x).Sublist (k' x)) :
    (xs.flatMap k).Sublist (xs.flatMap k') := by
  induction xs with
  | nil => exact .refl _
  | cons x xs ih =>
      rw [List.flatMap_cons, List.flatMap_cons]
      exact (h x List.mem_cons_self).append (ih fun y hy => h y (List.mem_cons_of_mem _ hy))

theorem Task.Stands.written_sublist {t : Task} (h : t.Stands s outDir d input) :
    (t.written outDir).Sublist ((planned s d input).map (outDir.join ·.1)) := by
  cases t with
  | waiting | writing => exact List.nil_sublist _
  | finished done fault =>
      cases fault with
      | none => exact h.made.1.sublist.map _
      | some cause => exact List.nil_sublist _

theorem Underway.outcome_sublist (h : Underway s outDir d inputs stage) :
    (outcomeOf outDir stage.2).written.Sublist ((inputs.flatMap (planned s d)).map (outDir.join ·.1)) := by
  rw [← h.inputs, List.flatMap_map, List.map_flatMap]
  exact flatMap_sublist fun it hit => (h.stands it hit).written_sublist

theorem Underway.outcome_eq (h : Underway s outDir d inputs stage) (hend : AllFinished stage.2)
    (hnone : (outcomeOf outDir stage.2).diagnostics = []) :
    (outcomeOf outDir stage.2).written = (inputs.flatMap (planned s d)).map (outDir.join ·.1) := by
  rw [← h.inputs, List.flatMap_map, List.map_flatMap, outcomeOf, List.flatMap_def, List.flatMap_def]
  refine congrArg List.flatten (List.map_congr_left fun it hit => ?_)
  obtain ⟨done, fault, hdone⟩ := hend it hit
  have hstands := h.stands it hit
  have hfault : it.2.fault? = none := List.filterMap_eq_nil_iff.1 hnone it hit
  rw [hdone] at hstands hfault
  obtain rfl : fault = none := hfault
  rw [hdone, planned, hstands.1]
  rfl

/-! A batch one input after the other. -/

seal Disk.write in
theorem writeAll_cons (outDir : Path) (d : Disk) (relative : Path) (text : String)
    (rest : List (Path × String)) :
    writeAll outDir d ((relative, text) :: rest) =
      match d.write (outDir.join relative) text with
      | .error fault => (some (.disk (outDir.join relative) fault), d)
      | .ok e => writeAll outDir e rest := (rfl)

theorem writeAll_reaches (before after : List (Path × Task)) (d : Disk) (done todo : List (Path × String)) :
    ∃ done', Reaches s outDir (d, before ++ (input, .writing done todo) :: after)
      ((writeAll outDir d todo).2, before ++ (input, .finished done' (writeAll outDir d todo).1) :: after) ∧
      ((writeAll outDir d todo).1 = none → done' = done ++ todo) := by
  induction todo generalizing d done with
  | nil => exact ⟨done, .single (.task before after (.finish done)), fun _ => (List.append_nil done).symm⟩
  | cons f todo ih =>
      obtain ⟨relative, text⟩ := f
      rw [writeAll_cons]
      cases hwrite : d.write (outDir.join relative) text with
      | error cause =>
          exact ⟨done, .single (.task before after (.fail done todo hwrite)), nofun⟩
      | ok e =>
          obtain ⟨done', hreaches, hdone⟩ := ih e (done ++ [(relative, text)])
          refine ⟨done', .head (.task before after (.write done todo hwrite)) hreaches, fun hnone => ?_⟩
          rw [hdone hnone, List.append_assoc]
          rfl

theorem runFile_reaches (before after : List (Path × Task)) (o : Outcome) (d : Disk) (input : Path) :
    ∃ done fault, Reaches s outDir (d, before ++ (input, .waiting) :: after)
      ((runFile s outDir (o, d) input).2, before ++ (input, .finished done fault) :: after) ∧
      (runFile s outDir (o, d) input).1 =
        { written := o.written ++ (Task.finished done fault).written outDir
          diagnostics := o.diagnostics ++ fault.toList } := by
  rw [runFile]
  cases hcompile : compileFile s d input with
  | error cause =>
      refine ⟨[], some cause, .single (.task before after (.refuse hcompile)), ?_⟩
      simp [Task.written]
  | ok files =>
      obtain ⟨done, hreaches, hdone⟩ := @writeAll_reaches s outDir input before after d [] files
      cases hall : writeAll outDir d files with
      | mk fault e =>
          rw [hall] at hreaches hdone
          simp only [hall]
          refine ⟨done, fault, .head (.task before after (.start hcompile)) ?_, ?_⟩
          · cases fault <;> exact hreaches
          · cases fault with
            | none => simp [Task.written, hdone rfl]
            | some cause => simp [Task.written]

theorem foldl_reaches (before : List (Path × Task)) (o : Outcome) (d : Disk) (files : List Path) :
    ∃ tasks : List (Path × Task), Reaches s outDir (d, before ++ files.map fun i => (i, Task.waiting))
      ((files.foldl (runFile s outDir) (o, d)).2, before ++ tasks) ∧ AllFinished tasks ∧
      (files.foldl (runFile s outDir) (o, d)).1 =
        { written := o.written ++ (outcomeOf outDir tasks).written
          diagnostics := o.diagnostics ++ (outcomeOf outDir tasks).diagnostics } := by
  -- The inputs in front are at their ends, those behind still wait.
  induction files generalizing before o d with
  | nil => exact ⟨[], .refl, nofun, by simp [outcomeOf]⟩
  | cons input files ih =>
      obtain ⟨done, fault, hfirst, houtcome⟩ :=
        @runFile_reaches s outDir before (files.map fun i => (i, Task.waiting)) o d input
      obtain ⟨tasks, hrest, hfinished, hall⟩ :=
        ih (before ++ [(input, .finished done fault)]) (runFile s outDir (o, d) input).1
          (runFile s outDir (o, d) input).2
      refine ⟨(input, .finished done fault) :: tasks, hfirst.trans ?_,
        List.forall_mem_cons.2 ⟨⟨done, fault, rfl⟩, hfinished⟩, ?_⟩
      · rw [List.append_assoc, List.append_assoc] at hrest
        exact hrest
      · rw [List.foldl_cons, hall, houtcome]
        cases fault <;> simp [outcomeOf, Task.fault?]

theorem run_eq {o : Options} {files : List Path} (hs : o.settings d = .ok s) (hfiles : o.inputFiles d = .ok files) :
    run o d = .ok (files.foldl (runFile s o.outDir) ({}, d)) := by
  rw [run, hs, hfiles]
  rfl

theorem run_reaches {o : Options} {files : List Path} {outcome : Outcome} (hs : o.settings d = .ok s)
    (hfiles : o.inputFiles d = .ok files) (h : run o d = .ok (outcome, e)) :
    ∃ tasks, Reaches s o.outDir (.start d files) (e, tasks) ∧ AllFinished tasks ∧
      outcomeOf o.outDir tasks = outcome := by
  obtain ⟨tasks, hreaches, hfinished, houtcome⟩ := @foldl_reaches s o.outDir [] {} d files
  rw [run_eq hs hfiles] at h
  have hfold : files.foldl (runFile s o.outDir) ({}, d) = (outcome, e) := Except.ok.inj h
  rw [hfold] at hreaches houtcome
  refine ⟨tasks, hreaches, hfinished, ?_⟩
  simpa using houtcome.symm

end

end TwinView
