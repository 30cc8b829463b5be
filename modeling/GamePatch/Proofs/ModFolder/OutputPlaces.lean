import GamePatch.Proofs.FileSystem.Frame
import GamePatch.Proofs.ModFolder.FileNames

set_option autoImplicit false

namespace GamePatch.ModFolder

open FileSystem (WritesOnly)
open Location (IsBelow)
open GamePatch.Path (IsPlain)

/-! ### What saving writes -/

/-- Only the files of some paths are written, and all of them if nothing fails. -/
structure Saves (fs fs' : FileSystem) (done : Prop) (paths : List Path) : Prop where
  only : WritesOnly fs fs' (paths.map (Path.placeFrom fs.workingDirectory))
  all : done → ∀ p ∈ paths, fs'.WrittenSince fs.writes (p.placeFrom fs.workingDirectory)

namespace Saves

variable {fs fs' fs'' : FileSystem} {done done' : Prop} {paths more : List Path}

theorem refl (fs : FileSystem) (done : Prop) : Saves fs fs done [] :=
  ⟨WritesOnly.refl fs, fun _ => List.forall_mem_nil _⟩

theorem append (first : Saves fs fs' done paths) (own : done) (second : Saves fs' fs'' done' more) :
    Saves fs fs'' done' (paths ++ more) := by
  have start := first.only.workingDirectory
  constructor
  · rw [List.map_append, ← start]
    have rest := second.only
    have before := first.only
    rw [← start] at before
    exact before.trans rest
  · intro finished
    rw [List.forall_mem_append]
    constructor
    · intro p member
      exact second.only.writtenSince (first.all own p member)
    · intro p member
      rw [← start]
      exact (second.all finished p member).mono first.only.writes

/-- What fails leaves out what comes later. -/
theorem fail (first : Saves fs fs' done paths) (failed : ¬ done') (more : List Path) :
    Saves fs fs' done' (paths ++ more) := by
  refine ⟨first.only.mono ?_, fun finished => absurd finished failed⟩
  exact List.map_subset _ (List.subset_append_left paths more)

end Saves

theorem saves_saveFile (fs : FileSystem) (directory path : Path) (contents : Text) :
    Saves fs (saveFile fs directory path contents).2
      ((saveFile fs directory path contents).1 = .ok ()) [path] := by
  have made := FileSystem.writesOnly_createDirectories fs directory
  rw [saveFile]
  split
  case h_1 e fs' failed =>
    rw [failed] at made
    exact ⟨made.mono (List.nil_subset _), fun finished => by cases finished⟩
  case h_2 fs' created =>
    rw [created] at made
    have start : fs'.workingDirectory = fs.workingDirectory := made.workingDirectory
    split
    case h_1 e refused => exact ⟨made.mono (List.nil_subset _), fun finished => by cases finished⟩
    case h_2 fs'' written =>
      obtain ⟨only, new⟩ := FileSystem.writesOnly_write written
      rw [start] at only new
      exact ⟨made.trans only, fun _ => List.forall_mem_singleton.mpr (new.mono made.writes)⟩

def pathsIn (folder : Path) (files : List OutputFile) : List Path :=
  files.map fun file => folder.join file.path

theorem saves_saveFiles (folder : Path) (fs : FileSystem) (files : List OutputFile) :
    Saves fs (saveFiles folder fs files).2 ((saveFiles folder fs files).1 = .ok ())
      (pathsIn folder files) := by
  induction files generalizing fs with
  | nil => exact Saves.refl fs _
  | cons file rest ih =>
    have first := saves_saveFile fs ((folder.join file.path).parent?.getD ⟨[]⟩)
      (folder.join file.path) file.contents
    rw [saveFiles]
    cases outcome : saveFile fs ((folder.join file.path).parent?.getD ⟨[]⟩) (folder.join file.path)
        file.contents with
    | mk result fs' =>
      rw [outcome] at first
      cases result with
      | ok => exact first.append rfl (ih fs')
      | error e => exact first.fail (by simp) (pathsIn folder rest)

def outputPaths (folder : Path) (m : GameMod) : List Path :=
  pathsIn folder (contents m).2 ++ [documentOf folder]

/-- Saving a mod writes its files and its document, and nothing else. -/
theorem saves_save (fs : FileSystem) (folder : Path) (m : GameMod) :
    Saves fs (save fs folder m).2 ((save fs folder m).1 = .ok ()) (outputPaths folder m) := by
  cases ends : endsAtCode m with
  | true =>
    rw [save_of_endsAtCode ends]
    exact (Saves.refl fs True).fail (by simp) (outputPaths folder m)
  | false =>
    rw [save_of_not_endsAtCode ends, outputPaths]
    have own := saves_saveFiles folder fs (contents m).2
    cases outcome : saveFiles folder fs (contents m).2 with
    | mk result fs' =>
      rw [outcome] at own
      cases result with
      | ok => exact own.append rfl (saves_saveFile fs' folder (documentOf folder) _)
      | error e => exact own.fail (by simp) [documentOf folder]

/-! ### Where they are -/

/-- The file that a change keeps, if it keeps one, is below a place. -/
def KeepsBelow (base home : Location) (c : Change) : Prop :=
  ∀ kept ∈ c.sourceFile, IsBelow base (kept.placeFrom home)

section Places

variable {base home : Location} {m : GameMod}

theorem isPlain_documentName : IsPlain documentName := ⟨by decide, by decide, by decide, by decide⟩

/-- The document is right in the folder. -/
theorem isBelow_documentOf_iff (start base : Location) (folder : Path) :
    IsBelow base ((documentOf folder).placeFrom start) ↔ base <+: folder.placeFrom start := by
  rw [documentOf, Path.placeFrom_join, Path.placeFrom_plain isPlain_documentName,
    Location.isBelow_concat_iff]

theorem fileName_of_some {used : List Path} {lead : Option Text} {c : Change} {kept : Path}
    (found : c.sourceFile = some kept) : fileName used lead c = kept := by
  simp only [fileName, found]

/-- A file is right in the folder too, unless its change keeps the file that it was read from. -/
theorem Filed.IsClean.isBelow_file_iff {f : Filed} (clean : f.IsClean) (inside : base <+: home)
    (used : List Path) :
    IsBelow base ((f.file used).path.placeFrom home) ↔
      KeepsBelow base home f.change := by
  rw [KeepsBelow]
  cases source : f.change.sourceFile with
  | none =>
    obtain ⟨n, -, -, path, -⟩ := clean.file_path source used
    have plain := (isExtension_extensionOf f.change).isPlain (clean.isNameText.numberedStem n)
    rw [path, numberedName_eq, Path.placeFrom_plain plain, Location.isBelow_concat_iff]
    exact iff_of_true inside (by simp)
  | some kept =>
    rw [show (f.file used).path = kept from fileName_of_some source]
    simp

theorem filesFrom_below_iff {fs : List Filed} (clean : ∀ f ∈ fs, f.IsClean) (inside : base <+: home)
    (used : List Path) :
    (∀ file ∈ filesFrom used fs, IsBelow base (file.path.placeFrom home)) ↔
      ∀ f ∈ fs, KeepsBelow base home f.change := by
  induction fs generalizing used with
  | nil => exact iff_of_true (List.forall_mem_nil _) (List.forall_mem_nil _)
  | cons f fs ih =>
    rw [List.forall_mem_cons] at clean
    rw [filesFrom, List.forall_mem_cons, List.forall_mem_cons, ih clean.2,
      clean.1.isBelow_file_iff inside]

/-- The changes with files are those of the mod whose codes are not in their entries. -/
theorem forall_mem_filed_iff {P : Change → Prop} :
    (∀ f ∈ filed m, P f.change) ↔ ∀ c ∈ m.changes, isInline c = false → P c := by
  constructor
  · intro all c member own
    obtain ⟨r, known, inside⟩ := List.mem_flatMap.mp member
    refine all ⟨leadOf m r, c⟩ (List.mem_flatMap.mpr ⟨r, known, List.mem_map.mpr ⟨c, ?_, rfl⟩⟩)
    rw [List.mem_filter, own]
    exact ⟨inside, rfl⟩
  · intro all f member
    obtain ⟨r, known, inside⟩ := List.mem_flatMap.mp member
    obtain ⟨c, own, rfl⟩ := List.mem_map.mp inside
    rw [List.mem_filter, Bool.not_eq_true'] at own
    exact all c (List.mem_flatMap.mpr ⟨r, known, own.1⟩) own.2

/-- All that is written for a mod is below a place if and only if its folder is not above or beside
it, and no change keeps a file that leads out of it. -/
theorem outputPaths_below_iff (start base : Location) (folder : Path) (m : GameMod) :
    (∀ p ∈ outputPaths folder m, IsBelow base (p.placeFrom start)) ↔
      base <+: folder.placeFrom start ∧ ∀ c ∈ m.changes, isInline c = false →
        KeepsBelow base (folder.placeFrom start) c := by
  rw [outputPaths, List.forall_mem_append, List.forall_mem_singleton, isBelow_documentOf_iff,
    and_comm, pathsIn, List.forall_mem_map, files_contents]
  refine and_congr_right fun inside => ?_
  simp only [Path.placeFrom_join]
  rw [filesFrom_below_iff (fun f member => isClean_of_mem_filed member) inside]
  exact forall_mem_filed_iff

end Places

end GamePatch.ModFolder
