import GamePatch.Cli.Run
import GamePatch.Proofs.Library.Definitions
import GamePatch.Proofs.ModFolder.OutputPlaces

set_option autoImplicit false

namespace GamePatch.Cli

open Location (IsBelow)
open ModFolder (Saves outputPaths KeepsBelow isInline)

/-- The mods that are converted. There are none if the path cannot be read. -/
def loadedMods (host : Host) (s : Settings) (path : Path) : List GameMod :=
  match load host s path with
  | .error _ => []
  | .ok (_, mods) => mods

def convertedPaths (output : Path) (mods : List GameMod) : List Path :=
  mods.flatMap fun m => outputPaths (output.join ⟨m.name⟩) m

/-- Neither the name of a mod nor a file that is kept leads out of a place. -/
def StaysBelow (base : Location) (m : GameMod) : Prop :=
  let home := (⟨m.name⟩ : Path).placeFrom base
  base <+: home ∧ ∀ c ∈ m.changes, isInline c = false → KeepsBelow base home c

theorem saves_saveFolders (output : Path) (fs : FileSystem) (mods : List GameMod) :
    Saves fs (saveFolders output fs mods).2 ((saveFolders output fs mods).1 = none)
      (convertedPaths output mods) := by
  induction mods generalizing fs with
  | nil => exact Saves.refl fs _
  | cons m rest ih =>
    have first := ModFolder.saves_save fs (output.join ⟨m.name⟩) m
    rw [saveFolders, convertedPaths, List.flatMap_cons]
    cases outcome : ModFolder.save fs (output.join ⟨m.name⟩) m with
    | mk result fs' =>
      rw [outcome] at first
      cases result with
      | ok => exact first.append rfl (ih fs')
      | error e => exact first.fail (by simp) (convertedPaths output rest)

/-- What a conversion to folders writes, and nothing else. -/
theorem saves_convert (host : Host) (s : Settings) (path output : Path) :
    Saves host.files (convert host s path .folders output).files
      ((convert host s path .folders output).failure = none)
      (convertedPaths output (loadedMods host s path)) := by
  rw [convert, loadedMods]
  cases load host s path with
  | error f => exact Saves.refl host.files _
  | ok loaded =>
    have saves := saves_saveFolders output host.files loaded.2
    dsimp only [saveAs]
    cases outcome : saveFolders output host.files loaded.2 with
    | mk failure files =>
      rw [outcome] at saves
      cases failure with
      | none => exact saves
      | some f => exact saves

theorem convertedPaths_below_iff (start : Location) (output : Path) (mods : List GameMod) :
    (∀ p ∈ convertedPaths output mods, IsBelow (output.placeFrom start) (p.placeFrom start)) ↔
      ∀ m ∈ mods, StaysBelow (output.placeFrom start) m := by
  simp only [convertedPaths, List.forall_mem_flatMap, ModFolder.outputPaths_below_iff,
    Path.placeFrom_join, StaysBelow]

/-- A file that is not below the output directory is left as it was as long as no mod leads out of it.
If one does, a conversion that does not fail has written such a file. -/
theorem convert_writes_below (host : Host) (s : Settings) (path output : Path) :
    let start := host.files.workingDirectory
    let mods := loadedMods host s path
    let report := convert host s path .folders output
    ((∀ m ∈ mods, StaysBelow (output.placeFrom start) m) →
        ∀ place bytes modified, report.files.entryAt? place = some (.file bytes modified) →
          host.files.entryAt? place = some (.file bytes modified) ∨
            IsBelow (output.placeFrom start) place) ∧
      (report.failure = none → (∃ m ∈ mods, ¬ StaysBelow (output.placeFrom start) m) →
        ∃ place, report.files.WrittenSince host.files.writes place ∧
          ¬ IsBelow (output.placeFrom start) place) := by
  intro start mods report
  have saves : Saves host.files report.files (report.failure = none) (convertedPaths output mods) :=
    saves_convert host s path output
  have below := convertedPaths_below_iff start output mods
  constructor
  · intro stay place bytes modified file
    refine (saves.only.written place bytes modified file).imp_right fun new => ?_
    obtain ⟨p, member, rfl⟩ := List.mem_map.mp new.1
    exact below.mpr stay p member
  · intro done leads
    -- All paths are written if nothing fails, and those of the mod are not all below the directory.
    by_contra none
    push Not at none
    obtain ⟨m, member, away⟩ := leads
    refine away (below.mp (fun p inside => ?_) m member)
    exact none _ (saves.all done p inside)

/-! ### A title that leads out of the output directory -/

def plainSettings : Settings :=
  ⟨false, 0, ⟨Builtin.assemblerName⟩, ⟨Builtin.disassemblerName⟩, none, []⟩

def modsFile : Path := ⟨"mods.txt"⟩

def outerText : Text := "../outer\n"

/-- A file with one mod, whose title leads to a directory beside the one that it is converted to. -/
def outerHost : Host :=
  ⟨⟨[([modsFile.text], .file (Text.encodeUtf8 outerText) 0)], [], fun _ => 0, 0⟩, Builtin.programs⟩

def outerMod : GameMod :=
  { GameMod.new "../outer" with
    sourceText := some outerText
    source := some (.textFile modsFile)
    includePaths := [⟨[]⟩] }

theorem load_outerHost :
    load outerHost plainSettings modsFile = .ok (Library.empty [], [outerMod]) := by
  have tools : outerHost.check plainSettings.tools = .ok () := by decide +kernel
  have there : outerHost.files.pathExists modsFile = true := by decide +kernel
  have single : outerHost.files.isDirectory modsFile = false := by decide +kernel
  have read : Library.readPath outerHost.files modsFile =
      .ok [{ outerMod with includePaths := [] }] := by
    decide +kernel
  have alone : outerMod.referencedFunctions = .ok [] := by decide +kernel
  have registered : (Library.empty []).register none [{ outerMod with includePaths := [] }] =
      .ok (Library.empty [], [outerMod]) := by
    rw [Library.register_eq_ok_iff]
    exact ⟨rfl, .cons (Library.checkFunctions_of_referencedFunctions_eq_nil alone) .nil⟩
  have loaded : (Library.empty plainSettings.includePaths).load outerHost.files modsFile =
      .ok (Library.empty [], [outerMod]) := by
    rw [Library.load, single, Bool.false_and, if_neg Bool.false_ne_true, Library.loadPath, there,
      if_pos rfl, read]
    change ((Library.empty []).register none [{ outerMod with includePaths := [] }]).mapError _ = _
    rw [registered]
    rfl
  have evaluated : (Library.evaluate outerHost.files.isFile [outerMod]).run
      (outerHost.toolchain plainSettings.tools) = [outerMod] := by
    decide +kernel
  rw [load, tools, loaded]
  change Except.ok (Library.empty [], (Library.evaluate outerHost.files.isFile [outerMod]).run
    (outerHost.toolchain plainSettings.tools)) = _
  rw [evaluated]

theorem loadedMods_outerHost : loadedMods outerHost plainSettings modsFile = [outerMod] := by
  rw [loadedMods, load_outerHost]

/-- The title leads back into a directory of its name. -/
theorem outerTitle_stays_below :
    (∀ m ∈ loadedMods outerHost plainSettings modsFile, StaysBelow ["outer"] m) ∧
      ∀ place bytes modified,
        (convert outerHost plainSettings modsFile .folders ⟨"outer"⟩).files.entryAt? place =
            some (.file bytes modified) →
          outerHost.files.entryAt? place = some (.file bytes modified) ∨ IsBelow ["outer"] place := by
  have stay : ∀ m ∈ loadedMods outerHost plainSettings modsFile, StaysBelow ["outer"] m := by
    rw [loadedMods_outerHost, List.forall_mem_singleton]
    exact ⟨by decide, List.forall_mem_nil _⟩
  exact ⟨stay, (convert_writes_below outerHost plainSettings modsFile ⟨"outer"⟩).1 stay⟩

/-- The document is written beside the output directory. -/
theorem outerTitle_written_outside :
    (convert outerHost plainSettings modsFile .folders ⟨"out"⟩).failure = none ∧
      (convert outerHost plainSettings modsFile .folders ⟨"out"⟩).files.HasFile
        ["outer", "codes.json"] ∧
      ¬ outerHost.files.HasFile ["outer", "codes.json"] ∧
      ¬ IsBelow ((⟨"out"⟩ : Path).placeFrom outerHost.files.workingDirectory)
        ["outer", "codes.json"] := by
  refine ⟨?_, ?_, by decide, by decide⟩
  · rw [convert, load_outerHost]
    decide +kernel
  · rw [convert, load_outerHost]
    decide +kernel

end GamePatch.Cli
