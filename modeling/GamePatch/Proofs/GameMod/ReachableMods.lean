import GamePatch.Library.Basic
import GamePatch.ModFolder.Reader
import GamePatch.Proofs.GameMod.ErrorRecords

set_option autoImplicit false

namespace GamePatch

open Assembling (yields_pure_iff)

open GameMod (HasSoundErrors)

/-! ### Mods that are read -/

namespace ModText

variable {m : GameMod}

theorem hasSoundErrors_addOption (m : GameMod) (line : Text) (sound : m.HasSoundErrors) :
    (addOption m line).HasSoundErrors := by
  unfold addOption
  split
  · exact sound
  · split
    · exact sound.of_same rfl rfl rfl
    · exact sound.recordError _ false

theorem hasSoundErrors_readTop {description lines : List Text} (sound : m.HasSoundErrors) :
    (readTop m description lines).1.HasSoundErrors := by
  fun_induction readTop m description lines with
  | case1 m description => exact sound.of_same rfl rfl rfl
  | case2 m description line rest text start => exact sound.of_same rfl rfl rfl
  | case3 m description line rest text noStart block ih =>
    exact ih (HasSoundErrors.foldl hasSoundErrors_addOption _ sound)
  | case4 m description line rest text noStart noBlock header ih => exact ih sound
  | case5 m description line rest text noStart noBlock noHeader authors read ih =>
    exact ih (sound.of_same rfl rfl rfl)
  | case6 m description line rest text noStart noBlock noHeader noAuthors link read ih =>
    exact ih (sound.of_same rfl rfl rfl)
  | case7 m description line rest text noStart noBlock noHeader noAuthors noLink ih => exact ih sound

theorem hasSoundErrors_addGeckoLines {m' : GameMod} {body : Text} (sound : m.HasSoundErrors)
    (read : addGeckoLines m body = .ok m') : m'.HasSoundErrors := by
  unfold addGeckoLines at read
  simp only at read
  split at read
  · cases read
  · cases read
    exact HasSoundErrors.foldl (fun _ _ sound => sound.push _) _ sound

theorem hasSoundErrors_addChange (header : Header) (body : Text) (sound : m.HasSoundErrors) :
    (addChange m header body).1.HasSoundErrors := by
  cases header with
  | row revision offset vanilla code => cases code <;> exact sound.of_same rfl rfl rfl
  | standalone name revision => exact sound.of_same rfl rfl rfl
  | gecko revision =>
    have revised : (m.setRevision revision).HasSoundErrors := sound.of_same rfl rfl rfl
    rw [addChange]
    split
    case h_1 m' read => exact hasSoundErrors_addGeckoLines revised read
    case h_2 => exact revised

theorem hasSoundErrors_record {read : GameMod × Option ParseError} (sound : read.1.HasSoundErrors) :
    (record read).HasSoundErrors := by
  obtain ⟨m, error⟩ := read
  cases error with
  | none => exact sound
  | some e => exact sound.recordError _ false

theorem hasSoundErrors_readChanges {last : Option Text} {lines : List Text} (sound : m.HasSoundErrors) :
    (readChanges m last lines).HasSoundErrors := by
  fun_induction readChanges m last lines with
  | case1 => exact sound
  | case2 m last line rest blank ih => exact ih sound
  | case3 m last line rest solid e refused ih => exact ih (sound.recordError _ false)
  | case4 m last line rest solid header parsed isBody ih =>
    exact ih (hasSoundErrors_record (hasSoundErrors_addChange header _ sound))

theorem hasSoundErrors_of_parse {text : Text} (read : parse text = .ok m) : m.HasSoundErrors := by
  unfold parse at read
  split at read
  · cases read
  case h_2 title rest _ =>
    cases read
    have top : (readTop (GameMod.new title) [] rest).1.HasSoundErrors :=
      hasSoundErrors_readTop (GameMod.hasSoundErrors_new title)
    exact (hasSoundErrors_readChanges top).of_same rfl rfl rfl

end ModText

namespace ModFolder

variable {fs : FileSystem} {folder : Path} {m : GameMod}

theorem hasSoundErrors_addBuilt (e : BuildEntry) (m : GameMod) (b : Built) (sound : m.HasSoundErrors) :
    (addBuilt e m b).HasSoundErrors :=
  sound.of_same rfl rfl rfl

theorem hasSoundErrors_addEntry (m : GameMod) (e : BuildEntry) (sound : m.HasSoundErrors) :
    (addEntry fs folder m e).HasSoundErrors := by
  unfold addEntry
  split
  · exact HasSoundErrors.foldl (hasSoundErrors_addBuilt e) _ sound
  · exact sound.recordError _ false

theorem hasSoundErrors_addChanges (c : CodeRecord) (sound : m.HasSoundErrors) :
    (addChanges fs folder m c).HasSoundErrors :=
  HasSoundErrors.foldl hasSoundErrors_addEntry _ (sound.of_same rfl rfl rfl)

theorem hasSoundErrors_modOf (folder : Path) (c : CodeRecord) : (modOf folder c).HasSoundErrors := by
  have start : ({ GameMod.new c.name with
      authors := c.authors
      description := c.description.write
      links := c.links.filterMap linkOf? } : GameMod).HasSoundErrors :=
    (GameMod.hasSoundErrors_new c.name).of_same rfl rfl rfl
  exact (start.addRawOptions c.options).of_same rfl rfl rfl

theorem hasSoundErrors_addCode (c : CodeRecord) {mods : List GameMod}
    (sound : ∀ m ∈ mods, m.HasSoundErrors) : ∀ m ∈ addCode fs folder c mods, m.HasSoundErrors := by
  induction mods with
  | nil => exact List.forall_mem_singleton.mpr (hasSoundErrors_addChanges c (hasSoundErrors_modOf folder c))
  | cons first rest ih =>
    rw [List.forall_mem_cons] at sound
    rw [addCode]
    split
    · exact List.forall_mem_cons.mpr ⟨hasSoundErrors_addChanges c sound.1, sound.2⟩
    · exact List.forall_mem_cons.mpr ⟨sound.1, ih sound.2⟩

theorem hasSoundErrors_of_read {mods : List GameMod} (read : read fs folder = .ok mods) :
    ∀ m ∈ mods, m.HasSoundErrors := by
  have all (codes : List CodeRecord) {mods : List GameMod} (sound : ∀ m ∈ mods, m.HasSoundErrors) :
      ∀ m ∈ codes.foldl (fun mods c => addCode fs folder c mods) mods, m.HasSoundErrors := by
    induction codes generalizing mods with
    | nil => exact sound
    | cons c codes ih => exact ih (hasSoundErrors_addCode c sound)
  unfold ModFolder.read at read
  simp only at read
  split at read
  · cases read
  · split at read
    · cases read
    · cases read
      exact all _ (List.forall_mem_nil _)

end ModFolder

theorem SourceFile.hasSoundErrors_of_readMod {fs : FileSystem} {p : Path} {m : GameMod}
    (read : readMod fs p = .ok (some m)) : m.HasSoundErrors := by
  obtain ⟨file, -, made⟩ := Fallible.map_eq_ok_iff.mp read
  obtain ⟨address, -, rfl⟩ := Option.map_eq_some_iff.mp made
  exact (GameMod.hasSoundErrors_new (file.header.name.getD (p.fileStem?.getD []))).of_same rfl rfl rfl

namespace Library

theorem hasSoundErrors_define (l : Library) (root : Option Path) {m : GameMod} (sound : m.HasSoundErrors) :
    (l.define root m).2.HasSoundErrors := by
  have placed : ({ m with includePaths := l.searchPaths root m }).HasSoundErrors :=
    sound.of_same rfl rfl rfl
  exact placed.recordErrors _ false

theorem hasSoundErrors_checkFunctions {l : Library} {m m' : GameMod} (sound : m.HasSoundErrors)
    (checked : l.checkFunctions m = .ok m') : m'.HasSoundErrors := by
  unfold checkFunctions at checked
  split at checked
  · cases checked
    exact sound
  · cases checked
  · cases checked
    exact sound.recordError _ false

end Library

namespace GameMod

/-! ### Reachable mods -/

/-- The mods that there can be: new ones and those that are read, what operations and libraries make of
them, and mods of which other fields were set than the errors and the marks, which no one can set. -/
inductive Reachable : GameMod → Prop where
  | new (name : Text) : Reachable (new name)
  | parse {text : Text} {m : GameMod} (read : ModText.parse text = .ok m) : Reachable m
  | read {fs : FileSystem} {folder : Path} {mods : List GameMod} {m : GameMod}
      (read : ModFolder.read fs folder = .ok mods) (member : m ∈ mods) : Reachable m
  | readMod {fs : FileSystem} {p : Path} {m : GameMod}
      (read : SourceFile.readMod fs p = .ok (some m)) : Reachable m
  | define (l : Library) (root : Option Path) {m : GameMod} (before : Reachable m) :
      Reachable (l.define root m).2
  | checkFunctions {l : Library} {m m' : GameMod} (before : Reachable m)
      (checked : l.checkFunctions m = .ok m') : Reachable m'
  | perform (operation : Operation) {m m' : GameMod} (before : Reachable m)
      (performed : (operation.perform m).Yields m') : Reachable m'
  | set {m m' : GameMod} (before : Reachable m) (errors : m'.errors = m.errors)
      (parsing : m'.hasParsingError = m.hasParsingError)
      (assembly : m'.hasAssemblyError = m.hasAssemblyError) : Reachable m'

theorem Reachable.hasSoundErrors {m : GameMod} (reached : Reachable m) : m.HasSoundErrors := by
  induction reached with
  | new name => exact hasSoundErrors_new name
  | parse read => exact ModText.hasSoundErrors_of_parse read
  | read read member => exact ModFolder.hasSoundErrors_of_read read _ member
  | readMod read => exact SourceFile.hasSoundErrors_of_readMod read
  | define l root before ih => exact l.hasSoundErrors_define root ih
  | checkFunctions before checked ih => exact Library.hasSoundErrors_checkFunctions ih checked
  | perform operation before performed ih => exact ih.perform performed
  | set before errors parsing assembly ih => exact ih.of_same errors parsing assembly

/-- The first pass and the search for conflicts change a mod once. The same pass over what they made of it
changes nothing, whatever the mod was, and the search finds the same conflicts again. A mod that can be
reached has no message twice, and is available exactly if it has none. -/
theorem passes_idempotent (m : GameMod) :
    (∀ toolchain isFile,
      (((m.evaluate isFile).run toolchain).evaluate isFile).run toolchain =
        (m.evaluate isFile).run toolchain) ∧
    (∀ revision image symbols,
      (m.assessConflicts revision image symbols >>= fun found =>
        found.2.assessConflicts revision image symbols) =
          m.assessConflicts revision image symbols) ∧
    (Reachable m → m.errors.Nodup ∧ (m.isAvailable = true ↔ m.errors = [])) := by
  refine ⟨fun toolchain isFile => evaluate_again toolchain isFile m, ?_, fun reached => ?_⟩
  · exact fun revision image symbols => assessConflicts_again revision image symbols m
  · have sound := reached.hasSoundErrors
    exact ⟨sound.nodup, sound.available_iff⟩

/-- A mod with a change that names an option that there is not, twice. -/
def unknownFramesMod : GameMod :=
  ((new "Menus").addStandalone "Wait" "386000[[Frames]]").addStandalone "Wait" "386000[[Frames]]"

def unknownFramesEvaluated : GameMod :=
  { unknownFramesMod with
    errors := ["standalone Wait: Configuration option not found: Frames"]
    hasParsingError := true }

theorem unknownFrames_stays :
    (unknownFramesMod.evaluate fun _ => false).run Assembler.toolchain = unknownFramesEvaluated ∧
      (unknownFramesEvaluated.evaluate fun _ => false).run Assembler.toolchain =
        unknownFramesEvaluated ∧
      unknownFramesEvaluated.errors.Nodup ∧ unknownFramesEvaluated.isAvailable = false := by
  have first : (unknownFramesMod.evaluate fun _ => false).run Assembler.toolchain =
      unknownFramesEvaluated := by decide +kernel
  have again := (passes_idempotent unknownFramesMod).1 Assembler.toolchain fun _ => false
  rw [first] at again
  have built : Reachable unknownFramesMod := by
    have one : Reachable ((new "Menus").addStandalone "Wait" "386000[[Frames]]") :=
      .perform (.add .standalone "Wait" "386000[[Frames]]" none) (.new "Menus") (yields_pure_iff.mpr rfl)
    exact .perform (.add .standalone "Wait" "386000[[Frames]]" none) one (yields_pure_iff.mpr rfl)
  have reached : Reachable unknownFramesEvaluated :=
    .perform (.evaluate fun _ => false) built (Assembling.yields_of_run first)
  obtain ⟨nodup, available⟩ := (passes_idempotent unknownFramesEvaluated).2.2 reached
  refine ⟨first, again, nodup, ?_⟩
  rw [← Bool.not_eq_true, available]
  exact List.cons_ne_nil _ _

end GameMod

end GamePatch
