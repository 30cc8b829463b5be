import GamePatch.Proofs.ModFolder.Saving
import GamePatch.Proofs.Text.Ends
import GamePatch.Proofs.Text.Search

set_option autoImplicit false

namespace GamePatch.ModFolder

open FileSystem (IsFolder FitsIn)
open SourceFile (assembledCode? unlessOlder readAssembledBytes? readAssembledText?)

theorem splitExtension_of_point {stem extension : Text} (some : stem ≠ []) (clean : '.' ∉ extension) :
    Path.splitExtension (stem ++ '.' :: extension) = (stem, .some extension) := by
  rw [Path.splitExtension, Text.cutAtLast_append stem clean]
  simp [some]

/-- A name whose only point is its first character has no extension. -/
theorem splitExtension_of_leadingPoint {extension : Text} (clean : '.' ∉ extension) :
    Path.splitExtension ('.' :: extension) = ('.' :: extension, none) := by
  have cut := Text.cutAtLast_append [] clean
  rw [List.nil_append] at cut
  rw [Path.splitExtension, cut]
  rfl

section Reading

variable {fs : FileSystem} {folder : Path} {place : Location} {name stem : Text}

/-- The text of a file is read back. -/
theorem readText_file (there : fs.IsFolder folder place) (fits : FitsIn folder name) {text : Text}
    {time : Int} (file : fs.entryAt? (place ++ [name]) = some (.file (Text.encodeUtf8 text) time)) :
    fs.readText (folder.join ⟨name⟩) = .ok text := by
  rw [FileSystem.readText, there.readBytes_file fits file, Fallible.bind_eq_ok_iff]
  refine ⟨_, rfl, ?_⟩
  rw [Text.decodeUtf8?_encodeUtf8]

theorem unlessOlder_absent (there : fs.IsFolder folder place) (plain : Path.IsPlain name)
    (absent : fs.entryAt? (place ++ [name]) = none) (time : Int)
    (read : FileSystem → Path → Option Text) :
    unlessOlder fs time read (folder.join ⟨name⟩) = none := by
  rw [unlessOlder, there.modified?_absent plain absent]

theorem unlessOlder_file (there : fs.IsFolder folder place) (fits : FitsIn folder name) {text : Text}
    {modified : Int}
    (file : fs.entryAt? (place ++ [name]) = some (.file (Text.encodeUtf8 text) modified)) (time : Int) :
    unlessOlder fs time readAssembledText? (folder.join ⟨name⟩) =
      if modified < time then none else some (Text.trimEnd text) := by
  rw [unlessOlder, there.modified?_file fits file]
  simp only [readAssembledText?, readText_file there fits file, Except.toOption, Option.map_some]

/-- Only a file with a stem and the extension of an assembly file has code that was assembled. -/
theorem assembledCode?_of_noAssembly {extension : Text} (there : fs.IsFolder folder place)
    (up : IsMadeUp name stem extension) (other : stem = [] ∨ extension = "txt".toList) :
    assembledCode? fs (folder.join ⟨name⟩) = none := by
  have noPoint := up.isExtension.noPoint
  have kind : SourceFile.isAssemblyFile (folder.join ⟨name⟩) = false := by
    rw [SourceFile.isAssemblyFile,
      Path.extension?_join there.nonempty (up.name ▸ up.isExtension.isPlain up.stem), up.name]
    rcases other with rfl | rfl
    · rw [List.nil_append, splitExtension_of_leadingPoint noPoint]
      rfl
    · by_cases blank : stem = []
      · rw [blank, List.nil_append, splitExtension_of_leadingPoint noPoint]
        rfl
      · rw [splitExtension_of_point blank noPoint]
        rfl
  rw [assembledCode?, kind]
  rfl

theorem isExtension_bin : IsExtension "bin".toList := ⟨by decide, by decide, by decide⟩

/-- The code of an assembly file without assembled bytes comes from the text file beside it. -/
theorem assembledCode?_of_assembly (there : fs.IsFolder folder place) (some : stem ≠ [])
    (clean : IsNameText stem) (fits : FitsIn folder (stem ++ '.' :: "asm".toList)) {bytes : Bytes}
    {time : Int}
    (file : fs.entryAt? (place ++ [stem ++ '.' :: "asm".toList]) = .some (.file bytes time))
    (noBytes : fs.entryAt? (place ++ [stem ++ '.' :: "bin".toList]) = none) :
    assembledCode? fs (folder.join ⟨stem ++ '.' :: "asm".toList⟩) =
      unlessOlder fs time readAssembledText? (folder.join ⟨stem ++ '.' :: "txt".toList⟩) := by
  have split : Path.splitExtension (stem ++ '.' :: "asm".toList) = (stem, .some "asm".toList) :=
    splitExtension_of_point some isExtension_asm.noPoint
  have kind : SourceFile.isAssemblyFile (folder.join ⟨stem ++ '.' :: "asm".toList⟩) = true := by
    rw [SourceFile.isAssemblyFile, Path.extension?_join there.nonempty fits.plain, split]
    rfl
  rw [assembledCode?, kind]
  simp only [Bool.not_true, Bool.false_eq_true, if_false, there.modified?_file fits file,
    Option.bind_some]
  rw [Path.withExtension_join there.nonempty fits.plain split (isExtension_bin.isPlain clean),
    Path.withExtension_join there.nonempty fits.plain split (isExtension_txt.isPlain clean),
    unlessOlder_absent there (isExtension_bin.isPlain clean) noBytes, Option.none_or]

end Reading

/-! ### A saved mod -/

structure IsEmptyFolder (fs : FileSystem) (folder : Path) (place : Location) : Prop
    extends fs.IsFolder folder place where
  empty : ∀ name, fs.entryAt? (place ++ [name]) = none

/-- A folder whose path leaves room for the names of the files of a mod. -/
structure HasRoom (folder : Path) (m : GameMod) : Prop where
  names : ∀ f ∈ (contents m).2, Text.byteLength f.path.text ≤ FileSystem.maxNameLength
  paths : ∀ f ∈ (contents m).2, Text.byteLength (folder.join f.path).text ≤ FileSystem.maxPathLength
  document : Text.byteLength (documentOf folder).text ≤ FileSystem.maxPathLength

/-- A file that is taken for what was assembled from another one. -/
def OutputFile.IsBeside (f source : OutputFile) : Prop :=
  ∃ stem, stem ≠ [] ∧ source.path.text = stem ++ '.' :: "asm".toList ∧
    f.path.text = stem ++ '.' :: "txt".toList

section Saved

variable {fs : FileSystem} {folder : Path} {place : Location} {m : GameMod}

theorem IsEmptyFolder.noFolderIn (blank : IsEmptyFolder fs folder place) : fs.NoFolderIn place := by
  intro name
  rw [blank.empty]
  simp

theorem IsMadeUp.fitsIn {name stem extension : Text} (up : IsMadeUp name stem extension)
    (shortName : Text.byteLength name ≤ FileSystem.maxNameLength)
    (shortPath : Text.byteLength (folder.join ⟨name⟩).text ≤ FileSystem.maxPathLength) :
    FitsIn folder name := by
  refine ⟨up.name ▸ up.isExtension.isPlain up.stem, ?_, shortName, shortPath⟩
  rw [up.name, ← List.singleton_append, FileSystem.hasZero_append, FileSystem.hasZero_append,
    up.stem.hasZero]
  rcases up.extension with rfl | rfl <;> decide

theorem HasRoom.fitsIn (room : HasRoom folder m) (made : KeepsNoFile m) {f : OutputFile}
    (member : f ∈ (contents m).2) : FitsIn folder f.path.text := by
  obtain ⟨stem, extension, up⟩ := made.isMadeUp member
  exact up.fitsIn (room.names f member) (room.paths f member)

theorem HasRoom.fitsIn_document (room : HasRoom folder m) : FitsIn folder documentName :=
  ⟨⟨by decide, by decide, by decide, by decide⟩, by decide, by decide +kernel, room.document⟩

def savedIn (fs : FileSystem) (place : Location) (m : GameMod) : FileSystem :=
  fs.writeFiles place (writtenOf m)

theorem isFolder_savedIn (blank : IsEmptyFolder fs folder place) :
    (savedIn fs place m).IsFolder folder place :=
  (blank.toIsFolder.writeFiles blank.noFolderIn _).1

/-- Each file of the mod is there, with the time of its write. -/
theorem entryAt?_savedIn_file (fs : FileSystem) (place : Location) (made : KeepsNoFile m) {i : Nat} {f : OutputFile}
    (file : (contents m).2[i]? = some f) :
    (savedIn fs place m).entryAt? (place ++ [f.path.text]) =
      some (.file (Text.encodeUtf8 f.contents) (fs.clock (fs.writes + i))) := by
  refine FileSystem.entryAt?_writeFiles made.nodup_written ?_
  obtain ⟨inside, -⟩ := List.getElem?_eq_some_iff.mp file
  rw [writtenOf, List.getElem?_append_left (by rwa [List.length_map]), List.getElem?_map, file]
  rfl

theorem entryAt?_savedIn_document (fs : FileSystem) (place : Location) (made : KeepsNoFile m) :
    ∃ time, (savedIn fs place m).entryAt? (place ++ [documentName]) =
      some (.file (Text.encodeUtf8 (documentText m)) time) := by
  refine ⟨_, FileSystem.entryAt?_writeFiles (i := (contents m).2.length) made.nodup_written ?_⟩
  rw [writtenOf, List.getElem?_append_right (by rw [List.length_map]), List.length_map, Nat.sub_self]
  rfl

/-- Nothing else is there. -/
theorem entryAt?_savedIn_absent (blank : IsEmptyFolder fs folder place) {name : Text}
    (other : name ≠ documentName) (absent : ∀ f ∈ (contents m).2, f.path.text ≠ name) :
    (savedIn fs place m).entryAt? (place ++ [name]) = none := by
  refine (FileSystem.entryAt?_writeFiles_of_notMem ?_).trans (blank.empty name)
  rw [writtenOf, List.map_append, List.map_map, List.mem_append, List.mem_map, not_or]
  constructor
  · rintro ⟨f, member, same⟩
    exact absent f member same
  · exact fun last => other (List.mem_singleton.mp last)

/-- No file holds assembled bytes. -/
theorem noBytes_savedIn (blank : IsEmptyFolder fs folder place) (made : KeepsNoFile m) {stem : Text}
    (some : stem ≠ []) :
    (savedIn fs place m).entryAt? (place ++ [stem ++ '.' :: "bin".toList]) = none := by
  have split := splitExtension_of_point some isExtension_bin.noPoint
  refine entryAt?_savedIn_absent blank (fun same => ?_) fun f member same => ?_
  · rw [same] at split
    have extensions : (Path.splitExtension documentName).2 = .some "bin".toList :=
      congrArg Prod.snd split
    revert extensions
    decide
  · obtain ⟨stem', extension, up⟩ := made.isMadeUp member
    rw [← same, up.name] at split
    by_cases blank : stem' = []
    · rw [blank, List.nil_append, splitExtension_of_leadingPoint up.isExtension.noPoint] at split
      cases split
    · rw [splitExtension_of_point blank up.isExtension.noPoint] at split
      rcases up.extension with rfl | rfl <;> cases split

theorem read_savedIn (blank : IsEmptyFolder fs folder place) (room : HasRoom folder m)
    (made : KeepsNoFile m) {f : OutputFile} (member : f ∈ (contents m).2) :
    SourceFile.read (savedIn fs place m) (folder.join f.path) =
      .ok ⟨(assembledCode? (savedIn fs place m) (folder.join f.path)).getD (Text.trimEnd f.contents),
        SourceHeader.parse f.contents⟩ := by
  obtain ⟨i, file⟩ := List.mem_iff_getElem?.mp member
  have text := readText_file (isFolder_savedIn blank) (room.fitsIn made member)
    (entryAt?_savedIn_file fs place made file)
  rw [SourceFile.read]
  simp only [text]

/-- A made-up name is taken apart in one way only. -/
theorem IsMadeUp.eq_of_name {name stem extension stem' extension' : Text}
    (up : IsMadeUp name stem extension) (same : name = stem' ++ '.' :: extension')
    (short : extension'.length = 3) : stem = stem' ∧ extension = extension' := by
  have length : extension.length = 3 := by rcases up.extension with rfl | rfl <;> rfl
  obtain ⟨stems, ends⟩ := List.append_inj' (up.name.symm.trans same) (by simp [length, short])
  exact ⟨stems, (List.cons.inj ends).2⟩

/-- The text file beside an assembly file, with the time of its write. -/
theorem assembledCode?_savedIn_of_beside (blank : IsEmptyFolder fs folder place)
    (room : HasRoom folder m) (made : KeepsNoFile m) {i j : Nat} {f g : OutputFile}
    (source : (contents m).2[i]? = some f) (file : (contents m).2[j]? = some g) (beside : g.IsBeside f) :
    assembledCode? (savedIn fs place m) (folder.join f.path) =
      if fs.clock (fs.writes + j) < fs.clock (fs.writes + i) then none
      else some (Text.trimEnd g.contents) := by
  have there := isFolder_savedIn (m := m) blank
  have memberSource := List.mem_of_getElem? source
  have member := List.mem_of_getElem? file
  obtain ⟨stem, some, sourceName, name⟩ := beside
  obtain ⟨stem', extension, up⟩ := made.isMadeUp memberSource
  obtain ⟨rfl, -⟩ := up.eq_of_name sourceName rfl
  have sourceEntry := entryAt?_savedIn_file fs place made source
  have entry := entryAt?_savedIn_file fs place made file
  have sourceFits := room.fitsIn made memberSource
  have fits := room.fitsIn made member
  have path : f.path = ⟨stem' ++ '.' :: "asm".toList⟩ := congrArg Path.mk sourceName
  rw [sourceName] at sourceEntry sourceFits
  rw [name] at entry fits
  rw [path, assembledCode?_of_assembly there some up.stem sourceFits sourceEntry
    (noBytes_savedIn blank made some), unlessOlder_file there fits entry]

/-- Without a text file beside it a file has no code that was assembled. -/
theorem assembledCode?_savedIn_of_alone (blank : IsEmptyFolder fs folder place)
    (room : HasRoom folder m) (made : KeepsNoFile m) {f : OutputFile} (member : f ∈ (contents m).2)
    (alone : ∀ g ∈ (contents m).2, ¬ g.IsBeside f) :
    assembledCode? (savedIn fs place m) (folder.join f.path) = none := by
  have there := isFolder_savedIn (m := m) blank
  obtain ⟨stem, extension, up⟩ := made.isMadeUp member
  by_cases assembly : stem ≠ [] ∧ extension = "asm".toList
  case neg =>
    have other : stem = [] ∨ extension = "txt".toList := by
      rcases up.extension with same | same
      · exact Or.inl (by_contra fun some => assembly ⟨some, same⟩)
      · exact Or.inr same
    exact assembledCode?_of_noAssembly there up other
  case pos =>
    obtain ⟨some, rfl⟩ := assembly
    obtain ⟨i, file⟩ := List.mem_iff_getElem?.mp member
    have entry := entryAt?_savedIn_file fs place made file
    have fits := room.fitsIn made member
    have text : IsMadeUp (stem ++ '.' :: "txt".toList) stem "txt".toList := ⟨rfl, up.stem, Or.inr rfl⟩
    have absent : (savedIn fs place m).entryAt? (place ++ [stem ++ '.' :: "txt".toList]) = none :=
      entryAt?_savedIn_absent blank text.ne_documentName fun g inside same =>
        alone g inside ⟨stem, some, up.name, same⟩
    have path : f.path = ⟨stem ++ '.' :: "asm".toList⟩ := congrArg Path.mk up.name
    rw [up.name] at entry fits
    rw [path, assembledCode?_of_assembly there some up.stem fits entry
      (noBytes_savedIn blank made some),
      unlessOlder_absent there (isExtension_txt.isPlain up.stem) absent]

/-- The code of a file is what was written, unless another file is taken for what was assembled from
it. -/
theorem assembledCode?_savedIn_iff (blank : IsEmptyFolder fs folder place) (room : HasRoom folder m)
    (made : KeepsNoFile m) {i : Nat} {f : OutputFile} (source : (contents m).2[i]? = some f) :
    (assembledCode? (savedIn fs place m) (folder.join f.path)).getD (Text.trimEnd f.contents) =
        Text.trimEnd f.contents ↔
      ∀ j g, (contents m).2[j]? = some g → g.IsBeside f →
        fs.clock (fs.writes + i) ≤ fs.clock (fs.writes + j) →
          Text.trimEnd g.contents = Text.trimEnd f.contents := by
  constructor
  · intro kept j g file beside notOlder
    rwa [assembledCode?_savedIn_of_beside blank room made source file beside,
      if_neg (Int.not_lt.mpr notOlder)] at kept
  · intro agree
    by_cases alone : ∀ g ∈ (contents m).2, ¬ g.IsBeside f
    case pos =>
      rw [assembledCode?_savedIn_of_alone blank room made (List.mem_of_getElem? source) alone,
        Option.getD_none]
    case neg =>
      push Not at alone
      obtain ⟨g, member, beside⟩ := alone
      obtain ⟨j, file⟩ := List.mem_iff_getElem?.mp member
      rw [assembledCode?_savedIn_of_beside blank room made source file beside]
      split
      case isTrue => rfl
      case isFalse notOlder => exact agree j g file beside (Int.not_lt.mp notOlder)

end Saved

end GamePatch.ModFolder
