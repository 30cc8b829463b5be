import GamePatch.Proofs.ModFolder.Caches
import GamePatch.Proofs.ModFolder.Codes
import GamePatch.Proofs.ModFolder.Reading

set_option autoImplicit false

namespace GamePatch

/-- A mod of storable changes, without options and without files that it keeps. -/
structure GameMod.IsStorable (m : GameMod) : Prop where
  name : Text.trim m.name = m.name
  authors : m.authors ≠ []
  options : m.options = []
  revisions : m.revisions ≠ []
  distinct : (m.revisions.map Revision.label).Nodup
  trimmed : ∀ r ∈ m.revisions, Text.trim r.label = r.label
  changes : ∀ c ∈ m.changes, c.IsStorable
  made : ModFolder.KeepsNoFile m

namespace ModFolder

open SourceFile (assembledCode?)

section Mods

variable {fs : FileSystem} {folder : Path} {place : Location} {m : GameMod}

/-- The revisions of a mod with the files of their changes. -/
def stored (m : GameMod) : List StoredRevision := storedOf m [] m.revisions

theorem contents_eq (m : GameMod) :
    contents m = ((stored m).map (StoredRevision.code m),
      (stored m).flatMap fun r => r.changes.filterMap Stored.output?) :=
  codesOf_eq m [] m.revisions

theorem revisions_eq (m : GameMod) :
    m.revisions = (stored m).map fun r => ⟨r.label, r.changes.map Stored.change⟩ :=
  (map_storedOf m [] m.revisions).symm

theorem change_mem_changes {r : StoredRevision} (member : r ∈ stored m) {s : Stored}
    (inside : s ∈ r.changes) : s.change ∈ m.changes := by
  rw [GameMod.changes, revisions_eq, List.mem_flatMap]
  exact ⟨_, List.mem_map_of_mem member, List.mem_map_of_mem inside⟩

/-- The files of a mod are those of its changes. -/
theorem mem_contents_iff {f : OutputFile} :
    f ∈ (contents m).2 ↔ ∃ r ∈ stored m, ∃ s ∈ r.changes, ∃ path, s.file = some path ∧
      f = ⟨path, s.change.code ++ ['\n']⟩ := by
  simp only [contents_eq, List.mem_flatMap, List.mem_filterMap, Stored.output?, Option.map_eq_some_iff,
    eq_comm (a := f)]

/-- What is read of the code of a change with a file, for the file. -/
theorem trimEnd_output {s : Stored} (own : s.change.IsStorable) :
    Text.trimEnd (s.change.code ++ ['\n']) = s.change.code :=
  (Text.trimEnd_append_blanks s.change.code rfl).trans own.code

/-- A mod without options is written as a document of which all can be read. -/
theorem isPlain_code (none : m.options = []) (r : StoredRevision) : (r.code m).IsPlain := by
  refine ⟨?_, m.description, rfl⟩
  rw [StoredRevision.code, codeOf, none]
  rfl

theorem readDocument?_documentText (none : m.options = []) :
    CodeRecord.readDocument? (documentText m) = some ((stored m).map (StoredRevision.code m)) := by
  have plain : ∀ c ∈ (contents m).1, c.IsPlain := by
    intro c member
    rw [contents_eq] at member
    obtain ⟨r, -, rfl⟩ := List.mem_map.mp member
    exact isPlain_code none r
  exact (CodeRecord.readDocument?_written plain).trans (by rw [contents_eq])

theorem map_label_stored (m : GameMod) :
    (stored m).map StoredRevision.label = m.revisions.map Revision.label := by
  conv_rhs => rw [revisions_eq, List.map_map]
  rfl

/-- Each file of a saved mod can be read. -/
theorem isReadable_savedIn (storable : m.IsStorable) (blank : IsEmptyFolder fs folder place)
    (room : HasRoom folder m) {r : StoredRevision} (member : r ∈ stored m) {s : Stored}
    (inside : s ∈ r.changes) : s.IsReadable (savedIn fs place m) folder := by
  have own := storable.changes s.change (change_mem_changes member inside)
  refine ⟨own, isNone_file_of_mem_storedOf member inside, fun path file => ?_⟩
  have read := read_savedIn blank room storable.made
    (mem_contents_iff.mpr ⟨r, member, s, inside, path, file, rfl⟩)
  rw [trimEnd_output own] at read
  rw [Stored.codeIn, file]
  exact ⟨_, read⟩

/-- A storable mod is saved and read back, with the codes that its files have then. -/
theorem read_save (goesOn : endsAtCode m = false) (storable : m.IsStorable) (blank : IsEmptyFolder fs folder place)
    (room : HasRoom folder m) :
    save fs folder m = (.ok (), savedIn fs place m) ∧
      ∃ m', read (savedIn fs place m) folder = .ok [m'] ∧
        HasRead m' m.name m.authors ((stored m).map (StoredRevision.readBack (savedIn fs place m) folder)) := by
  refine ⟨save_eq goesOn blank.toIsFolder blank.noFolderIn (fun _ => room.fitsIn storable.made)
    room.fitsIn_document, ?_⟩
  obtain ⟨time, entry⟩ := entryAt?_savedIn_document fs place storable.made
  have text := readText_file (isFolder_savedIn blank) room.fitsIn_document entry
  have nonempty : stored m ≠ [] := by
    intro empty
    refine storable.revisions ?_
    rw [revisions_eq, empty]
    rfl
  have distinct : ((stored m).map StoredRevision.label).Nodup := by
    rw [map_label_stored]
    exact storable.distinct
  have trimmed : ∀ r ∈ stored m, Text.trim r.label = r.label := by
    intro r member
    refine storable.trimmed ⟨r.label, r.changes.map Stored.change⟩ ?_
    rw [revisions_eq]
    exact List.mem_map_of_mem member
  have readable : ∀ r ∈ stored m, ∀ s ∈ r.changes, s.IsReadable (savedIn fs place m) folder :=
    fun r member s inside => isReadable_savedIn storable blank room member inside
  obtain ⟨m', mods, done⟩ := modsOf_eq storable.authors storable.options storable.name nonempty
    distinct trimmed readable
  refine ⟨m', ?_, done⟩
  rw [read, show documentOf folder = folder.join ⟨documentName⟩ from rfl, text]
  simp only [readDocument?_documentText storable.options, mods]

/-- All codes are read as they were written, if the code of each file is. -/
theorem codeIn_eq_iff (storable : m.IsStorable) :
    (∀ r ∈ stored m, ∀ s ∈ r.changes, s.codeIn fs folder = s.change.code) ↔
      ∀ f ∈ (contents m).2, (assembledCode? fs (folder.join f.path)).getD (Text.trimEnd f.contents) =
        Text.trimEnd f.contents := by
  constructor
  · intro kept f member
    obtain ⟨r, known, s, own, path, file, rfl⟩ := mem_contents_iff.mp member
    have code := kept r known s own
    rw [Stored.codeIn, file] at code
    rw [trimEnd_output (storable.changes _ (change_mem_changes known own))]
    exact code
  · intro kept r known s own
    rw [Stored.codeIn]
    split
    case h_1 => rfl
    case h_2 path file =>
      have code := kept _ (mem_contents_iff.mpr ⟨r, known, s, own, path, file, rfl⟩)
      rwa [trimEnd_output (storable.changes _ (change_mem_changes known own))] at code

/-- The revisions come back if all codes do. -/
theorem asWritten_readBack_iff :
    ((stored m).map (StoredRevision.readBack fs folder)).map Revision.asWritten =
        m.revisions.map Revision.asWritten ↔
      ∀ r ∈ stored m, ∀ s ∈ r.changes, s.codeIn fs folder = s.change.code := by
  have change (s : Stored) : (s.readBack fs folder).asWritten = s.change.asWritten ↔
      s.codeIn fs folder = s.change.code := by
    constructor
    · exact congrArg Change.code
    · intro same
      simp only [Change.asWritten, Stored.readBack, same]
  rw [revisions_eq, List.map_map, List.map_map, List.map_inj_left]
  refine forall₂_congr fun r _ => ?_
  simp only [Function.comp, Revision.asWritten, StoredRevision.readBack, Revision.mk.injEq, true_and,
    List.map_map, List.map_inj_left, change]

theorem contents_eq_iff (storable : m.IsStorable) {f g : OutputFile} (first : f ∈ (contents m).2)
    (second : g ∈ (contents m).2) :
    Text.trimEnd f.contents = Text.trimEnd g.contents ↔ f.contents = g.contents := by
  have ends {f : OutputFile} (member : f ∈ (contents m).2) :
      f.contents = Text.trimEnd f.contents ++ ['\n'] := by
    obtain ⟨r, known, s, own, path, file, rfl⟩ := mem_contents_iff.mp member
    rw [trimEnd_output (storable.changes _ (change_mem_changes known own))]
  constructor
  · intro same
    rw [ends first, ends second, same]
  · exact congrArg Text.trimEnd

/-- The revisions of a saved mod come back if no file is taken for what was assembled from one that
holds other code. -/
theorem asWritten_savedIn_iff (storable : m.IsStorable) (blank : IsEmptyFolder fs folder place)
    (room : HasRoom folder m) :
    ((stored m).map (StoredRevision.readBack (savedIn fs place m) folder)).map Revision.asWritten =
        m.revisions.map Revision.asWritten ↔
      ∀ i j f g, (contents m).2[i]? = some f → (contents m).2[j]? = some g → g.IsBeside f →
        fs.clock (fs.writes + i) ≤ fs.clock (fs.writes + j) → g.contents = f.contents := by
  rw [asWritten_readBack_iff, codeIn_eq_iff storable]
  constructor
  · intro kept i j f g source file beside notOlder
    have memberSource := List.mem_of_getElem? source
    exact (contents_eq_iff storable (List.mem_of_getElem? file) memberSource).mp
      ((assembledCode?_savedIn_iff blank room storable.made source).mp (kept f memberSource) j g file
        beside notOlder)
  · intro agree f member
    obtain ⟨i, source⟩ := List.mem_iff_getElem?.mp member
    refine (assembledCode?_savedIn_iff blank room storable.made source).mpr
      fun j g file beside notOlder => ?_
    exact congrArg Text.trimEnd (agree i j f g source file beside notOlder)

/-- A mod that is saved in an empty folder is read from it again, without errors, unless the program
ends at one of its codes before anything is written. Its revisions come back if and only if no file that
is taken for what was assembled from another one holds other code. Such a file is the text file beside an
assembly file, if it is not older. -/
theorem read_save_iff (storable : m.IsStorable) (blank : IsEmptyFolder fs folder place)
    (room : HasRoom folder m) :
    (endsAtCode m = true → save fs folder m = (.error .overflow, fs)) ∧
    (endsAtCode m = false →
      ∃ after m', save fs folder m = (.ok (), after) ∧ read after folder = .ok [m'] ∧
        m'.name = m.name ∧ m'.authors = m.authors ∧ m'.errors = [] ∧
        (m'.revisions.map Revision.asWritten = m.revisions.map Revision.asWritten ↔
          ∀ i j f g, (contents m).2[i]? = some f → (contents m).2[j]? = some g → g.IsBeside f →
            fs.clock (fs.writes + i) ≤ fs.clock (fs.writes + j) → g.contents = f.contents)) := by
  refine ⟨save_of_endsAtCode, fun goesOn => ?_⟩
  obtain ⟨saved, m', back, done⟩ := read_save goesOn storable blank room
  refine ⟨_, m', saved, back, done.name, done.authors, done.errors, ?_⟩
  rw [done.revisions]
  exact asWritten_savedIn_iff storable blank room

end Mods

/-! ### Two functions whose files have one stem -/

def functionMod (functions : List (Text × Text)) : GameMod :=
  { GameMod.new "Items" with
    authors := ["Ann".toList]
    revisions := [⟨"NTSC 1.02", functions.map fun f => Change.new .standalone f.1 f.2⟩] }

theorem functionMod_isStorable {functions : List (Text × Text)}
    (trimmed : ∀ f ∈ functions, Text.trim f.1 = f.1 ∧ Text.trimEnd f.2 = f.2) :
    (functionMod functions).IsStorable := by
  have standalone : ∀ c ∈ (functionMod functions).changes, ∃ f ∈ functions,
      c = Change.new .standalone f.1 f.2 := by
    intro c member
    obtain ⟨r, known, inside⟩ := List.mem_flatMap.mp member
    rw [List.mem_singleton.mp known] at inside
    obtain ⟨f, own, rfl⟩ := List.mem_map.mp inside
    exact ⟨f, own, rfl⟩
  refine ⟨rfl, by simp [functionMod], rfl, by simp [functionMod], by simp [functionMod], ?_, ?_, ?_⟩
  · intro r member
    rw [List.mem_singleton.mp member]
    rfl
  · intro c member
    obtain ⟨f, own, rfl⟩ := standalone c member
    exact ⟨by simp [Change.new], Text.trim_trim f.1, (trimmed f own).2, by simp [Change.new]⟩
  · intro c member
    obtain ⟨f, -, rfl⟩ := standalone c member
    rfl

/-- A file system with one folder and a clock that counts the writes. -/
def folderSystem : FileSystem := ⟨[(["out".toList], .directory)], [], fun n => n, 0⟩

theorem folderSystem_isEmptyFolder : IsEmptyFolder folderSystem ⟨"out"⟩ ["out".toList] := by
  refine ⟨⟨by decide +kernel, by decide +kernel⟩, fun name => ?_⟩
  simp [FileSystem.entryAt?, folderSystem]

/-- Two functions in assembly language, the second of which has a numbered file. -/
def assemblyMod : GameMod :=
  functionMod [("Load_Item", "li r3, 1\nblr"), ("Load.Item", "li r3, 2\nblr")]

theorem contents_assemblyMod : (contents assemblyMod).2 =
    [⟨⟨"Load_Item.asm"⟩, "li r3, 1\nblr\n"⟩, ⟨⟨"Load_Item_2.asm"⟩, "li r3, 2\nblr\n"⟩] := by
  decide +kernel

theorem assemblyMod_hasRoom : HasRoom ⟨"out"⟩ assemblyMod := by
  refine ⟨?_, ?_, by decide +kernel⟩
  all_goals
    rw [contents_assemblyMod]
    decide +kernel

/-- Both functions come back. -/
theorem assemblyMod_read_save :
    ∃ after m', save folderSystem ⟨"out"⟩ assemblyMod = (.ok (), after) ∧
      read after ⟨"out"⟩ = .ok [m'] ∧
      m'.revisions.map Revision.asWritten = assemblyMod.revisions.map Revision.asWritten := by
  obtain ⟨-, outcome⟩ := read_save_iff (functionMod_isStorable (by decide +kernel))
    folderSystem_isEmptyFolder assemblyMod_hasRoom
  obtain ⟨after, m', saved, back, -, -, -, kept⟩ := outcome (by decide +kernel)
  refine ⟨after, m', saved, back, kept.mpr fun i j f g _ file beside _ => ?_⟩
  have assembly : ∀ g ∈ (contents assemblyMod).2, g.path.text.getLast? = some 'm' := by
    rw [contents_assemblyMod]
    decide
  obtain ⟨stem, -, -, name⟩ := beside
  have last := assembly g (List.mem_of_getElem? file)
  rw [name, List.getLast?_append_of_ne_nil _ (List.cons_ne_nil _ _)] at last
  exact absurd last (by decide)

/-- The first function in assembly language, and the second in hexadecimal digits. -/
def besideMod : GameMod :=
  functionMod [("Load_Item", "li r3, 1\nblr"), ("Load.Item", "38600002\n4E800020")]

theorem contents_besideMod : (contents besideMod).2 =
    [⟨⟨"Load_Item.asm"⟩, "li r3, 1\nblr\n"⟩, ⟨⟨"Load_Item.txt"⟩, "38600002\n4E800020\n"⟩] := by
  decide +kernel

theorem besideMod_hasRoom : HasRoom ⟨"out"⟩ besideMod := by
  refine ⟨?_, ?_, by decide +kernel⟩
  all_goals
    rw [contents_besideMod]
    decide +kernel

/-- The first function comes back with the code of the second one. -/
theorem besideMod_not_read_back :
    besideMod.IsStorable ∧ IsEmptyFolder folderSystem ⟨"out"⟩ ["out".toList] ∧
      (∀ i j, i ≤ j → folderSystem.clock i ≤ folderSystem.clock j) ∧
      ∃ after m', save folderSystem ⟨"out"⟩ besideMod = (.ok (), after) ∧
        read after ⟨"out"⟩ = .ok [m'] ∧
        m'.revisions.map Revision.asWritten ≠ besideMod.revisions.map Revision.asWritten := by
  have storable : besideMod.IsStorable := functionMod_isStorable (by decide +kernel)
  obtain ⟨saved, m', back, done⟩ := read_save (by decide +kernel) storable folderSystem_isEmptyFolder
    besideMod_hasRoom
  refine ⟨storable, folderSystem_isEmptyFolder, fun _ _ => Int.ofNat_le.mpr, _, m', saved, back,
    fun kept => ?_⟩
  rw [done.revisions, asWritten_savedIn_iff storable folderSystem_isEmptyFolder besideMod_hasRoom,
    contents_besideMod] at kept
  have beside : OutputFile.IsBeside ⟨⟨"Load_Item.txt"⟩, "38600002\n4E800020\n"⟩
      ⟨⟨"Load_Item.asm"⟩, "li r3, 1\nblr\n"⟩ := ⟨"Load_Item", by decide, rfl, rfl⟩
  have same := kept 0 1 _ _ rfl rfl beside (by decide)
  revert same
  decide

end ModFolder

end GamePatch
