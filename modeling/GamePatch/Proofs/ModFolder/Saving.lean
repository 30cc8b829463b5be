import GamePatch.Proofs.FileSystem.Writes
import GamePatch.Proofs.ModFolder.FileNames
import GamePatch.Proofs.Text.Utf8

set_option autoImplicit false

namespace GamePatch.ModFolder

open FileSystem (IsFolder NoFolderIn FitsIn)

/-! ### Changes and their files -/

/-- A change with the file that its code is written to. -/
structure Stored where
  change : Change
  file : Option Path

def Stored.entry (s : Stored) : BuildEntry := entryOf s.change s.file

def Stored.output? (s : Stored) : Option OutputFile :=
  s.file.map fun path => ⟨path, s.change.code ++ ['\n']⟩

structure StoredRevision where
  label : Text
  changes : List Stored

def storedIn (lead : Option Text) : List Path → List Change → List Stored
  | _, [] => []
  | used, c :: rest =>
    if isInline c then ⟨c, none⟩ :: storedIn lead used rest
    else
      let path := fileName used lead c
      ⟨c, some path⟩ :: storedIn lead (used ++ [path]) rest

def storedOf (m : GameMod) : List Path → List Revision → List StoredRevision
  | _, [] => []
  | used, r :: rest =>
    let changes := storedIn (leadOf m r) used r.changes
    ⟨r.label, changes⟩ :: storedOf m (used ++ (changes.filterMap Stored.output?).map OutputFile.path) rest

theorem entriesOf_eq (lead : Option Text) (used : List Path) (changes : List Change) :
    entriesOf lead used changes = ((storedIn lead used changes).map Stored.entry,
      (storedIn lead used changes).filterMap Stored.output?) := by
  induction changes generalizing used with
  | nil => rfl
  | cons c rest ih =>
    rw [entriesOf, storedIn]
    split
    · rw [ih]
      rfl
    · simp only [ih]
      rfl

theorem codesOf_eq (m : GameMod) (used : List Path) (revisions : List Revision) :
    codesOf m used revisions =
      ((storedOf m used revisions).map fun r => codeOf m r.label (r.changes.map Stored.entry),
        (storedOf m used revisions).flatMap fun r => r.changes.filterMap Stored.output?) := by
  induction revisions generalizing used with
  | nil => rfl
  | cons r rest ih =>
    rw [codesOf, storedOf]
    simp only [entriesOf_eq, ih]
    rfl

theorem map_change_storedIn (lead : Option Text) (used : List Path) (changes : List Change) :
    (storedIn lead used changes).map Stored.change = changes := by
  induction changes generalizing used with
  | nil => rfl
  | cons c rest ih =>
    rw [storedIn]
    split <;> rw [List.map_cons, ih]

/-- The revisions are those of the mod. -/
theorem map_storedOf (m : GameMod) (used : List Path) (revisions : List Revision) :
    ((storedOf m used revisions).map fun r => (⟨r.label, r.changes.map Stored.change⟩ : Revision)) =
      revisions := by
  induction revisions generalizing used with
  | nil => rfl
  | cons r rest ih => rw [storedOf, List.map_cons, ih, map_change_storedIn]

/-- The changes that have no file are those that are written into their entries. -/
theorem isNone_file_of_mem_storedIn {lead : Option Text} {used : List Path} {changes : List Change}
    {s : Stored} (member : s ∈ storedIn lead used changes) : s.file.isNone = isInline s.change := by
  induction changes generalizing used with
  | nil => cases member
  | cons c rest ih =>
    rw [storedIn] at member
    split at member
    case isTrue inline =>
      rcases List.mem_cons.mp member with rfl | later
      · exact inline.symm
      · exact ih later
    case isFalse own =>
      rcases List.mem_cons.mp member with rfl | later
      · exact (Bool.not_eq_true _ ▸ own).symm
      · exact ih later

theorem isNone_file_of_mem_storedOf {m : GameMod} {used : List Path} {revisions : List Revision}
    {r : StoredRevision} (member : r ∈ storedOf m used revisions) {s : Stored} (inside : s ∈ r.changes) :
    s.file.isNone = isInline s.change := by
  induction revisions generalizing used with
  | nil => cases member
  | cons first rest ih =>
    rw [storedOf] at member
    rcases List.mem_cons.mp member with rfl | later
    · exact isNone_file_of_mem_storedIn inside
    · exact ih later

/-! ### Names -/

def KeepsNoFile (m : GameMod) : Prop := ∀ c ∈ m.changes, c.sourceFile = none

theorem KeepsNoFile.sourceFile_eq_none {m : GameMod} (made : KeepsNoFile m) {f : Filed} (member : f ∈ filed m) :
    f.change.sourceFile = none := by
  obtain ⟨r, known, inside⟩ := List.mem_flatMap.mp member
  obtain ⟨c, own, rfl⟩ := List.mem_map.mp inside
  exact made c (List.mem_flatMap.mpr ⟨r, known, List.mem_of_mem_filter own⟩)

/-- A name that is made up for a file of code. -/
structure IsMadeUp (name stem extension : Text) : Prop where
  name : name = stem ++ '.' :: extension
  stem : IsNameText stem
  extension : extension = "asm".toList ∨ extension = "txt".toList

theorem KeepsNoFile.isMadeUp {m : GameMod} (made : KeepsNoFile m) {f : OutputFile}
    (member : f ∈ (contents m).2) : ∃ stem extension, IsMadeUp f.path.text stem extension := by
  rw [files_contents] at member
  obtain ⟨i, found⟩ := List.mem_iff_getElem?.mp member
  have inside : i < (filed m).length := by
    rw [← length_filesFrom []]
    exact (List.getElem?_eq_some_iff.mp found).1
  have own := List.getElem_mem inside
  obtain ⟨before, -, file⟩ := getElem?_filesFrom [] (List.getElem?_eq_getElem inside)
  rw [found, Option.some.injEq] at file
  have clean := isClean_of_mem_filed own
  obtain ⟨n, -, -, path, -⟩ := clean.file_path (made.sourceFile_eq_none own) before
  rw [← file, numberedName_eq] at path
  refine ⟨_, _, congrArg Path.text path, clean.isNameText.numberedStem n, ?_⟩
  rw [extensionOf]
  split
  · exact Or.inl rfl
  · exact Or.inr rfl

theorem IsMadeUp.isExtension {name stem extension : Text} (up : IsMadeUp name stem extension) :
    IsExtension extension := by
  rcases up.extension with rfl | rfl
  · exact isExtension_asm
  · exact isExtension_txt

theorem IsMadeUp.ne_documentName {name stem extension : Text} (up : IsMadeUp name stem extension) :
    name ≠ documentName := by
  rintro same
  have last : name.getLast? = extension.getLast? := by
    rw [up.name, List.getLast?_append_of_ne_nil _ (List.cons_ne_nil _ _), ← List.singleton_append,
      List.getLast?_append_of_ne_nil _ up.isExtension.nonempty]
  rw [same] at last
  rcases up.extension with rfl | rfl
  all_goals
    revert last
    decide

theorem KeepsNoFile.nodup {m : GameMod} (made : KeepsNoFile m) :
    ((contents m).2.map fun f => f.path.text).Nodup := by
  have apart := (filesFrom_apart [] fun _ => isClean_of_mem_filed (m := m)).2
  rw [← files_contents] at apart
  have pairs : ((contents m).2.zip (filed m)).Pairwise fun x y => x.1.path.text ≠ y.1.path.text := by
    refine apart.imp_of_mem fun {x y} _ member free same => ?_
    refine free (made.sourceFile_eq_none (List.of_mem_zip member).2) ?_
    rw [Path.parts_eq, Path.parts_eq, same]
  have files : ((contents m).2.zip (filed m)).map Prod.fst = (contents m).2 := by
    refine List.map_fst_zip ?_
    rw [files_contents, length_filesFrom]
  rw [← files, List.map_map, List.nodup_iff_pairwise_ne, List.pairwise_map]
  exact pairs

/-! ### Saving -/

def OutputFile.written (f : OutputFile) : Text × Bytes := (f.path.text, Text.encodeUtf8 f.contents)

def documentText (m : GameMod) : Text := (CodeRecord.documentToJson (contents m).1).pretty 0

def writtenOf (m : GameMod) : List (Text × Bytes) :=
  (contents m).2.map OutputFile.written ++ [(documentName, Text.encodeUtf8 (documentText m))]

theorem KeepsNoFile.nodup_written {m : GameMod} (made : KeepsNoFile m) :
    ((writtenOf m).map Prod.fst).Nodup := by
  have names : (writtenOf m).map Prod.fst = ((contents m).2.map fun f => f.path.text) ++ [documentName] := by
    rw [writtenOf, List.map_append, List.map_map]
    rfl
  rw [names, List.nodup_append]
  refine ⟨made.nodup, List.nodup_singleton _, ?_⟩
  intro name member other own
  obtain ⟨f, inside, rfl⟩ := List.mem_map.mp member
  obtain ⟨stem, extension, up⟩ := made.isMadeUp inside
  rw [List.mem_singleton.mp own]
  exact up.ne_documentName

section Save

variable {fs : FileSystem} {folder : Path} {place : Location}

theorem saveFile_folder (there : fs.IsFolder folder place) (clear : fs.NoFolderIn place) {directory : Path}
    (made : fs.createDirectories directory = (.ok (), fs)) {name : Text} (fits : FitsIn folder name)
    (contents : Text) :
    saveFile fs directory (folder.join ⟨name⟩) contents =
      (.ok (), fs.writeAt (place ++ [name]) (Text.encodeUtf8 contents)) := by
  rw [saveFile, made]
  simp only [there.write_file fits (clear name)]

/-- Files that fit in a folder are written. -/
theorem saveFiles_eq (there : fs.IsFolder folder place) (clear : fs.NoFolderIn place)
    {files : List OutputFile} (fits : ∀ f ∈ files, FitsIn folder f.path.text) :
    saveFiles folder fs files = (.ok (), fs.writeFiles place (files.map OutputFile.written)) := by
  induction files generalizing fs with
  | nil => rfl
  | cons file files ih =>
    rw [List.forall_mem_cons] at fits
    obtain ⟨parent, known, short⟩ := Path.parent?_join there.nonempty fits.1.plain
    have made := (there.of_abbreviates short).createDirectories
    have one := saveFile_folder there clear made fits.1 file.contents
    rw [saveFiles]
    simp only [known, Option.getD_some, one]
    exact ih (there.keep (FileSystem.keeps_writeAt (clear _))) (clear.writeAt _) fits.2

/-- A mod whose files fit in a folder is saved there. -/
theorem save_eq {m : GameMod} (goesOn : endsAtCode m = false) (there : fs.IsFolder folder place)
    (clear : fs.NoFolderIn place)
    (fits : ∀ f ∈ (contents m).2, FitsIn folder f.path.text) (document : FitsIn folder documentName) :
    save fs folder m = (.ok (), fs.writeFiles place (writtenOf m)) := by
  obtain ⟨still, stillClear⟩ := there.writeFiles clear ((contents m).2.map OutputFile.written)
  have files := saveFiles_eq there clear fits
  have last := saveFile_folder still stillClear still.createDirectories document (documentText m)
  rw [save_of_not_endsAtCode goesOn]
  simp only [files]
  rw [writtenOf, FileSystem.writeFiles_append]
  exact last

end Save

end GamePatch.ModFolder
