import GamePatch.Proofs.FileSystem.Folder

set_option autoImplicit false

namespace GamePatch.FileSystem

variable {fs : FileSystem} {folder : Path} {place : Location} {name : Text}

def writeAt (fs : FileSystem) (place : Location) (bytes : Bytes) : FileSystem :=
  { fs.put place (.file bytes (fs.clock fs.writes)) with writes := fs.writes + 1 }

@[simp] theorem clock_writeAt (fs : FileSystem) (place : Location) (bytes : Bytes) :
    (fs.writeAt place bytes).clock = fs.clock := rfl

@[simp] theorem writes_writeAt (fs : FileSystem) (place : Location) (bytes : Bytes) :
    (fs.writeAt place bytes).writes = fs.writes + 1 := rfl

theorem find?_cons_entry (e : Location × FileEntry) (entries : List (Location × FileEntry))
    (other : Location) :
    ((e :: entries).find? fun e => e.1 == other).map Prod.snd =
      if e.1 = other then some e.2 else (entries.find? fun e => e.1 == other).map Prod.snd := by
  by_cases own : e.1 = other
  · rw [List.find?_cons_of_pos (by simpa using own), if_pos own, Option.map_some]
  · rw [List.find?_cons_of_neg (by simpa using own), if_neg own]

theorem find?_putEntry (place other : Location) (entry : FileEntry)
    (entries : List (Location × FileEntry)) :
    ((putEntry place entry entries).find? fun e => e.1 == other).map Prod.snd =
      if place = other then some entry else (entries.find? fun e => e.1 == other).map Prod.snd := by
  induction entries with
  | nil =>
    rw [putEntry, find?_cons_entry]
  | cons e entries ih =>
    rw [putEntry]
    split
    case isTrue same =>
      rw [find?_cons_entry, find?_cons_entry, same]
      split <;> rfl
    case isFalse apart =>
      rw [find?_cons_entry, find?_cons_entry, ih]
      split
      case isTrue own => rw [if_neg fun same => apart (own.trans same.symm)]
      case isFalse => rfl

/-- Only what is at the place is another. The root stays what it is. -/
theorem entryAt?_put (fs : FileSystem) (nonempty : place ≠ []) (entry : FileEntry) (other : Location) :
    (fs.put place entry).entryAt? other = if place = other then some entry else fs.entryAt? other := by
  cases other with
  | nil =>
    rw [if_neg nonempty]
    rfl
  | cons a other => exact find?_putEntry _ _ _ _

theorem entryAt?_writeAt (fs : FileSystem) (bytes : Bytes) (other : Location) :
    (fs.writeAt (place ++ [name]) bytes).entryAt? other =
      if place ++ [name] = other then some (.file bytes (fs.clock fs.writes)) else fs.entryAt? other :=
  entryAt?_put fs (by simp) _ other

theorem keeps_writeAt {bytes : Bytes}
    (file : fs.entryAt? (place ++ [name]) ≠ some .directory) :
    Keeps fs (fs.writeAt (place ++ [name]) bytes) := by
  refine ⟨rfl, fun other directory => ?_⟩
  rw [entryAt?_writeAt, if_neg, directory]
  rintro rfl
  exact file directory

theorem IsFolder.write_file (there : fs.IsFolder folder place) (fits : FitsIn folder name)
    (file : fs.entryAt? (place ++ [name]) ≠ some .directory) (bytes : Bytes) :
    fs.write (folder.join ⟨name⟩) bytes = .ok (fs.writeAt (place ++ [name]) bytes) := by
  rw [write, there.locate_join fits]
  change (if _ then _ else _) = _
  rw [Path.endsInSlash_join there.nonempty fits.plain, if_neg (by simp)]
  rw [lookUp_name fits.shortName]
  change (if _ then _ else _) = _
  rw [if_neg file]
  rfl

/-! ### Files that are written one after another -/

def NoFolderIn (fs : FileSystem) (place : Location) : Prop :=
  ∀ name, fs.entryAt? (place ++ [name]) ≠ some .directory

theorem NoFolderIn.writeAt (files : fs.NoFolderIn place) (bytes : Bytes) :
    (fs.writeAt (place ++ [name]) bytes).NoFolderIn place := by
  intro other
  rw [entryAt?_writeAt]
  split
  · simp
  · exact files other

/-- The file system after files of a place are written in order. -/
def writeFiles (place : Location) (files : List (Text × Bytes)) (fs : FileSystem) : FileSystem :=
  files.foldl (fun fs file => fs.writeAt (place ++ [file.1]) file.2) fs

theorem writeFiles_append (files more : List (Text × Bytes)) :
    fs.writeFiles place (files ++ more) = (fs.writeFiles place files).writeFiles place more :=
  List.foldl_append

theorem IsFolder.writeFiles (there : fs.IsFolder folder place) (clear : fs.NoFolderIn place)
    (files : List (Text × Bytes)) :
    (fs.writeFiles place files).IsFolder folder place ∧ (fs.writeFiles place files).NoFolderIn place := by
  induction files generalizing fs with
  | nil => exact ⟨there, clear⟩
  | cons file files ih => exact ih (there.keep (keeps_writeAt (clear _))) (clear.writeAt _)

/-- Names that are not written are the names of what they were. -/
theorem entryAt?_writeFiles_of_notMem {files : List (Text × Bytes)}
    (absent : name ∉ files.map Prod.fst) :
    (fs.writeFiles place files).entryAt? (place ++ [name]) = fs.entryAt? (place ++ [name]) := by
  induction files generalizing fs with
  | nil => rfl
  | cons file files ih =>
    rw [List.map_cons, List.mem_cons, not_or] at absent
    rw [writeFiles, List.foldl_cons]
    refine (ih absent.2).trans ?_
    rw [entryAt?_writeAt, if_neg]
    exact fun same => absent.1 (List.singleton_inj.mp (List.append_cancel_left same)).symm

/-- Each of some files with different names is there, with the time of its write. -/
theorem entryAt?_writeFiles {files : List (Text × Bytes)} (distinct : (files.map Prod.fst).Nodup)
    {i : Nat} {bytes : Bytes} (file : files[i]? = some (name, bytes)) :
    (fs.writeFiles place files).entryAt? (place ++ [name]) =
      some (.file bytes (fs.clock (fs.writes + i))) := by
  induction files generalizing fs i with
  | nil => cases file
  | cons first files ih =>
    rw [List.map_cons, List.nodup_cons] at distinct
    rw [writeFiles, List.foldl_cons]
    cases i with
    | zero =>
      cases file
      refine (entryAt?_writeFiles_of_notMem distinct.1).trans ?_
      rw [entryAt?_writeAt, if_pos rfl, Nat.add_zero]
    | succ i =>
      refine (ih distinct.2 file).trans ?_
      rw [clock_writeAt, writes_writeAt, Nat.add_assoc, Nat.add_comm 1 i]

end GamePatch.FileSystem
