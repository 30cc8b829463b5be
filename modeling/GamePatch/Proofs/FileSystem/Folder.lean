import GamePatch.FileSystem
import GamePatch.Proofs.Fallible
import GamePatch.Proofs.Path

set_option autoImplicit false

namespace GamePatch.FileSystem

open GamePatch.Path (IsPlain)
open Fallible (bind_eq_ok_iff)

variable {fs fs' : FileSystem} {p folder : Path} {place : Location} {name : Text}

/-! ### Places -/

theorem lookUp_eq_ok_iff {found : Option FileEntry} :
    fs.lookUp place = .ok found ↔
      (∀ name ∈ place.getLast?, Text.byteLength name ≤ maxNameLength) ∧
        fs.entryAt? place = found := by
  rw [lookUp]
  cases place.getLast? with
  | none => simp
  | some name =>
    simp only [Option.any_some, decide_eq_true_eq, Option.mem_def, Option.some.injEq, forall_eq']
    split
    case isTrue long => simp [Nat.not_le.mpr long]
    case isFalse short => simp [Nat.not_lt.mp short]

theorem enter_eq_ok_iff : fs.enter place = .ok () ↔ fs.lookUp place = .ok (some .directory) := by
  rw [enter, bind_eq_ok_iff]
  constructor
  · rintro ⟨found, look, entered⟩
    split at entered
    · cases entered
    · exact look
    · cases entered
  · intro look
    exact ⟨_, look, rfl⟩

def stepFrom (place : Location) : Path.Part → Location
  | .root => []
  | .current => place
  | .parent => place.dropLast
  | .name name => place ++ [name]

theorem follow_cons (place : Location) (part : Path.Part) (rest : List Path.Part) :
    fs.follow place (part :: rest) = fs.enter place >>= fun _ => fs.follow (stepFrom place part) rest := by
  cases part <;> rw [follow] <;> rfl

theorem follow_append (start : Location) (front back : List Path.Part) :
    fs.follow start (front ++ back) = fs.follow start front >>= fun place => fs.follow place back := by
  induction front generalizing start with
  | nil => rw [List.nil_append, follow]; rfl
  | cons part front ih =>
    rw [List.cons_append, follow_cons, follow_cons, bind_assoc]
    exact congrArg _ (funext fun _ => ih _)

/-- The conditions under which a path names a place. -/
theorem locate_eq_ok_iff :
    fs.locate p = .ok place ↔
      Text.hasZero p.text = false ∧ p.text ≠ [] ∧ Text.byteLength p.text ≤ maxPathLength ∧
        fs.follow fs.workingDirectory p.parts = .ok place ∧
        (p.endsInDot = true → fs.enter place = .ok ()) := by
  have fails {c : Prop} [Decidable c] {e : FileError} {f : Unit → Except FileError Location}
      {x : Except FileError Location} :
      (if c then Except.error e >>= f else x) = .ok place ↔ ¬ c ∧ x = .ok place := by
    split <;> simp [*, bind, Except.bind]
  simp only [locate, fails, bind_eq_ok_iff, Bool.not_eq_true, List.isEmpty_eq_false_iff, Nat.not_lt]
  refine and_congr_right fun _ => and_congr_right fun _ => and_congr_right fun _ => ?_
  constructor
  · rintro ⟨place', reached, ended⟩
    split at ended
    case isTrue dot =>
      obtain ⟨_, entered, same⟩ := bind_eq_ok_iff.mp ended
      cases same
      exact ⟨reached, fun _ => entered⟩
    case isFalse none =>
      cases ended
      exact ⟨reached, fun dot => absurd dot none⟩
  · rintro ⟨reached, ended⟩
    refine ⟨place, reached, ?_⟩
    split
    case isTrue dot => rw [ended dot]; rfl
    case isFalse => rfl

/-! ### Directories that are kept -/

/-- Everything that is a directory still is one. -/
structure Keeps (fs fs' : FileSystem) : Prop where
  workingDirectory : fs'.workingDirectory = fs.workingDirectory
  directories : ∀ place, fs.entryAt? place = some .directory → fs'.entryAt? place = some .directory

theorem Keeps.enter (keeps : Keeps fs fs') (entered : fs.enter place = .ok ()) :
    fs'.enter place = .ok () := by
  rw [enter_eq_ok_iff, lookUp_eq_ok_iff] at entered ⊢
  exact ⟨entered.1, keeps.directories place entered.2⟩

theorem Keeps.follow (keeps : Keeps fs fs') {start : Location} {parts : List Path.Part}
    (reached : fs.follow start parts = .ok place) : fs'.follow start parts = .ok place := by
  induction parts generalizing start with
  | nil =>
    rw [FileSystem.follow] at reached ⊢
    exact reached
  | cons part parts ih =>
    rw [follow_cons, bind_eq_ok_iff] at reached ⊢
    obtain ⟨_, entered, rest⟩ := reached
    exact ⟨(), keeps.enter entered, ih rest⟩

theorem Keeps.locate (keeps : Keeps fs fs') (located : fs.locate p = .ok place) :
    fs'.locate p = .ok place := by
  rw [locate_eq_ok_iff] at located ⊢
  obtain ⟨noZero, some, short, reached, ended⟩ := located
  rw [keeps.workingDirectory]
  exact ⟨noZero, some, short, keeps.follow reached, fun dot => keeps.enter (ended dot)⟩

/-! ### Folders -/

structure IsFolder (fs : FileSystem) (folder : Path) (place : Location) : Prop where
  located : fs.locate folder = .ok place
  found : fs.lookUp place = .ok (some .directory)

theorem IsFolder.nonempty (there : fs.IsFolder folder place) : folder.text ≠ [] :=
  (locate_eq_ok_iff.mp there.located).2.1

theorem IsFolder.keep (there : fs.IsFolder folder place) (keeps : Keeps fs fs') :
    fs'.IsFolder folder place := by
  refine ⟨keeps.locate there.located, ?_⟩
  have found := there.found
  rw [lookUp_eq_ok_iff] at found ⊢
  exact ⟨found.1, keeps.directories place found.2⟩

theorem byteLength_append (s t : Text) : Text.byteLength (s ++ t) = Text.byteLength s + Text.byteLength t := by
  rw [Text.byteLength, Text.encodeUtf8, List.flatMap_append, List.length_append]
  rfl

theorem hasZero_append (s t : Text) : Text.hasZero (s ++ t) = (Text.hasZero s || Text.hasZero t) :=
  List.any_append

/-- A shorter spelling of the path of a folder names the folder. -/
theorem IsFolder.of_abbreviates (there : fs.IsFolder folder place) (short : p.Abbreviates folder) :
    fs.IsFolder p place := by
  obtain ⟨noZero, -, fits, reached, -⟩ := locate_eq_ok_iff.mp there.located
  obtain ⟨rest, whole⟩ := short.isPrefix
  rw [← whole, hasZero_append, Bool.or_eq_false_iff] at noZero
  rw [← whole, byteLength_append] at fits
  refine ⟨locate_eq_ok_iff.mpr
    ⟨noZero.1, short.nonempty, by omega, short.parts ▸ reached, fun _ => ?_⟩, there.found⟩
  exact enter_eq_ok_iff.mpr there.found

/-- To make a directory that is there changes nothing. -/
theorem IsFolder.createDirectories (there : fs.IsFolder folder place) :
    fs.createDirectories folder = (.ok (), fs) := by
  have exist : fs.createDirectory folder = .error .alreadyExists := by
    rw [createDirectory, there.located]
    change (fs.lookUp place >>= _) = _
    rw [there.found]
    rfl
  have directory : fs.isDirectory folder = true := by
    have stat : fs.stat folder = .ok .directory := by
      rw [FileSystem.stat, there.located]
      change (fs.lookUp place >>= _) = _
      rw [there.found]
      rfl
    rw [isDirectory, stat]
    rfl
  have ensured : fs.ensureDirectory folder = (.ok (), fs) := by
    rw [ensureDirectory, exist]
    simp only [directory, if_true]
  rw [FileSystem.createDirectories, createDirectoriesWithin, if_neg (by simpa using there.nonempty),
    exist]
  exact ensured

/-! ### Files in a folder -/

structure FitsIn (folder : Path) (name : Text) : Prop where
  plain : IsPlain name
  noZero : Text.hasZero name = false
  shortName : Text.byteLength name ≤ maxNameLength
  shortPath : Text.byteLength (folder.join ⟨name⟩).text ≤ maxPathLength

/-- A path into a folder names the place below it, if it names one at all. -/
theorem IsFolder.follow_join (there : fs.IsFolder folder place) (plain : IsPlain name) :
    fs.follow fs.workingDirectory (folder.join ⟨name⟩).parts = .ok (place ++ [name]) := by
  obtain ⟨-, some, -, reached, -⟩ := locate_eq_ok_iff.mp there.located
  rw [Path.parts_join some plain, follow_append, reached]
  change fs.follow place [.name name] = _
  rw [follow_cons, enter_eq_ok_iff.mpr there.found]
  rfl

theorem IsFolder.locate_join (there : fs.IsFolder folder place) (fits : FitsIn folder name) :
    fs.locate (folder.join ⟨name⟩) = .ok (place ++ [name]) := by
  obtain ⟨noZero, some, -, -, -⟩ := locate_eq_ok_iff.mp there.located
  have text := Path.join_plain some fits.plain
  refine locate_eq_ok_iff.mpr ⟨?_, ?_, fits.shortPath, there.follow_join fits.plain, fun dot => ?_⟩
  · rw [text]
    split
    · rw [hasZero_append, noZero, fits.noZero]
      rfl
    · rw [← List.singleton_append, hasZero_append, hasZero_append, noZero, fits.noZero]
      rfl
  · rw [text]
    split <;> simp [some]
  · rw [Path.endsInDot_join some fits.plain] at dot
    cases dot

theorem lookUp_name (short : Text.byteLength name ≤ maxNameLength) :
    fs.lookUp (place ++ [name]) = .ok (fs.entryAt? (place ++ [name])) := by
  rw [lookUp_eq_ok_iff, List.getLast?_concat]
  refine ⟨fun other same => ?_, rfl⟩
  cases same
  exact short

/-- A file of a folder by its name. -/
theorem IsFolder.stat_file (there : fs.IsFolder folder place) (fits : FitsIn folder name)
    {bytes : Bytes} {modified : Int}
    (file : fs.entryAt? (place ++ [name]) = some (.file bytes modified)) :
    fs.stat (folder.join ⟨name⟩) = .ok (.file bytes modified) := by
  rw [stat, there.locate_join fits]
  change (fs.lookUp (place ++ [name]) >>= _) = _
  rw [lookUp_name fits.shortName, file]
  change (if _ then _ else _) = _
  rw [Path.endsInSlash_join there.nonempty fits.plain, if_neg (by simp)]

/-- A name that nothing has is the name of no file. -/
theorem IsFolder.modified?_absent (there : fs.IsFolder folder place) (plain : IsPlain name)
    (absent : fs.entryAt? (place ++ [name]) = none) : fs.modified? (folder.join ⟨name⟩) = none := by
  have missing : ∀ entry, fs.stat (folder.join ⟨name⟩) ≠ .ok entry := by
    intro entry found
    rw [stat, bind_eq_ok_iff] at found
    obtain ⟨other, located, found⟩ := found
    have reached := (locate_eq_ok_iff.mp located).2.2.2.1
    rw [there.follow_join plain] at reached
    cases reached
    obtain ⟨look, looked, found⟩ := bind_eq_ok_iff.mp found
    rw [lookUp_eq_ok_iff, absent] at looked
    rw [← looked.2] at found
    cases found
  rw [modified?]
  split
  case h_1 found => exact absurd found (missing _)
  case h_2 => rfl

theorem IsFolder.modified?_file (there : fs.IsFolder folder place) (fits : FitsIn folder name)
    {bytes : Bytes} {modified : Int}
    (file : fs.entryAt? (place ++ [name]) = some (.file bytes modified)) :
    fs.modified? (folder.join ⟨name⟩) = some modified := by
  rw [modified?, there.stat_file fits file]

theorem IsFolder.readBytes_file (there : fs.IsFolder folder place) (fits : FitsIn folder name)
    {bytes : Bytes} {modified : Int}
    (file : fs.entryAt? (place ++ [name]) = some (.file bytes modified)) :
    fs.readBytes (folder.join ⟨name⟩) = .ok bytes := by
  rw [readBytes, there.stat_file fits file]
  rfl

end GamePatch.FileSystem
