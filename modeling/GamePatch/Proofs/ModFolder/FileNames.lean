import GamePatch.ModFolder.Writer
import GamePatch.Proofs.Path
import GamePatch.Proofs.Text.Digits
import Mathlib.Data.List.Nodup
import Mathlib.Data.List.Perm.Subperm

set_option autoImplicit false

namespace GamePatch.ModFolder

open GamePatch.Path (IsPlain)

def numberedStem (stem : Text) (number : Nat) : Text :=
  if number ≤ 1 then stem else stem ++ ['_'] ++ Text.decimal number

theorem numberedName_eq (stem extension : Text) (number : Nat) :
    numberedName stem extension number = ⟨numberedStem stem number ++ '.' :: extension⟩ := by
  rw [numberedName, numberedStem]
  split <;> simp

/-- A text of the characters that stand before the point of a made-up name. -/
def IsNameText (s : Text) : Prop := ∀ c ∈ s, (c.isAlphanum || c == '_') = true

theorem isNameText_underscore : IsNameText ['_'] := List.forall_mem_singleton.mpr rfl

theorem IsNameText.append {s t : Text} (first : IsNameText s) (second : IsNameText t) :
    IsNameText (s ++ t) :=
  List.forall_mem_append.mpr ⟨first, second⟩

theorem IsNameText.noSlash {s : Text} (clean : IsNameText s) : '/' ∉ s := fun member => by
  have plain := clean '/' member
  revert plain
  decide

theorem IsNameText.hasZero {s : Text} (clean : IsNameText s) : Text.hasZero s = false := by
  rw [Text.hasZero, List.any_eq_false]
  intro c member zero
  have plain := clean c member
  rw [beq_iff_eq] at zero
  rw [← Char.ofNat_toNat c, zero] at plain
  revert plain
  decide

theorem isNameText_decimal (number : Nat) : IsNameText (Text.decimal number) := by
  intro c member
  have digit := Nat.isDigit_of_mem_toDigits (by decide) (by decide) member
  simp [Char.isAlphanum, digit]

theorem isNameText_nameStem (s : Text) : IsNameText (nameStem s) := by
  have letters : IsNameText ((Text.trim s).map fun c => if c.isAlphanum || c == '_' then c else '_') := by
    intro c member
    obtain ⟨x, -, rfl⟩ := List.mem_map.mp member
    split
    case isTrue plain => exact plain
    case isFalse => decide
  intro c member
  rw [nameStem, Text.stripWhile, Text.dropEndWhile, List.mem_reverse] at member
  have inside := (List.dropWhile_sublist _).subset member
  rw [List.mem_reverse] at inside
  exact letters c ((List.dropWhile_sublist _).subset inside)

structure IsExtension (extension : Text) : Prop where
  nonempty : extension ≠ []
  noPoint : '.' ∉ extension
  noSlash : '/' ∉ extension

theorem isExtension_asm : IsExtension "asm".toList := ⟨by decide, by decide, by decide⟩

theorem isExtension_txt : IsExtension "txt".toList := ⟨by decide, by decide, by decide⟩

theorem IsExtension.isPlain {stem extension : Text} (valid : IsExtension extension)
    (clean : IsNameText stem) : IsPlain (stem ++ '.' :: extension) := by
  refine ⟨?_, by simp, ?_, ?_⟩
  · simp only [List.mem_append, List.mem_cons, not_or]
    exact ⟨clean.noSlash, by decide, valid.noSlash⟩
  · intro same
    have length := congrArg List.length same
    have := List.length_pos_iff.mpr valid.nonempty
    simp only [List.length_append, List.length_cons, List.length_nil] at length
    omega
  · intro same
    have last : '.' ∈ extension := by
      have := congrArg List.getLast? same
      rw [List.getLast?_append_of_ne_nil _ (List.cons_ne_nil _ _),
        ← List.singleton_append, List.getLast?_append_of_ne_nil _ valid.nonempty] at this
      exact List.mem_of_getLast? this
    exact valid.noPoint last

theorem IsNameText.numberedStem {stem : Text} (clean : IsNameText stem) (number : Nat) :
    IsNameText (numberedStem stem number) := by
  rw [ModFolder.numberedStem]
  split
  · exact clean
  · exact (clean.append isNameText_underscore).append (isNameText_decimal number)

theorem numberedStem_injective {stem extension : Text} {m n : Nat} (first : 1 ≤ m) (second : 1 ≤ n)
    (same : numberedStem stem m ++ '.' :: extension = numberedStem stem n ++ '.' :: extension) :
    m = n := by
  have stems := List.append_cancel_right same
  rw [numberedStem, numberedStem] at stems
  split at stems <;> split at stems
  · omega
  · simpa using congrArg List.length stems
  · simpa using congrArg List.length stems
  · rw [List.append_assoc, List.append_assoc] at stems
    have digits := List.append_cancel_left stems
    exact Text.decimal_injective (List.append_cancel_left digits)

/-- Numbered names with different numbers are different paths. -/
theorem same_numberedName {stem extension : Text} {m n : Nat} (clean : IsNameText stem)
    (valid : IsExtension extension) (first : 1 ≤ m) (second : 1 ≤ n)
    (same : (numberedName stem extension m).parts = (numberedName stem extension n).parts) : m = n := by
  rw [numberedName_eq, numberedName_eq, ← Path.same_iff,
    Path.same_plain (valid.isPlain (clean.numberedStem m))
      (valid.isPlain (clean.numberedStem n))] at same
  exact numberedStem_injective first second same

def IsUsed (used : List Path) (p : Path) : Prop := ∃ q ∈ used, p.parts = q.parts

theorem any_same_iff {used : List Path} {p : Path} :
    used.any (Path.same p) = true ↔ IsUsed used p := by
  simp only [List.any_eq_true, Path.same_iff, IsUsed]

/-- Of one more numbered names than are used, one is free. -/
theorem exists_free (used : List Path) {stem extension : Text} (clean : IsNameText stem)
    (valid : IsExtension extension) :
    ∃ n, 1 ≤ n ∧ n ≤ used.length + 1 ∧ ¬ IsUsed used (numberedName stem extension n) := by
  by_contra none
  push Not at none
  have inside : (List.range' 1 (used.length + 1)).map
      (fun n => (numberedName stem extension n).parts) ⊆ used.map Path.parts := by
    intro parts member
    obtain ⟨n, range, rfl⟩ := List.mem_map.mp member
    rw [List.mem_range'_1] at range
    obtain ⟨q, known, same⟩ := none n range.1 (by omega)
    exact List.mem_map.mpr ⟨q, known, same.symm⟩
  have distinct : ((List.range' 1 (used.length + 1)).map
      (fun n => (numberedName stem extension n).parts)).Nodup := by
    refine List.Nodup.map_on (fun m first n second same => ?_) List.nodup_range'
    rw [List.mem_range'_1] at first second
    exact same_numberedName clean valid first.1 second.1 same
  have length := (List.subperm_of_subset distinct inside).length_le
  rw [List.length_map, List.length_range', List.length_map] at length
  omega

/-- The search for a name ends, at the first number whose name is free. -/
theorem freshName_spec (used : List Path) {stem extension : Text} (clean : IsNameText stem)
    (valid : IsExtension extension) :
    ∃ n, 1 ≤ n ∧ n ≤ used.length + 1 ∧ freshName used stem extension = numberedName stem extension n ∧
      ¬ IsUsed used (numberedName stem extension n) ∧
      ∀ k, 1 ≤ k → k < n → IsUsed used (numberedName stem extension k) := by
  have search : ∃ n, (List.range' 1 (used.length + 1)).find?
      (fun n => !used.any (Path.same (numberedName stem extension n))) = some n := by
    obtain ⟨n, low, high, free⟩ := exists_free used clean valid
    rw [← Option.isSome_iff_exists, List.find?_isSome]
    refine ⟨n, List.mem_range'_1.mpr ⟨low, by omega⟩, ?_⟩
    rwa [Bool.not_eq_true', ← Bool.not_eq_true, any_same_iff]
  obtain ⟨n, found⟩ := search
  have name : freshName used stem extension = numberedName stem extension n := by
    rw [freshName, List.find?_map]
    change (Option.map _ (List.find? (fun n => !used.any (Path.same (numberedName stem extension n)))
      _)).getD _ = _
    rw [found, Option.map_some, Option.getD_some]
  obtain ⟨free, range, below⟩ := List.find?_range'_eq_some.mp found
  rw [List.mem_range'_1] at range
  rw [Bool.not_eq_true', ← Bool.not_eq_true, any_same_iff] at free
  refine ⟨n, range.1, by omega, name, free, fun k low high => ?_⟩
  have used := below k low high
  rwa [Bool.not_not, any_same_iff] at used

def stemOf (lead : Option Text) (c : Change) : Text :=
  match lead with
  | some lead => lead ++ ['_'] ++ nameStem c.target
  | none => nameStem c.target

theorem fileName_of_none {used : List Path} {lead : Option Text} {c : Change}
    (absent : c.sourceFile = none) :
    fileName used lead c = freshName used (stemOf lead c) (extensionOf c) := by
  obtain ⟨kind, target, code, note, vanilla, sourceFile, evaluated, finished⟩ := c
  cases absent
  cases lead <;> rfl

theorem isExtension_extensionOf (c : Change) : IsExtension (extensionOf c) := by
  rw [extensionOf]
  split
  · exact isExtension_asm
  · exact isExtension_txt

/-- A change whose code has a file of its own, with the lead of its revision. -/
structure Filed where
  lead : Option Text
  change : Change

def leadOf (m : GameMod) (r : Revision) : Option Text :=
  if 1 < m.revisions.length then some (nameStem r.label) else none

def filedIn (lead : Option Text) (changes : List Change) : List Filed :=
  (changes.filter fun c => !isInline c).map (Filed.mk lead)

/-- The changes of a mod whose codes have files, in the order of the files. -/
def filed (m : GameMod) : List Filed := m.revisions.flatMap fun r => filedIn (leadOf m r) r.changes

def Filed.file (used : List Path) (f : Filed) : OutputFile :=
  ⟨fileName used f.lead f.change, f.change.code ++ ['\n']⟩

def filesFrom : List Path → List Filed → List OutputFile
  | _, [] => []
  | used, f :: rest => f.file used :: filesFrom (used ++ [(f.file used).path]) rest

@[simp] theorem length_filesFrom (used : List Path) (fs : List Filed) :
    (filesFrom used fs).length = fs.length := by
  induction fs generalizing used with
  | nil => rfl
  | cons f fs ih => rw [filesFrom, List.length_cons, ih, List.length_cons]

theorem filesFrom_append (used : List Path) (fs gs : List Filed) :
    filesFrom used (fs ++ gs) =
      filesFrom used fs ++ filesFrom (used ++ (filesFrom used fs).map OutputFile.path) gs := by
  induction fs generalizing used with
  | nil => rw [List.nil_append, filesFrom, List.map_nil, List.append_nil, List.nil_append]
  | cons f fs ih =>
    rw [List.cons_append, filesFrom, filesFrom, ih, List.map_cons, List.append_assoc,
      List.singleton_append, List.cons_append]

theorem files_entriesOf (lead : Option Text) (used : List Path) (changes : List Change) :
    (entriesOf lead used changes).2 = filesFrom used (filedIn lead changes) := by
  induction changes generalizing used with
  | nil => rfl
  | cons c rest ih =>
    rw [entriesOf, filedIn]
    split
    case isTrue inline =>
      rw [List.filter_cons_of_neg (by simp [inline])]
      exact ih used
    case isFalse own =>
      rw [List.filter_cons_of_pos (by simpa using own), List.map_cons, filesFrom]
      exact congrArg (_ :: ·) (ih _)

theorem files_codesOf (m : GameMod) (used : List Path) (revisions : List Revision) :
    (codesOf m used revisions).2 =
      filesFrom used (revisions.flatMap fun r => filedIn (leadOf m r) r.changes) := by
  induction revisions generalizing used with
  | nil => rfl
  | cons r rest ih =>
    rw [List.flatMap_cons, filesFrom_append, ← ih, ← files_entriesOf]
    rfl

/-- The files of a mod are those of its changes one behind another. -/
theorem files_contents (m : GameMod) : (contents m).2 = filesFrom [] (filed m) :=
  files_codesOf m [] m.revisions

/-- A lead that can stand in a file name. -/
def Filed.IsClean (f : Filed) : Prop := ∀ lead ∈ f.lead, IsNameText lead

theorem isClean_of_mem_filed {m : GameMod} {f : Filed} (member : f ∈ filed m) : f.IsClean := by
  obtain ⟨r, -, inside⟩ := List.mem_flatMap.mp member
  obtain ⟨c, -, rfl⟩ := List.mem_map.mp inside
  intro lead found
  rw [leadOf] at found
  split at found
  · cases found
    exact isNameText_nameStem r.label
  · cases found

theorem Filed.IsClean.isNameText {f : Filed} (clean : f.IsClean) : IsNameText (stemOf f.lead f.change) := by
  unfold stemOf
  split
  case h_1 lead found =>
    exact ((clean lead found).append isNameText_underscore).append (isNameText_nameStem f.change.target)
  case h_2 => exact isNameText_nameStem f.change.target

/-- The name that is made up for a change. -/
theorem Filed.IsClean.file_path {f : Filed} (clean : f.IsClean) (none : f.change.sourceFile = none)
    (used : List Path) :
    ∃ n, 1 ≤ n ∧ n ≤ used.length + 1 ∧
      (f.file used).path = numberedName (stemOf f.lead f.change) (extensionOf f.change) n ∧
      ¬ IsUsed used (f.file used).path := by
  obtain ⟨n, low, high, name, free, -⟩ :=
    freshName_spec used clean.isNameText (isExtension_extensionOf f.change)
  have path : (f.file used).path = _ := (fileName_of_none none).trans name
  exact ⟨n, low, high, path, path ▸ free⟩

/-- Each file is behind those of the changes before its own. -/
theorem getElem?_filesFrom (used : List Path) {fs : List Filed} {i : Nat} {f : Filed}
    (found : fs[i]? = some f) :
    ∃ before, before.length = used.length + i ∧
      (filesFrom used fs)[i]? = some (f.file before) := by
  induction fs generalizing used i with
  | nil => cases found
  | cons g fs ih =>
    cases i with
    | zero =>
      cases found
      exact ⟨used, rfl, rfl⟩
    | succ i =>
      obtain ⟨before, length, file⟩ := ih (used ++ [(g.file used).path]) found
      refine ⟨before, ?_, file⟩
      rw [length, List.length_append, List.length_singleton]
      omega

/-- A name that is made up is the name of no file before. -/
theorem filesFrom_apart (used : List Path) {fs : List Filed} (clean : ∀ f ∈ fs, f.IsClean) :
    (∀ x ∈ (filesFrom used fs).zip fs, x.2.change.sourceFile = none → ¬ IsUsed used x.1.path) ∧
      ((filesFrom used fs).zip fs).Pairwise fun x y =>
        y.2.change.sourceFile = none → y.1.path.parts ≠ x.1.path.parts := by
  induction fs generalizing used with
  | nil => exact ⟨by simp, List.Pairwise.nil⟩
  | cons f fs ih =>
    rw [List.forall_mem_cons] at clean
    obtain ⟨later, pairs⟩ := ih (used ++ [(f.file used).path]) clean.2
    rw [filesFrom, List.zip_cons_cons, List.forall_mem_cons, List.pairwise_cons]
    refine ⟨⟨fun none => ?_, fun x member none known => ?_⟩, fun x member none same => ?_, pairs⟩
    · obtain ⟨n, -, -, -, free⟩ := clean.1.file_path none used
      exact free
    · obtain ⟨q, inside, same⟩ := known
      exact later x member none ⟨q, List.mem_append_left _ inside, same⟩
    · exact later x member none ⟨_, List.mem_append_right used List.mem_cons_self, same⟩

/-- Two files that can both be written: files of one path hold the same. -/
def OutputFile.Agrees (f g : OutputFile) : Prop := f.path.same g.path = true → f.contents = g.contents

/-- A file's name is made up with a number that is not above the number of files up to it. A file
differs from a file of the same path before it in what it holds, only if the code of its change was
read from a file, whose name it keeps. -/
theorem contents_agree_iff (m : GameMod) :
    (∀ i f, (filed m)[i]? = some f → f.change.sourceFile = none →
      ∃ n, 1 ≤ n ∧ n ≤ i + 1 ∧ (contents m).2[i]?.map OutputFile.path =
        some (numberedName (stemOf f.lead f.change) (extensionOf f.change) n)) ∧
    ((contents m).2.Pairwise OutputFile.Agrees ↔
      ((contents m).2.zip (filed m)).Pairwise fun x y =>
        y.2.change.sourceFile.isSome → x.1.Agrees y.1) := by
  have clean : ∀ f ∈ filed m, f.IsClean := fun f member => isClean_of_mem_filed member
  rw [files_contents]
  constructor
  · intro i f found none
    obtain ⟨before, length, file⟩ := getElem?_filesFrom [] found
    obtain ⟨n, low, high, path, -⟩ :=
      (clean f (List.mem_of_getElem? found)).file_path none before
    refine ⟨n, low, ?_, ?_⟩
    · rwa [length, List.length_nil, Nat.zero_add] at high
    · rw [file, Option.map_some, path]
  · have apart := (filesFrom_apart [] clean).2
    have files : ((filesFrom [] (filed m)).zip (filed m)).map Prod.fst = filesFrom [] (filed m) :=
      List.map_fst_zip (by simp)
    have all : (filesFrom [] (filed m)).Pairwise OutputFile.Agrees ↔
        ((filesFrom [] (filed m)).zip (filed m)).Pairwise fun x y => x.1.Agrees y.1 := by
      rw [← List.pairwise_map (f := Prod.fst) (R := OutputFile.Agrees), files]
    rw [all]
    constructor
    · intro agree
      exact agree.imp fun {x y} agrees (_ : y.2.change.sourceFile.isSome) => agrees
    · intro kept
      refine (apart.and kept).imp fun {x y} ⟨free, agrees⟩ same => ?_
      cases source : y.2.change.sourceFile with
      | none => exact absurd (Path.same_iff.mp same).symm (free source)
      | some path => exact agrees (by rw [source]; rfl) same

/-- An injection without a file before one whose file has the name that is made up for the first. -/
def keptFileMod : GameMod :=
  { GameMod.new "M" with
    revisions :=
      [⟨"ALL", [.new .injection "0x80002000" "38600001",
        { Change.new .injection "0x80003000" "38600002" with
          sourceFile := some ⟨"0x80002000.txt"⟩ }]⟩] }

/-- The file of the second injection takes the place of the first one's. -/
theorem keptFileMod_files_clash :
    (contents keptFileMod).2 =
        [⟨⟨"0x80002000.txt"⟩, "38600001\n"⟩, ⟨⟨"0x80002000.txt"⟩, "38600002\n"⟩] ∧
      ¬ (contents keptFileMod).2.Pairwise OutputFile.Agrees := by
  have files : (contents keptFileMod).2 =
      [⟨⟨"0x80002000.txt"⟩, "38600001\n"⟩, ⟨⟨"0x80002000.txt"⟩, "38600002\n"⟩] := by
    decide +kernel
  refine ⟨files, fun agree => ?_⟩
  rw [files, List.pairwise_cons] at agree
  have same := agree.1 _ List.mem_cons_self (by decide +kernel)
  revert same
  decide +kernel

theorem save_of_endsAtCode {fs : FileSystem} {folder : Path} {m : GameMod}
    (ends : endsAtCode m = true) : save fs folder m = (.error .overflow, fs) := by
  rw [save, contents?, if_pos ends]

theorem save_of_not_endsAtCode {fs : FileSystem} {folder : Path} {m : GameMod}
    (goesOn : endsAtCode m = false) :
    save fs folder m =
      match saveFiles folder fs (contents m).2 with
      | (.ok (), fs) =>
        saveFile fs folder (documentOf folder)
          ((CodeRecord.documentToJson (contents m).1).pretty 0)
      | failed => failed := by
  rewrite [save, contents?, if_neg (by simp [goesOn])]
  rfl

end GamePatch.ModFolder
