import GamePatch.FileSystem
import GamePatch.GameMod.Basic
import GamePatch.ModFolder.Reader

set_option autoImplicit false

namespace GamePatch.ModFolder

structure OutputFile where
  /-- As seen from the folder. -/
  path : Path
  contents : Text
deriving DecidableEq, Repr

/-- A text as a part of a file name: letters, digits and underscores. -/
def nameStem (s : Text) : Text :=
  let stem := (Text.trim s).map fun c => if c.isAlphanum || c == '_' then c else '_'
  Text.stripWhile (· == '_') stem

/-- The name with a number, which the first name goes without. -/
def numberedName (stem extension : Text) (number : Nat) : Path :=
  if number ≤ 1 then ⟨stem ++ ['.'] ++ extension⟩
  else ⟨stem ++ ['_'] ++ Text.decimal number ++ ['.'] ++ extension⟩

/-- The first numbered name that is not used. Of one more names than are used, one is free. -/
def freshName (used : List Path) (stem extension : Text) : Path :=
  let names := (List.range' 1 (used.length + 1)).map (numberedName stem extension)
  (names.find? fun name => !used.any (Path.same name)).getD (numberedName stem extension 1)

/-- What the name of a file says about its code. -/
def extensionOf (c : Change) : Text :=
  match Code.isAssembly c.code with
  | .ok true => "asm"
  | _ => "txt"

/-- The file of a change. A lead is put before names that are made up. -/
def fileName (used : List Path) (lead : Option Text) (c : Change) : Path :=
  match c.sourceFile with
  | some path => path
  | none =>
    let stem :=
      match lead with
      | some lead => lead ++ ['_'] ++ nameStem c.target
      | none => nameStem c.target
    freshName used stem (extensionOf c)

/-- Whether a change is written with its code in its entry. -/
def isInline (c : Change) : Bool :=
  match c.kind with
  | .overwrite => c.sourceFile.isNone && !c.code.any (· == '\n')
  | .gecko => true
  | _ => false

def entryType (c : Change) : BuildType :=
  match c.kind with
  | .overwrite => if isInline c then .replace else .replaceCodeBlock
  | .injection => .inject
  | .standalone => .standalone
  | .gecko => .gecko

/-- The entry of a change, with the file of its code if it has one. -/
def entryOf (c : Change) (file : Option Path) : BuildEntry :=
  { BuildEntry.new (entryType c) with
    address := if c.kind = .standalone || c.kind = .gecko then none else some c.target
    name := if c.kind = .standalone then some c.target else none
    value := if isInline c then some c.code else none
    sourceFile := file
    note := c.note
    vanilla := c.vanilla }

/-- The entries of changes, and their files behind those that there are. -/
def entriesOf (lead : Option Text) :
    List Path → List Change → List BuildEntry × List OutputFile
  | _, [] => ([], [])
  | used, c :: rest =>
    if isInline c then
      let (entries, files) := entriesOf lead used rest
      (entryOf c none :: entries, files)
    else
      let path := fileName used lead c
      let (entries, files) := entriesOf lead (used ++ [path]) rest
      (entryOf c (some path) :: entries, ⟨path, c.code ++ ['\n']⟩ :: files)

/-- The options of a mod by their names. -/
def optionRecords (options : List Configuration) : List (Text × Json) :=
  options.foldl (fun entries o => Json.insertEntry o.name o.toRecord.toJson entries) []

def linkFields (link : WebLink) : List Text := link.url :: link.comment.toList

def codeOf (m : GameMod) (label : Text) (entries : List BuildEntry) : CodeRecord :=
  { name := m.name
    authors := m.authors
    description := .text m.description
    links := m.links.map linkFields
    revision := label
    options := optionRecords m.options
    build := entries }

/-- The codes of revisions, and their files behind those that there are. -/
def codesOf (m : GameMod) : List Path → List Revision → List CodeRecord × List OutputFile
  | _, [] => ([], [])
  | used, r :: rest =>
    let lead := if 1 < m.revisions.length then some (nameStem r.label) else none
    let (entries, files) := entriesOf lead used r.changes
    let (codes, more) := codesOf m (used ++ files.map OutputFile.path) rest
    (codeOf m r.label entries :: codes, files ++ more)

def contents (m : GameMod) : List CodeRecord × List OutputFile := codesOf m [] m.revisions

/-- Whether the program ends at a code for which a name has to be made up. -/
def endsAtCode (m : GameMod) : Bool :=
  m.changes.any fun c => !isInline c && c.sourceFile.isNone && !(Code.isAssembly c.code).isOk

/-- The contents of the folder of a mod. -/
def contents? (m : GameMod) : Except Overflow (List CodeRecord × List OutputFile) :=
  if endsAtCode m then .error .overflow else .ok (contents m)

/-- Why a mod is not saved. -/
inductive SaveError where
  | unwritable (path : Path) (cause : FileError)
  /-- The program ends at the code of a change. -/
  | overflow
deriving DecidableEq, Repr

def SaveError.message : SaveError → Text
  | .unwritable path cause => "Unable to write " ++ path.text ++ ": " ++ cause.message
  | .overflow => Overflow.message .overflow

/-- Writes a file into a directory that is made first if it is not there. -/
def saveFile (fs : FileSystem) (directory path : Path) (contents : Text) :
    Except SaveError Unit × FileSystem :=
  match fs.createDirectories directory with
  | (.error e, fs) => (.error (.unwritable directory e), fs)
  | (.ok (), fs) =>
    match fs.write path (Text.encodeUtf8 contents) with
    | .error e => (.error (.unwritable path e), fs)
    | .ok fs => (.ok (), fs)

/-- Writes files of a folder up to the first that cannot be written. -/
def saveFiles (folder : Path) : FileSystem → List OutputFile → Except SaveError Unit × FileSystem
  | fs, [] => (.ok (), fs)
  | fs, file :: rest =>
    let path := folder.join file.path
    match saveFile fs (path.parent?.getD ⟨[]⟩) path file.contents with
    | (.ok (), fs) => saveFiles folder fs rest
    | failed => failed

/-- Writes a mod into a folder, its document last. -/
def save (fs : FileSystem) (folder : Path) (m : GameMod) : Except SaveError Unit × FileSystem :=
  match contents? m with
  | .error _ => (.error .overflow, fs)
  | .ok (codes, files) =>
    match saveFiles folder fs files with
    | (.ok (), fs) =>
      saveFile fs folder (documentOf folder) ((CodeRecord.documentToJson codes).pretty 0)
    | failed => failed

end GamePatch.ModFolder
