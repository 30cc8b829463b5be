import GamePatch.Gecko.Import
import GamePatch.ModFolder.Document
import GamePatch.SourceFile.Basic

set_option autoImplicit false

namespace GamePatch.ModFolder

def documentName : Text := "codes.json"

def documentOf (folder : Path) : Path := folder.join ⟨documentName⟩

/-- A change that an entry stands for, with the header of its source file. -/
structure Built where
  change : Change
  header : SourceHeader
deriving DecidableEq, Repr

/-- A change that has no source file. -/
def ofChange (change : Change) : Built := ⟨change, .empty⟩

def need {α : Type} (e : BuildEntry) (field : Text) : Option α → Except ParseError α
  | some a => .ok a
  | none => .error (.missingField e.type.title field)

/-- The target of a change with a source file: the one that its entry gives, or the one of the
file's header. -/
def targetOf? (kind : ChangeKind) (target : Option Text) (header : SourceHeader) : Option Text :=
  target.or (if kind = .standalone then header.name else header.address)

/-- The change of a source file in a folder. -/
def readSource (fs : FileSystem) (folder : Path) (kind : ChangeKind) (file : Path)
    (target : Option Text) : Except ParseError Built := do
  let path := folder.join file
  let source ← SourceFile.read fs path
  match targetOf? kind target source.header with
  | none => .error (.missingAddress path.text)
  | some target =>
    .ok ⟨{ Change.new kind target source.code with sourceFile := some file }, source.header⟩

/-- The assembly files of a folder inside another, as seen from the other. -/
def assemblyFiles (fs : FileSystem) (folder inner : Path) (isRecursive : Bool) : List Path :=
  let rule : FileSystem.WalkRule :=
    { maxDepth := if isRecursive then none else some 1
      hidden := fun _ => false
      closed := fun _ => false }
  ((fs.walk rule (folder.join inner)).filter fun v =>
    !v.isDirectory && SourceFile.isAssemblyFile v.path).map fun v =>
      (folder.relativeTo? v.path).getD v.path

/-- The changes that an entry stands for. -/
def build (fs : FileSystem) (folder : Path) (e : BuildEntry) : Except ParseError (List Built) :=
  match e.type with
  | .replace => do
    let address ← need e "address" e.address
    let value ← need e "value" e.value
    .ok [ofChange (Change.new .overwrite address value)]
  | .gecko => do
    let value ← need e "value" e.value
    match GeckoRecord.parse value with
    | .ok changes => .ok (changes.map ofChange)
    | .error line => .error (.invalidGecko line)
  | .inject => do
    let file ← need e "sourceFile" e.sourceFile
    (readSource fs folder .injection file e.address).map fun b => [b]
  | .replaceCodeBlock => do
    let file ← need e "sourceFile" e.sourceFile
    (readSource fs folder .overwrite file e.address).map fun b => [b]
  | .standalone => do
    let file ← need e "sourceFile" e.sourceFile
    (readSource fs folder .standalone file e.name).map fun b => [b]
  | .injectFolder => do
    let inner ← need e "sourceFolder" e.sourceFolder
    (assemblyFiles fs folder inner (e.isRecursive.getD false)).mapM fun file =>
      readSource fs folder .injection file none

/-- The mod with a change of an entry. A mod without authors takes those of the source file. -/
def addBuilt (e : BuildEntry) (m : GameMod) (b : Built) : GameMod :=
  { m with authors := if m.authors.isEmpty then b.header.authors else m.authors }.push
    { b.change with
      note := e.note.or b.change.note
      vanilla := GameMod.vanillaCode? e.vanilla }

def addEntry (fs : FileSystem) (folder : Path) (m : GameMod) (e : BuildEntry) : GameMod :=
  match build fs folder e with
  | .ok built => built.foldl (addBuilt e) m
  | .error error => m.recordError error.message false

/-- A link of a document. -/
def linkOf? : List Text → Option WebLink
  | [] => none
  | url :: rest => some ⟨url, rest.head?⟩

def modOf (folder : Path) (c : CodeRecord) : GameMod :=
  let m := { GameMod.new c.name with
    authors := c.authors
    description := c.description.write
    links := c.links.filterMap linkOf? }
  { m.addRawOptions c.options with source := some (.folder folder) }

def addChanges (fs : FileSystem) (folder : Path) (m : GameMod) (c : CodeRecord) : GameMod :=
  c.build.foldl (addEntry fs folder) (m.setRevision c.revision)

/-- The mods with a code, which is added to the first mod of its name. -/
def addCode (fs : FileSystem) (folder : Path) (c : CodeRecord) : List GameMod → List GameMod
  | [] => [addChanges fs folder (modOf folder c) c]
  | m :: rest =>
    if m.name = Text.trim c.name then addChanges fs folder m c :: rest
    else m :: addCode fs folder c rest

def modsOf (fs : FileSystem) (folder : Path) (codes : List CodeRecord) : List GameMod :=
  codes.foldl (fun mods c => addCode fs folder c mods) []

def read (fs : FileSystem) (folder : Path) : Except ParseError (List GameMod) :=
  let path := documentOf folder
  match fs.readText path with
  | .error e => .error (.unreadable path.text e.message)
  | .ok text =>
    match CodeRecord.readDocument? text with
    | none => .error (.invalidJson path.text)
    | some codes => .ok (modsOf fs folder codes)

end GamePatch.ModFolder
