import GamePatch.Change.Basic
import GamePatch.Configuration.Record

set_option autoImplicit false

namespace GamePatch

/-- Where a mod was read from. -/
inductive ModSource where
  /-- One of the mods of a text file. -/
  | textFile (file : Path)
  /-- A directory with a `codes.json`. -/
  | folder (directory : Path)
  /-- An assembly file that says where it goes. -/
  | assemblyFile (file : Path)
deriving DecidableEq, Repr

structure WebLink where
  url : Text
  comment : Option Text
deriving DecidableEq, Repr

structure Revision where
  label : Text
  changes : List Change
deriving DecidableEq, Repr

structure GameMod where
  name : Text
  authors : List Text
  description : Text
  links : List WebLink
  revisions : List Revision
  options : List Configuration
  source : Option ModSource
  /-- Where included files are looked for. -/
  includePaths : List Path
  /-- The label of the revision that changes are added to. -/
  currentRevision : Text
  errors : List Text
  hasParsingError : Bool
  hasAssemblyError : Bool
  /-- The text of the mod, as long as it says what the mod is. -/
  sourceText : Option Text
deriving DecidableEq, Repr

/-- The label of the changes for every revision. -/
def allRevisions : Text := "ALL"

namespace GameMod

/-- A mod without changes. -/
def new (name : Text) : GameMod :=
  { name := Text.trim name
    authors := []
    description := []
    links := []
    revisions := []
    options := []
    source := none
    includePaths := []
    currentRevision := allRevisions
    errors := []
    hasParsingError := false
    hasAssemblyError := false
    sourceText := none }

/-- A mod with errors cannot be used. -/
def isAvailable (m : GameMod) : Bool := !m.hasParsingError && !m.hasAssemblyError

/-- The mod with an error. A message that is known is not repeated. -/
def recordError (m : GameMod) (message : Text) (isAssembly : Bool) : GameMod :=
  { m with
    errors := if m.errors.contains message then m.errors else m.errors ++ [message]
    hasParsingError := m.hasParsingError || !isAssembly
    hasAssemblyError := m.hasAssemblyError || isAssembly }

def recordErrors (m : GameMod) (messages : List Text) (isAssembly : Bool) : GameMod :=
  messages.foldl (fun m message => m.recordError message isAssembly) m

def markModified (m : GameMod) : GameMod := { m with sourceText := none }

def revision? (m : GameMod) (label : Text) : Option Revision :=
  m.revisions.find? fun r => r.label == label

/-- The revisions, with an empty one at the end unless the label is there. -/
def withRevision (label : Text) (revisions : List Revision) : List Revision :=
  if revisions.any fun r => r.label == label then revisions else revisions ++ [⟨label, []⟩]

/-- The mod with another revision as the one that changes are added to. -/
def setRevision (m : GameMod) (label : Text) : GameMod :=
  { m with
    revisions := withRevision (Text.trim label) m.revisions
    currentRevision := Text.trim label
    sourceText := none }

/-- The revisions with the first one of a label changed. -/
def mapRevision (label : Text) (f : Revision → Revision) : List Revision → List Revision
  | [] => []
  | r :: rest => if r.label = label then f r :: rest else r :: mapRevision label f rest

/-- The changes for a revision, those for every revision included. -/
def changesFor (m : GameMod) (label : Text) : List Change :=
  (m.revisions.filter fun r => r.label == label || r.label == allRevisions).flatMap
    Revision.changes

def changes (m : GameMod) : List Change := m.revisions.flatMap Revision.changes

/-- The mod with a change at the end of the current revision. -/
def push (m : GameMod) (change : Change) : GameMod :=
  { m with
    revisions := mapRevision m.currentRevision
      (fun r => { r with changes := r.changes ++ [change] })
      (withRevision m.currentRevision m.revisions)
    sourceText := none }

/-- Vanilla code that says something, in canonical form. -/
def vanillaCode? (vanilla : Option Text) : Option Text :=
  (vanilla.map Hex.normalize).filter fun digits => !digits.isEmpty

/-- The change for code that may have a remark at its top. -/
def changeOf (kind : ChangeKind) (target code : Text) (vanilla : Option Text) : Change :=
  let (note, code) := Code.splitRemark code
  { Change.new kind target (Text.trimEnd code) with
    note := note
    vanilla := vanillaCode? vanilla }

def add (m : GameMod) (kind : ChangeKind) (target code : Text) (vanilla : Option Text) : GameMod :=
  m.push (changeOf kind target code vanilla)

def addOverwrite (m : GameMod) (target code : Text) (vanilla : Option Text) : GameMod :=
  m.add .overwrite target code vanilla

def addInjection (m : GameMod) (target code : Text) (vanilla : Option Text) : GameMod :=
  m.add .injection target code vanilla

def addStandalone (m : GameMod) (name code : Text) : GameMod := m.add .standalone name code none

def addGecko (m : GameMod) (code : Text) : GameMod := m.add .gecko [] code none

/-- The mod with an option of a JSON document, or with the error of one that is refused. -/
def addRawOption (m : GameMod) (name : Text) (raw : Json) : GameMod :=
  match Configuration.ofJson name raw with
  | .ok c => { m with options := m.options ++ [c] }
  | .error e => m.recordError e.message false

/-- The mod with the options of a JSON document. -/
def addRawOptions (m : GameMod) (raw : List (Text × Json)) : GameMod :=
  raw.foldl (fun m entry => m.addRawOption entry.1 entry.2) m

def option? (m : GameMod) (name : Text) : Option Configuration :=
  Configuration.find? m.options name

/-- A new value for an option, and the mod after it. -/
def setOption (m : GameMod) (name : Text) (value : Configuration.Value) :
    Except Configuration.Error Unit × GameMod :=
  match Configuration.modifyFirst name (fun c => c.set value) m.options with
  | none => (.error (.invalidDeclaration name), m)
  | some (.error e) => (.error e, m)
  | some (.ok options) => (.ok (), { m with options := options, sourceText := none })

def referencedFunctions (m : GameMod) : Except Overflow (List Text) :=
  (m.changes.mapM fun c => Code.referencedFunctions c.code).map fun names => Text.dedup names.flatten

end GameMod

end GamePatch
