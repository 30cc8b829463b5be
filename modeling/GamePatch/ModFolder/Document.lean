import GamePatch.Json.Fields
import GamePatch.Json.Reader
import GamePatch.Path

set_option autoImplicit false

namespace GamePatch

/-- What an entry of a build list stands for. -/
inductive BuildType where
  /-- An overwrite with its code in `value`. -/
  | replace
  /-- An injection with its code in a file. -/
  | inject
  /-- An overwrite with its code in a file. -/
  | replaceCodeBlock
  /-- A standalone function with its code in a file. -/
  | standalone
  /-- An injection for each assembly file of a folder. -/
  | injectFolder
  /-- Gecko lines in `value`. -/
  | gecko
deriving DecidableEq, Repr

namespace BuildType

/-- All types by their names in a document. -/
def named : List (Text × BuildType) :=
  [("replace", .replace), ("inject", .inject), ("replaceCodeBlock", .replaceCodeBlock),
    ("standalone", .standalone), ("injectFolder", .injectFolder), ("gecko", .gecko)]

def ofName? (name : Text) : Option BuildType := (named.find? fun t => t.1 == name).map Prod.snd

/-- The name in a document. -/
def name : BuildType → Text
  | .replace => "replace"
  | .inject => "inject"
  | .replaceCodeBlock => "replaceCodeBlock"
  | .standalone => "standalone"
  | .injectFolder => "injectFolder"
  | .gecko => "gecko"

/-- The name in a message. -/
def title (t : BuildType) : Text :=
  match t.name with
  | [] => []
  | c :: rest => c.toUpper :: rest

/-- A name, or an object with the name as its only key and null as its value. -/
def ofJson? : Json → Option BuildType
  | .text name => ofName? name
  | .object [(name, .null)] => ofName? name
  | _ => none

end BuildType

structure BuildEntry where
  type : BuildType
  address : Option Text
  name : Option Text
  value : Option Text
  sourceFile : Option Path
  sourceFolder : Option Path
  isRecursive : Option Bool
  note : Option Text
  /-- The code of the unchanged game. -/
  vanilla : Option Text
deriving DecidableEq, Repr

/-- The description of a code, as a text or by its lines. -/
inductive Description where
  | text (text : Text)
  | lines (lines : List Text)
deriving DecidableEq, Repr

/-- A revision of a mod. -/
structure CodeRecord where
  name : Text
  authors : List Text
  description : Description
  /-- Each a URL and what is said about it. -/
  links : List (List Text)
  revision : Text
  /-- Options by their names. -/
  options : List (Text × Json)
  build : List BuildEntry

namespace BuildEntry

/-- An entry with nothing but its type. -/
def new (type : BuildType) : BuildEntry := ⟨type, none, none, none, none, none, none, none, none⟩

def asPath (json : Json) : Option Path := json.asText.map Path.mk

/-- The fields in their order. -/
def fields : List Text :=
  ["type", "address", "name", "value", "sourceFile", "sourceFolder", "isRecursive", "annotation",
    "original"]

def pattern : Json.Pattern := .record (fields.map fun name => (name, .whole))

def read? (json : Json) : Option BuildEntry := do
  let [type, address, name, value, file, folder, recursive, note, vanilla] ←
    Json.fields? fields json | none
  some
    { type := ← Json.required BuildType.ofJson? type
      address := ← Json.optional Json.asText address
      name := ← Json.optional Json.asText name
      value := ← Json.optional Json.asText value
      sourceFile := ← Json.optional asPath file
      sourceFolder := ← Json.optional asPath folder
      isRecursive := ← Json.optional Json.asBool recursive
      note := ← Json.optional Json.asText note
      vanilla := ← Json.optional Json.asText vanilla }

def toJson (e : BuildEntry) : Json :=
  .object ([("type".toList, .text e.type.name)]
    ++ Json.entry? "address" (e.address.map .text)
    ++ Json.entry? "name" (e.name.map .text)
    ++ Json.entry? "value" (e.value.map .text)
    ++ Json.entry? "sourceFile" (e.sourceFile.map fun p => .text p.text)
    ++ Json.entry? "sourceFolder" (e.sourceFolder.map fun p => .text p.text)
    ++ Json.entry? "isRecursive" (e.isRecursive.map .bool)
    ++ Json.entry? "annotation" (e.note.map .text)
    ++ Json.entry? "original" (e.vanilla.map .text))

end BuildEntry

namespace Description

def write : Description → Text
  | .text s => s
  | .lines ls => Text.joinLines ls

def ofJson? : Json → Option Description
  | .text s => some (.text s)
  | .list items => (items.mapM Json.asText).map .lines
  | _ => none

def toJson : Description → Json
  | .text s => .text s
  | .lines ls => .list (ls.map .text)

end Description

namespace CodeRecord

/-- The fields in their order, and what is asked for of each. -/
def fields : List (Text × Json.Pattern) :=
  [("name", .whole), ("authors", .whole), ("description", .whole), ("webLinks", .whole),
    ("revision", .whole), ("configurations", .whole), ("build", .list BuildEntry.pattern)]

def read? (json : Json) : Option CodeRecord := do
  let [name, authors, description, links, revision, options, build] ←
    Json.fields? (fields.map Prod.fst) json | none
  some
    { name := ← Json.required Json.asText name
      authors := ← Json.defaulted [] (Json.asList Json.asText) authors
      description := ← Json.defaulted (.text []) Description.ofJson? description
      links := ← Json.defaulted [] (Json.asList (Json.asList Json.asText)) links
      revision := ← Json.defaulted "ALL".toList Json.asText revision
      options := ← Json.defaulted [] Json.asMap options
      build := ← Json.defaulted [] (Json.asList BuildEntry.read?) build }

/-- A list that is left out if it is empty. -/
def unlessEmpty {α : Type} (items : List α) (json : Json) : Option Json :=
  if items.isEmpty then none else some json

def toJson (c : CodeRecord) : Json :=
  .object ([("name".toList, .text c.name)]
    ++ Json.entry? "authors" (unlessEmpty c.authors (.list (c.authors.map .text)))
    ++ Json.entry? "description" (unlessEmpty c.description.write c.description.toJson)
    ++ Json.entry? "webLinks"
      (unlessEmpty c.links (.list (c.links.map fun link => .list (link.map .text))))
    ++ [("revision".toList, .text c.revision)]
    ++ Json.entry? "configurations" (unlessEmpty c.options (.object c.options))
    ++ [("build".toList, .list (c.build.map BuildEntry.toJson))])

/-- What is asked for of a document. -/
def documentPattern : Json.Pattern := .record [("codes", .list (.record fields))]

def readDocument? (text : Text) : Option (List CodeRecord) := do
  let [codes] ← Json.fields? ["codes"] (← Json.parseAs? documentPattern text) | none
  Json.required (Json.asList read?) codes

def documentToJson (codes : List CodeRecord) : Json :=
  .object [("codes".toList, .list (codes.map toJson))]

end CodeRecord

end GamePatch
