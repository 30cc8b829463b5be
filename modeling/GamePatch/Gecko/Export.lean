import GamePatch.GameMod.Evaluate
import GamePatch.Gecko.Record

set_option autoImplicit false

namespace GamePatch

namespace GeckoRecord

/-- Why a mod cannot be written as Gecko codes. -/
inductive Error where
  | standaloneUnsupported (name : Text)
  | addressDependent (change : Text)
  | unresolved (change : Text) (functions : List Text)
  | notEvaluated (change : Text)
  | invalidCode (error : Hex.Error)
  | address (error : Address.Error)
  | resolve (error : Change.ResolveError)
deriving DecidableEq, Repr

def Error.message : Error → Text
  | .standaloneUnsupported name =>
    "Standalone functions cannot be expressed as Gecko codes: <" ++ name ++ ">"
  | .addressDependent change => change ++ " depends on addresses a Gecko code cannot know"
  | .unresolved change functions =>
    change ++ " references functions without an address: " ++ Text.join ", " functions
  | .notEvaluated change => change ++ " has not been evaluated"
  | .invalidCode error => "Invalid Gecko code: " ++ error.message
  | .address error => error.message
  | .resolve error => error.message

end GeckoRecord

namespace Change

/-- A plain branch to an address. -/
def Placeholder.isReturn : Placeholder → Bool
  | .branch ⟨.b, .address _, _⟩ => true
  | _ => false

/-- Whether the code ends in a plain branch to an address. -/
def Intermediate.endsWithReturn (i : Intermediate) : Bool :=
  match i.spans.getLast? with
  | some s => s.stop == i.length && s.placeholder.isReturn
  | none => false

end Change

namespace GameMod

open GeckoRecord (Error)

/-- The bytes that the second pass gives for a change at an address. -/
def geckoCode (m : GameMod) (symbols : SymbolTable) (c : Change) (address : Address) :
    Assembling (Except Error Bytes) := do
  match ← c.resolve (m.context symbols address) with
  | .ok (.complete hex) =>
    match Hex.decode hex with
    | .ok bytes => pure (.ok bytes)
    | .error e => pure (.error (.invalidCode e))
  | .ok (.pending _ outstanding) => pure (.error (.unresolved c.describe outstanding))
  | .error .notEvaluated => pure (.error (.notEvaluated c.describe))
  | .error e => pure (.error (.resolve e))

/-- The code of an injection without the branch at its end that goes back. -/
def withoutReturn (i : Change.Intermediate) (code : Bytes) : Bytes :=
  if i.endsWithReturn then code.take (code.length - 4) else code

/-- The Gecko code of an overwrite, or none if it writes nothing. -/
def overwriteRecord (m : GameMod) (image : GameImage) (symbols : SymbolTable) (c : Change) :
    Assembling (Except Error (Option GeckoRecord)) :=
  match image.locate c.target with
  | .error e => pure (.error (.address e))
  | .ok address => do
    match ← m.geckoCode symbols c address with
    | .error e => pure (.error e)
    | .ok [] => pure (.ok none)
    | .ok bytes => pure (.ok (some (.write address bytes)))

def injectionRecord (m : GameMod) (image : GameImage) (symbols : SymbolTable) (c : Change) :
    Assembling (Except Error (Option GeckoRecord)) :=
  match image.locate c.target with
  | .error e => pure (.error (.address e))
  | .ok address =>
    match c.evaluated with
    | none => pure (.error (.notEvaluated c.describe))
    | some i =>
      if i.addressSpans.length > (if i.endsWithReturn then 1 else 0) then
        pure (.error (.addressDependent c.describe))
      else do
        match ← m.geckoCode symbols c address with
        | .error e => pure (.error e)
        | .ok code => pure (.ok (some (.inject address (withoutReturn i code))))

def geckoLines (code : Text) : Except Error Bytes :=
  match Hex.decode ((Text.lines code).flatMap Line.stripComment) with
  | .ok bytes => .ok bytes
  | .error e => .error (.invalidCode e)

/-- The Gecko code of a change, or none for a change that writes nothing. -/
def geckoRecord (m : GameMod) (image : GameImage) (symbols : SymbolTable) (c : Change) :
    Assembling (Except Error (Option GeckoRecord)) :=
  match c.kind with
  | .standalone => pure (.error (.standaloneUnsupported c.target))
  | .gecko => pure ((geckoLines c.code).map fun bytes => some (.raw bytes))
  | .overwrite => m.overwriteRecord image symbols c
  | .injection => m.injectionRecord image symbols c

/-- The Gecko codes of changes, up to the first that has none. -/
def geckoRecordsOf (m : GameMod) (image : GameImage) (symbols : SymbolTable) :
    List Change → Assembling (Except Error (List GeckoRecord))
  | [] => pure (.ok [])
  | c :: rest => do
    match ← m.geckoRecord image symbols c with
    | .error e => pure (.error e)
    | .ok first =>
      match ← m.geckoRecordsOf image symbols rest with
      | .error e => pure (.error e)
      | .ok more => pure (.ok (first.toList ++ more))

/-- The Gecko codes of the changes for a revision. -/
def geckoRecords (m : GameMod) (revision : Text) (image : GameImage) (symbols : SymbolTable) :
    Assembling (Except Error (List GeckoRecord)) :=
  m.geckoRecordsOf image symbols (m.changesFor revision)

/-- The title line, with the authors if there are any. -/
def geckoTitle (m : GameMod) : Text :=
  if m.authors.isEmpty then '$' :: m.name
  else '$' :: m.name ++ " [" ++ Text.join ", " m.authors ++ "]"

/-- The mod as a text of Gecko codes: a title, the description, and the lines of the codes. -/
def geckoText (m : GameMod) (revision : Text) (image : GameImage) (symbols : SymbolTable) :
    Assembling (Except Error Text) := do
  match ← m.geckoRecords revision image symbols with
  | .error e => pure (.error e)
  | .ok records =>
    pure (.ok (Text.joinLines
      (m.geckoTitle :: (Text.lines m.description).map ('*' :: ·)
        ++ records.map GeckoRecord.toText)))

end GameMod

end GamePatch
