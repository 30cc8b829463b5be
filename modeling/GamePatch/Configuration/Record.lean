import GamePatch.Configuration.Declaration
import GamePatch.Json.Fields

set_option autoImplicit false

namespace GamePatch.Configuration

/-- A member of an option in JSON. -/
structure MemberRecord where
  name : Text
  value : Json
  comment : Option Text

/-- An option in JSON. Every field may be left out. -/
structure Record where
  type : Option Text
  value : Option Json
  default : Option Json
  range : Option (Json × Json)
  mask : Option Json
  members : Option (List MemberRecord)
  note : Option Text

namespace MemberRecord

def read? (json : Json) : Option MemberRecord := do
  let [name, value, comment] ← Json.fields? ["name", "value", "comment"] json | none
  some ⟨← Json.required Json.asText name, ← value, ← Json.optional Json.asText comment⟩

def toJson (m : MemberRecord) : Json :=
  .object ([("name".toList, .text m.name), ("value".toList, m.value)]
    ++ Json.entry? "comment" (m.comment.map .text))

end MemberRecord

namespace Record

/-- A list of two. -/
def readPair : Json → Option (Json × Json)
  | .list [low, high] => some (low, high)
  | _ => none

/-- Reads the form of an option, not its values. -/
def read? (json : Json) : Option Record := do
  let [type, value, default, range, mask, members, note] ←
    Json.fields? ["type", "value", "default", "range", "mask", "members", "annotation"] json
    | none
  some
    { type := ← Json.optional Json.asText type
      value := ← Json.optional some value
      default := ← Json.optional some default
      range := ← Json.optional readPair range
      mask := ← Json.optional some mask
      members := ← Json.optional (Json.asList MemberRecord.read?) members
      note := ← Json.optional Json.asText note }

def toJson (r : Record) : Json :=
  .object (Json.entry? "type" (r.type.map .text)
    ++ Json.entry? "value" r.value
    ++ Json.entry? "default" r.default
    ++ Json.entry? "range" (r.range.map fun (low, high) => .list [low, high])
    ++ Json.entry? "mask" r.mask
    ++ Json.entry? "members" (r.members.map fun ms => .list (ms.map MemberRecord.toJson))
    ++ Json.entry? "annotation" (r.note.map .text))

end Record

/-- A value in JSON: a number of the kind, or a text as in declarations. -/
def Kind.ofJson (kind : Kind) : Json → Except Overflow (Option Value)
  | .text s => kind.read s
  | .number n =>
    match kind with
    | .float => .ok (some (.float (UInt32.ofNat (Binary.double.convert Binary.single n.toDouble))))
    | _ => .ok (n.toInt64?.map .int)
  | _ => .ok none

/-- A whole number stays a number unless it is written in hexadecimal, and a float becomes the
64-bit float of the same value. -/
def Value.toJson (hexadecimal : Bool) : Value → Json
  | .int n => if hexadecimal then .text (Text.signedHex n) else Json.int n
  | .float bits => Json.ofDouble (Binary.single.convert Binary.double bits.toNat)

/-- Reads a value or says which value is wrong. -/
def readJson (name : Text) (kind : Kind) (json : Json) : Except Error Value :=
  required (.invalidValue name json.compact) (kind.ofJson json)

/-- Reads a whole number or says which value is wrong. -/
def readJsonInt (name : Text) (kind : Kind) (json : Json) : Except Error Int :=
  match readJson name kind json with
  | .error e => .error e
  | .ok (.int n) => .ok n
  | .ok (.float _) => .error (.invalidValue name json.compact)

/-- A field that must be there. -/
def present {α : Type} (missing : Error) : Option α → Except Error α
  | some a => .ok a
  | none => .error missing

def restrictBy (name : Text) (r : Record) (base : Kind) : Except Error Kind :=
  match base with
  | .int width signed _ =>
    match r.range with
    | none => .ok (.int width signed none)
    | some (low, high) => do
      let low ← readJsonInt name base low
      let high ← readJsonInt name base high
      .ok (.int width signed (some (low, high)))
  | .mask width _ =>
    match r.mask with
    | none => .ok (.mask width none)
    | some mask => do
      let mask ← readJsonInt name base mask
      .ok (.mask width (some (toBits64 mask)))
  | .float => .ok .float

/-- Whether a value is a text that writes a number in hexadecimal. -/
def isHexText : Option Json → Bool
  | some (.text s) => mentionsHex s
  | _ => false

/-- The option of a record. -/
def ofRecord (name : Text) (r : Record) : Except Error Configuration := do
  let type ← present (.missingType name) r.type
  let base ← present (.unrecognizedType name type) (Kind.ofName? type)
  let value ← present (.missingValue name) r.value
  let value ← readJson name base value
  let default ← present (.missingDefault name) r.default
  let default ← readJson name base default
  let members ← (r.members.getD []).mapM fun m => do
    let v ← readJson name base m.value
    .ok (⟨v, m.name, m.comment⟩ : Member)
  let kind ← restrictBy name r base
  let c : Configuration :=
    { name := name
      kind := kind
      default := default
      value := value
      members := members
      note := r.note
      hexadecimal := isHexText r.value || isHexText r.default }
  c.check default
  c.check value
  .ok c

/-- The option of a JSON value under a name. -/
def ofJson (name : Text) (json : Json) : Except Error Configuration :=
  match Record.read? json with
  | none => .error (.illFormed name)
  | some r => ofRecord name r

/-- The record of an option. -/
def toRecord (c : Configuration) : Record :=
  let json (v : Value) : Json := v.toJson c.hexadecimal
  { type := some c.kind.name
    value := some (json c.value)
    default := some (json c.default)
    range :=
      match c.kind with
      | .int _ _ range => range.map fun (low, high) => (json (.int low), json (.int high))
      | _ => none
    mask :=
      match c.kind with
      | .mask _ allowed => allowed.map fun m => .text ("0x" ++ Text.hexUpper m)
      | _ => none
    members :=
      if c.members.isEmpty then none
      else some (c.members.map fun m => ⟨m.name, json m.value, m.comment⟩)
    note := c.note }

end GamePatch.Configuration
