import GamePatch.Configuration.Basic

set_option autoImplicit false

namespace GamePatch.Configuration

/-- A remark that says something. -/
def remark? (text : Text) : Option Text :=
  let remark := Text.trim text
  if remark.isEmpty then none else some remark

/-- The line before a `#`, and the remark after it. -/
def splitRemark (line : Text) : Text × Option Text :=
  match Text.cutAt '#' line with
  | some (left, remark) => (left, remark? remark)
  | none => (line, none)

/-- The text before and after the first dash that is no sign. A dash is a sign at the start, or
if what precedes it ends in a dash. The part that was passed already is in reverse. -/
def cutAtDash (passed : Text) : Text → Option (Text × Text)
  | [] => none
  | c :: r =>
    if c == '-' && !passed.isEmpty && (passed.dropWhile Text.isBlank).head? != some '-' then
      some (passed.reverse, r)
    else cutAtDash (c :: passed) r

/-- A range such as `0-10` or `-10--1`. -/
def readRange (s : Text) : Except Overflow (Option (Int × Int)) :=
  match cutAtDash [] (Text.trim s) with
  | none => .ok none
  | some (low, high) => do
    match ← readInt low with
    | none => .ok none
    | some l =>
      let h ← readInt high
      .ok (h.map fun h => (l, h))

/-- A number as its 64 bits. -/
def toBits64 (n : Int) : Nat := (n % 0x10000000000000000).toNat

/-- A mask in brackets. -/
def readMask (s : Text) : Except Overflow (Option Nat) :=
  match Text.dropLeading? ['('] s with
  | none => .ok none
  | some rest =>
    match Text.dropTrailing? [')'] rest with
    | none => .ok none
    | some inner => (readInt inner).map fun n => n.map toBits64

def restrict (kind : Kind) (restriction : Text) : Except Overflow (Option Kind) :=
  if restriction.isEmpty then .ok (some kind)
  else
    match kind with
    | .mask width _ =>
      (readMask restriction).map fun allowed => allowed.map fun allowed => .mask width (some allowed)
    | .int width signed _ =>
      (readRange restriction).map fun range => range.map fun range => .int width signed (some range)
    | .float => .ok none

/-- Whether a number is written in hexadecimal. -/
def mentionsHex (s : Text) : Bool := Text.contains ['0', 'x'] (Text.lower s)

/-- The type and the name before the equals sign. -/
def splitName (left : Text) : Option (Text × Text) :=
  match Text.cutWhere Text.isBlank (Text.trim left) with
  | none => none
  | some (type, name) =>
    let name := Text.trim name
    if name.isEmpty then none else some (type, name)

/-- Reads a declaration. -/
def parse (line : Text) : Except Error Configuration :=
  let invalid := Error.invalidDeclaration (Text.trim line)
  let (declaration, note) := splitRemark line
  match Text.cutAt '=' declaration with
  | none => .error invalid
  | some (left, right) =>
    match splitName left with
    | none => .error invalid
    | some (type, name) =>
      match Kind.ofName? type with
      | none => .error (.unrecognizedType name type)
      | some base =>
        let (defaultText, restriction) := (Text.cutAt ';' right).getD (right, [])
        let defaultText := Text.trim defaultText
        match required (.invalidValue name defaultText) (base.read defaultText) with
        | .error e => .error e
        | .ok default =>
          match required invalid (restrict base (Text.trim restriction)) with
          | .error e => .error e
          | .ok kind =>
            let c : Configuration :=
              { name := name
                kind := kind
                default := default
                value := default
                members := []
                note := note
                hexadecimal := mentionsHex defaultText }
            (c.check default).map fun () => c

/-- Reads a member of an option. -/
def parseMember (c : Configuration) (line : Text) : Except Error Member :=
  match Text.cutAt ':' line with
  | none => .error (.invalidDeclaration (Text.trim line))
  | some (value, rest) =>
    let (name, comment) := splitRemark rest
    (required (.invalidValue c.name (Text.trim value)) (c.kind.read value)).map fun v =>
      ⟨v, Text.trim name, comment⟩

/-- The remark as it stands behind a line. -/
def writeRemark : Option Text → Text
  | none => []
  | some remark => " # " ++ remark

/-- The restriction as it stands behind the default. -/
def writeRestriction (hexadecimal : Bool) : Kind → Text
  | .int _ _ (some (low, high)) =>
    "; " ++ (Value.int low).write hexadecimal ++ "-" ++ (Value.int high).write hexadecimal
  | .mask _ (some allowed) => "; (0x" ++ Text.hexUpper allowed ++ ")"
  | _ => []

/-- The declaration of an option. -/
def declaration (c : Configuration) : Text :=
  c.kind.name ++ " " ++ c.name ++ " = " ++ c.default.write c.hexadecimal
    ++ writeRestriction c.hexadecimal c.kind ++ writeRemark c.note

def memberLine (c : Configuration) (m : Member) : Text :=
  m.value.write c.hexadecimal ++ ": " ++ m.name ++ writeRemark m.comment

end GamePatch.Configuration
