import GamePatch.Configuration.Kind

set_option autoImplicit false

namespace GamePatch

namespace Configuration

/-- A value with a name of its own. -/
structure Member where
  value : Value
  name : Text
  comment : Option Text
deriving DecidableEq, Repr

/-- Why a declaration or a value is refused. -/
inductive Error where
  | missingType (name : Text)
  | unrecognizedType (name type : Text)
  | missingValue (name : Text)
  | missingDefault (name : Text)
  | invalidValue (name text : Text)
  | outOfRange (name : Text) (value : Value) (width : Nat)
  | outsideRange (name : Text) (value : Value) (low high : Int)
  | outsideMask (name : Text) (value : Value) (allowed : Nat)
  | invalidDeclaration (text : Text)
  /-- The entry is not of the form that options have in JSON. -/
  | illFormed (name : Text)
  /-- The program ends at a number. -/
  | overflow
deriving DecidableEq, Repr

def Error.message : Error → Text
  | .missingType name => "Configuration option '" ++ name ++ "' is missing a type"
  | .unrecognizedType name type =>
    "Configuration option '" ++ name ++ "' has an unrecognized type: " ++ type
  | .missingValue name => "Configuration option '" ++ name ++ "' is missing a value"
  | .missingDefault name => "Configuration option '" ++ name ++ "' is missing a default"
  | .invalidValue name text =>
    "Invalid value for configuration option '" ++ name ++ "': " ++ text
  | .outOfRange name value width =>
    "Value " ++ value.write false ++ " of configuration option '" ++ name ++ "' does not fit in "
      ++ Text.decimal width ++ " byte(s)"
  | .outsideRange name value low high =>
    "Value " ++ value.write false ++ " of configuration option '" ++ name ++ "' is outside "
      ++ Text.signedDecimal low ++ "-" ++ Text.signedDecimal high
  | .outsideMask name value allowed =>
    "Value " ++ value.write false ++ " of configuration option '" ++ name
      ++ "' sets bits outside mask 0x" ++ Text.hexUpper allowed
  | .invalidDeclaration text => "Invalid configuration declaration: " ++ text
  | .illFormed name => "Invalid configuration declaration: " ++ name ++ ": <json>"
  | .overflow => Overflow.message .overflow

/-- What was read, or the error for what is no such thing. -/
def required {α : Type} (missing : Error) : Except Overflow (Option α) → Except Error α
  | .error _ => .error .overflow
  | .ok none => .error missing
  | .ok (some a) => .ok a

end Configuration

/-- An option of a mod. -/
structure Configuration where
  name : Text
  kind : Configuration.Kind
  default : Configuration.Value
  value : Configuration.Value
  members : List Configuration.Member
  /-- A remark beside the declaration. -/
  note : Option Text
  /-- Whether whole numbers are written in hexadecimal. -/
  hexadecimal : Bool
deriving DecidableEq, Repr

namespace Configuration

/-- The bits of a number that no mask bit allows, both taken as 64 bits. -/
def bitsOutside (allowed : Nat) (n : Int) : Nat :=
  (n % 0x10000000000000000).toNat &&& (0xFFFFFFFFFFFFFFFF - allowed)

/-- Refuses a value that does not fit the width, or not the range or mask. -/
def check (c : Configuration) (value : Value) : Except Error Unit :=
  if (c.kind.pack value c.kind.width).isNone then
    .error (.outOfRange c.name value c.kind.width)
  else
    match c.kind, value with
    | .int _ _ (some (low, high)), .int n =>
      if n < low || high < n then .error (.outsideRange c.name value low high) else .ok ()
    | .mask _ (some allowed), .int n =>
      if bitsOutside allowed n ≠ 0 then .error (.outsideMask c.name value allowed) else .ok ()
    | _, _ => .ok ()

/-- The option with another value. -/
def set (c : Configuration) (value : Value) : Except Error Configuration :=
  match c.check value with
  | .ok () => .ok { c with value := value }
  | .error e => .error e

/-- The bytes of the value in the option's own width. -/
def packed (c : Configuration) : Option Bytes := c.kind.pack c.value c.kind.width

def find? (options : List Configuration) (name : Text) : Option Configuration :=
  options.find? fun c => c.name == name

/-- The options with `change` applied to the first one with a name; none if there is none or if
the change is refused. -/
def modifyFirst {ε : Type} (name : Text) (change : Configuration → Except ε Configuration) :
    List Configuration → Option (Except ε (List Configuration))
  | [] => none
  | c :: rest =>
    if c.name = name then some ((change c).map (· :: rest))
    else (modifyFirst name change rest).map fun changed => changed.map (c :: ·)

end Configuration

end GamePatch
