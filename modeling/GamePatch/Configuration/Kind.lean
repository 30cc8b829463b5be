import GamePatch.Binary.Decimal
import GamePatch.Bytes
import GamePatch.Overflow

set_option autoImplicit false

namespace GamePatch.Configuration

/-- The width of an option of whole numbers. -/
inductive Width where
  | one
  | two
  | four
deriving DecidableEq, Repr

def Width.bytes : Width → Nat
  | .one => 1
  | .two => 2
  | .four => 4

/-- The value of an option: a signed 64-bit number, or a 32-bit float by its pattern. -/
inductive Value where
  | int (n : Int)
  | float (bits : UInt32)
deriving DecidableEq, Repr

namespace Value

def int? : Value → Option Int
  | .int n => some n
  | .float _ => none

/-- Floats are written with the fewest digits that read back, and never with an exponent. -/
def floatLayout : Binary.Layout where
  tie := .up
  positional _ := true
  whole := []
  plus := []

def writeFloat (bits : UInt32) : Text :=
  match Binary.single.decode bits.toNat with
  | .nan => "NaN"
  | .infinite negative => if negative then "-inf" else "inf"
  | .finite negative significand exponent =>
    floatLayout.writeFinite Binary.single negative significand exponent

/-- The text of a value. Whole numbers are written in hexadecimal if asked for. -/
def write (hexadecimal : Bool) : Value → Text
  | .int n => if hexadecimal then Text.signedHex n else Text.signedDecimal n
  | .float bits => writeFloat bits

end Value

/-- The kinds of options, with the values that a declaration allows. -/
inductive Kind where
  | int (width : Width) (signed : Bool) (range : Option (Int × Int))
  | mask (width : Width) (allowed : Option Nat)
  | float
deriving DecidableEq, Repr

/-- Whether a whole number can be packed to a width. Every signed 64-bit number fits eight bytes. -/
def fits (width : Nat) (signed : Bool) (n : Int) : Bool :=
  if width = 8 then Text.inInt64 n
  else
    let count := Bytes.valueCount width
    (if signed then -((count / 2 : Nat) : Int) else 0) ≤ n && n < count

/-- The number's low bytes, most significant first, if it fits the width. -/
def packInt (n : Int) (width : Nat) (signed : Bool) : Option Bytes :=
  if 1 ≤ width && width ≤ 8 && fits width signed n then
    some (Bytes.bigEndian width (n % Bytes.valueCount width).toNat)
  else none

/-- A whole number after at most one minus, decimal or after `0x` hexadecimal. The digits may
have a sign of their own. -/
def readInt (s : Text) : Except Overflow (Option Int) :=
  match Text.trim s with
  | '-' :: rest => Text.readNegated (Text.trim rest)
  | digits => .ok (Text.readInteger digits)

namespace Kind

/-- The kinds by the names that declarations use. -/
def named : List (Text × Kind) :=
  [("int8", .int .one true none), ("uint8", .int .one false none), ("mask8", .mask .one none),
    ("int16", .int .two true none), ("uint16", .int .two false none),
    ("mask16", .mask .two none), ("int32", .int .four true none),
    ("uint32", .int .four false none), ("mask32", .mask .four none), ("float", .float)]

/-- The kind with a name, without a range or a mask. -/
def ofName? (name : Text) : Option Kind := (named.find? fun k => k.1 == name).map Prod.snd

/-- The name that declarations use. -/
def name : Kind → Text
  | .int .one true _ => "int8"
  | .int .one false _ => "uint8"
  | .int .two true _ => "int16"
  | .int .two false _ => "uint16"
  | .int .four true _ => "int32"
  | .int .four false _ => "uint32"
  | .mask .one _ => "mask8"
  | .mask .two _ => "mask16"
  | .mask .four _ => "mask32"
  | .float => "float"

/-- The number of bytes of a value. -/
def width : Kind → Nat
  | .int w _ _ => w.bytes
  | .mask w _ => w.bytes
  | .float => 4

def isSigned : Kind → Bool
  | .int _ signed _ => signed
  | _ => false

/-- Reads a value as it is written in mods. -/
def read (kind : Kind) (s : Text) : Except Overflow (Option Value) :=
  match kind with
  | .float => .ok ((Binary.single.read? (Text.trim s)).map fun bits => .float (UInt32.ofNat bits))
  | _ => (readInt (Text.trim s)).map fun n => n.map .int

/-- The bytes of a value in a width. A float has four bytes. -/
def pack (kind : Kind) (value : Value) (width : Nat) : Option Bytes :=
  match kind, value with
  | .float, .float bits => if width = 4 then some (Bytes.ofWord bits) else none
  | .float, .int _ => none
  | _, .int n => packInt n width kind.isSigned
  | _, .float _ => none

end Kind

end GamePatch.Configuration
