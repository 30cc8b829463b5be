import GamePatch.Hex

set_option autoImplicit false

namespace GamePatch

/-- An address of the console. -/
abbrev Address := UInt32

namespace Address

def ramStart : Nat := 0x80000000

/-- The end of main RAM, exclusive. -/
def ramEnd : Nat := 0x81800000

/-- Reads `0x8000_1234`, `80001234` or `0x1234`: at most eight digits, not counting underscores. -/
def parse? (s : Text) : Option Address :=
  let body := Text.trim s
  let digits := ((Text.hexMarked? body).getD body).filter (· != '_')
  if digits.isEmpty || Text.byteLength digits > 8 then none
  else (Text.readNat32 16 digits).map UInt32.ofNat

def isRam (a : Address) : Bool := ramStart ≤ a.toNat && a.toNat < ramEnd

/-- Why a place has no address in RAM. -/
inductive Error where
  | invalid (text : Text)
  | outOfRange (address : Address)
  | unmappedOffset (text : Text)
deriving DecidableEq, Repr

def Error.message : Error → Text
  | .invalid text => "Invalid address or offset: '" ++ text ++ "'"
  | .outOfRange address => "Address out of range: " ++ Hex.address address.toNat
  | .unmappedOffset text =>
    "DOL offsets cannot be converted without a section map: '" ++ text ++ "'"

end Address

/-- What is known of the game that the mods change. -/
structure GameImage where
  /-- The address of a place as mods name it. -/
  locate : Text → Except Address.Error Address
  /-- The bytes of the unchanged game at an address, as many as are known up to a length. -/
  vanillaBytes : Address → Nat → Option Bytes

namespace GameImage

/-- A place that is written as a RAM address. -/
def locateRam (place : Text) : Except Address.Error Address :=
  match Address.parse? place with
  | none => .error (.invalid place)
  | some a =>
    if Address.isRam a then .ok a
    else if a.toNat < Address.ramStart then .error (.unmappedOffset place)
    else .error (.outOfRange a)

/-- No more than the range of RAM is known. -/
def ramOnly : GameImage := ⟨locateRam, fun _ _ => none⟩

end GameImage

end GamePatch
