import GamePatch.Bytes
import GamePatch.Text.Number

set_option autoImplicit false

namespace GamePatch.Branch

/-- The unconditional branches. -/
inductive Mnemonic where
  | b
  | ba
  | bl
  | bla
deriving DecidableEq, Repr

namespace Mnemonic

/-- Whether the return address is kept. -/
def links : Mnemonic → Bool
  | .bl => true
  | .bla => true
  | _ => false

/-- Whether the displacement is the target itself, and not its distance. -/
def isAbsolute : Mnemonic → Bool
  | .ba => true
  | .bla => true
  | _ => false

def name : Mnemonic → Text
  | .b => "b"
  | .ba => "ba"
  | .bl => "bl"
  | .bla => "bla"

/-- Reads a mnemonic, of which the last has a second spelling. -/
def ofName? (s : Text) : Option Mnemonic :=
  if s = ['b'] then some .b
  else if s = ['b', 'a'] then some .ba
  else if s = ['b', 'l'] then some .bl
  else if s = ['b', 'l', 'a'] || s = ['b', 'a', 'l'] then some .bla
  else none

end Mnemonic

/-- Why no branch covers a distance. -/
inductive Error where
  | misaligned (distance : Int)
  | outOfRange (distance : Int)
  /-- The distance, or a number on the way to it, does not fit 64 bits. The program ends there and does
  not answer. -/
  | overflow
deriving DecidableEq, Repr

def Error.message : Error → Text
  | .misaligned distance =>
    "Branch distance is not a multiple of 4: " ++ Text.signedDecimal distance
  | .outOfRange distance => "Branch distance out of range: " ++ Text.signedDecimal distance
  | .overflow => "Arithmetic overflow"

/-- The first distance out of reach. -/
def reach : Int := 0x2000000

/-- The primary opcode of unconditional branches. -/
def opcode : Nat := 18

/-- The word of a branch over a distance. A distance between two words is refused before one that
is too long. -/
def encode (m : Mnemonic) (distance : Int) : Except Error UInt32 :=
  if distance % 4 ≠ 0 then .error (.misaligned distance)
  else if distance < -reach || reach ≤ distance then .error (.outOfRange distance)
  else
    .ok (UInt32.ofNat (opcode * 0x4000000 + (distance % 0x4000000).toNat
      + (if m.isAbsolute then 2 else 0) + (if m.links then 1 else 0)))

/-- The signed number in the low bits of a word, of which there are `values` values, without the
lowest two bits. -/
def signedField (values : Nat) (w : Nat) : Int :=
  let field := w % values / 4 * 4
  if field < values / 2 then field else field - values

def displacement? (w : UInt32) : Option Int :=
  match w.toNat / 0x4000000 with
  | 18 => some (signedField 0x4000000 w.toNat)
  | 16 => some (signedField 0x10000 w.toNat)
  | _ => none

end GamePatch.Branch
