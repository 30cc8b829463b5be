import GamePatch.Address
import GamePatch.Branch
import GamePatch.Line.Marker
import GamePatch.Overflow

set_option autoImplicit false

namespace GamePatch.Line

/-- Where a special branch goes, before its adjustment. -/
inductive Target where
  | symbol (name : Text)
  | address (address : Address)
deriving DecidableEq, Repr

def Target.write : Target → Text
  | .symbol name => "<" ++ name ++ ">"
  | .address a => Hex.address a.toNat

/-- A branch to a function or to a RAM address. -/
structure SpecialBranch where
  mnemonic : Branch.Mnemonic
  target : Target
  adjustment : Int
deriving DecidableEq, Repr

namespace SpecialBranch

/-- A number after at most one sign, decimal or after `0x` hexadecimal, with blanks anywhere. The
digits may have a sign of their own. -/
def readSigned (s : Text) : Except Overflow (Option Int) :=
  match Text.removeBlanks s with
  | '-' :: digits => Text.readNegated digits
  | '+' :: digits => .ok (Text.readInteger digits)
  | digits => .ok (Text.readInteger digits)

/-- Nothing, or a signed number. -/
def readAdjustment (s : Text) : Except Overflow (Option Int) :=
  match Text.trim s with
  | [] => .ok (some 0)
  | '+' :: rest => readSigned ('+' :: rest)
  | '-' :: rest => readSigned ('-' :: rest)
  | _ => .ok none

/-- A function name up to its closing bracket, and what follows. -/
def readSymbol (s : Text) : Option (Target × Text) :=
  match Text.cutAt '>' s with
  | none => none
  | some (name, rest) =>
    let name := Text.trim name
    if name.isEmpty || name.any Text.isBlank then none else some (.symbol name, rest)

def endsAddress (c : Char) : Bool := Text.isBlank c || c == '+' || c == '-'

/-- A RAM address, and what follows. -/
def readAddress (s : Text) : Option (Target × Text) :=
  match Address.parse? (s.takeWhile fun c => !endsAddress c) with
  | none => none
  | some a =>
    if Address.isRam a then some (.address a, s.dropWhile fun c => !endsAddress c) else none

/-- A function name in single brackets, or a RAM address. -/
def readTarget (s : Text) : Option (Target × Text) :=
  match s with
  | '<' :: '<' :: _ => none
  | '<' :: rest => readSymbol rest
  | _ => readAddress s

/-- The special branch on a line, if it is one. -/
def parse (line : Text) : Except Overflow (Option SpecialBranch) :=
  match Text.cutWhere Text.isBlank (stripComment line) with
  | none => .ok none
  | some (mnemonic, rest) =>
    match Branch.Mnemonic.ofName? mnemonic with
    | none => .ok none
    | some m =>
      match readTarget (Text.trim rest) with
      | none => .ok none
      | some (target, rest) =>
        (readAdjustment rest).map fun adjustment => adjustment.map fun n => ⟨m, target, n⟩

end SpecialBranch

end GamePatch.Line
