import GamePatch.Toolchain

set_option autoImplicit false

namespace GamePatch.Disassembly

open Toolchain (Error)

/-- One instruction. -/
structure Row where
  offset : UInt32
  word : UInt32
  mnemonic : Text
  operands : Text
deriving DecidableEq, Repr

namespace Row

def read? (line : Text) : Option Row :=
  match Text.words line with
  | offset :: word :: mnemonic :: operands =>
    match Text.readNat32 16 (Text.dropEndWhile (· == ':') offset), Text.readNat32 16 word with
    | some offset, some word =>
      some ⟨UInt32.ofNat offset, UInt32.ofNat word, mnemonic, Text.join [' '] operands⟩
    | _, _ => none
  | _ => none

/-- The operands with a displacement in place of the last one. -/
def withTarget (operands : Text) (displacement : Int) : Text :=
  match Text.cutAtLast ',' operands with
  | some (conditions, _) => Text.trim conditions ++ ", " ++ Text.signedHex displacement
  | none => Text.signedHex displacement

def canonical (row : Row) : Row :=
  { row with
    mnemonic := if row.mnemonic = ".word".toList then ".long" else row.mnemonic
    operands :=
      match Branch.displacement? row.word with
      | some displacement => withTarget row.operands displacement
      | none => row.operands }

/-- The instruction as the assembler reads it. -/
def write (row : Row) : Text :=
  if row.operands.isEmpty then row.mnemonic else row.mnemonic ++ [' '] ++ row.operands

end Row

/-- Reads the rows of a disassembly. Blank lines are skipped. -/
def parse (output : Text) : Except Error (List Row) :=
  ((Text.lines output).filter fun line => !Text.isAllBlank line).mapM fun line =>
    match Row.read? line with
    | some row => .ok row
    | none => .error (.disassemblyFailed ("unexpected line '" ++ line ++ "'"))

/-- The instructions of a disassembly in canonical form, one on a line. -/
def writeCanonical (rows : List Row) : Text :=
  Text.joinLines (rows.map fun row => row.canonical.write)

end GamePatch.Disassembly
