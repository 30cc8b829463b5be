import GamePatch.Process

set_option autoImplicit false

namespace GamePatch.Builtin

/-- What a program prints on success. -/
def success (output : Text) : Outcome := ⟨0, Text.encodeUtf8 output, [], 0⟩

/-- What a program prints on failure. -/
def failure (errors : Text) : Outcome := ⟨1, [], Text.encodeUtf8 errors, 0⟩

/-- A number in a column that is four characters wide. -/
def column (n : Nat) : Text :=
  List.replicate (4 - (Text.decimal n).length) ' ' ++ Text.decimal n

/-- The row of a listing for a line whose bytes begin at `offset`. -/
def listingRow (number offset : Nat) (line : Text) (bytes : Bytes) : Text :=
  let columns :=
    if bytes.isEmpty then column number
    else column number ++ [' '] ++ Text.upper (Text.zeroPad 4 (Text.hexLower offset)) ++ [' ']
      ++ Hex.encode bytes
  columns ++ ['\t'] ++ Line.stripComment line ++ ['\n']

/-- The rows of a listing for lines from a number and an offset on. -/
def listingRows : Nat → Nat → List Text → Text
  | _, _, [] => []
  | number, offset, line :: rest =>
    let bytes := (Assembler.item line).bytes
    listingRow number offset line bytes ++ listingRows (number + 1) (offset + bytes.length) rest

/-- What the assembler prints about an error. -/
def errorRow (d : Diagnostic) : Text :=
  "\x7bstandard input\x7d:" ++ Text.decimal (d.line.getD 0) ++ ": " ++ d.message ++ ['\n']

def assembler : Program := fun call =>
  let lines := Text.lines call.input
  match Assembler.Item.errors 1 (lines.map Assembler.item) with
  | [] => success (listingRows 1 0 lines)
  | errors => failure ("\x7bstandard input\x7d: Assembler messages:\n" ++ errors.flatMap errorRow)

/-- The instruction of a word, without its operands' meaning for branches. -/
def disassembleWord (word : Nat) : Text :=
  let opcode := word / 0x4000000
  let high := word / 0x200000 % 32
  let low := word / 0x10000 % 32
  if word = 0x4E800020 then "blr"
  else if word = 0x60000000 then "nop"
  else if opcode = 18 then (if word % 2 = 1 then "bl     0x0" else "b     0x0")
  else if opcode = 16 then
    "bc    " ++ Text.decimal high ++ "," ++ Text.decimal low ++ ",0x0"
  else if opcode = 14 then
    "addi  r" ++ Text.decimal high ++ ",r" ++ Text.decimal low ++ ","
      ++ Text.signedDecimal (Int.bmod (word % 0x10000 : Nat) 0x10000)
  else ".word   0x" ++ Hex.encode (Bytes.bigEndian 4 word)

/-- The rows of a disassembly for words from an offset on. -/
def disassemblyRows : Nat → List Bytes → Text
  | _, [] => []
  | offset, word :: rest =>
    Text.zeroPad 8 (Text.hexLower offset) ++ ": " ++ Hex.encode word ++ "  "
      ++ disassembleWord (Bytes.toNat word) ++ "\n" ++ disassemblyRows (offset + 4) rest

def disassembler : Program := fun call =>
  match call.arguments with
  | file :: _ =>
    match call.files.readBytes ⟨file⟩ with
    | .error e => failure e.message
    | .ok bytes =>
      if bytes.length % 4 ≠ 0 then failure "truncated word"
      else success (disassemblyRows 0 (chunks 4 bytes))
  | [] => failure "no file"

/-- The name of the assembler's program. -/
def assemblerName : Text := "powerpc-eabi-as"

/-- The name of the disassembler's program. -/
def disassemblerName : Text := "vdappc"

/-- The built-in tools by their names. -/
def programs : List (Text × Program) :=
  [(assemblerName, assembler), (disassemblerName, disassembler)]

end GamePatch.Builtin
