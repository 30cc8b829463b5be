import GamePatch.Branch
import GamePatch.Hex
import GamePatch.Path

set_option autoImplicit false

namespace GamePatch

/-- A message of the assembler, with the number of its line, from one on, if it has one. -/
structure Diagnostic where
  line : Option Nat
  message : Text
deriving DecidableEq, Repr

namespace Diagnostic

def write (d : Diagnostic) : Text :=
  match d.line with
  | some line => "Line " ++ Text.decimal line ++ ": " ++ d.message
  | none => d.message

def writeAll (ds : List Diagnostic) : Text := Text.joinLines (ds.map write)

/-- The message with the line that `map` gives for its line. -/
def remap (map : Nat → Option Nat) (d : Diagnostic) : Diagnostic :=
  { d with line := d.line.bind map }

end Diagnostic

/-- The byte offsets of labels. -/
abbrev Labels := List (Text × Nat)

namespace Labels

def offset? (labels : Labels) (name : Text) : Option Nat :=
  (labels.find? fun l => l.1 == name).map Prod.snd

/-- The labels with one more, which takes the place of a label of the same name. -/
def insert (name : Text) (offset : Nat) : Labels → Labels
  | [] => [(name, offset)]
  | l :: rest => if l.1 = name then (name, offset) :: rest else l :: insert name offset rest

end Labels

/-- The output of the assembler. -/
structure Assembly where
  bytes : Bytes
  labels : Labels
deriving DecidableEq, Repr

namespace Toolchain

/-- Why a tool has no answer. -/
inductive Error where
  | missing (program : Text)
  | assemblyFailed (diagnostics : List Diagnostic)
  | disassemblyFailed (text : Text)
  | timeout (program : Text) (milliseconds : Nat)
  | io (program : Text) (cause : Text)
  | listing (row : Text)
  | branch (error : Branch.Error)
deriving DecidableEq, Repr

/-- A duration in milliseconds below one second, and otherwise in seconds with up to three
decimal places. -/
def writeDuration (milliseconds : Nat) : Text :=
  if milliseconds = 0 then "0ns"
  else if milliseconds < 1000 then Text.decimal milliseconds ++ "ms"
  else
    let places := Text.dropEndWhile (· == '0')
      (Text.zeroPad 3 (Text.decimal (milliseconds % 1000)))
    Text.decimal (milliseconds / 1000) ++ (if places.isEmpty then [] else '.' :: places) ++ "s"

def Error.message : Error → Text
  | .missing program => "Toolchain executable not found: " ++ program
  | .assemblyFailed diagnostics => "Assembly failed:\n" ++ Diagnostic.writeAll diagnostics
  | .disassemblyFailed text => "Disassembly failed: " ++ text
  | .timeout program milliseconds =>
    program ++ " did not finish within " ++ writeDuration milliseconds
  | .io program cause => "I/O error running " ++ program ++ ": " ++ cause
  | .listing row => "Unable to parse assembler listing line: '" ++ row ++ "'"
  | .branch error => error.message

/-- What the assembler answers. -/
abbrev Reply := Except Error Assembly

end Toolchain

/-- An assembler whose answer depends on nothing but the source and the directories that are
searched for included files. -/
structure Toolchain where
  assemble : Text → List Path → Toolchain.Reply

end GamePatch
