import GamePatch.Change.Intermediate
import GamePatch.Configuration.Basic
import GamePatch.Path
import GamePatch.Toolchain

set_option autoImplicit false

namespace GamePatch.Change

/-- Why the first pass has no result. -/
inductive EvaluateError where
  | assemblyFailed (diagnostics : List Diagnostic)
  | includeMissing (file : Text)
  | optionNotFound (name : Text)
  | invalidHex (text : Text)
  | misaligned (text : Text)
  | toolchain (error : Toolchain.Error)
deriving DecidableEq, Repr

namespace EvaluateError

def message : EvaluateError → Text
  | .assemblyFailed diagnostics => "Assembly failed:\n" ++ Diagnostic.writeAll diagnostics
  | .includeMissing file => "Include file not found: " ++ file
  | .optionNotFound name => "Configuration option not found: " ++ name
  | .invalidHex text => "Invalid hex: " ++ text
  | .misaligned text => "Placeholder does not start on a byte boundary: " ++ text
  | .toolchain error => error.message

/-- Whether the assembler reports the error, and not the reader of the code. -/
def isAssemblyError : EvaluateError → Bool
  | .assemblyFailed _ => true
  | .toolchain _ => true
  | _ => false

end EvaluateError

/-- The options of the mod that a change belongs to, if they are known. -/
abbrev KnownOptions := Option (List Configuration)

/-- The largest width among options. -/
def widestOption (options : List Configuration) : List Text → Except EvaluateError Nat
  | [] => .ok 0
  | name :: rest =>
    match Configuration.find? options name with
    | none => .error (.optionNotFound name)
    | some c => (widestOption options rest).map fun width => max c.kind.width width

/-- The width of a placeholder for options, if the options are known. -/
def optionWidth (options : KnownOptions) (names : List Text) : Except EvaluateError (Option Nat) :=
  match options with
  | none => .ok none
  | some cs => (widestOption cs names).map some

/-- The number of digits of a part of a line, if it is known. -/
def knownDigits (options : KnownOptions) : Line.Segment → Except EvaluateError (Option Nat)
  | .hex digits => .ok (some digits.length)
  | .symbol _ => .ok (some 8)
  | .options names => (optionWidth options names).map fun width => width.map (2 * ·)

/-- The width that a line of so many digits leaves for a placeholder. -/
def missingWidth (digits : Nat) : Nat := if digits % 8 = 0 then 4 else (8 - digits % 8) / 2

/-- The widths of the parts of a line of `digits` digits, placeholders that are not known yet
apart. Digits that stand for themselves have none. -/
def fillWidths : Nat → List (Line.Segment × Option Nat) → List Nat
  | _, [] => []
  | digits, (.hex _, _) :: rest => 0 :: fillWidths digits rest
  | digits, (_, some known) :: rest => known / 2 :: fillWidths digits rest
  | digits, (_, none) :: rest =>
    missingWidth digits :: fillWidths (digits + 2 * missingWidth digits) rest

/-- The widths in bytes of the placeholders on a line, with zero for its digits. -/
def placeholderWidths (options : KnownOptions) (segments : List Line.Segment) :
    Except EvaluateError (List Nat) := do
  let known ← segments.mapM (knownDigits options)
  let digits := known.foldl (fun digits d => digits + d.getD 0) 0
  .ok (fillWidths digits (segments.zip known))

end GamePatch.Change
