import GamePatch.Assembling
import GamePatch.Change.HexCode
import GamePatch.Change.Source

set_option autoImplicit false

namespace GamePatch

/-- Where files named by `.include` are looked for. -/
structure Includes where
  isFile : Path → Bool
  paths : List Path

namespace Includes

/-- Whether a file is there by itself or in one of the directories. -/
def has (includes : Includes) (file : Path) : Bool :=
  includes.isFile file || includes.paths.any fun dir => includes.isFile (dir.join file)

def fileOf? (line : Text) : Option Text :=
  (Text.dropLeading? ".include" (Line.stripComment line)).map fun rest =>
    Text.stripWhile (· == '"') (Text.trim rest)

/-- The first file of the lines that is not there. -/
def missing? (includes : Includes) (lines : List Text) : Option Text :=
  (lines.filterMap fileOf?).find? fun file => !includes.has ⟨file⟩

end Includes

namespace Change

/-- The span between the labels of a placeholder, if they are in order and inside the code. -/
def spanOf (assembly : Assembly) (index : Nat) (found : Expansion.Located) :
    Except Toolchain.Error Span :=
  match assembly.labels.offset? (startLabel index), assembly.labels.offset? (endLabel index) with
  | some start, some stop =>
    if stop < start || assembly.bytes.length < stop then
      .error (.listing ("bad span for '" ++ found.text ++ "'"))
    else .ok ⟨start, stop - start, found.placeholder, found.text, found.line⟩
  | _, _ => .error (.listing ("missing label for '" ++ found.text ++ "'"))

/-- The spans of placeholders with numbers from `index` on. -/
def spansOf (assembly : Assembly) : Nat → List Expansion.Located → Except Toolchain.Error (List Span)
  | _, [] => .ok []
  | index, found :: rest => do
    let span ← spanOf assembly index found
    let more ← spansOf assembly (index + 1) rest
    .ok (span :: more)

/-- The bytes with zeros at spans. -/
def clear (bytes : Bytes) (spans : List Span) : Bytes :=
  spans.foldl (fun bytes s => bytes.splice s.offset (Bytes.zeros s.width)) bytes

/-- The result of the first pass for the assembler's reply to the source of some expansions. -/
def ofReply (lines : List Text) (expansions : List Expansion) (reply : Toolchain.Reply) :
    Except EvaluateError Intermediate :=
  match reply with
  | .error (.assemblyFailed diagnostics) =>
    .error (.assemblyFailed (diagnostics.map (Diagnostic.remap (Expansion.rawLine? expansions))))
  | .error e => .error (.toolchain e)
  | .ok assembly =>
    match spansOf assembly 0 (Expansion.located 0 lines expansions) with
    | .error e => .error (.toolchain e)
    | .ok spans => .ok ⟨Hex.encode (clear assembly.bytes spans), spans, true⟩

/-- The expansions of assembly code. Included files have to be there. -/
def expand (includes : Includes) (options : KnownOptions) (lines : List Text) :
    Except EvaluateError (List Expansion) :=
  match includes.missing? lines with
  | some file => .error (.includeMissing file)
  | none => Expansion.ofLines options 0 lines

/-- The first pass over code with assembly. -/
def evaluateAssembly (includes : Includes) (options : KnownOptions) (code : Text) :
    Assembling (Except EvaluateError Intermediate) :=
  let lines := Text.lines code
  match expand includes options lines with
  | .error e => .done (.error e)
  | .ok expansions =>
    .ask (Expansion.text expansions) includes.paths fun reply =>
      .done (ofReply lines expansions reply)

/-- The first pass. -/
def evaluateCode (includes : Includes) (options : KnownOptions) (code : Text) :
    Assembling (Except EvaluateError Intermediate) :=
  match Code.isAssembly code with
  | .error _ => .done (.error (.toolchain (.branch .overflow)))
  | .ok true => evaluateAssembly includes options code
  | .ok false => .done (evaluateHex options code)

end Change

end GamePatch
