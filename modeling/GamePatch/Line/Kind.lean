import GamePatch.Line.Branch
import GamePatch.Line.Segment

set_option autoImplicit false

namespace GamePatch

namespace Line

inductive Kind where
  | blank
  | branch (branch : SpecialBranch)
  | hex (segments : List Segment)
  | assembly
  /-- A special branch with a distance that does not fit 64 bits, at which the program ends. -/
  | overflow
deriving DecidableEq, Repr

/-- The kind of a line. What is neither a special branch nor digits with markers is left to the
assembler. -/
def classify (line : Text) : Kind :=
  let stripped := stripComment line
  if stripped.isEmpty then .blank
  else
    match SpecialBranch.parse stripped with
    | .error _ => .overflow
    | .ok (some branch) => .branch branch
    | .ok none =>
      match Segment.ofLine? stripped with
      | some segments => .hex segments
      | none => .assembly

def isSpecialBranch (line : Text) : Except Overflow Bool :=
  (SpecialBranch.parse line).map Option.isSome

def containsSymbol (line : Text) : Bool := !(symbolNames line).isEmpty

def containsOption (line : Text) : Bool := !(optionNames line).isEmpty

/-- Whether a line has anything that the assembler would not understand. -/
def containsMarker (line : Text) : Except Overflow Bool :=
  (isSpecialBranch line).map fun branch => branch || containsSymbol line || containsOption line

/-- The functions that a line refers to, by a branch and then by symbol references. -/
def functions (line : Text) : Except Overflow (List Text) :=
  match SpecialBranch.parse line with
  | .error e => .error e
  | .ok (some ⟨_, .symbol name, _⟩) => .ok (name :: symbolNames line)
  | .ok _ => .ok (symbolNames line)

/-- Whether a line among some needs the assembler. Those behind the first that does are not looked
at. -/
def anyAssembly : List Kind → Except Overflow Bool
  | [] => .ok false
  | .assembly :: _ => .ok true
  | .overflow :: _ => .error .overflow
  | _ :: rest => anyAssembly rest

end Line

namespace Code

/-- Whether some line of the code needs the assembler. -/
def isAssembly (code : Text) : Except Overflow Bool :=
  Line.anyAssembly ((Text.lines code).map Line.classify)

/-- The functions that the code refers to, in order of first appearance. -/
def referencedFunctions (code : Text) : Except Overflow (List Text) :=
  ((Text.lines code).mapM Line.functions).map fun names => Text.dedup names.flatten

def isLineBreak (c : Char) : Bool := c == '\r' || c == '\n'

def remarkOf (line : Text) : Text := Text.trim ((Text.trim line).dropWhile (· == '#'))

/-- The remark in a comment line at the top of the code, and the code without that line. -/
def splitRemark (code : Text) : Option Text × Text :=
  let body := code.dropWhile isLineBreak
  let (first, rest) := (Text.cutAt '\n' body).getD (body, [])
  if (Text.trimStart first).head? = some '#' then (some (remarkOf first), rest) else (none, code)

end Code

end GamePatch
