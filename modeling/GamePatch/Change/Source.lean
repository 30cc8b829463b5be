import GamePatch.Bytes
import GamePatch.Change.Width

set_option autoImplicit false

namespace GamePatch.Change

/-- Directives for bytes: a `.long` for each word, and for what is left a `.short` of two bytes or
a `.byte` of the others. -/
def dataDirectives (bytes : Bytes) : List Text :=
  (chunks 4 bytes).map fun chunk =>
    if chunk.length = 4 then ".long 0x" ++ Hex.encode chunk
    else if chunk.length = 2 then ".short 0x" ++ Hex.encode chunk
    else ".byte " ++ Text.join ", " (chunk.map fun b => "0x" ++ Hex.encodeByte b)

/-- A line with its symbols and then its options replaced by texts. -/
def substitute {ε : Type} (symbol option : Text → Except ε Text) (line : Text) : Except ε Text :=
  match Line.replaceEnclosed Line.symbolOpening Line.symbolClosing symbol line with
  | .ok line => Line.replaceEnclosed Line.optionOpening Line.optionClosing option line
  | .error e => .error e

/-- The text of a symbol that has no address yet. -/
def unknownAddress : Text := "0x80000000"

def startLabel (index : Nat) : Text := "__cs_start_" ++ Text.decimal index

def endLabel (index : Nat) : Text := "__cs_end_" ++ Text.decimal index

/-- Lines between the labels of a placeholder. -/
def labelled (index : Nat) (body : List Text) : List Text :=
  [startLabel index ++ [':']] ++ body ++ [endLabel index ++ [':']]

/-- The lines that a line of code is expanded to, and the placeholders on it. -/
structure Expansion where
  source : List Text
  found : List Placeholder
deriving DecidableEq, Repr

namespace Expansion

def append (a b : Expansion) : Expansion := ⟨a.source ++ b.source, a.found ++ b.found⟩

/-- The expansion of a part of a line of digits; its placeholder has the number `index`. -/
def ofSegment (text : Text) (index : Nat) (segment : Line.Segment) (width : Nat) :
    Except EvaluateError Expansion :=
  match segment with
  | .hex digits =>
    match Hex.decode digits with
    | .ok bytes => .ok ⟨dataDirectives bytes, []⟩
    | .error _ => .error (.invalidHex text)
  | .symbol name => .ok ⟨labelled index (dataDirectives (Bytes.zeros width)), [.symbols [name]]⟩
  | .options names => .ok ⟨labelled index (dataDirectives (Bytes.zeros width)), [.options names]⟩

/-- The expansion of parts of a line, with numbers from `index` on. -/
def ofSegments (text : Text) : Nat → List (Line.Segment × Nat) → Except EvaluateError Expansion
  | _, [] => .ok ⟨[], []⟩
  | index, (segment, width) :: rest => do
    let first ← ofSegment text index segment width
    let more ← ofSegments text (index + first.found.length) rest
    .ok (first.append more)

/-- The placeholder of a line that is left to the assembler. Options beside symbols belong to the
symbols' placeholder. -/
def placeholder? (text : Text) : Option Placeholder :=
  match Line.SpecialBranch.parse text with
  | .ok (some branch) => some (.branch branch)
  | _ =>
    if Line.containsSymbol text then some (.symbols (Line.symbolNames text))
    else if Line.containsOption text then some (.options (Line.optionNames text))
    else none

/-- The line with values that stand for those not known yet. -/
def provisional (text : Text) (placeholder : Placeholder) : Text :=
  if placeholder.isBranch then ".long 0"
  else
    match substitute (ε := Empty) (fun _ => .ok unknownAddress) (fun _ => .ok ['0']) text with
    | .ok line => line

/-- The expansion of a line that has no digits. -/
def ofPlainLine (options : KnownOptions) (index : Nat) (line : Text) :
    Except EvaluateError Expansion :=
  let text := Line.stripComment line
  match placeholder? text with
  | none => .ok ⟨[line], []⟩
  | some (.options names) =>
    (optionWidth options names).map fun _ =>
      ⟨labelled index [provisional text (.options names)], [.options names]⟩
  | some placeholder => .ok ⟨labelled index [provisional text placeholder], [placeholder]⟩

/-- The expansion of a line, with numbers for its placeholders from `index` on. -/
def ofLine (options : KnownOptions) (index : Nat) (line : Text) :
    Except EvaluateError Expansion :=
  match Line.classify line with
  | .hex segments => do
    let widths ← placeholderWidths options segments
    ofSegments (Line.stripComment line) index (segments.zip widths)
  | .overflow => .error (.toolchain (.branch .overflow))
  | _ => ofPlainLine options index line

/-- The expansions of lines, with numbers for their placeholders from `index` on. -/
def ofLines (options : KnownOptions) : Nat → List Text → Except EvaluateError (List Expansion)
  | _, [] => .ok []
  | index, line :: rest => do
    let first ← ofLine options index line
    let more ← ofLines options (index + first.found.length) rest
    .ok (first :: more)

def text (expansions : List Expansion) : Text :=
  Text.joinLines (expansions.flatMap Expansion.source)

/-- The number of the line of code, from one on, that each line of the source comes from. The
first expansion is that of line `line`. -/
def lineMap : Nat → List Expansion → List Nat
  | _, [] => []
  | line, e :: rest => List.replicate e.source.length line ++ lineMap (line + 1) rest

/-- The line of code for a line of the source. -/
def rawLine? (expansions : List Expansion) (line : Nat) : Option Nat :=
  if line = 0 then none else (lineMap 1 expansions)[line - 1]?

/-- A placeholder with the text and the index of its line. -/
structure Located where
  placeholder : Placeholder
  text : Text
  line : Nat
deriving DecidableEq, Repr

/-- The placeholders of all lines in the order of their numbers. The first line has the index
`ix`. -/
def located : Nat → List Text → List Expansion → List Located
  | ix, line :: lines, e :: rest =>
    e.found.map (fun p => ⟨p, Line.stripComment line, ix⟩) ++ located (ix + 1) lines rest
  | _, _, _ => []

end Expansion

end GamePatch.Change
