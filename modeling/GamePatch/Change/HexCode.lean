import GamePatch.Change.Width

set_option autoImplicit false

namespace GamePatch.Change

/-- The code so far, which may end in half a byte. -/
structure Draft where
  digits : Text
  spans : List Span
deriving DecidableEq, Repr

namespace Draft

def addPlaceholder (d : Draft) (placeholder : Placeholder) (width : Nat) (text : Text)
    (line : Nat) : Except EvaluateError Draft :=
  if d.digits.length % 2 ≠ 0 then .error (.misaligned text)
  else
    .ok
      { digits := d.digits ++ List.replicate (2 * width) '0'
        spans := d.spans ++ [⟨d.digits.length / 2, width, placeholder, text, line⟩] }

/-- The draft with a part of a line of digits at its end. -/
def addSegment (d : Draft) (text : Text) (line : Nat) (segment : Line.Segment) (width : Nat) :
    Except EvaluateError Draft :=
  match segment with
  | .hex digits => .ok { d with digits := d.digits ++ digits }
  | .symbol name => d.addPlaceholder (.symbols [name]) width text line
  | .options names => d.addPlaceholder (.options names) width text line

/-- The draft with parts of a line at its end. -/
def addSegments (text : Text) (line : Nat) :
    Draft → List (Line.Segment × Nat) → Except EvaluateError Draft
  | d, [] => .ok d
  | d, (segment, width) :: rest =>
    match d.addSegment text line segment width with
    | .ok d => addSegments text line d rest
    | .error e => .error e

def addLine (options : KnownOptions) (d : Draft) (ix : Nat) (line : Text) :
    Except EvaluateError Draft :=
  let text := Line.stripComment line
  match Line.classify line with
  | .blank => .ok d
  | .branch branch => d.addPlaceholder (.branch branch) 4 text ix
  | .hex segments =>
    match placeholderWidths options segments with
    | .ok widths => addSegments text ix d (segments.zip widths)
    | .error e => .error e
  | .assembly => .error (.invalidHex text)
  | .overflow => .error (.toolchain (.branch .overflow))

/-- The draft with lines at its end, of which the first has the index `ix`. -/
def addLines (options : KnownOptions) : Draft → Nat → List Text → Except EvaluateError Draft
  | d, _, [] => .ok d
  | d, ix, line :: rest =>
    match d.addLine options ix line with
    | .ok d => addLines options d (ix + 1) rest
    | .error e => .error e

end Draft

/-- The first pass over code without assembly. -/
def evaluateHex (options : KnownOptions) (code : Text) : Except EvaluateError Intermediate :=
  match Draft.addLines options ⟨[], []⟩ 0 (Text.lines code) with
  | .error e => .error e
  | .ok d =>
    if d.digits.length % 2 ≠ 0 then
      .error (.invalidHex ("odd number of hex digits (" ++ Text.decimal d.digits.length ++ ")"))
    else .ok ⟨d.digits, d.spans, false⟩

end GamePatch.Change
