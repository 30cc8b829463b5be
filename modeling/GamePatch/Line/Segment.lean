import GamePatch.Hex
import GamePatch.Line.Marker

set_option autoImplicit false

namespace GamePatch.Line

/-- A part of a line of digits. -/
inductive Segment where
  /-- Digits in upper case. -/
  | hex (digits : Text)
  | symbol (name : Text)
  | options (names : List Text)
deriving DecidableEq, Repr

namespace Segment

/-- A marked name by its place on the line, from the first character of its opening mark to the
first one behind its closing mark. -/
structure Marker where
  start : Nat
  stop : Nat
  segment : Segment
deriving DecidableEq, Repr

/-- The places of marked names, of which the first search started at `position`. -/
def markers (markLength : Nat) (make : Text → Segment) : Nat → List Enclosed → List Marker
  | _, [] => []
  | position, e :: more =>
    let start := position + e.before.length
    let stop := start + markLength + e.inner.length + markLength
    ⟨start, stop, make e.name⟩ :: markers markLength make stop more

/-- A marker in front of the first one that does not start before it, with `rest` for the markers
from there on. -/
def putMarker (m : Marker) (rest : List Marker → List Marker) : List Marker → List Marker
  | [] => m :: rest []
  | n :: more => if m.start ≤ n.start then m :: rest (n :: more) else n :: putMarker m rest more

/-- Two lists of markers in the order of their places. -/
def mergeMarkers : List Marker → List Marker → List Marker
  | [] => id
  | m :: more => putMarker m (mergeMarkers more)

/-- The symbol references and option placeholders of a stripped line in the order of their
places. -/
def allMarkers (line : Text) : List Marker :=
  mergeMarkers
    (markers 2 .symbol 0 (Enclosed.all symbolOpening symbolClosing line).1)
    (markers 2 (fun name => .options [name]) 0 (Enclosed.all optionOpening optionClosing line).1)

/-- The segment of the digits in a text, if there are any; none if there is anything else. -/
def digits? (s : Text) : Option (List Segment) :=
  let digits := Text.removeBlanks s
  if digits.isEmpty then some []
  else if Hex.isHex digits then some [.hex (Text.upper digits)]
  else none

/-- The segments so far, with the options of another placeholder in the last one, if a bar and
blanks stand between two placeholders. -/
def joined? (done : List Segment) (between : Text) (next : Segment) : Option (List Segment) :=
  if Text.trim between = ['|'] then
    match done.getLast?, next with
    | some (.options names), .options more => some (done.dropLast ++ [.options (names ++ more)])
    | _, _ => none
  else none

/-- The segments of a line from `position` on, behind those that are done. -/
def collect (line : Text) : List Segment → Nat → List Marker → Option (List Segment)
  | done, position, [] => (digits? (line.drop position)).map (done ++ ·)
  | done, position, m :: more =>
    if m.start < position then none
    else
      let between := (line.drop position).take (m.start - position)
      match joined? done between m.segment with
      | some done => collect line done m.stop more
      | none =>
        match digits? between with
        | none => none
        | some digits => collect line (done ++ digits ++ [m.segment]) m.stop more

/-- The segments of a line that has nothing but digits and markers. Markers may not overlap. -/
def ofLine? (line : Text) : Option (List Segment) :=
  let line := stripComment line
  collect line [] 0 (allMarkers line)

end Segment

end GamePatch.Line
