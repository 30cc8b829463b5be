import GamePatch.Toolchain

set_option autoImplicit false

namespace GamePatch.Listing

open Toolchain (Reply Error)

/-- Whether a character may stand in the name of a label. -/
def isLabelChar (c : Char) : Bool := c.isAlphanum || c == '_' || c == '.' || c == '$'

/-- The label that a source line defines at its start. -/
def labelOf? (source : Text) : Option Text :=
  match Text.cutAt ':' (Text.trim source) with
  | none => none
  | some (label, _) => if !label.isEmpty && label.all isLabelChar then some label else none

/-- The columns of a row that a listing is read from. -/
structure Row where
  address : Option Text
  data : Option Text
  label : Option Text
deriving DecidableEq, Repr

/-- The columns behind the line number. A lone column is an address right behind the number, and
bytes further out. -/
def columns? (rest : Text) : Option (Option Text × Option Text) :=
  match Text.words rest with
  | [] => some (none, none)
  | [column] =>
    if Text.byteLength (rest.takeWhile Text.isBlank) > 1 then some (none, some column)
    else some (some column, none)
  | [address, data] => some (some address, some data)
  | _ => none

/-- The row of a line, or none for a line that is no row. -/
def Row.read (line : Text) : Except Error (Option Row) :=
  if Text.isAllBlank line || Text.contains "GAS LISTING" line then .ok none
  else
    let (columns, source) := (Text.cutAt '\t' line).getD (line, [])
    let columns := Text.trimStart columns
    let number := columns.takeWhile fun c => !Text.isBlank c
    if (Text.readNat64 10 number).isNone then .ok none
    else
      match columns? (columns.drop number.length) with
      | none => .error (.listing line)
      | some (address, data) => .ok (some ⟨address, data, labelOf? source⟩)

/-- The output so far, and the labels that wait for the next address. -/
structure Progress where
  bytes : Bytes
  labels : Labels
  waiting : List Text
deriving DecidableEq, Repr

namespace Progress

/-- The labels that wait get an offset. -/
def settle (p : Progress) (offset : Nat) : Progress :=
  { p with
    labels := p.waiting.foldl (fun labels name => labels.insert name offset) p.labels
    waiting := [] }

/-- Goes on to an address, which may not lie before the end of the bytes. -/
def moveTo (p : Progress) (offset : Nat) : Option Progress :=
  if offset < p.bytes.length then none
  else some ({ p with bytes := Bytes.extendTo offset p.bytes }.settle offset)

/-- Takes a label, then goes to the address, then takes the bytes of a row. -/
def add (p : Progress) (row : Row) : Option Progress := do
  let p := { p with waiting := p.waiting ++ row.label.toList }
  let p ←
    match row.address with
    | none => some p
    | some address => (Text.readNat64 16 address).bind p.moveTo
  match row.data with
  | none => some p
  | some data =>
    match Hex.decode data with
    | .ok bytes => some { p with bytes := p.bytes ++ bytes }
    | .error _ => none

def addLine (p : Progress) (line : Text) : Except Error Progress :=
  let line := Text.trimEnd (line.dropWhile (· == '\x0c'))
  match Row.read line with
  | .error e => .error e
  | .ok none => .ok p
  | .ok (some row) =>
    match p.add row with
    | some p => .ok p
    | none => .error (.listing line)

/-- Takes lines until one is refused. -/
def addLines (p : Progress) : List Text → Except Error Progress
  | [] => .ok p
  | line :: rest =>
    match p.addLine line with
    | .ok p => p.addLines rest
    | .error e => .error e

/-- The output, with the labels that still wait at its end. -/
def finish (p : Progress) : Assembly :=
  let p := p.settle p.bytes.length
  ⟨p.bytes, p.labels⟩

end Progress

/-- Reads a listing. -/
def parse (listing : Text) : Reply :=
  (Progress.addLines ⟨[], [], []⟩ (Text.lines listing)).map Progress.finish

end GamePatch.Listing
