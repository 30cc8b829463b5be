import GamePatch.Address
import GamePatch.ParseError

set_option autoImplicit false

namespace GamePatch.ModText

inductive RowCode where
  /-- On the lines below, as an injection. -/
  | branch
  /-- On the row itself. -/
  | inline (code : Text)
  /-- On the lines below. -/
  | below
deriving DecidableEq, Repr

/-- A line that starts a change. -/
inductive Header where
  | row (revision offset : Text) (vanilla : Option Text) (code : RowCode)
  | standalone (name revision : Text)
  | gecko (revision : Text)
deriving DecidableEq, Repr

/-- The number of a version, such as `1.02`. -/
def isVersion (word : Text) : Bool :=
  word.any (· == '.') && word.all fun c => c.isDigit || c == '.'

def isRegion (word : Text) : Bool := word == "NTSC".toList || word == "PAL".toList

/-- Whether a line is `ALL`, a region, or a region with a version. -/
def isRevisionLabel (line : Text) : Bool :=
  Text.trim line == "ALL".toList ||
    match Text.words line with
    | [region] => isRegion region
    | [region, version] => isRegion region && isVersion version
    | _ => false

/-- What is in angle brackets at the start of a line, and what is behind them. Two brackets are
the start of a reference to a function. -/
def angleBracketed (line : Text) : Option (Text × Text) :=
  if Text.startsWith ['<', '<'] line then none
  else
    match Text.dropLeading? ['<'] line with
    | none => none
    | some rest => (Text.cutAt '>' rest).map fun (inner, after) => (Text.trim inner, Text.trim after)

namespace Header

/-- Whether a line is a row of the table. -/
def isRow (line : Text) : Bool := Text.contains "---" line && Text.contains "->" line

def isOffset (s : Text) : Bool := (Address.parse? s).isSome

/-- The code that stands behind the arrow. -/
def rowCode (right : Text) : RowCode :=
  if Text.lower right = "branch" then .branch
  else if right.isEmpty then .below
  else .inline right

/-- The texts between the dashes. -/
def rowParts (left : Text) : List Text :=
  ((Text.splitAt '-' left).map Text.trim).filter fun part => !part.isEmpty

/-- The revision, the offset and the vanilla code of a row. Without a revision the one of the row
before counts. -/
def readRow (last : Option Text) (parts : List Text) : Option (Text × Text × Option Text) :=
  match parts with
  | [a] => if isOffset a then last.map fun revision => (revision, a, none) else none
  | [a, b] =>
    if isOffset a then last.map fun revision => (revision, a, some b)
    else if isOffset b then some (a, b, none)
    else none
  | [a, b, c] => if isOffset b then some (a, b, some c) else none
  | _ => none

/-- Reads a row. The last revision is the one of the row before. -/
def parseRow (last : Option Text) (line : Text) : Except ParseError Header :=
  match Text.cut "->" line with
  | none => .error (.invalidHeader line)
  | some (left, right) =>
    match readRow last (rowParts left) with
    | none => .error (.invalidHeader line)
    | some (revision, offset, vanilla) =>
      .ok (.row revision offset vanilla (rowCode (Text.trim right)))

/-- Reads the line above a standalone function. -/
def parseStandalone? (line : Text) : Option Header :=
  match angleBracketed line with
  | none => none
  | some (name, revision) =>
    if name.isEmpty || Text.contains "://" name || !isRevisionLabel revision then none
    else some (.standalone name revision)

/-- Whether a line without blanks around it starts a change. -/
def isStart (line : Text) : Bool :=
  isRow line || (parseStandalone? line).isSome || isRevisionLabel line

/-- Reads a line without blanks around it. -/
def parse (last : Option Text) (line : Text) : Except ParseError Header :=
  if isRow line then parseRow last line
  else
    match parseStandalone? line with
    | some header => .ok header
    | none => if isRevisionLabel line then .ok (.gecko line) else .error (.orphanCode line)

def rowRevision? : Header → Option Text
  | .row revision .. => some revision
  | _ => none

end Header

end GamePatch.ModText
