import GamePatch.Text.Basic

set_option autoImplicit false

namespace GamePatch

/-- What the top of a source file says about the code. -/
structure SourceHeader where
  address : Option Text
  authors : List Text
  name : Option Text
deriving DecidableEq, Repr

namespace SourceHeader

/-- A header that says nothing. -/
def empty : SourceHeader := ⟨none, [], none⟩

/-- Whether a line is at least three `#` signs. -/
def isBanner (line : Text) : Bool := 3 ≤ line.length && line.all (· == '#')

/-- The text of a line that is a remark. -/
def remarkText? (line : Text) : Option Text :=
  let line := Text.trim line
  ((Text.dropLeading? "//" line).or (Text.dropLeading? ['#'] line)).map fun text =>
    Text.trim (text.dropWhile (· == '#'))

/-- The text behind the first occurrence of `mark`, with small letters for capitals. -/
def behindAnyCase (mark s : Text) : Option Text :=
  (Text.cut mark (Text.lower s)).map fun (before, _) => s.drop (before.length + mark.length)

/-- The address in a remark that says where code is inserted. -/
def insertedAt? (remark : Text) : Option Text :=
  (behindAnyCase "inserted at" remark).bind fun rest =>
    (Text.words rest).head?.map (Text.stripWhile (· == ':'))

/-- The names between commas. -/
def readNames (s : Text) : List Text :=
  ((Text.splitAt ',' s).map Text.trim).filter fun name => !name.isEmpty

/-- What a value says about the code. -/
inductive Key where
  | address
  | authors
  | name
deriving DecidableEq, Repr

/-- The names of values, in small letters. -/
def keys : List (Text × Key) :=
  [("address", .address), ("inject at", .address), ("injection address", .address),
    ("author", .authors), ("authors", .authors), ("name", .name), ("title", .name)]

def set (header : SourceHeader) (key : Key) (value : Text) : SourceHeader :=
  match key with
  | .address => { header with address := some value }
  | .authors => { header with authors := readNames value }
  | .name => { header with name := some value }

/-- The header with a line of a list read. -/
def addLine (header : SourceHeader) (line : Text) : SourceHeader :=
  match (remarkText? line).bind (Text.cutAt ':') with
  | none => header
  | some (key, value) =>
    match keys.find? fun k => k.1 == Text.lower (Text.trim key) with
    | some (_, key) => header.set key (Text.trim value)
    | none => header

/-- Reads the top of a source file. -/
def parse (text : Text) : SourceHeader :=
  match ((Text.lines text).map Text.trim).dropWhile List.isEmpty with
  | [] => empty
  | first :: rest =>
    if isBanner first then (rest.takeWhile fun line => !isBanner line).foldl addLine empty
    else { empty with address := (remarkText? first).bind insertedAt? }

end SourceHeader

end GamePatch
