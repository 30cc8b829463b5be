import GamePatch.Binary.Decimal

set_option autoImplicit false

namespace GamePatch

namespace Json

/-- A number of a JSON document. -/
inductive Number where
  /-- A whole number below `2 ^ 64`. -/
  | natural (n : Nat)
  /-- The number `-n`, not below `-2 ^ 63`. -/
  | negative (n : Nat)
  /-- A finite 64-bit float by its pattern. -/
  | float (bits : Nat)
deriving DecidableEq, Repr

end Json

/-- A JSON value. -/
inductive Json where
  | null
  | bool (value : Bool)
  | number (value : Json.Number)
  | text (value : Text)
  | list (items : List Json)
  | object (entries : List (Text × Json))
deriving Repr

namespace Json

def nat (n : Nat) : Json := .number (.natural n)

def int (n : Int) : Json :=
  if n < 0 then .number (.negative n.natAbs) else .number (.natural n.natAbs)

def string (s : String) : Json := .text s.toList

/-- The number as a signed 64-bit integer, if it is a whole number in that range. -/
def Number.toInt64? : Number → Option Int
  | .natural n => if n < 0x8000000000000000 then some n else none
  | .negative n => some (-n)
  | .float _ => none

/-- The pattern of the nearest 64-bit float. -/
def Number.toDouble : Number → Nat
  | .natural n => Binary.double.round false n 1
  | .negative n => Binary.double.round true n 1
  | .float bits => bits

/-- Floats are written with the fewest digits that read back, and always with a point or an
exponent: without an exponent from `0.00001` up to `10 ^ 16`. -/
def floatLayout : Binary.Layout where
  tie := .even
  positional point := -5 < point && point ≤ 16
  whole := ".0"
  plus := "+"

def Number.write : Number → Text
  | .natural n => Text.decimal n
  | .negative n => '-' :: Text.decimal n
  | .float bits =>
    match Binary.double.decode bits with
    | .finite minus significand exponent =>
      floatLayout.writeFinite Binary.double minus significand exponent
    | _ => "null"

/-- A 64-bit float as a value; only finite ones are numbers. -/
def ofDouble (bits : Nat) : Json :=
  match Binary.double.decode bits with
  | .finite .. => .number (.float bits)
  | _ => .null

/-- The entries with `key` at its first place, or else at the end. -/
def insertEntry (key : Text) (value : Json) : List (Text × Json) → List (Text × Json)
  | [] => [(key, value)]
  | (k, v) :: rest => if k = key then (key, value) :: rest else (k, v) :: insertEntry key value rest

mutual

/-- The value with each object as a map. -/
def merge : Json → Json
  | .list items => .list (mergeItems items)
  | .object entries => .object (mergeEntries entries [])
  | value => value

def mergeItems : List Json → List Json
  | [] => []
  | item :: rest => merge item :: mergeItems rest

def mergeEntries : List (Text × Json) → List (Text × Json) → List (Text × Json)
  | [], done => done
  | (key, value) :: rest, done => mergeEntries rest (insertEntry key (merge value) done)

end

/-- The value of a key, if the value is an object that has it. -/
def get? (key : Text) : Json → Option Json
  | .object entries => (entries.find? fun entry => entry.1 == key).map Prod.snd
  | _ => none

/-- One character of a string between quotes. -/
def writeChar (c : Char) : Text :=
  match c with
  | '"' => "\\\""
  | '\\' => "\\\\"
  | '\n' => "\\n"
  | '\r' => "\\r"
  | '\t' => "\\t"
  | _ =>
    if c.toNat = 8 then "\\b"
    else if c.toNat = 12 then "\\f"
    else if c.toNat < 32 then "\\u" ++ Text.zeroPad 4 (Text.hexLower c.toNat)
    else [c]

def writeText (s : Text) : Text := ['"'] ++ s.flatMap writeChar ++ ['"']

mutual

/-- The value on one line, without blanks. -/
def compact : Json → Text
  | .null => "null"
  | .bool true => "true"
  | .bool false => "false"
  | .number n => n.write
  | .text s => writeText s
  | .list items => ['['] ++ Text.join [','] (compactItems items) ++ [']']
  | .object entries => ['\x7b'] ++ Text.join [','] (compactEntries entries) ++ ['\x7d']

def compactItems : List Json → List Text
  | [] => []
  | item :: rest => compact item :: compactItems rest

def compactEntries : List (Text × Json) → List Text
  | [] => []
  | (key, value) :: rest => (writeText key ++ [':'] ++ compact value) :: compactEntries rest

end

/-- The parts of a list or an object, each on its own line one step further in. -/
def block (opening closing : Char) (indent : Nat) (parts : List Text) : Text :=
  if parts.isEmpty then [opening, closing]
  else
    let margin := '\n' :: List.replicate (2 * (indent + 1)) ' '
    [opening] ++ margin ++ Text.join (',' :: margin) parts
      ++ ('\n' :: List.replicate (2 * indent) ' ') ++ [closing]

mutual

/-- The value with its parts on lines of their own, two columns further in at each step. -/
def pretty (indent : Nat) : Json → Text
  | .list items => block '[' ']' indent (prettyItems indent items)
  | .object entries => block '\x7b' '\x7d' indent (prettyEntries indent entries)
  | value => compact value

def prettyItems (indent : Nat) : List Json → List Text
  | [] => []
  | item :: rest => pretty (indent + 1) item :: prettyItems indent rest

def prettyEntries (indent : Nat) : List (Text × Json) → List Text
  | [] => []
  | (key, value) :: rest =>
    (writeText key ++ ": " ++ pretty (indent + 1) value) :: prettyEntries indent rest

end

end Json

end GamePatch
