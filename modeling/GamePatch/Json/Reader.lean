import GamePatch.Json.Skip
import GamePatch.Json.Value

set_option autoImplicit false

namespace GamePatch.Json

/-- Objects and lists may be nested this deep. -/
def maxDepth : Nat := 127

/-- The largest power of ten that is a 64-bit float. -/
def maxPower : Nat := 308

/-- The float `significand * 10 ^ exponent`, or none beyond the largest. -/
def scaleFloat (negative : Bool) (significand : Nat) (exponent : Int) : Option Nat :=
  let f := Binary.double
  let exact (bits : Nat) : Nat × Int :=
    match f.decode bits with
    | .finite _ m e => (m, e)
    | _ => (0, 0)
  let start := exact (f.round false significand 1)
  let power (k : Nat) : Nat × Int := exact (f.round false (Nat.pow 10 k) 1)
  let divide (a b : Nat × Int) : Nat :=
    let shift := a.2 - b.2
    if 0 ≤ shift then f.round false (a.1 <<< shift.toNat) b.1
    else f.round false a.1 (b.1 <<< (-shift).toNat)
  if 0 ≤ exponent then
    if exponent ≤ maxPower then
      let p := power exponent.toNat
      let bits := f.roundBinary false (start.1 * p.1) (start.2 + p.2)
      if bits = f.infinity then none else some (f.signed negative bits)
    else if start.1 = 0 then some (f.signed negative 0)
    else none
  else
    -- A division by the largest power at a time, until one that is no larger is left. After
    -- three the result is zero in any case.
    let rec steps : Nat → Nat × Int → Nat → Nat
      | 0, _, _ => 0
      | fuel + 1, value, left =>
        if left ≤ maxPower then divide value (power left)
        else if value.1 = 0 then 0
        else steps fuel (exact (divide value (power maxPower))) (left - maxPower)
    some (f.signed negative (steps 4 start (-exponent).toNat))

/-- Reads digits into a number below `2 ^ 64`. Gives the number, how many digits it took, and
what follows them. -/
def takeSignificand : Nat → Nat → Text → Nat × Nat × Text
  | n, taken, [] => (n, taken, [])
  | n, taken, c :: r =>
    if c.isDigit && n * 10 + (c.toNat - 48) < 0x10000000000000000 then
      takeSignificand (n * 10 + (c.toNat - 48)) (taken + 1) r
    else (n, taken, c :: r)

/-- The digits at the start of a text are dropped; their number counts. -/
def countDigits (s : Text) : Nat × Text :=
  ((s.takeWhile Char.isDigit).length, s.dropWhile Char.isDigit)

/-- An exponent after its letter, added to the power so far. -/
def readExponent (negative : Bool) (significand : Nat) (power : Int) (s : Text) :
    Option (Number × Text) :=
  let (below, s) :=
    match s with
    | '+' :: r => (false, r)
    | '-' :: r => (true, r)
    | _ => (false, s)
  let (digits, rest) := (s.takeWhile Char.isDigit, s.dropWhile Char.isDigit)
  match Text.readDigits 10 digits with
  | none => none
  | some e =>
    if e < 0x80000000 then
      let bits := scaleFloat negative significand (if below then power - e else power + e)
      bits.map fun b => (.float b, rest)
    else if significand ≠ 0 && !below then none
    else some (.float (Binary.double.signed negative 0), rest)

/-- The end of a float: an exponent or nothing. -/
def readTail (negative : Bool) (significand : Nat) (power : Int) (s : Text) :
    Option (Number × Text) :=
  match s with
  | 'e' :: r => readExponent negative significand power r
  | 'E' :: r => readExponent negative significand power r
  | _ => (scaleFloat negative significand power).map fun b => (.float b, s)

/-- The digits after a point. -/
def readFraction (negative : Bool) (significand : Nat) (power : Int) (s : Text) :
    Option (Number × Text) :=
  let (n, taken, rest) := takeSignificand significand 0 s
  let (dropped, rest) := countDigits rest
  if taken + dropped = 0 then none else readTail negative n (power - taken) rest

/-- A number without its sign. -/
def readNumber (negative : Bool) (s : Text) : Option (Number × Text) :=
  let (n, taken, rest) := takeSignificand 0 0 s
  if taken = 0 then none
  else if s.head? = some '0' && taken ≠ 1 then none
  else
    let (dropped, rest) := countDigits rest
    match rest with
    | '.' :: r => readFraction negative n dropped r
    | 'e' :: r => readExponent negative n dropped r
    | 'E' :: r => readExponent negative n dropped r
    | _ =>
      if dropped ≠ 0 then (scaleFloat negative n dropped).map fun b => (.float b, rest)
      else if !negative then some (.natural n, rest)
      else if n ≠ 0 && n ≤ 0x8000000000000000 then some (.negative n, rest)
      else some (.float (Binary.double.round true n 1), rest)

/-- Four hexadecimal digits. -/
def readUnit : Text → Option (Nat × Text)
  | a :: b :: c :: d :: r => (Text.readDigits 16 [a, b, c, d]).map fun n => (n, r)
  | _ => none

/-- The character of an escape, after its backslash. -/
def readEscape : Text → Option (Char × Text)
  | '"' :: r => some ('"', r)
  | '\\' :: r => some ('\\', r)
  | '/' :: r => some ('/', r)
  | 'b' :: r => some (Char.ofNat 8, r)
  | 'f' :: r => some (Char.ofNat 12, r)
  | 'n' :: r => some ('\n', r)
  | 'r' :: r => some ('\r', r)
  | 't' :: r => some ('\t', r)
  | 'u' :: r =>
    match readUnit r with
    | none => none
    | some (first, r) =>
      if first < 0xD800 || 0xE000 ≤ first then some (Char.ofNat first, r)
      else if 0xDC00 ≤ first then none
      else
        match r with
        | '\\' :: 'u' :: r =>
          match readUnit r with
          | none => none
          | some (second, r) =>
            if 0xDC00 ≤ second && second < 0xE000 then
              some (Char.ofNat (0x10000 + (first - 0xD800) * 0x400 + (second - 0xDC00)), r)
            else none
        | _ => none
  | _ => none

/-- A string after its opening quote. The steps bound the number of its characters. -/
def readString : Nat → Text → Option (Text × Text)
  | 0, _ => none
  | _ + 1, [] => none
  | steps + 1, c :: r =>
    if c == '"' then some ([], r)
    else if c == '\\' then
      match readEscape r with
      | none => none
      | some (e, r) => (readString steps r).map fun (s, rest) => (e :: s, rest)
    else if c.toNat < 32 then none
    else (readString steps r).map fun (s, rest) => (c :: s, rest)

/-- What is asked for of a value. -/
inductive Pattern where
  /-- All of it. -/
  | whole
  /-- A list, with the same asked for of each item. -/
  | list (item : Pattern)
  /-- A record with its fields in order, which is an object or a list. -/
  | record (fields : List (Text × Pattern))

namespace Pattern

/-- The pattern of the first item of a list, and the one of the rest of the list. -/
def uncons : Pattern → Pattern × Pattern
  | .whole => (.whole, .whole)
  | .list item => (item, .list item)
  | .record [] => (.whole, .whole)
  | .record (field :: fields) => (field.2, .record fields)

/-- The pattern of the value of a key, unless nobody asks for it. -/
def atKey? (key : Text) : Pattern → Option Pattern
  | .record fields => (fields.find? fun field => field.1 == key).map Prod.snd
  | _ => some .whole

end Pattern

mutual

/-- A value at the start of a text, at most `depth` levels deep. Each step takes a character, so
that as many steps as there are characters are enough. -/
def readValue (pattern : Pattern) (depth : Nat) : Nat → Text → Option (Json × Text)
  | 0, _ => none
  | steps + 1, s =>
    match skipSpace s with
    | 'n' :: 'u' :: 'l' :: 'l' :: r => some (.null, r)
    | 't' :: 'r' :: 'u' :: 'e' :: r => some (.bool true, r)
    | 'f' :: 'a' :: 'l' :: 's' :: 'e' :: r => some (.bool false, r)
    | '"' :: r => (readString (r.length + 1) r).map fun (t, rest) => (.text t, rest)
    | '-' :: r => (readNumber true r).map fun (n, rest) => (.number n, rest)
    | '[' :: r =>
      if depth = 0 then none
      else
        match skipSpace r with
        | ']' :: rest => some (.list [], rest)
        | r =>
          (readItems pattern (depth - 1) steps r).map fun (items, rest) => (.list items, rest)
    | '\x7b' :: r =>
      if depth = 0 then none
      else
        match skipSpace r with
        | '\x7d' :: rest => some (.object [], rest)
        | r =>
          (readEntries pattern (depth - 1) steps r).map fun (entries, rest) =>
            (.object entries, rest)
    | s => (readNumber false s).map fun (n, rest) => (.number n, rest)

/-- The items of a list, up to its closing bracket. -/
def readItems (pattern : Pattern) (depth : Nat) : Nat → Text → Option (List Json × Text)
  | 0, _ => none
  | steps + 1, s =>
    match readValue pattern.uncons.1 depth steps s with
    | none => none
    | some (item, r) =>
      match skipSpace r with
      | ',' :: r =>
        (readItems pattern.uncons.2 depth steps r).map fun (items, rest) => (item :: items, rest)
      | ']' :: rest => some ([item], rest)
      | _ => none

/-- The entries of an object that are asked for, up to its closing bracket. -/
def readEntries (pattern : Pattern) (depth : Nat) :
    Nat → Text → Option (List (Text × Json) × Text)
  | 0, _ => none
  | steps + 1, s =>
    match skipSpace s with
    | '"' :: r =>
      match readString (r.length + 1) r with
      | none => none
      | some (key, r) =>
        match skipSpace r with
        | ':' :: r =>
          let value : Option (List (Text × Json) × Text) :=
            match pattern.atKey? key with
            | none => (skipValue r).map fun rest => ([], rest)
            | some p => (readValue p depth steps r).map fun (v, rest) => ([(key, v)], rest)
          match value with
          | none => none
          | some (entry, r) =>
            match skipSpace r with
            | ',' :: r =>
              (readEntries pattern depth steps r).map fun (more, rest) => (entry ++ more, rest)
            | '\x7d' :: rest => some (entry, rest)
            | _ => none
        | _ => none
    | _ => none

end

/-- What a pattern asks for of a whole document. -/
def parseAs? (pattern : Pattern) (s : Text) : Option Json :=
  match readValue pattern maxDepth (s.length + 1) s with
  | none => none
  | some (value, rest) => if (skipSpace rest).isEmpty then some value else none

/-- The value of a whole document. -/
def parse? (s : Text) : Option Json := parseAs? .whole s

end GamePatch.Json
