import GamePatch.Text.Number

set_option autoImplicit false

namespace GamePatch.Json

/-- The blanks between the tokens of a document. -/
def isSpace (c : Char) : Bool := c == ' ' || c == '\n' || c == '\t' || c == '\r'

def skipSpace (s : Text) : Text := s.dropWhile isSpace

/-- The letters of the escapes that stand for one character each. -/
def isEscapeLetter (c : Char) : Bool :=
  c == '"' || c == '\\' || c == '/' || c == 'b' || c == 'f' || c == 'n' || c == 'r' || c == 't'

/-- What follows a string, given what follows its opening quote. -/
def skipString : Text → Option Text
  | [] => none
  | '"' :: r => some r
  | '\\' :: 'u' :: a :: b :: c :: d :: r =>
    if [a, b, c, d].all Text.isHexDigit then skipString r else none
  | '\\' :: c :: r => if isEscapeLetter c then skipString r else none
  | c :: r => if c.toNat < 32 then none else skipString r

/-- What follows some digits, of which there has to be one. -/
def skipDigits (s : Text) : Option Text :=
  if s.head?.any Char.isDigit then some (s.dropWhile Char.isDigit) else none

/-- What follows an exponent, if there is one. -/
def skipExponent (s : Text) : Option Text :=
  match s with
  | e :: r =>
    if e == 'e' || e == 'E' then
      match r with
      | '+' :: r => skipDigits r
      | '-' :: r => skipDigits r
      | r => skipDigits r
    else some s
  | [] => some s

/-- What follows a number without its sign. A number of several digits does not start with a
zero. -/
def skipNumber (s : Text) : Option Text :=
  let digits := s.takeWhile Char.isDigit
  if digits.isEmpty || (digits.head? = some '0' && 1 < digits.length) then none
  else
    match s.dropWhile Char.isDigit with
    | '.' :: r => (skipDigits r).bind skipExponent
    | r => skipExponent r

/-- What follows a value without parts. -/
def skipLeaf (s : Text) : Option Text :=
  match s with
  | 'n' :: 'u' :: 'l' :: 'l' :: r => some r
  | 't' :: 'r' :: 'u' :: 'e' :: r => some r
  | 'f' :: 'a' :: 'l' :: 's' :: 'e' :: r => some r
  | '"' :: r => skipString r
  | '-' :: r => skipNumber r
  | r => skipNumber r

/-- What an open bracket holds. -/
inductive Bracket where
  | list
  | object
deriving DecidableEq, Repr

def Bracket.closing : Bracket → Char
  | .list => ']'
  | .object => '\x7d'

/-- A place between the tokens of a document. -/
inductive Place where
  | beforeKey
  | beforeValue
  | behindValue
deriving DecidableEq, Repr

/-- Where the next part of a bracket starts. -/
def Bracket.start : Bracket → Place
  | .list => .beforeValue
  | .object => .beforeKey

/-- What follows the value in which all brackets are closed again. -/
def skipTokens : Nat → Place → List Bracket → Text → Option Text
  | 0, _, _, _ => none
  | steps + 1, .beforeKey, brackets, s =>
    match skipSpace s with
    | '"' :: r =>
      match (skipString r).map skipSpace with
      | some (':' :: r) => skipTokens steps .beforeValue brackets r
      | _ => none
    | _ => none
  | steps + 1, .beforeValue, brackets, s =>
    let enter (b : Bracket) (r : Text) : Option Text :=
      match skipSpace r with
      | [] => none
      | c :: rest =>
        if c = b.closing then skipTokens steps .behindValue brackets rest
        else skipTokens steps b.start (b :: brackets) (c :: rest)
    match skipSpace s with
    | '[' :: r => enter .list r
    | '\x7b' :: r => enter .object r
    | s =>
      match skipLeaf s with
      | none => none
      | some r => skipTokens steps .behindValue brackets r
  | _ + 1, .behindValue, [], s => some s
  | steps + 1, .behindValue, b :: brackets, s =>
    match skipSpace s with
    | [] => none
    | c :: r =>
      if c = ',' then skipTokens steps b.start (b :: brackets) r
      else if c = b.closing then skipTokens steps .behindValue brackets r
      else none

/-- What follows the value at the start of a text. Each token has a character, and one step more
ends the last. -/
def skipValue (s : Text) : Option Text := skipTokens (s.length + 1) .beforeValue [] s

end GamePatch.Json
