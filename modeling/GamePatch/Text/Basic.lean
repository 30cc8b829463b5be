set_option autoImplicit false

namespace GamePatch

/-- Text as the readers see it: its characters in order. -/
abbrev Text := List Char

instance : Coe String Text := ⟨String.toList⟩

namespace Text

/-- The code points of the property White_Space. -/
def isBlank (c : Char) : Bool :=
  let n := c.toNat
  (9 ≤ n && n ≤ 13) || n == 32 || n == 0x85 || n == 0xA0 || n == 0x1680
    || (0x2000 ≤ n && n ≤ 0x200A) || n == 0x2028 || n == 0x2029 || n == 0x202F
    || n == 0x205F || n == 0x3000

/-- Drops from the end while `p` holds. -/
def dropEndWhile (p : Char → Bool) (s : Text) : Text := (s.reverse.dropWhile p).reverse

/-- Drops from both ends while `p` holds. -/
def stripWhile (p : Char → Bool) (s : Text) : Text := dropEndWhile p (s.dropWhile p)

def trimStart (s : Text) : Text := s.dropWhile isBlank

def trimEnd (s : Text) : Text := dropEndWhile isBlank s

/-- Without the blanks at both ends. -/
def trim (s : Text) : Text := trimEnd (trimStart s)

/-- Without any blanks. -/
def removeBlanks (s : Text) : Text := s.filter fun c => !isBlank c

/-- Nothing but blanks. -/
def isAllBlank (s : Text) : Bool := s.all isBlank

/-- What follows `lead` at the start of the text. -/
def dropLeading? : Text → Text → Option Text
  | [], s => some s
  | _ :: _, [] => none
  | l :: lead, c :: s => if l = c then dropLeading? lead s else none

/-- What precedes `tail` at the end of the text. -/
def dropTrailing? (tail s : Text) : Option Text :=
  (dropLeading? tail.reverse s.reverse).map List.reverse

def startsWith (lead s : Text) : Bool := (dropLeading? lead s).isSome

def endsWith (tail s : Text) : Bool := (dropTrailing? tail s).isSome

/-- The text before and after the first occurrence of `mark`. -/
def cut (mark : Text) (s : Text) : Option (Text × Text) :=
  match dropLeading? mark s with
  | some rest => some ([], rest)
  | none =>
    match s with
    | [] => none
    | c :: r => (cut mark r).map fun (before, after) => (c :: before, after)

/-- The text before and after the first character with `p`. -/
def cutWhere (p : Char → Bool) : Text → Option (Text × Text)
  | [] => none
  | c :: r => if p c then some ([], r) else (cutWhere p r).map fun (b, a) => (c :: b, a)

/-- The text before and after the first `mark`. -/
def cutAt (mark : Char) (s : Text) : Option (Text × Text) := cutWhere (· == mark) s

/-- The text before and after the last `mark`. -/
def cutAtLast (mark : Char) (s : Text) : Option (Text × Text) :=
  (cutAt mark s.reverse).map fun (after, before) => (before.reverse, after.reverse)

def contains (mark s : Text) : Bool := (cut mark s).isSome

/-- Whether the character zero occurs. -/
def hasZero (s : Text) : Bool := s.any fun c => c.toNat == 0

/-- The lines of a text, each with its line break. -/
def splitInclusive : Text → List Text
  | [] => []
  | c :: r =>
    if c = '\n' then ['\n'] :: splitInclusive r
    else
      match splitInclusive r with
      | [] => [[c]]
      | l :: ls => (c :: l) :: ls

/-- The lines of a text. A line ends at a line feed, which may have one carriage return before
it; what follows the last line feed is a line unless it is empty. -/
def lines : Text → List Text
  | [] => []
  | '\n' :: r => [] :: lines r
  | '\r' :: '\n' :: r => [] :: lines r
  | c :: r =>
    match lines r with
    | [] => [[c]]
    | l :: ls => (c :: l) :: ls

/-- The maximal runs of characters that are not blank. -/
def words (s : Text) : List Text := (s.splitOnP isBlank).filter fun w => !w.isEmpty

/-- The parts between the occurrences of `mark`. -/
def splitAt (mark : Char) (s : Text) : List Text := s.splitOnP (· == mark)

/-- The texts with `sep` between each two. -/
def join (sep : Text) (parts : List Text) : Text := List.intercalate sep parts

def joinLines (parts : List Text) : Text := join ['\n'] parts

/-- Upper case for the letters `a` to `z`; other characters stay. -/
def upper (s : Text) : Text := s.map Char.toUpper

/-- Lower case for the letters `A` to `Z`; other characters stay. -/
def lower (s : Text) : Text := s.map Char.toLower

/-- Whether the first text comes before the second or equals it, comparing code points. This is
also the order of the UTF-8 forms. -/
def le : Text → Text → Bool
  | [], _ => true
  | _ :: _, [] => false
  | a :: as, b :: bs => if a = b then le as bs else decide (a.toNat ≤ b.toNat)

/-- Elements without later repeats, in order of first appearance. -/
def dedup (names : List Text) : List Text :=
  names.foldl (fun seen name => if seen.contains name then seen else seen ++ [name]) []

end Text

end GamePatch
