import GamePatch.Text.Basic

set_option autoImplicit false

namespace GamePatch.Text

/-- The value of a digit of base sixteen, in either case. -/
def digitValue? (c : Char) : Option Nat :=
  if '0' ≤ c && c ≤ '9' then some (c.toNat - 48)
  else if 'a' ≤ c && c ≤ 'f' then some (c.toNat - 87)
  else if 'A' ≤ c && c ≤ 'F' then some (c.toNat - 55)
  else none

def isHexDigit (c : Char) : Bool := (digitValue? c).isSome

/-- The number that the digits continue when they follow those of `acc`. -/
def continueDigits (base : Nat) : Nat → Text → Option Nat
  | acc, [] => some acc
  | acc, c :: r =>
    match digitValue? c with
    | some d => if d < base then continueDigits base (acc * base + d) r else none
    | none => none

/-- The number written by at least one digit and nothing else. -/
def readDigits (base : Nat) (s : Text) : Option Nat :=
  if s.isEmpty then none else continueDigits base 0 s

/-- Digits after at most one sign. -/
def readSigned (base : Nat) : Text → Option Int
  | '-' :: r => (readDigits base r).map fun n => -(n : Int)
  | '+' :: r => (readDigits base r).map Int.ofNat
  | s => (readDigits base s).map Int.ofNat

/-- The signed 64-bit integers. -/
def inInt64 (n : Int) : Bool := -0x8000000000000000 ≤ n && n < 0x8000000000000000

def readInt64 (base : Nat) (s : Text) : Option Int := (readSigned base s).filter inInt64

/-- A number below `bound`; a plus sign may stand before it. -/
def readBelow (bound base : Nat) (s : Text) : Option Nat :=
  (readDigits base ((dropLeading? ['+'] s).getD s)).filter fun n => decide (n < bound)

def readNat32 (base : Nat) (s : Text) : Option Nat := readBelow 0x100000000 base s

def readNat64 (base : Nat) (s : Text) : Option Nat := readBelow 0x10000000000000000 base s

/-- The text after a leading `0x` or `0X`. -/
def hexMarked? (s : Text) : Option Text :=
  match s with
  | '0' :: 'x' :: r => some r
  | '0' :: 'X' :: r => some r
  | _ => none

/-- A signed 64-bit number, hexadecimal after `0x`. -/
def readInteger (s : Text) : Option Int :=
  match hexMarked? s with
  | some digits => readInt64 16 digits
  | none => readInt64 10 s

def decimal (n : Nat) : Text := Nat.toDigits 10 n

def signedDecimal (n : Int) : Text :=
  if n < 0 then '-' :: decimal n.natAbs else decimal n.natAbs

/-- Hexadecimal digits in lower case. -/
def hexLower (n : Nat) : Text := Nat.toDigits 16 n

/-- Hexadecimal digits in upper case. -/
def hexUpper (n : Nat) : Text := upper (hexLower n)

/-- With leading zeros up to `width` characters. -/
def zeroPad (width : Nat) (s : Text) : Text := List.replicate (width - s.length) '0' ++ s

/-- `0x40` or `-0x40`. -/
def signedHex (n : Int) : Text :=
  if n < 0 then "-0x" ++ hexUpper n.natAbs else "0x" ++ hexUpper n.natAbs

end GamePatch.Text
