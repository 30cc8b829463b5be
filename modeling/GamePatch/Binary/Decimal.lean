import GamePatch.Binary.Format
import GamePatch.Text.Number

set_option autoImplicit false

namespace GamePatch.Binary

/-- The number `digits * 10 ^ exponent`. -/
structure Decimal where
  digits : Nat
  exponent : Int
deriving DecidableEq, Repr

/-- Which of two equally near decimals is taken. -/
inductive Tie where
  | up
  | even
deriving DecidableEq, Repr

/-- The ratio times a power of ten, as a ratio. -/
def scaleTen (num den : Nat) (exponent : Int) : Nat × Nat :=
  if 0 ≤ exponent then (num * Nat.pow 10 exponent.toNat, den)
  else (num, den * Nat.pow 10 (-exponent).toNat)

/-- Comparison of two ratios. -/
def ratioLt (a b : Nat × Nat) : Bool := a.1 * b.2 < b.1 * a.2

/-- The interval of reals that round to a number, in quarters of its unit `2 ^ exponent`. The
ends belong to it if the significand is even. -/
structure Interval where
  low : Nat
  middle : Nat
  high : Nat
  closed : Bool

namespace Format

/-- Below a power of two the next number is half as far away, except among the smallest. -/
def interval (f : Format) (significand : Nat) (exponent : Int) : Interval :=
  let narrow := significand = 1 <<< f.fractionBits && f.minExponent < exponent
  { low := 4 * significand - (if narrow then 1 else 2)
    middle := 4 * significand
    high := 4 * significand + 2
    closed := significand % 2 == 0 }

end Format

namespace Interval

/-- Quarters of the unit as a ratio. -/
def quarters (count : Nat) (exponent : Int) : Nat × Nat :=
  if 2 ≤ exponent then (count <<< (exponent - 2).toNat, 1) else (count, 1 <<< (2 - exponent).toNat)

/-- Whether `digits * 10 ^ power` lies in the interval. -/
def holds (i : Interval) (exponent : Int) (digits : Nat) (power : Int) : Bool :=
  let point := scaleTen digits 1 power
  let low := quarters i.low exponent
  let high := quarters i.high exponent
  (ratioLt low point && ratioLt point high)
    || (i.closed && (!ratioLt point low && !ratioLt high point))

/-- The best point of the grid of multiples of `10 ^ power` that lies in the interval. -/
def best? (i : Interval) (tie : Tie) (exponent : Int) (power : Int) : Option Nat :=
  let middle := quarters i.middle exponent
  let scaled := scaleTen middle.1 middle.2 (-power)
  let below := scaled.1 / scaled.2
  let above := below + 1
  let twice := 2 * (scaled.1 % scaled.2)
  match i.holds exponent below power && below != 0, i.holds exponent above power with
  | true, true =>
    if twice < scaled.2 then some below
    else if twice > scaled.2 then some above
    else if tie = Tie.even && below % 2 = 0 then some below
    else some above
  | true, false => some below
  | false, true => some above
  | false, false => none

/-- The first power, going down from a start, whose grid has a point in the interval. -/
def search (i : Interval) (tie : Tie) (exponent : Int) : Nat → Int → Decimal
  | 0, power => ⟨0, power⟩
  | steps + 1, power =>
    match i.best? tie exponent power with
    | some digits => ⟨digits, power⟩
    | none => i.search tie exponent steps (power - 1)

end Interval

namespace Format

/-- The fewest digits that read back as the number, and of those the nearest. -/
def shortest (f : Format) (tie : Tie) (significand : Nat) (exponent : Int) : Decimal :=
  if significand = 0 then ⟨0, 0⟩
  else
    let top := Interval.quarters (4 * significand + 4) exponent
    -- No grid above this power has a point in the interval.
    let start : Int := ((Nat.toDigits 10 (top.1 / top.2 + 1)).length : Int)
    let start := if 0 < exponent then start
      else start - ((Nat.toDigits 10 (top.2 / top.1 + 1)).length : Int) + 1
    (f.interval significand exponent).search tie exponent (f.fractionBits + 40) start

end Format

/-- How a number is written. -/
structure Layout where
  /-- Which of two equally near decimals is taken. -/
  tie : Tie
  /-- Where the point may stand, counted from before the first digit, for a text without an
  exponent. -/
  positional : Int → Bool
  /-- What follows the digits of a whole number. -/
  whole : Text
  /-- The mark before an exponent that is not negative. -/
  plus : Text

namespace Layout

/-- The digits without zeros at the end, and the place of the point. -/
def parts (d : Decimal) : Text × Int :=
  let digits := Text.decimal d.digits
  (Text.dropEndWhile (· == '0') digits, (digits.length : Int) + d.exponent)

/-- The digits with the point in its place. -/
def writePositional (l : Layout) (digits : Text) (point : Int) : Text :=
  if point ≤ 0 then "0." ++ List.replicate (-point).toNat '0' ++ digits
  else if digits.length ≤ point.toNat then
    digits ++ List.replicate (point.toNat - digits.length) '0' ++ l.whole
  else digits.take point.toNat ++ ['.'] ++ digits.drop point.toNat

/-- One digit before the point, and an exponent. -/
def writeExponent (l : Layout) (digits : Text) (point : Int) : Text :=
  digits.take 1 ++ (if digits.length ≤ 1 then [] else '.' :: digits.drop 1)
    ++ ['e'] ++ (if 0 < point then l.plus else []) ++ Text.signedDecimal (point - 1)

/-- The text of a finite number. -/
def writeFinite (l : Layout) (f : Format) (negative : Bool) (significand : Nat) (exponent : Int) :
    Text :=
  let sign : Text := if negative then ['-'] else []
  if significand = 0 then sign ++ ['0'] ++ l.whole
  else
    let (digits, point) := parts (f.shortest l.tie significand exponent)
    sign ++ if l.positional point then l.writePositional digits point
      else l.writeExponent digits point

end Layout

/-- A decimal numeral: digits, and how many of them follow the point. -/
structure Numeral where
  digits : Text
  fraction : Nat

/-- The leading decimal digits, and the rest. -/
def takeDigits (s : Text) : Text × Text := (s.takeWhile Char.isDigit, s.dropWhile Char.isDigit)

/-- At least one digit, with or without a point among or beside them. -/
def readNumeral (s : Text) : Option (Numeral × Text) :=
  let (whole, rest) := takeDigits s
  let (fraction, rest) :=
    match rest with
    | '.' :: r => takeDigits r
    | _ => ([], rest)
  if whole.isEmpty && fraction.isEmpty then none
  else some (⟨whole ++ fraction, fraction.length⟩, rest)

/-- Nothing, or `e` and a whole number. -/
def readExponent : Text → Option Int
  | [] => some 0
  | c :: r => if c == 'e' || c == 'E' then Text.readSigned 10 r else none

namespace Format

/-- The pattern nearest to `digits * 10 ^ exponent`. Numbers beyond the reach of every format
that has at most eleven exponent bits are not computed in full. -/
def roundDecimal (f : Format) (negative : Bool) (digits : Nat) (exponent : Int) : Nat :=
  let top : Int := ((Text.decimal digits).length : Int) + exponent
  if digits = 0 || top < -400 then f.signed negative 0
  else if top > 400 then f.signed negative f.infinity
  else
    let (num, den) := scaleTen digits 1 exponent
    f.round negative num den

/-- The pattern of a text without its sign. -/
def readUnsigned? (f : Format) (negative : Bool) (s : Text) : Option Nat :=
  let name := Text.lower s
  if name = "inf".toList || name = "infinity".toList then some (f.signed negative f.infinity)
  else if name = "nan".toList then some (f.signed negative f.nan)
  else
    match readNumeral s with
    | none => none
    | some (numeral, rest) =>
      match readExponent rest, Text.readDigits 10 numeral.digits with
      | some e, some digits => some (f.roundDecimal negative digits (e - numeral.fraction))
      | _, _ => none

/-- The nearest number to a decimal text: digits with an optional sign, point and exponent, or
the name of infinity or of no number in any case. -/
def read? (f : Format) (s : Text) : Option Nat :=
  match s with
  | '-' :: r => f.readUnsigned? true r
  | '+' :: r => f.readUnsigned? false r
  | _ => f.readUnsigned? false s

end Format

end GamePatch.Binary
