set_option autoImplicit false

namespace GamePatch.Binary

/-- A format by the widths of its fields. One sign bit stands above them. -/
structure Format where
  exponentBits : Nat
  fractionBits : Nat
deriving DecidableEq, Repr

/-- The 32-bit format. -/
def single : Format := ⟨8, 23⟩

/-- The 64-bit format. -/
def double : Format := ⟨11, 52⟩

/-- What a bit pattern stands for. -/
inductive Number where
  | nan
  | infinite (negative : Bool)
  /-- The number `significand * 2 ^ exponent`, with its sign. -/
  | finite (negative : Bool) (significand : Nat) (exponent : Int)
deriving DecidableEq, Repr

namespace Format

/-- The number of bits below the sign. -/
def magnitudeBits (f : Format) : Nat := f.exponentBits + f.fractionBits

/-- The exponent of the smallest numbers. -/
def minExponent (f : Format) : Int := 2 - (1 <<< (f.exponentBits - 1) : Nat) - f.fractionBits

/-- The magnitude pattern of infinity. -/
def infinity (f : Format) : Nat := ((1 <<< f.exponentBits) - 1) <<< f.fractionBits

/-- The pattern with a sign. -/
def signed (f : Format) (negative : Bool) (magnitude : Nat) : Nat :=
  if negative then (1 <<< f.magnitudeBits) + magnitude else magnitude

/-- A pattern that stands for no number: the quiet one without a sign. -/
def nan (f : Format) : Nat := f.infinity + 1 <<< (f.fractionBits - 1)

/-- What a pattern stands for. -/
def decode (f : Format) (bits : Nat) : Number :=
  let negative := bits >>> f.magnitudeBits % 2 == 1
  let exponent := bits >>> f.fractionBits % 1 <<< f.exponentBits
  let fraction := bits % 1 <<< f.fractionBits
  if exponent = 1 <<< f.exponentBits - 1 then
    if fraction = 0 then .infinite negative else .nan
  else if exponent = 0 then .finite negative fraction f.minExponent
  else .finite negative (1 <<< f.fractionBits + fraction) (f.minExponent + exponent - 1)

/-- The quotient rounded to the nearest natural, the even one of two equally near. -/
def divideToEven (num den : Nat) : Nat :=
  let quotient := num / den
  let twice := 2 * (num % den)
  if twice < den then quotient
  else if twice > den then quotient + 1
  else quotient + quotient % 2

/-- The ratio divided by a power of two, as a ratio. -/
def scaleDown (num den : Nat) (exponent : Int) : Nat × Nat :=
  if 0 ≤ exponent then (num, den <<< exponent.toNat) else (num <<< (-exponent).toNat, den)

/-- The exponent at which the ratio has a significand of full length, or that of the smallest
numbers if that is larger. -/
def exponentOf (f : Format) (num den : Nat) : Int :=
  let guess : Int := (Nat.log2 num : Int) - Nat.log2 den - f.fractionBits
  let (n, d) := scaleDown num den guess
  max f.minExponent (if n / d < 1 <<< f.fractionBits then guess - 1 else guess)

/-- The magnitude pattern nearest to a ratio, which is that of infinity from half a step above
the largest number on. -/
def roundMagnitude (f : Format) (num den : Nat) : Nat :=
  if num = 0 then 0
  else
    let exponent := f.exponentOf num den
    let (n, d) := scaleDown num den exponent
    let bits := (exponent - f.minExponent).toNat <<< f.fractionBits + divideToEven n d
    min bits f.infinity

/-- The pattern nearest to a ratio with a sign. -/
def round (f : Format) (negative : Bool) (num den : Nat) : Nat :=
  f.signed negative (f.roundMagnitude num den)

/-- The pattern nearest to `significand * 2 ^ exponent`. -/
def roundBinary (f : Format) (negative : Bool) (significand : Nat) (exponent : Int) : Nat :=
  if 0 ≤ exponent then f.round negative (significand <<< exponent.toNat) 1
  else f.round negative significand (1 <<< (-exponent).toNat)

/-- The pattern of the number in another format, rounded if need be. -/
def convert (source target : Format) (bits : Nat) : Nat :=
  match source.decode bits with
  | .nan => target.nan
  | .infinite negative => target.signed negative target.infinity
  | .finite negative significand exponent => target.roundBinary negative significand exponent

end Format

end GamePatch.Binary
