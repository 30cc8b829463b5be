import GamePatch.Text.Number

set_option autoImplicit false

namespace GamePatch

/-- A number on the way to a result does not fit 64 bits. The program ends there and does not
answer. -/
inductive Overflow where
  | overflow
deriving DecidableEq, Repr

namespace Overflow

def message : Overflow → Text
  | .overflow => "Arithmetic overflow"

/-- The negation of a signed number. -/
def negate (n : Int) : Except Overflow Int :=
  if Text.inInt64 (-n) then .ok (-n) else .error .overflow

/-- The sum of two unsigned numbers. -/
def add (a b : Nat) : Except Overflow Nat :=
  if a + b < 0x10000000000000000 then .ok (a + b) else .error .overflow

end Overflow

/-- The negation of a number, which may have a sign of its own. -/
def Text.readNegated (s : Text) : Except Overflow (Option Int) :=
  match readInteger s with
  | none => .ok none
  | some n => (Overflow.negate n).map some

end GamePatch
