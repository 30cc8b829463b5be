set_option autoImplicit false

namespace GamePatch

/-- A string of bytes. -/
abbrev Bytes := List UInt8

/-- Consecutive parts of `size` elements, of which the last may be shorter. -/
def chunks {α : Type} (size : Nat) : List α → List (List α)
  | [] => []
  | x :: r => (x :: r.take (size - 1)) :: chunks size (r.drop (size - 1))
termination_by l => l.length
decreasing_by simp only [List.length_cons, List.length_drop]; omega

namespace Bytes

def zeros (count : Nat) : Bytes := List.replicate count 0

/-- How many numbers can be written in a number of bytes. -/
def valueCount : Nat → Nat
  | 0 => 1
  | width + 1 => 256 * valueCount width

/-- The low `width` bytes of a number, most significant first. -/
def bigEndian : Nat → Nat → Bytes
  | 0, _ => []
  | width + 1, n => bigEndian width (n / 256) ++ [UInt8.ofNat n]

/-- The number that the bytes write, most significant first. -/
def toNat (bytes : Bytes) : Nat := bytes.foldl (fun n b => n * 256 + b.toNat) 0

/-- The bytes of a word, most significant first. -/
def ofWord (w : UInt32) : Bytes := bigEndian 4 w.toNat

/-- `data` with `part` in place of the bytes from `offset` on. -/
def splice (data : Bytes) (offset : Nat) (part : Bytes) : Bytes :=
  data.take offset ++ part ++ data.drop (offset + part.length)

/-- With zeros at the end up to `length` bytes. -/
def extendTo (length : Nat) (bytes : Bytes) : Bytes := bytes ++ zeros (length - bytes.length)

/-- With zeros at the end up to a multiple of `unit` bytes. -/
def padTo (unit : Nat) (bytes : Bytes) : Bytes :=
  extendTo ((bytes.length + unit - 1) / unit * unit) bytes

end Bytes

end GamePatch
