import GamePatch.Bytes
import GamePatch.Text.Basic

set_option autoImplicit false

namespace GamePatch

namespace Text

def encodeUtf8 (s : Text) : Bytes := s.flatMap String.utf8EncodeChar

def byteLength (s : Text) : Nat := (encodeUtf8 s).length

/-- A byte of the form `10xxxxxx`. -/
def isContinuation (b : UInt8) : Bool := 0x80 ≤ b && b ≤ 0xBF

/-- The bytes that may follow a lead byte, and how many continuation bytes there are in all. -/
def leadRange (b : UInt8) : Option (UInt8 × UInt8 × Nat) :=
  if 0xC2 ≤ b && b ≤ 0xDF then some (0x80, 0xBF, 1)
  else if b == 0xE0 then some (0xA0, 0xBF, 2)
  else if b == 0xED then some (0x80, 0x9F, 2)
  else if 0xE1 ≤ b && b ≤ 0xEF then some (0x80, 0xBF, 2)
  else if b == 0xF0 then some (0x90, 0xBF, 3)
  else if 0xF1 ≤ b && b ≤ 0xF3 then some (0x80, 0xBF, 3)
  else if b == 0xF4 then some (0x80, 0x8F, 3)
  else none

/-- The bits of a lead byte that belong to the code point. -/
def leadBits (b : UInt8) (continuations : Nat) : Nat :=
  b.toNat % 1 <<< (6 - continuations)

/-- The character at the start of `b :: rest`, or none, and how many bytes of `rest` belong to
it, or to the part that could have begun one. -/
def decodeChar (b : UInt8) (rest : Bytes) : Option Char × Nat :=
  if b < 0x80 then (some (Char.ofNat b.toNat), 0)
  else
    match leadRange b with
    | none => (none, 0)
    | some (low, high, count) =>
      match rest with
      | [] => (none, 0)
      | second :: more =>
        if low ≤ second && second ≤ high then
          let tail := (more.take (count - 1)).takeWhile isContinuation
          if tail.length = count - 1 then
            let value := (second :: tail).foldl (fun n c => n * 64 + c.toNat % 64)
              (leadBits b count)
            (some (Char.ofNat value), count)
          else (none, 1 + tail.length)
        else (none, 0)

/-- The text whose UTF-8 form this is. -/
def decodeUtf8? : Bytes → Option Text
  | [] => some []
  | b :: rest =>
    match decodeChar b rest with
    | (some c, used) => (decodeUtf8? (rest.drop used)).map (c :: ·)
    | (none, _) => none
termination_by bytes => bytes.length
decreasing_by simp only [List.length_cons, List.length_drop]; omega

/-- The text, with `U+FFFD` for what is not UTF-8. -/
def decodeUtf8Lossy : Bytes → Text
  | [] => []
  | b :: rest =>
    let (c?, used) := decodeChar b rest
    c?.getD '\uFFFD' :: decodeUtf8Lossy (rest.drop used)
termination_by bytes => bytes.length
decreasing_by simp only [List.length_cons, List.length_drop]; omega

end Text

end GamePatch
