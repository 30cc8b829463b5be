import GamePatch.Bytes
import GamePatch.Text.Basic
import GamePatch.Text.Number
import GamePatch.Text.Utf8

set_option autoImplicit false

namespace GamePatch.Hex

/-- Why a text is not machine code in hexadecimal digits. -/
inductive Error where
  | invalidCharacter (text : Text)
  | oddLength (text : Text)
deriving DecidableEq, Repr

def Error.message : Error → Text
  | .invalidCharacter text => "Invalid hex character in '" ++ text ++ "'"
  | .oddLength text => "Odd number of hex digits in '" ++ text ++ "'"

/-- Nothing but hexadecimal digits and blanks. -/
def isHex (s : Text) : Bool := s.all fun c => Text.isBlank c || Text.isHexDigit c

/-- The digits in upper case, without blanks and without a leading `0x`. -/
def normalize (s : Text) : Text :=
  let body := Text.trim s
  Text.upper (Text.removeBlanks ((Text.hexMarked? body).getD body))

/-- The byte that two digits write. -/
def readByte? (high low : Char) : Option UInt8 :=
  match Text.digitValue? high, Text.digitValue? low with
  | some h, some l => some (UInt8.ofNat (h * 16 + l))
  | _, _ => none

/-- The bytes that pairs of digits write. -/
def readBytes? : Text → Option Bytes
  | [] => some []
  | [_] => none
  | high :: low :: rest =>
    match readByte? high low with
    | some b => (readBytes? rest).map (b :: ·)
    | none => none

/-- The bytes that a text writes. A character that is no digit is reported before an odd number
of digits. -/
def decode (s : Text) : Except Error Bytes :=
  let digits := normalize s
  if !isHex digits then .error (.invalidCharacter (Text.trim s))
  else
    match readBytes? digits with
    | some bytes => .ok bytes
    | none => .error (.oddLength (Text.trim s))

/-- The character of a digit of base sixteen, in upper case. -/
def digit (n : Nat) : Char :=
  if n < 10 then Char.ofNat (48 + n) else Char.ofNat (55 + n)

/-- The two digits of a byte, in upper case. -/
def encodeByte (b : UInt8) : Text := [digit (b.toNat / 16), digit (b.toNat % 16)]

/-- Two upper case digits for each byte. -/
def encode (bytes : Bytes) : Text := bytes.flatMap encodeByte

/-- The eight upper case digits of a word. -/
def encodeWord (w : UInt32) : Text := encode (Bytes.ofWord w)

/-- The number of bytes that a text in hexadecimal digits describes. -/
def byteLength (s : Text) : Nat := Text.byteLength (normalize s) / 2

/-- The digits in groups of eight, and eight groups to a line. Groups are cut in the UTF-8 form,
and one that cuts a character in two is left out. -/
def formatWords (s : Text) : Text :=
  let groups := (chunks 8 (Text.encodeUtf8 (normalize s))).filterMap Text.decodeUtf8?
  Text.joinLines ((chunks 8 groups).map (Text.join [' ']))

/-- An address as `0x` and at least eight lower case digits. -/
def address (n : Nat) : Text := "0x" ++ Text.zeroPad 8 (Text.hexLower n)

/-- Rows of `stride` bytes in groups of four, each after the address of its first byte. A row
cannot be empty, so there is no dump of some bytes with a stride of zero. -/
def dump? (code : Bytes) (start stride : Nat) : Option Text :=
  if stride = 0 && !code.isEmpty then none
  else
    some <| code.zipIdx.flatMap fun (b, ix) =>
      (if ix % stride = 0 then
        (if ix = 0 then [] else ['\n']) ++ Text.zeroPad 8 (Text.hexLower (start + ix)) ++ [':']
      else [])
      ++ (if ix % 4 = 0 then [' '] else [])
      ++ Text.lower (encodeByte b)

end GamePatch.Hex
