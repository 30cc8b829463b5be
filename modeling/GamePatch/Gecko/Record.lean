import GamePatch.Address
import GamePatch.Bytes

set_option autoImplicit false

namespace GamePatch

/-- One Gecko code. -/
inductive GeckoRecord where
  /-- Bytes written at an address. -/
  | write (address : Address) (bytes : Bytes)
  /-- Code that a branch at an address leads to, and that returns behind it. -/
  | inject (address : Address) (code : Bytes)
  /-- Lines as they are. -/
  | raw (bytes : Bytes)
deriving DecidableEq, Repr

namespace GeckoRecord

/-- The first word of a code. -/
def addressWord (type : Nat) (address : Address) : Bytes :=
  Bytes.bigEndian 4 (type * 0x1000000 ||| address.toNat % 0x2000000)

/-- The instruction that does nothing. -/
def nop : Bytes := [0x60, 0, 0, 0]

/-- The code of an injection as its lines hold it: whole words, a filler if they are even in
number, and a zero word at the end. -/
def injectPayload (code : Bytes) : Bytes :=
  let words := Bytes.padTo 4 code
  (if words.length % 8 = 0 then words ++ nop else words) ++ Bytes.zeros 4

/-- The bytes of a code's lines. -/
def toBytes : GeckoRecord → Bytes
  | .write address [b] => addressWord 0x00 address ++ [0, 0, 0, b]
  | .write address [a, b] => addressWord 0x02 address ++ [0, 0, a, b]
  | .write address [a, b, c, d] => addressWord 0x04 address ++ [a, b, c, d]
  | .write address bytes =>
    Bytes.padTo 8 (addressWord 0x06 address ++ Bytes.bigEndian 4 bytes.length ++ bytes)
  | .inject address code =>
    let payload := injectPayload code
    addressWord 0xC2 address ++ Bytes.bigEndian 4 (payload.length / 8) ++ payload
  | .raw bytes => bytes

def lineText (line : Bytes) : Text :=
  if line.length > 4 then Hex.encode (line.take 4) ++ [' '] ++ Hex.encode (line.drop 4)
  else Hex.encode line

/-- The lines of a code, two words each. -/
def toText (r : GeckoRecord) : Text := Text.joinLines ((chunks 8 r.toBytes).map lineText)

/-- The first line of a GCT file. -/
def gctHeader : Bytes := [0x00, 0xD0, 0xC0, 0xDE, 0x00, 0xD0, 0xC0, 0xDE]

/-- The last line of a GCT file. -/
def gctFooter : Bytes := [0xF0, 0, 0, 0, 0, 0, 0, 0]

/-- A GCT file with codes. -/
def toGct (records : List GeckoRecord) : Bytes :=
  gctHeader ++ records.flatMap toBytes ++ gctFooter

end GeckoRecord

end GamePatch
