import GamePatch.Change.Basic
import GamePatch.Gecko.Record

set_option autoImplicit false

namespace GamePatch

namespace GeckoLine

/-- A line of two words. -/
structure Pair where
  first : UInt32
  second : UInt32
deriving DecidableEq, Repr

/-- Two words of eight digits. -/
def readPair (digits : Text) : Option Pair :=
  match Text.readNat32 16 (digits.take 8), Text.readNat32 16 (digits.drop 8) with
  | some first, some second => some ⟨UInt32.ofNat first, UInt32.ofNat second⟩
  | _, _ => none

/-- The words of a line without its comment. -/
def read? (text : Text) : Option Pair :=
  let digits := Hex.normalize text
  if digits.length = 16 && Hex.isHex digits then readPair digits else none

/-- The lines of a block, comments and blank lines left out; or the first bad line. -/
def readAll (code : Text) : Except Text (List Pair) :=
  ((Text.lines code).filter fun line => !(Line.stripComment line).isEmpty).mapM fun line =>
    match read? (Line.stripComment line) with
    | some pair => .ok pair
    | none => .error (Text.trim line)

def Pair.bytes (p : Pair) : Bytes := Bytes.ofWord p.first ++ Bytes.ofWord p.second

def Pair.write (p : Pair) : Text := Hex.encodeWord p.first ++ [' '] ++ Hex.encodeWord p.second

def payload (lines : List Pair) : Bytes := lines.flatMap Pair.bytes

/-- The type of a code, in which the lowest bit belongs to the address. -/
def Pair.type (p : Pair) : Nat := p.first.toNat / 0x2000000 * 2

/-- The address of a code. -/
def Pair.address (p : Pair) : Address := UInt32.ofNat (Address.ramStart + p.first.toNat % 0x2000000)

end GeckoLine

namespace GeckoRecord

open GeckoLine (Pair)

/-- The code of an injection without its zero word at the end and its filler. -/
def codeOfPayload (payload : Bytes) : Bytes :=
  let code :=
    if payload.drop (payload.length - 4) = Bytes.zeros 4 then payload.take (payload.length - 4)
    else payload
  if code.length % 8 = 4 && code.drop (code.length - 4) = nop then code.take (code.length - 4)
  else code

/-- The codes of a block. None if it has a code of another type, and an error with the first line
of a code whose lines are not all there. -/
def readLines : List Pair → Except Pair (Option (List GeckoRecord))
  | [] => .ok (some [])
  | p :: rest =>
    let second := p.second.toNat
    let more (record : GeckoRecord) (count : Nat) : Except Pair (Option (List GeckoRecord)) :=
      (readLines (rest.drop count)).map fun records => records.map (record :: ·)
    if p.type = 0x00 && second < 0x10000 then
      more (.write p.address [UInt8.ofNat second]) 0
    else if p.type = 0x02 && second < 0x10000 then
      more (.write p.address (Bytes.bigEndian 2 second)) 0
    else if p.type = 0x04 then more (.write p.address (Bytes.bigEndian 4 second)) 0
    else if p.type = 0x06 then
      let count := (second + 7) / 8
      if rest.length < count then .error p
      else more (.write p.address ((GeckoLine.payload (rest.take count)).take second)) count
    else if p.type = 0xC2 then
      if rest.length < second then .error p
      else more (.inject p.address (codeOfPayload (GeckoLine.payload (rest.take second)))) second
    else .ok none
termination_by lines => lines.length
decreasing_by simp only [List.length_cons, List.length_drop]; omega

/-- The records with a write in front, which takes in the write that follows on it. -/
def mergeInto (first : GeckoRecord) (records : List GeckoRecord) : List GeckoRecord :=
  match first, records with
  | .write address bytes, .write next more :: rest =>
    if address.toNat + bytes.length = next.toNat then .write address (bytes ++ more) :: rest
    else first :: records
  | _, _ => first :: records

/-- The records with each run of writes that follow on each other as one. -/
def mergeWrites (records : List GeckoRecord) : List GeckoRecord :=
  records.foldr mergeInto []

def targetOf (address : Address) : Text := "0x" ++ Hex.encodeWord address

def toChange : GeckoRecord → Change
  | .write address bytes =>
    Change.new .overwrite (targetOf address) (Hex.formatWords (Hex.encode bytes))
  | .inject address code =>
    Change.new .injection (targetOf address) (Hex.formatWords (Hex.encode code))
  | .raw bytes => Change.new .gecko [] (Hex.formatWords (Hex.encode bytes))

/-- The changes of a block of Gecko lines, or the first line that is wrong. -/
def parse (code : Text) : Except Text (List Change) :=
  match GeckoLine.readAll code with
  | .error line => .error line
  | .ok lines =>
    match readLines lines with
    | .error p => .error p.write
    | .ok none => .ok [Change.new .gecko [] (Text.trim code)]
    | .ok (some records) => .ok ((mergeWrites records).map toChange)

end GeckoRecord

end GamePatch
