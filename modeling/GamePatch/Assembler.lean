import GamePatch.Line.Marker
import GamePatch.Toolchain

set_option autoImplicit false

namespace GamePatch.Assembler

open Toolchain (Reply)

/-- What a line stands for. -/
inductive Item where
  | nothing
  | label (name : Text)
  | data (bytes : Bytes)
  | bad (message : Text)
deriving DecidableEq, Repr

/-- Digits without a sign, hexadecimal after `0x`. -/
def readMagnitude (s : Text) : Option Nat :=
  match s with
  | '0' :: 'x' :: digits => Text.readDigits 16 digits
  | _ => Text.readDigits 10 s

/-- A signed 64-bit number. -/
def readNumber (s : Text) : Option Int :=
  (match Text.trim s with
    | '-' :: digits => (readMagnitude digits).map fun n => -(n : Int)
    | digits => (readMagnitude digits).map Int.ofNat).filter Text.inInt64

/-- The 64 bits of numbers with bars between them, or-ed together. -/
def readExpression (s : Text) : Option Nat :=
  ((Text.splitAt '|' s).mapM readNumber).map fun numbers =>
    numbers.foldl (fun bits n => bits ||| (n % 0x10000000000000000).toNat) 0

/-- The number of a register, `r0` to `r31`. -/
def readRegister (s : Text) : Option Nat :=
  match Text.trim s with
  | 'r' :: digits => (Text.readDigits 10 digits).filter fun n => decide (n < 32)
  | _ => none

/-- The 16 bits that an immediate operand takes from a 32-bit value: the low half, or with `@h`
the high half, or with `@ha` the high half that goes with a signed low half. -/
def readImmediate (s : Text) : Option Nat :=
  let s := Text.trim s
  let (body, half) : Text × (Nat → Nat) :=
    match Text.dropTrailing? ['@', 'h', 'a'] s, Text.dropTrailing? ['@', 'h'] s,
      Text.dropTrailing? ['@', 'l'] s with
    | some body, _, _ => (body, fun v => (v + 0x8000) / 0x10000 % 0x10000)
    | _, some body, _ => (body, fun v => v / 0x10000)
    | _, _, some body => (body, fun v => v % 0x10000)
    | _, _, _ => (s, fun v => v % 0x10000)
  (readExpression body).map fun bits => half (bits % 0x100000000)

/-- The bytes of a list of expressions, each in the same width. -/
def dataBytes (width : Nat) (operands : List Text) : Option Bytes :=
  (operands.mapM readExpression).map fun values => values.flatMap (Bytes.bigEndian width)

def instruction (word : Nat) : Bytes := Bytes.bigEndian 4 word

/-- An instruction with two registers, of which the first is in the higher field, and an immediate
value. -/
def immediate (opcode high low value : Nat) : Bytes :=
  instruction (opcode * 0x4000000 + high * 0x200000 + low * 0x10000 + value)

/-- The bytes of a conditional branch over a distance. -/
def conditional (word : Nat) (operands : List Text) : Option Bytes :=
  match operands with
  | [distance] =>
    (readNumber distance).map fun n => instruction (word + (n % 0x10000).toNat / 4 * 4)
  | _ => none

/-- The largest number of zeros that `.space` makes. -/
def maxSpace : Nat := 1024

/-- The bytes of a mnemonic with operands; none for a mnemonic that is not known, and none inside
for operands that it does not take. -/
def encode (mnemonic : Text) (operands : List Text) : Option (Option Bytes) :=
  if mnemonic = ".long".toList then some (dataBytes 4 operands)
  else if mnemonic = ".short".toList then some (dataBytes 2 operands)
  else if mnemonic = ".byte".toList then some (dataBytes 1 operands)
  else if mnemonic = ".space".toList then
    some <|
      match operands with
      | [count] =>
        match readNumber count with
        | some n => if 0 ≤ n && n ≤ (maxSpace : Int) then some (Bytes.zeros n.toNat) else none
        | none => none
      | _ => none
  else if mnemonic = ".include".toList then some (some [])
  else if mnemonic = "nop".toList then
    some (if operands = [[]] then some (instruction 0x60000000) else none)
  else if mnemonic = "blr".toList then
    some (if operands = [[]] then some (instruction 0x4E800020) else none)
  else if mnemonic = "li".toList then
    some <|
      match operands with
      | [d, i] => do some (immediate 14 (← readRegister d) 0 (← readImmediate i))
      | _ => none
  else if mnemonic = "lis".toList then
    some <|
      match operands with
      | [d, i] => do some (immediate 15 (← readRegister d) 0 (← readImmediate i))
      | _ => none
  else if mnemonic = "addi".toList then
    some <|
      match operands with
      | [d, a, i] => do
        some (immediate 14 (← readRegister d) (← readRegister a) (← readImmediate i))
      | _ => none
  else if mnemonic = "ori".toList then
    some <|
      match operands with
      | [a, s, i] => do
        let a ← readRegister a
        let s ← readRegister s
        some (immediate 24 s a (← readImmediate i))
      | _ => none
  else if mnemonic = "beq".toList then some (conditional 0x41820000 operands)
  else if mnemonic = "bne".toList then some (conditional 0x40820000 operands)
  else none

/-- Whether a character may stand in the name of a label. -/
def isLabelChar (c : Char) : Bool := c.isAlphanum || c == '_' || c == '.' || c == '$'

def labelOf? (line : Text) : Option Text :=
  match Text.dropTrailing? [':'] line with
  | none => none
  | some name => if !name.isEmpty && name.all isLabelChar then some name else none

def item (line : Text) : Item :=
  let line := Line.stripComment line
  if line.isEmpty then .nothing
  else
    match labelOf? line with
    | some name => .label name
    | none =>
      let (mnemonic, rest) := (Text.cutWhere (fun c => c == ' ' || c == '\t') line).getD (line, [])
      match encode mnemonic (Text.splitAt ',' (Text.trim rest)) with
      | none => .bad ("Error: unrecognized opcode: `" ++ mnemonic ++ "'")
      | some none => .bad ("Error: bad operands: `" ++ line ++ "'")
      | some (some bytes) => .data bytes

namespace Item

def bytes : Item → Bytes
  | .data bytes => bytes
  | _ => []

/-- The errors among items, of which the first is on line `line`. -/
def errors : Nat → List Item → List Diagnostic
  | _, [] => []
  | line, .bad message :: rest => ⟨some line, message⟩ :: errors (line + 1) rest
  | line, _ :: rest => errors (line + 1) rest

/-- The labels among items, of which the first lies at `offset`, added to others. -/
def labels : Nat → Labels → List Item → Labels
  | _, done, [] => done
  | offset, done, .label name :: rest => labels offset (done.insert name offset) rest
  | offset, done, i :: rest => labels (offset + i.bytes.length) done rest

end Item

/-- The assembly of a source, or the errors of all its bad lines. -/
def assemble (source : Text) : Reply :=
  let items := (Text.lines source).map item
  match Item.errors 1 items with
  | [] => .ok ⟨items.flatMap Item.bytes, Item.labels 0 [] items⟩
  | errors => .error (.assemblyFailed errors)

/-- The assembler as a toolchain. It does not look for included files. -/
def toolchain : Toolchain := ⟨fun source _ => assemble source⟩

end GamePatch.Assembler
