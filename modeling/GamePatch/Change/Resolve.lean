import GamePatch.Change.Evaluate
import GamePatch.SymbolTable

set_option autoImplicit false

namespace GamePatch.Change

/-- Why the second pass has no result. -/
inductive ResolveError where
  | notEvaluated
  | unallocated (name : Text)
  | optionNotFound (name : Text)
  | optionDoesNotFit (name : Text) (width : Nat)
  | lengthMismatch (expected actual : Nat)
  | invalidHex (error : Hex.Error)
  | toolchain (error : Toolchain.Error)
deriving DecidableEq, Repr

def ResolveError.message : ResolveError → Text
  | .notEvaluated => "Code has not been evaluated"
  | .unallocated name => "Standalone function '" ++ name ++ "' has no address yet"
  | .optionNotFound name => "Configuration option not found: " ++ name
  | .optionDoesNotFit name width =>
    "Value of '" ++ name ++ "' does not fit in " ++ Text.decimal width ++ " byte(s)"
  | .lengthMismatch expected actual =>
    "Re-assembled code is " ++ Text.decimal actual ++ " bytes, expected " ++ Text.decimal expected
  | .invalidHex error => "Invalid pre-processed code: " ++ error.message
  | .toolchain error => error.message

/-- The result of the second pass. -/
inductive Finalized where
  /-- The code, in hexadecimal digits. -/
  | complete (hex : Text)
  /-- Some functions have no address yet. -/
  | pending (hex : Text) (outstanding : List Text)
deriving DecidableEq, Repr

/-- What the second pass has to know. -/
structure Context where
  /-- The address of the change's own code. -/
  installAddress : Address
  symbols : SymbolTable
  options : List Configuration
  includePaths : List Path

namespace Context

/-- The address of a function. -/
def addressOf (c : Context) (name : Text) : Except ResolveError Address :=
  match c.symbols.addressOf? name with
  | some a => .ok a
  | none => .error (.unallocated name)

def option (c : Context) (name : Text) : Except ResolveError Configuration :=
  match Configuration.find? c.options name with
  | some o => .ok o
  | none => .error (.optionNotFound name)

/-- The address of a branch's target. -/
def addressOfTarget (c : Context) : Line.Target → Except ResolveError Address
  | .address a => .ok a
  | .symbol name => c.addressOf name

/-- The result of a sum or a difference, if it is a signed 64-bit number. -/
def checked (n : Int) : Except ResolveError Int :=
  if Text.inInt64 n then .ok n else .error (.toolchain (.branch .overflow))

/-- The address that a branch goes to, its adjustment included. -/
def destination (c : Context) (branch : Line.SpecialBranch) : Except ResolveError Int :=
  match c.addressOfTarget branch.target with
  | .error e => .error e
  | .ok target => checked (target.toNat + branch.adjustment)

/-- How far a branch at an offset of the code goes. -/
def distance (c : Context) (branch : Line.SpecialBranch) (offset : Nat) : Except ResolveError Int :=
  match c.destination branch with
  | .error e => .error e
  | .ok destination =>
    if branch.mnemonic.isAbsolute then .ok destination
    else checked (destination - (c.installAddress.toNat + offset))

/-- The word of a branch at an offset of the code. -/
def branchWord (c : Context) (branch : Line.SpecialBranch) (offset : Nat) :
    Except ResolveError UInt32 :=
  match c.distance branch offset with
  | .error e => .error e
  | .ok distance =>
    match Branch.encode branch.mnemonic distance with
    | .ok word => .ok word
    | .error e => .error (.toolchain (.branch e))

/-- Two signed 64-bit numbers, or-ed together. -/
def orBits (a b : Int) : Int :=
  Int.bmod (((a % 0x10000000000000000).toNat ||| (b % 0x10000000000000000).toNat : Nat) : Int)
    0x10000000000000000

/-- The values of options or-ed together, if all are whole numbers. -/
def combined? (options : List Configuration) : Option Int :=
  (options.mapM fun (o : Configuration) => o.value.int?).map fun values => values.foldl orBits 0

/-- The bytes of options in a width. Several options share the sign of the first. -/
def packOptions? (options : List Configuration) (width : Nat) : Option Bytes :=
  match options with
  | [] => none
  | [o] => o.kind.pack o.value width
  | first :: _ =>
    (combined? options).bind fun n => Configuration.packInt n width first.kind.isSigned

/-- The bytes of the named options in a width. -/
def optionBytes (c : Context) (names : List Text) (width : Nat) : Except ResolveError Bytes := do
  let options ← names.mapM c.option
  if options.isEmpty then .error (.optionNotFound [])
  else
    match packOptions? options width with
    | some bytes => .ok bytes
    | none => .error (.optionDoesNotFit (Text.join ['|'] names) width)

/-- The bytes of the named functions' addresses. -/
def symbolBytes (c : Context) (names : List Text) : Except ResolveError Bytes := do
  let addresses ← names.mapM c.addressOf
  .ok (addresses.flatMap Bytes.ofWord)

def spanBytes (c : Context) (s : Span) : Except ResolveError Bytes :=
  match s.placeholder with
  | .branch branch => (c.branchWord branch s.offset).map Bytes.ofWord
  | .symbols names => c.symbolBytes names
  | .options names => c.optionBytes names s.width

/-- The text of an option's value inside an instruction. -/
def optionText (c : Context) (name : Text) : Except ResolveError Text :=
  (c.option name).map fun o => o.value.write false

/-- The text of a function's address inside an instruction. -/
def symbolText (c : Context) (name : Text) : Except ResolveError Text :=
  (c.addressOf name).map fun a => "0x" ++ Hex.encodeWord a

/-- The functions of the spans that have no address. -/
def outstanding (c : Context) (i : Intermediate) : List Text :=
  i.functions.filter fun name => (c.symbols.addressOf? name).isNone

end Context

/-- The first span on a line and the spans behind it that are also on the line. -/
def spansOnLine (i : Intermediate) (line : Nat) : List Span :=
  i.spans.filter fun s => s.line == line

/-- Directives for the parts of a line of digits, with values for its spans. -/
def segmentDirectives (c : Context) :
    List Span → List Line.Segment → Except ResolveError (List Text)
  | _, [] => .ok []
  | spans, .hex digits :: rest =>
    match Hex.decode digits with
    | .error e => .error (.invalidHex e)
    | .ok bytes => do
      let more ← segmentDirectives c spans rest
      .ok (dataDirectives bytes ++ more)
  | [], _ :: _ => .error .notEvaluated
  | s :: spans, _ :: rest => do
    let bytes ← c.spanBytes s
    let more ← segmentDirectives c spans rest
    .ok (dataDirectives bytes ++ more)

/-- The line of a span with values in it. -/
def resolvedLine (c : Context) (s : Span) : Except ResolveError Text :=
  match s.placeholder with
  | .branch branch => (c.branchWord branch s.offset).map fun w => ".long 0x" ++ Hex.encodeWord w
  | _ => substitute c.symbolText c.optionText s.text

/-- The lines for the line of code with the index `ix`, with values in them. -/
def resolvedLines (c : Context) (i : Intermediate) (ix : Nat) (line : Text) :
    Except ResolveError (List Text) :=
  match Line.classify line, spansOnLine i ix with
  | .hex segments, spans => segmentDirectives c spans segments
  | .overflow, _ => .error (.toolchain (.branch .overflow))
  | _, [] => .ok [line]
  | _, s :: _ => (resolvedLine c s).map fun line => [line]

/-- The source with values for all spans, from the line with the index `ix` on. -/
def resolvedSource (c : Context) (i : Intermediate) : Nat → List Text →
    Except ResolveError (List Text)
  | _, [] => .ok []
  | ix, line :: rest => do
    let first ← resolvedLines c i ix line
    let more ← resolvedSource c i (ix + 1) rest
    .ok (first ++ more)

/-- Whether a value stands inside an instruction. -/
def needsReassembly (i : Intermediate) (lines : List Text) : Except Overflow Bool :=
  if i.isAssembly then
    Line.anyAssembly ((i.spans.filter fun s => !s.placeholder.isBranch).filterMap fun s =>
      lines[s.line]?.map Line.classify)
  else .ok false

/-- The bytes with the values of spans in their places. -/
def fillSpans (c : Context) : Bytes → List Span → Except ResolveError Bytes
  | bytes, [] => .ok bytes
  | bytes, s :: rest =>
    match c.spanBytes s with
    | .error e => .error e
    | .ok value =>
      if value.length ≠ s.width || bytes.length < s.stop then
        .error (.optionDoesNotFit s.text s.width)
      else fillSpans c (bytes.splice s.offset value) rest

/-- The code with the values of its spans in their places. -/
def fill (c : Context) (i : Intermediate) : Except ResolveError Finalized :=
  match Hex.decode i.hex with
  | .error e => .error (.invalidHex e)
  | .ok bytes => (fillSpans c bytes i.spans).map fun bytes => .complete (Hex.encode bytes)

/-- The code from the assembler's reply to the source with all values. -/
def ofSecondReply (i : Intermediate) (reply : Toolchain.Reply) : Except ResolveError Finalized :=
  match reply with
  | .error e => .error (.toolchain e)
  | .ok assembly =>
    if assembly.bytes.length ≠ i.length then
      .error (.lengthMismatch i.length assembly.bytes.length)
    else .ok (.complete (Hex.encode assembly.bytes))

/-- The second pass for code whose first pass gave `i`. -/
def resolveCode (c : Context) (i : Intermediate) (code : Text) :
    Assembling (Except ResolveError Finalized) :=
  let lines := Text.lines code
  if !(c.outstanding i).isEmpty then .done (.ok (.pending i.hex (c.outstanding i)))
  else
    match needsReassembly i lines with
    | .error _ => .done (.error (.toolchain (.branch .overflow)))
    | .ok false => .done (fill c i)
    | .ok true =>
      match resolvedSource c i 0 lines with
      | .error e => .done (.error e)
      | .ok source =>
        .ask (Text.joinLines source) c.includePaths fun reply => .done (ofSecondReply i reply)

end GamePatch.Change
