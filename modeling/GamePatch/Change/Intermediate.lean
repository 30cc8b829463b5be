import GamePatch.Line.Kind

set_option autoImplicit false

namespace GamePatch.Change

/-- What belongs at a place of the code. -/
inductive Placeholder where
  | branch (branch : Line.SpecialBranch)
  | symbols (names : List Text)
  | options (names : List Text)
deriving DecidableEq, Repr

namespace Placeholder

/-- The functions or options that a placeholder names. -/
def names : Placeholder → List Text
  | .branch ⟨_, .symbol name, _⟩ => [name]
  | .branch _ => []
  | .symbols names => names
  | .options names => names

def isOptions : Placeholder → Bool
  | .options _ => true
  | _ => false

def isBranch : Placeholder → Bool
  | .branch _ => true
  | _ => false

def functions (p : Placeholder) : List Text := if p.isOptions then [] else p.names

/-- What a part of a line of digits stands for, if it does not stand for itself. -/
def ofSegment? : Line.Segment → Option Placeholder
  | .hex _ => none
  | .symbol name => some (.symbols [name])
  | .options names => some (.options names)

end Placeholder

/-- A place of the code that is not known yet. -/
structure Span where
  /-- The offset of its first byte. -/
  offset : Nat
  /-- The number of its bytes. -/
  width : Nat
  placeholder : Placeholder
  /-- The source line without its comment. -/
  text : Text
  /-- The index of the source line. -/
  line : Nat
deriving DecidableEq, Repr

namespace Span

/-- The offset of the first byte behind a span. -/
def stop (s : Span) : Nat := s.offset + s.width

end Span

/-- The result of the first pass. -/
structure Intermediate where
  /-- The code in hexadecimal digits, with zeros at each span. -/
  hex : Text
  spans : List Span
  isAssembly : Bool
deriving DecidableEq, Repr

namespace Intermediate

/-- The length of the code in bytes. -/
def length (i : Intermediate) : Nat := i.hex.length / 2

def addressSpans (i : Intermediate) : List Span := i.spans.filter fun s => !s.placeholder.isOptions

def dependsOnAddress (i : Intermediate) : Bool := !i.addressSpans.isEmpty

/-- The functions that the spans name, in order of first appearance. -/
def functions (i : Intermediate) : List Text :=
  Text.dedup (i.spans.flatMap fun s => s.placeholder.functions)

end Intermediate

end GamePatch.Change
