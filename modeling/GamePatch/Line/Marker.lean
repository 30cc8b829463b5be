import GamePatch.Text.Basic

set_option autoImplicit false

namespace GamePatch.Line

def beforeComment : Text → Text
  | [] => []
  | '#' :: _ => []
  | '/' :: '/' :: _ => []
  | c :: r => c :: beforeComment r

/-- The line without its comment and without blanks at its ends. -/
def stripComment (line : Text) : Text := Text.trim (beforeComment line)

/-- A marked name: the text before its opening mark, and the text between the marks. -/
structure Enclosed where
  before : Text
  inner : Text
deriving DecidableEq, Repr

namespace Enclosed

def name (e : Enclosed) : Text := Text.trim e.inner

/-- The first marked name, and what follows it. -/
def first? (opening closing : Text) (s : Text) : Option (Enclosed × Text) :=
  match Text.cut opening s with
  | none => none
  | some (before, rest) =>
    (Text.cut closing rest).map fun (inner, after) => (⟨before, inner⟩, after)

/-- The marked names in order, and what follows the last one. -/
def all (opening closing : Text) (s : Text) : List Enclosed × Text :=
  match first? opening closing s with
  | none => ([], s)
  | some (e, after) =>
    if after.length < s.length then
      let (more, rest) := all opening closing after
      (e :: more, rest)
    else ([], s)
termination_by s.length

/-- The text with the marked names, marks included, replaced by other texts. -/
def replaceIn {ε : Type} (replace : Text → Except ε Text) :
    List Enclosed → Except ε Text
  | [] => .ok []
  | e :: more => do
    let text ← replace e.name
    let rest ← replaceIn replace more
    .ok (e.before ++ text ++ rest)

end Enclosed

/-- The line with each marked name replaced by the text that `replace` gives for it. -/
def replaceEnclosed {ε : Type} (opening closing : Text) (replace : Text → Except ε Text)
    (line : Text) : Except ε Text :=
  let (found, rest) := Enclosed.all opening closing line
  (Enclosed.replaceIn replace found).map fun text => text ++ rest

def symbolOpening : Text := ['<', '<']
def symbolClosing : Text := ['>', '>']
def optionOpening : Text := ['[', '[']
def optionClosing : Text := [']', ']']

/-- The names of the symbol references `<<name>>` on a line. -/
def symbolNames (line : Text) : List Text :=
  (Enclosed.all symbolOpening symbolClosing (stripComment line)).1.map Enclosed.name

/-- The names of the option placeholders `[[name]]` on a line. -/
def optionNames (line : Text) : List Text :=
  (Enclosed.all optionOpening optionClosing (stripComment line)).1.map Enclosed.name

end GamePatch.Line
