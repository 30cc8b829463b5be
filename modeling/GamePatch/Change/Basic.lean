import GamePatch.Change.Resolve

set_option autoImplicit false

namespace GamePatch

/-- How a change gets into the game. -/
inductive ChangeKind where
  /-- Bytes written over those at an address. -/
  | overwrite
  /-- Code that a branch at an address leads to. -/
  | injection
  /-- A function of its own. -/
  | standalone
  /-- Lines of a Gecko code. -/
  | gecko
deriving DecidableEq, Repr

def ChangeKind.name : ChangeKind → Text
  | .overwrite => "static"
  | .injection => "injection"
  | .standalone => "standalone"
  | .gecko => "gecko"

/-- One change of a mod. -/
structure Change where
  kind : ChangeKind
  /-- The place of the change, or the name of a standalone function. -/
  target : Text
  code : Text
  /-- A remark above the code. -/
  note : Option Text
  /-- The code of the unchanged game at the place, in hexadecimal digits. -/
  vanilla : Option Text
  /-- The file that the code was read from, as seen from the directory of the mod. -/
  sourceFile : Option Path
  /-- The result of the first pass. -/
  evaluated : Option Change.Intermediate
  /-- The code after the second pass, in hexadecimal digits. -/
  finished : Option Text
deriving DecidableEq, Repr

namespace Change

/-- A change that has not been evaluated. -/
def new (kind : ChangeKind) (target code : Text) : Change :=
  { kind := kind
    target := Text.trim target
    code := code
    note := none
    vanilla := none
    sourceFile := none
    evaluated := none
    finished := none }

/-- The kind and the target, as errors name a change. -/
def describe (c : Change) : Text := c.kind.name ++ [' '] ++ c.target

/-- The length of the finished code. -/
def length? (c : Change) : Option Nat := c.evaluated.map Intermediate.length

/-- The first pass of a change, and the change after it. -/
def evaluate (includes : Includes) (options : KnownOptions) (c : Change) :
    Assembling (Except EvaluateError Unit × Change) := do
  match ← evaluateCode includes options c.code with
  | .error e => pure (.error e, c)
  | .ok i => pure (.ok (), { c with evaluated := some i, finished := none })

/-- The second pass of a change, without a change to the change. -/
def resolve (context : Context) (c : Change) : Assembling (Except ResolveError Finalized) :=
  match c.evaluated with
  | none => .done (.error .notEvaluated)
  | some i => resolveCode context i c.code

/-- The change with the result of its second pass. -/
def keep (c : Change) : Finalized → Change
  | .complete hex => { c with finished := some hex }
  | .pending .. => c

/-- The second pass of a change, and the change after it. -/
def finalize (context : Context) (c : Change) :
    Assembling (Except ResolveError Finalized × Change) := do
  match ← c.resolve context with
  | .error e => pure (.error e, c)
  | .ok f => pure (.ok f, c.keep f)

/-- The address of the code that a change goes to. A standalone function has none until it has
been placed, and a Gecko code has none at all. -/
def installAddress (image : GameImage) (symbols : SymbolTable) (c : Change) :
    Except Address.Error (Option Address) :=
  match c.kind with
  | .standalone => .ok (symbols.addressOf? c.target)
  | .gecko => .ok none
  | _ => (image.locate c.target).map some

end Change

end GamePatch
