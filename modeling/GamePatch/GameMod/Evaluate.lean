import GamePatch.GameMod.Basic
import GamePatch.GameMod.Conflict

set_option autoImplicit false

namespace GamePatch.GameMod

/-- A change that could not be evaluated, and why. -/
structure Failure where
  change : Text
  error : Change.EvaluateError
deriving DecidableEq, Repr

/-- The changes after the first pass, and those that failed. -/
def evaluateChanges (includes : Includes) (options : List Configuration) :
    List Change → Assembling (List Change × List Failure)
  | [] => pure ([], [])
  | c :: rest => do
    let (result, c) ← c.evaluate includes (some options)
    let (changes, failures) ← evaluateChanges includes options rest
    match result with
    | .ok () => pure (c :: changes, failures)
    | .error e => pure (c :: changes, ⟨c.describe, e⟩ :: failures)

/-- The revisions after the first pass over their changes. -/
def evaluateRevisions (includes : Includes) (options : List Configuration) :
    List Revision → Assembling (List Revision × List Failure)
  | [] => pure ([], [])
  | r :: rest => do
    let (changes, failures) ← evaluateChanges includes options r.changes
    let (revisions, more) ← evaluateRevisions includes options rest
    pure ({ r with changes := changes } :: revisions, failures ++ more)

/-- The mod with failures of the first pass. -/
def recordFailures (m : GameMod) (failures : List Failure) : GameMod :=
  failures.foldl
    (fun m f => m.recordError (f.change ++ ": " ++ f.error.message) f.error.isAssemblyError) m

/-- The mod after the first pass over all changes. -/
def evaluate (isFile : Path → Bool) (m : GameMod) : Assembling GameMod := do
  let (revisions, failures) ← evaluateRevisions ⟨isFile, m.includePaths⟩ m.options m.revisions
  pure ({ m with revisions := revisions }.recordFailures failures)

/-- What the second pass has to know of the mod. -/
def context (m : GameMod) (symbols : SymbolTable) (installAddress : Address) : Change.Context :=
  { installAddress := installAddress
    symbols := symbols
    options := m.options
    includePaths := m.includePaths }

def change? (m : GameMod) (revision : Text) (index : Nat) : Option Change :=
  (m.revision? revision).bind fun r => r.changes[index]?

/-- The mod with another change in the place of one of a revision. -/
def replaceChange (m : GameMod) (revision : Text) (index : Nat) (change : Change) : GameMod :=
  { m with
    revisions := mapRevision revision
      (fun r => { r with changes := r.changes.set index change }) m.revisions }

/-- The second pass for a change that is installed at an address, and the mod after it. -/
def finalize (m : GameMod) (revision : Text) (index : Nat) (installAddress : Address)
    (symbols : SymbolTable) :
    Assembling (Except Change.ResolveError Change.Finalized × GameMod) :=
  match m.change? revision index with
  | none => pure (.error .notEvaluated, m)
  | some c => do
    let (result, c) ← c.finalize (m.context symbols installAddress)
    let m := m.replaceChange revision index c
    match result with
    | .ok f => pure (.ok f, m)
    | .error e => pure (.error e, m.recordError (c.describe ++ ": " ++ e.message) true)

/-- The number of bytes that a change writes. An injection writes a branch. -/
def writtenLength? (c : Change) : Option Nat :=
  match c.kind with
  | .gecko => none
  | .injection => some 4
  | _ => c.length?

/-- The region that a change writes, or none while its address or its length is not known. -/
def region? (image : GameImage) (symbols : SymbolTable) (c : Change) :
    Except Address.Error (Option Region) :=
  match c.kind with
  | .gecko => .ok none
  | kind =>
    match c.installAddress image symbols with
    | .error e => .error e
    | .ok address =>
      match address, writtenLength? c with
      | some a, some length => .ok (some ⟨kind, c.target, a, length⟩)
      | _, _ => .ok none

/-- The regions of changes with the vanilla code that each expects, and the messages for changes
that have no place. -/
def regions (image : GameImage) (symbols : SymbolTable) :
    List Change → List (Region × Option Text) × List Text
  | [] => ([], [])
  | c :: rest =>
    let (found, failures) := regions image symbols rest
    match region? image symbols c with
    | .error e => (found, (c.describe ++ ": " ++ e.message) :: failures)
    | .ok none => (found, failures)
    | .ok (some r) => ((r, c.vanilla) :: found, failures)

/-- The conflict of a change whose vanilla code is not what the game has at its place. -/
def mismatch? (image : GameImage) (r : Region) (vanilla : Option Text) : Option Conflict :=
  match vanilla with
  | none => none
  | some vanilla =>
    match image.vanillaBytes r.address (Hex.byteLength vanilla) with
    | none => none
    | some actual =>
      if Hex.encode actual = vanilla then none else some ⟨.vanillaMismatch, r, none⟩

/-- The conflicts of the changes for a revision, and the mod with the errors that they are. -/
def assessConflicts (m : GameMod) (revision : Text) (image : GameImage) (symbols : SymbolTable) :
    Except Overflow (List Conflict × GameMod) := do
  let (found, failures) := regions image symbols (m.changesFor revision)
  let overlaps ← Region.overlaps (found.map Prod.fst)
  let conflicts := found.filterMap (fun (r, vanilla) => mismatch? image r vanilla) ++ overlaps
  .ok (conflicts, (m.recordErrors failures false).recordErrors (conflicts.map Conflict.write) false)

end GamePatch.GameMod
