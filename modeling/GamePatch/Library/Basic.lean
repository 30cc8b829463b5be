import GamePatch.GameMod.Evaluate
import GamePatch.ParseError

set_option autoImplicit false

namespace GamePatch

/-- What is shared by mods. -/
structure Library where
  includePaths : List Path
  symbols : SymbolTable
deriving DecidableEq, Repr

/-- Why there is no library, or why it cannot read a path. -/
inductive LibraryError where
  | toolchain (error : Toolchain.Error)
  | notFound (path : Text)
  | parse (error : ParseError)
  /-- The program ends at the code of a change. -/
  | overflow
deriving DecidableEq, Repr

def LibraryError.message : LibraryError → Text
  | .toolchain error => error.message
  | .notFound path => "Library path not found: " ++ path
  | .parse error => error.message
  | .overflow => Overflow.message .overflow

def ModSource.directory? : ModSource → Option Path
  | .folder directory => some directory
  | .textFile file => file.parent?
  | .assemblyFile file => file.parent?

/-- The paths without those that are the same as the one before. -/
def Path.dedupAdjacent : List Path → List Path
  | [] => []
  | p :: rest => p :: dedupAfter p rest
where
  /-- The paths behind a path. -/
  dedupAfter : Path → List Path → List Path
    | _, [] => []
    | p, q :: rest => if p.same q then dedupAfter p rest else q :: dedupAfter q rest

namespace GameMod

/-- The standalone function of a change. -/
def symbolOf (owner : Text) (c : Change) : Symbol :=
  { name := c.target, owner := owner, code := c.code, address := none }

def standaloneSymbols (m : GameMod) : List Symbol :=
  (m.changes.filter fun c => c.kind == .standalone).map (symbolOf m.name)

end GameMod

namespace SymbolTable

/-- The table with functions of one owner, and why some are refused. A function that the owner has
defined before stays as it is. -/
def defineAll (table : SymbolTable) : List Symbol → SymbolTable × List Symbol.Error
  | [] => (table, [])
  | s :: rest =>
    if (table.find? s.name).any fun known => known.owner == s.owner then defineAll table rest
    else
      let (result, table) := table.define s
      let (table, errors) := defineAll table rest
      match result with
      | .ok () => (table, errors)
      | .error e => (table, e :: errors)

end SymbolTable

namespace Library

/-- A library without mods. -/
def empty (includePaths : List Path) : Library := ⟨includePaths, []⟩

/-- Where a mod of the library looks for included files. -/
def searchPaths (l : Library) (root : Option Path) (m : GameMod) : List Path :=
  Path.dedupAdjacent
    ((m.source.bind ModSource.directory?).toList ++ root.toList ++ l.includePaths)

/-- The functions that a mod needs, those that they need included. -/
def requiredFunctions (l : Library) (m : GameMod) : Except Symbol.Error (List Text) :=
  match m.referencedFunctions with
  | .error _ => .error .overflow
  | .ok roots => l.symbols.closure roots m.name

/-- The library with the functions of a mod, and the mod with what is wrong with them. -/
def define (l : Library) (root : Option Path) (m : GameMod) : Library × GameMod :=
  let (symbols, errors) := l.symbols.defineAll m.standaloneSymbols
  ({ l with symbols := symbols },
    { m with includePaths := l.searchPaths root m }.recordErrors (errors.map Symbol.Error.message)
      false)

/-- The library with the functions of mods. -/
def defineAll (l : Library) (root : Option Path) : List GameMod → Library × List GameMod
  | [] => (l, [])
  | m :: rest =>
    let (l, m) := l.define root m
    let (l, rest) := l.defineAll root rest
    (l, m :: rest)

/-- The mod with an error if a function that it needs is not defined. -/
def checkFunctions (l : Library) (m : GameMod) : Except Overflow GameMod :=
  match l.requiredFunctions m with
  | .ok _ => .ok m
  | .error .overflow => .error .overflow
  | .error e => .ok (m.recordError e.message false)

/-- The library with mods, and the mods with what is wrong with their functions. -/
def register (l : Library) (root : Option Path) (mods : List GameMod) :
    Except Overflow (Library × List GameMod) :=
  let (l, mods) := l.defineAll root mods
  (mods.mapM l.checkFunctions).map fun mods => (l, mods)

/-- The mods after the first pass over all changes. -/
def evaluate (isFile : Path → Bool) (mods : List GameMod) : Assembling (List GameMod) :=
  mods.mapM (GameMod.evaluate isFile)

end Library

end GamePatch
