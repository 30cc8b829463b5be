import GamePatch.Address
import GamePatch.Line.Kind

set_option autoImplicit false

namespace GamePatch

/-- A standalone function. -/
structure Symbol where
  name : Text
  /-- The mod that defined the function. -/
  owner : Text
  code : Text
  /-- The address of the function once it has been placed. -/
  address : Option Address
deriving DecidableEq, Repr

/-- The functions that are known, in order of definition. -/
abbrev SymbolTable := List Symbol

namespace Symbol

def write (s : Symbol) : Text :=
  match s.address with
  | some a => "<" ++ s.name ++ "> @ " ++ Hex.address a.toNat ++ " (" ++ s.owner ++ ")"
  | none => "<" ++ s.name ++ "> unallocated (" ++ s.owner ++ ")"

/-- Why a function cannot be used or defined. -/
inductive Error where
  | notFound (name : Text)
  | alreadyDefined (name owner : Text)
  | undefined (name referrer : Text)
  /-- The program ends at the code of a function. -/
  | overflow
deriving DecidableEq, Repr

def Error.message : Error → Text
  | .notFound name => "Symbol not found: " ++ name
  | .alreadyDefined name owner =>
    "Standalone function '" ++ name ++ "' is already defined differently by '" ++ owner ++ "'"
  | .undefined name referrer =>
    "Standalone function '" ++ name ++ "' is referenced by '" ++ referrer ++ "' but never defined"
  | .overflow => Overflow.message .overflow

end Symbol

/-- The code without comments and blank lines. -/
def Code.normalize (code : Text) : Text :=
  Text.joinLines (((Text.lines code).map Line.stripComment).filter fun line => !line.isEmpty)

namespace SymbolTable

def find? (table : SymbolTable) (name : Text) : Option Symbol :=
  List.find? (fun s => s.name == name) table

/-- The definition of a function, and the table after it. A known function must have the same
code. -/
def define (table : SymbolTable) (s : Symbol) : Except Symbol.Error Unit × SymbolTable :=
  match table.find? s.name with
  | none => (.ok (), table ++ [s])
  | some known =>
    if Code.normalize known.code = Code.normalize s.code then (.ok (), table)
    else (.error (.alreadyDefined s.name known.owner), table)

/-- The table with the first function of a name placed at an address. -/
def place (name : Text) (address : Address) : SymbolTable → Option SymbolTable
  | [] => none
  | s :: rest =>
    if s.name = name then some ({ s with address := some address } :: rest)
    else (place name address rest).map (s :: ·)

/-- The placement of a known function, and the table after it. -/
def allocate (table : SymbolTable) (name : Text) (address : Address) :
    Except Symbol.Error Unit × SymbolTable :=
  match place name address table with
  | some placed => (.ok (), placed)
  | none => (.error (.notFound name), table)

def addressOf? (table : SymbolTable) (name : Text) : Option Address :=
  (table.find? name).bind Symbol.address

/-- The functions that the code of a function refers to. -/
def dependencies (table : SymbolTable) (name : Text) : Except Overflow (List Text) :=
  match table.find? name with
  | some s => Code.referencedFunctions s.code
  | none => .ok []

/-- The functions whose names are not among those done. -/
def remaining (table : SymbolTable) (done : List Text) : List Symbol :=
  table.filter fun s => !done.contains s.name

theorem remaining_append (table : SymbolTable) (done : List Text) (name : Text) :
    table.remaining (done ++ [name]) = (table.remaining done).filter fun s => s.name != name := by
  simp only [remaining, List.filter_filter]
  congr 1
  funext t
  by_cases h : t.name = name <;> simp [h, bne_iff_ne]

theorem mem_remaining (table : SymbolTable) (done : List Text) (name : Text) (s : Symbol)
    (known : table.find? name = some s) (fresh : done.contains name = false) :
    s ∈ table.remaining done ∧ s.name = name := by
  have mem : s ∈ table := List.mem_of_find?_eq_some known
  have named : s.name = name := by
    have := List.find?_some known
    simpa using this
  refine ⟨?_, named⟩
  simp [remaining, mem, named]
  simpa using fresh

theorem remaining_length_lt (table : SymbolTable) (done : List Text) (name : Text) (s : Symbol)
    (known : table.find? name = some s) (fresh : done.contains name = false) :
    (table.remaining (done ++ [name])).length < (table.remaining done).length := by
  obtain ⟨mem, named⟩ := mem_remaining table done name s known fresh
  rw [remaining_append]
  exact List.length_filter_lt_length_iff_exists.mpr ⟨s, mem, by simp [named]⟩

/-- Adds the functions on a stack, and those that they refer to, to the ones that are done. -/
def closureFrom (table : SymbolTable) (referrer : Text) (done : List Text) :
    List Text → Except Symbol.Error (List Text)
  | [] => .ok done
  | name :: stack =>
    if _fresh : done.contains name then closureFrom table referrer done stack
    else
      match _known : table.find? name with
      | none => .error (.undefined name referrer)
      | some _ =>
        match table.dependencies name with
        | .error _ => .error .overflow
        | .ok names => closureFrom table referrer (done ++ [name]) (names ++ stack)
termination_by stack => ((table.remaining done).length, stack.length)
decreasing_by
  · exact Prod.Lex.right _ (by simp)
  · exact Prod.Lex.left _ _ (remaining_length_lt table done name _ _known (by simpa using _fresh))

/-- All functions that are needed for some roots, the roots included: the last root first, and
behind each function what it refers to. The referrer is named where one is not defined. -/
def closure (table : SymbolTable) (roots : List Text) (referrer : Text) :
    Except Symbol.Error (List Text) :=
  table.closureFrom referrer [] roots.reverse

end SymbolTable

end GamePatch
