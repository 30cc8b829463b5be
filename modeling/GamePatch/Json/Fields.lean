import GamePatch.Json.Value

set_option autoImplicit false

namespace GamePatch.Json

/-- The value of a field in an object; none at all if the field is repeated. -/
def field? (entries : List (Text × Json)) (name : Text) : Option (Option Json) :=
  match entries.filter fun entry => entry.1 == name with
  | [] => some none
  | [entry] => some (some entry.2)
  | _ => none

/-- The values of the named fields of a record, in the order of the names. -/
def fields? (names : List Text) : Json → Option (List (Option Json))
  | .object entries => names.mapM (field? entries)
  | .list items =>
    if items.length ≤ names.length then
      some (items.map some ++ List.replicate (names.length - items.length) none)
    else none
  | _ => none

/-- A field that must be there. -/
def required {α : Type} (read : Json → Option α) : Option Json → Option α
  | none => none
  | some value => read value

/-- A field with a value to take where it is left out. -/
def defaulted {α : Type} (default : α) (read : Json → Option α) : Option Json → Option α
  | none => some default
  | some value => read value

/-- A field that may be left out or null. -/
def optional {α : Type} (read : Json → Option α) : Option Json → Option (Option α)
  | none => some none
  | some .null => some none
  | some value => (read value).map some

def asText : Json → Option Text
  | .text s => some s
  | _ => none

def asBool : Json → Option Bool
  | .bool b => some b
  | _ => none

def asList {α : Type} (read : Json → Option α) : Json → Option (List α)
  | .list items => items.mapM read
  | _ => none

/-- The entries of an object as a map. -/
def asMap : Json → Option (List (Text × Json))
  | .object entries => some (mergeEntries entries [])
  | _ => none

/-- An entry that is left out where there is no value. -/
def entry? (name : String) (value : Option Json) : List (Text × Json) :=
  match value with
  | none => []
  | some v => [(name.toList, v)]

end GamePatch.Json
