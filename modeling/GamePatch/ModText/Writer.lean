import GamePatch.GameMod.Basic
import GamePatch.ModText.Blocks

set_option autoImplicit false

namespace GamePatch.ModText

/-- The columns of the table of changes. -/
def tableHeader : Text := "Revision ---- DOL Offset ---- Hex to Replace ---------- ASM Code"

/-- The code with its remark above. -/
def codeText (c : Change) : Text :=
  match c.note with
  | some note => "# " ++ note ++ "\n" ++ c.code
  | none => c.code

/-- A row of the table up to its arrow. -/
def rowText (revision : Text) (c : Change) : Text :=
  match c.vanilla with
  | some vanilla => revision ++ " ---- " ++ c.target ++ " ---- " ++ vanilla ++ " ->"
  | none => revision ++ " ---- " ++ c.target ++ " ---- ->"

/-- A change with its header. Code on one line stands on the row of an overwrite. -/
def changeText (revision : Text) (c : Change) : Text :=
  let code := codeText c
  match c.kind with
  | .overwrite =>
    rowText revision c ++ (if !code.isEmpty && !code.any (· == '\n') then [' '] else ['\n']) ++ code
  | .injection => rowText revision c ++ " Branch\n" ++ code
  | .standalone => "<" ++ c.target ++ "> " ++ revision ++ "\n" ++ code
  | .gecko => revision ++ "\n" ++ code

/-- Whether a change has a row of the table. -/
def hasRow (c : Change) : Bool := c.kind == .overwrite || c.kind == .injection

def linkText (link : WebLink) : Text :=
  "<" ++ link.url ++ ">" ++
    match link.comment with
    | some comment => " " ++ comment
    | none => []

/-- An option and its members, each on its line. -/
def optionLines (o : Configuration) : List Text :=
  ("    " ++ o.declaration) :: o.members.map fun m => "        " ++ o.memberLine m

def optionBlock (options : List Configuration) : List Text :=
  if options.isEmpty then [] else "Configurations:".toList :: options.flatMap optionLines

/-- What is above the changes. -/
def topLines (m : GameMod) : List Text :=
  [m.name]
    ++ (if m.description.isEmpty then [] else [m.description])
    ++ m.links.map linkText
    ++ (if m.authors.isEmpty then [] else ["[" ++ Text.join ", " m.authors ++ "]"])
    ++ optionBlock m.options
    ++ (if m.changes.any hasRow then [tableHeader] else [])

def revisionLines (r : Revision) : List Text := r.changes.map (changeText r.label)

def compose (m : GameMod) : Text :=
  Text.joinLines (topLines m ++ m.revisions.flatMap revisionLines) ++ ['\n']

/-- The text of a mod. -/
def write (m : GameMod) : Text := m.sourceText.getD (compose m)

/-- A file with mods. -/
def writeAll (mods : List GameMod) : Text := joinBlocks (mods.map write)

end GamePatch.ModText
