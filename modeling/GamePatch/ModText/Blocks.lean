import GamePatch.Text.Basic

set_option autoImplicit false

namespace GamePatch.ModText

/-- What stands on a line between two mods. -/
def separator : Text := "-==-"

def isSeparator (line : Text) : Bool := Text.trim line == separator

def blocks (text : Text) : List Text :=
  (((Text.splitInclusive text).splitOnP isSeparator).map List.flatten).filter fun block =>
    !Text.isAllBlank block

/-- A file with the texts of mods as its blocks. -/
def joinBlocks (texts : List Text) : Text := Text.join (separator ++ ['\n']) texts

end GamePatch.ModText
