import GamePatch.SymbolTable

set_option autoImplicit false

namespace GamePatch

inductive ParseError where
  | missingTitle
  | invalidHeader (line : Text)
  /-- Code that no header stands above. -/
  | orphanCode (code : Text)
  | invalidGecko (line : Text)
  | unreadable (path cause : Text)
  | invalidJson (path : Text)
  | missingSourceFile (path : Text)
  | missingAddress (path : Text)
  /-- An entry of a build list without something that its type needs. -/
  | missingField (entry field : Text)
  | symbol (error : Symbol.Error)
deriving DecidableEq, Repr

def ParseError.message : ParseError → Text
  | .missingTitle => "Mod has no title"
  | .invalidHeader line => "Invalid change header: " ++ line
  | .orphanCode code => "Code outside of a change: " ++ code
  | .invalidGecko line => "Invalid Gecko code line: " ++ line
  | .unreadable path cause => "Unable to read " ++ path ++ ": " ++ cause
  | .invalidJson path => "Invalid JSON in " ++ path
  | .missingSourceFile path => "Source file not found: " ++ path
  | .missingAddress path => "No address given for " ++ path
  | .missingField entry field => "Build entry '" ++ entry ++ "' is missing '" ++ field ++ "'"
  | .symbol error => error.message

end GamePatch
