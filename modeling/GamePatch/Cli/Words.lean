import GamePatch.Text.Basic

set_option autoImplicit false

namespace GamePatch.Cli

/-- Why a command line is not run. -/
inductive Stop where
  /-- It is not understood. -/
  | misused
  /-- It asks for help. -/
  | help
  /-- It asks for the version of a program. -/
  | version (program : Text)
deriving DecidableEq, Repr

/-- What an option does. -/
inductive Effect where
  | flag
  /-- A flag that may be repeated. -/
  | counter
  /-- Takes a value. -/
  | value (accepts : Text → Bool)
  /-- Takes a value, and may be repeated. -/
  | values (accepts : Text → Bool)
  | stop (reason : Stop)

namespace Effect

def takesValue : Effect → Bool
  | .value _ => true
  | .values _ => true
  | _ => false

def isRepeatable : Effect → Bool
  | .counter => true
  | .values _ => true
  | _ => false

/-- Whether the effect takes a value that is given. A flag has an empty one. -/
def accepts : Effect → Text → Bool
  | .value accepts, v => accepts v
  | .values accepts, v => accepts v
  | _, _ => true

end Effect

/-- An option that is known. -/
structure OptionSpec where
  name : Text
  letter : Option Char
  effect : Effect

/-- The words that have been read. -/
structure Words where
  /-- The options by their names, each with its value. -/
  options : List (Text × Text)
  /-- The words that are no options. -/
  operands : List Text
deriving DecidableEq, Repr

namespace Words

def empty : Words := ⟨[], []⟩

/-- The values of an option. -/
def values (w : Words) (name : Text) : List Text :=
  (w.options.filter fun o => o.1 == name).map Prod.snd

def has (w : Words) (name : Text) : Bool := w.options.any fun o => o.1 == name

def addOption (w : Words) (spec : OptionSpec) (value : Text) : Except Stop Words :=
  match spec.effect with
  | .stop reason => .error reason
  | effect =>
    if !effect.accepts value || (w.has spec.name && !effect.isRepeatable) then .error .misused
    else .ok { w with options := w.options ++ [(spec.name, value)] }

/-- The words with one that is no option. -/
def addOperand (w : Words) (operand : Text) : Words := { w with operands := w.operands ++ [operand] }

end Words

/-- Whether a word looks like an option. A single dash is a value. -/
def looksLikeOption (word : Text) : Bool := word.head? == some '-' && 1 < word.length

/-- An option that still has to take its value. -/
abbrev Waiting := Option OptionSpec

/-- Reads the letters of a word, where a value may follow on its letter or on an equals sign. -/
def readLetters (specs : List OptionSpec) : Words → Text → Except Stop (Words × Waiting)
  | w, [] => .ok (w, none)
  | w, c :: rest =>
    match specs.find? fun spec => spec.letter == some c with
    | none => .error .misused
    | some spec =>
      if spec.effect.takesValue then
        match rest with
        | [] => .ok (w, some spec)
        | '=' :: value => (w.addOption spec value).map fun w => (w, none)
        | value => (w.addOption spec value).map fun w => (w, none)
      else
        match w.addOption spec [] with
        | .ok w => readLetters specs w rest
        | .error e => .error e

/-- Reads a word behind its two dashes. -/
def readName (specs : List OptionSpec) (w : Words) (word : Text) : Except Stop (Words × Waiting) :=
  let (name, value) :=
    match Text.cutAt '=' word with
    | some (name, value) => (name, some value)
    | none => (word, none)
  match specs.find? fun spec => spec.name == name with
  | none => .error .misused
  | some spec =>
    match spec.effect.takesValue, value with
    | true, none => .ok (w, some spec)
    | true, some value => (w.addOption spec value).map fun w => (w, none)
    | false, none => (w.addOption spec []).map fun w => (w, none)
    | false, some _ => .error .misused

def readOption (specs : List OptionSpec) (w : Words) (word : Text) : Except Stop (Words × Waiting) :=
  match word with
  | '-' :: '-' :: name => readName specs w name
  | _ :: letters => readLetters specs w letters
  | [] => .error .misused

/-- What the words before the name of a command say. -/
structure Leading where
  words : Words
  /-- The last option, if its value is a word of its own that no option follows. -/
  last : Option (OptionSpec × Text)
  /-- The name of the command and the words behind it. -/
  rest : List Text

/-- The words with an option and its value, or as they are. -/
def Words.settle (w : Words) : Option (OptionSpec × Text) → Except Stop Words
  | none => .ok w
  | some (spec, value) => w.addOption spec value

/-- Reads options up to the first word that is none. -/
def readLeading (specs : List OptionSpec) :
    Waiting → Option (OptionSpec × Text) → Words → List Text → Except Stop Leading
  | none, last, w, [] => .ok ⟨w, last, []⟩
  | some _, _, _, [] => .error .misused
  | some spec, _, w, word :: rest =>
    if looksLikeOption word then .error .misused
    else readLeading specs none (some (spec, word)) w rest
  | none, last, w, word :: rest =>
    if looksLikeOption word then
      match (w.settle last).bind fun w => readOption specs w word with
      | .ok (w, waiting) => readLeading specs waiting none w rest
      | .error e => .error e
    else .ok ⟨w, last, word :: rest⟩

/-- The words with operands, which have to be accepted in their order. -/
def addOperands : List (Text → Bool) → Words → List Text → Except Stop Words
  | _, w, [] => .ok w
  | [], _, _ :: _ => .error .misused
  | accepts :: places, w, word :: rest =>
    if accepts word then addOperands places (w.addOperand word) rest else .error .misused

/-- Reads all words. The places say which operands there may be. -/
def readAll (specs : List OptionSpec) :
    List (Text → Bool) → Waiting → Words → List Text → Except Stop Words
  | _, none, w, [] => .ok w
  | _, some _, _, [] => .error .misused
  | places, some spec, w, word :: rest =>
    if looksLikeOption word then .error .misused
    else
      match w.addOption spec word with
      | .ok w => readAll specs places none w rest
      | .error e => .error e
  | places, none, w, word :: rest =>
    if word = ['-', '-'] then addOperands places w rest
    else if looksLikeOption word then
      match readOption specs w word with
      | .ok (w, waiting) => readAll specs places waiting w rest
      | .error e => .error e
    else
      match places with
      | [] => .error .misused
      | accepts :: places =>
        if accepts word then readAll specs places none (w.addOperand word) rest
        else .error .misused

end GamePatch.Cli
