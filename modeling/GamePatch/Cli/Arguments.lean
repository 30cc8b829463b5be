import GamePatch.Builtin
import GamePatch.Cli.Words
import GamePatch.Text.Number

set_option autoImplicit false

namespace GamePatch.Cli

/-- What holds for all commands. -/
structure Settings where
  trace : Bool
  verbosity : Nat
  assembler : Path
  disassembler : Path
  /-- In seconds. -/
  timeout : Option Nat
  includePaths : List Path
deriving DecidableEq, Repr

/-- The forms in which mods are written. -/
inductive OutputForm where
  /-- One file with the text of all mods. -/
  | textFile
  /-- A folder with a `codes.json` for each mod. -/
  | folders
deriving DecidableEq, Repr

/-- What is to be done. -/
inductive Command where
  /-- Lists mods with what is wrong with them. -/
  | scan (path : Path) (revision : Option Text)
  /-- Shows the code of a mod. -/
  | build (path : Path) (name : Option Text) (revision : Text)
  /-- Shows a mod as a Gecko code, or writes it as a file of them. -/
  | gecko (path : Path) (name : Option Text) (revision : Text) (output : Option Path)
  /-- Writes mods in one of their forms. -/
  | convert (path : Path) (form : OutputForm) (output : Path)
  | disassemble (code : Text)
  /-- Shows the code of a branch from one address to another. -/
  | branch (mnemonic origin destination : Text)
deriving DecidableEq, Repr

structure Arguments where
  settings : Settings
  command : Command
deriving DecidableEq, Repr

inductive CommandName where
  | scan
  | build
  | gecko
  | convert
  | disassemble
  | branch
deriving DecidableEq, Repr

/-- The names of commands, short ones included. -/
def commandNames : List (Text × CommandName) :=
  [("scan", .scan), ("s", .scan), ("build", .build), ("b", .build), ("gecko", .gecko),
    ("g", .gecko), ("convert", .convert), ("c", .convert), ("disassemble", .disassemble),
    ("d", .disassemble), ("dis", .disassemble), ("branch", .branch)]

def acceptsPath (s : Text) : Bool := !s.isEmpty

def acceptsNumber (s : Text) : Bool := (Text.readNat64 10 s).isSome

def readForm (s : Text) : Option OutputForm :=
  if s = "legacy".toList then some .textFile
  else if s = "amfs".toList then some .folders
  else none

/-- The options of all commands. The program is named where the version is asked for. -/
def settingSpecs (program : Text) : List OptionSpec :=
  [⟨"trace", none, .flag⟩, ⟨"verbose", some 'v', .counter⟩,
    ⟨"assembler", none, .value acceptsPath⟩, ⟨"disassembler", none, .value acceptsPath⟩,
    ⟨"timeout", none, .value acceptsNumber⟩, ⟨"include", some 'I', .values acceptsPath⟩,
    ⟨"help", some 'h', .stop .help⟩, ⟨"version", some 'V', .stop (.version program)⟩]

def revisionSpec : OptionSpec := ⟨"revision", some 'r', .value fun _ => true⟩

def outputSpec : OptionSpec := ⟨"output", some 'o', .value acceptsPath⟩

def formSpec : OptionSpec := ⟨"to", some 't', .value fun s => (readForm s).isSome⟩

def programName : Text := "modpatch"

namespace CommandName

/-- The name of a command in full. -/
def name : CommandName → Text
  | .scan => "scan"
  | .build => "build"
  | .gecko => "gecko"
  | .convert => "convert"
  | .disassemble => "disassemble"
  | .branch => "branch"

/-- The options of a command that others do not have. -/
def specs : CommandName → List OptionSpec
  | .scan => [revisionSpec]
  | .build => [revisionSpec]
  | .gecko => [revisionSpec, outputSpec]
  | .convert => [formSpec, outputSpec]
  | _ => []

/-- Which operands there may be, in their order. -/
def places : CommandName → List (Text → Bool)
  | .scan => [acceptsPath]
  | .build => [acceptsPath, fun _ => true]
  | .gecko => [acceptsPath, fun _ => true]
  | .convert => [acceptsPath]
  | .disassemble => [fun _ => true]
  | .branch => List.replicate 3 fun _ => true

end CommandName

def Words.value? (w : Words) (name : Text) : Option Text := (w.values name).head?

/-- The path that is the value of an option. -/
def Words.path? (w : Words) (name : Text) : Option Path := (w.value? name).map Path.mk

/-- The command of words, if it has all that it needs. -/
def commandOf? (name : CommandName) (w : Words) : Option Command :=
  let revision := (w.value? "revision").getD "ALL"
  match name, w.operands with
  | .scan, [path] => some (.scan ⟨path⟩ (w.value? "revision"))
  | .build, path :: rest => some (.build ⟨path⟩ rest.head? revision)
  | .gecko, path :: rest => some (.gecko ⟨path⟩ rest.head? revision (w.path? "output"))
  | .convert, [path] => do
    let form ← (w.value? "to").bind readForm
    some (.convert ⟨path⟩ form (← w.path? "output"))
  | .disassemble, [code] => some (.disassemble code)
  | .branch, [mnemonic, origin, destination] => some (.branch mnemonic origin destination)
  | _, _ => none

/-- The values of an option behind the command's name, or else of those before it. -/
def nearestValues (before behind : Words) (name : Text) : List Text :=
  if behind.has name then behind.values name else before.values name

/-- The settings of the words before and behind the command's name. -/
def settingsOf (before behind : Words) : Settings :=
  let values := nearestValues before behind
  { trace := !(values "trace").isEmpty
    verbosity := (values "verbose").length
    assembler := ⟨(values "assembler").head?.getD Builtin.assemblerName⟩
    disassembler := ⟨(values "disassembler").head?.getD Builtin.disassemblerName⟩
    timeout := (values "timeout").head?.bind (Text.readNat64 10)
    includePaths := (values "include").map Path.mk }

def commandNamed? (word : Text) : Option CommandName :=
  (commandNames.find? fun c => c.1 == word).map Prod.snd

/-- The word that asks for help, with the name of a command behind it or nothing. -/
def helpWord : Text := "help"

/-- What a command line asks for that begins with a word that is no command. -/
def stopAt (word : Text) (rest : List Text) : Stop :=
  if word ≠ helpWord then .misused
  else
    match rest with
    | [] => .help
    | [name] => if name = helpWord || (commandNamed? name).isSome then .help else .misused
    | _ => .misused

/-- Reads a command line. -/
def Arguments.read (args : List Text) : Except Stop Arguments := do
  let leading ← readLeading (settingSpecs programName) none none .empty args
  match leading.rest with
  | [] => .error .misused
  | word :: rest =>
    match commandNamed? word with
    | none => .error (stopAt word rest)
    | some name =>
      let specs := settingSpecs (programName ++ ['-'] ++ name.name) ++ name.specs
      let behind ← readAll specs name.places none .empty rest
      match commandOf? name behind with
      | none => .error .misused
      | some command => .ok ⟨settingsOf (← leading.words.settle leading.last) behind, command⟩

/-- How the program is used. -/
def usage : Text :=
  "Usage: modpatch [OPTIONS] COMMAND\n\nCommands:\n"
    ++ "  scan PATH [-r REVISION]\n"
    ++ "  build PATH [NAME] [-r REVISION]\n"
    ++ "  gecko PATH [NAME] [-r REVISION] [-o FILE]\n"
    ++ "  convert PATH -t legacy|amfs -o PATH\n"
    ++ "  disassemble CODE\n"
    ++ "  branch MNEMONIC FROM TO\n\nOptions:\n"
    ++ "  --trace, -v, --assembler FILE, --disassembler FILE, --timeout SECONDS, -I DIRECTORY\n"

def versionNumber : Text := "0.1.0"

namespace Stop

/-- What is printed instead of a report. -/
def output : Stop → Text
  | .misused => []
  | .help => usage
  | .version program => program ++ [' '] ++ versionNumber ++ ['\n']

/-- The number that the program ends with. -/
def exitCode : Stop → Nat
  | .misused => 2
  | _ => 0

end Stop

end GamePatch.Cli
