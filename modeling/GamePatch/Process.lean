import GamePatch.Assembler
import GamePatch.Disassembly
import GamePatch.FileSystem
import GamePatch.Listing

set_option autoImplicit false

namespace GamePatch

/-- What a program sees when it is run. -/
structure Invocation where
  arguments : List Text
  input : Text
  files : FileSystem

/-- What a program does. -/
structure Outcome where
  exitCode : Nat
  output : Bytes
  errors : Bytes
  milliseconds : Nat
deriving DecidableEq, Repr

/-- A program that can be run. -/
abbrev Program := Invocation → Outcome

/-- The tools, and how they are run. -/
structure ToolConfig where
  assembler : Path
  disassembler : Path
  /-- The directory for the file that the disassembler reads. -/
  scratch : Path
  /-- A tool that takes this long is stopped. -/
  timeout : Option Nat
  /-- Whether the assembler's warnings are asked for. -/
  warnings : Bool
deriving DecidableEq, Repr

/-- A file system, and the programs that can be run by name. -/
structure Host where
  files : FileSystem
  programs : List (Text × Program)

namespace Diagnostic

/-- The part of a line of the form `FILE:LINE: MESSAGE` behind the file. -/
def readLocated (line : Text) : Option Diagnostic :=
  match Text.cutAt ':' line with
  | none => none
  | some (_, rest) =>
    match Text.cutAt ':' rest with
    | none => none
    | some (number, message) =>
      (Text.readNat64 10 (Text.trim number)).map fun n => ⟨some n, Text.trim message⟩

/-- Reads what the assembler prints about errors, one message on a line. -/
def parseAll (errors : Text) : List Diagnostic :=
  let lines := ((Text.lines errors).map Text.trim).filter fun line =>
    !line.isEmpty && !Text.endsWith "Assembler messages:" line
  lines.map fun line => (readLocated line).getD ⟨none, line⟩

end Diagnostic

namespace Host

open Toolchain (Error Reply)

/-- Whether a path without a slash is a directory wherever programs are looked for. -/
def isDots (text : Text) : Bool := text = ['.'] || text = ['.', '.']

/-- The program of a path: a file where the path has a slash, and by name from the list of programs
otherwise. No file of the file system can be run, and no directory. -/
def find (host : Host) (program : Path) : Except Error Program :=
  let refuse (e : FileError) : Except Error Program := .error (.io program.text e.message)
  if program.text.any (· == '/') then
    match host.files.stat program with
    | .ok _ => refuse .permissionDenied
    | .error .notFound => .error (.missing program.text)
    | .error e => refuse e
  else if isDots program.text then refuse .permissionDenied
  else if FileSystem.maxNameLength < Text.byteLength program.text then refuse .nameTooLong
  else
    match host.programs.find? fun p => p.1 == program.text with
    | some p => .ok p.2
    | none => .error (.missing program.text)

/-- Whether a program seems to be there. -/
def has (host : Host) (program : Path) : Bool :=
  if program.parts.length > 1 || program.isAbsolute then host.files.isFile program
  else host.programs.any fun p =>
    p.1 == program.text || p.1 == (program.withExtension "exe").text

/-- Requires both tools. -/
def check (host : Host) (config : ToolConfig) : Except Error Unit :=
  if !host.has config.assembler then .error (.missing config.assembler.text)
  else if !host.has config.disassembler then .error (.missing config.disassembler.text)
  else .ok ()

/-- The program of a path, if it can be started with some arguments. They have no zero character. -/
def start (host : Host) (program : Path) (arguments : List Text) : Except Error Program :=
  if (program.text :: arguments).any Text.hasZero then
    .error (.io program.text "nul byte found in provided data")
  else host.find program

/-- What a program does within the time that it has. -/
def run (host : Host) (config : ToolConfig) (program : Path) (arguments : List Text)
    (input : Text) : Except Error Outcome := do
  let outcome := (← host.start program arguments) ⟨arguments, input, host.files⟩
  match config.timeout with
  | some limit =>
    if limit ≤ outcome.milliseconds then .error (.timeout program.text limit) else .ok outcome
  | none => .ok outcome

/-- The arguments of the assembler: a listing with all bytes, and no object file. -/
def assemblerArguments (config : ToolConfig) (includePaths : List Path) : List Text :=
  ["-mgekko".toList, "-mregnames".toList, "-al".toList, "--listing-cont-lines".toList,
      "100000".toList]
    ++ (if config.warnings then [] else ["--no-warn".toList])
    ++ includePaths.flatMap (fun path => ["-I".toList, path.text])
    ++ ["-o".toList, "/dev/null".toList]

/-- The standard input of the assembler, which ends in a line break. -/
def assemblerInput (source : Text) : Text :=
  if source.getLast? = some '\n' then source else source ++ ['\n']

def assemble (host : Host) (config : ToolConfig) (source : Text) (includePaths : List Path) :
    Reply := do
  let outcome ← host.run config config.assembler (assemblerArguments config includePaths)
    (assemblerInput source)
  if outcome.exitCode ≠ 0 then
    .error (.assemblyFailed (Diagnostic.parseAll (Text.decodeUtf8Lossy outcome.errors)))
  else Listing.parse (Text.decodeUtf8Lossy outcome.output)

def toolchain (host : Host) (config : ToolConfig) : Toolchain := ⟨host.assemble config⟩

/-- The file that the disassembler reads. -/
def scratchFile (config : ToolConfig) : Path :=
  config.scratch.join (Path.ofString "modpatch-disassembly.bin")

def disassemblerArguments (config : ToolConfig) : List Text :=
  [(scratchFile config).text, ['0']]

/-- Disassembles code into canonical instructions, one on a line. The scratch file stays. -/
def disassemble (host : Host) (config : ToolConfig) (code : Bytes) :
    Except Error Text × FileSystem :=
  match host.files.write (scratchFile config) code with
  | .error e => (.error (.io (scratchFile config).text e.message), host.files)
  | .ok files =>
    let result : Except Error Text := do
      let outcome ← Host.run ⟨files, host.programs⟩ config config.disassembler
        (disassemblerArguments config) []
      if outcome.exitCode ≠ 0 then
        .error (.disassemblyFailed (Text.trim (Text.decodeUtf8Lossy outcome.errors)))
      else
        (Disassembly.parse (Text.decodeUtf8Lossy outcome.output)).map Disassembly.writeCanonical
    (result, files)

end Host

end GamePatch
