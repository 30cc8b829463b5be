import GamePatch.Branch.Assemble
import GamePatch.Cli.Arguments
import GamePatch.Gecko.Export
import GamePatch.Library.Load
import GamePatch.ModFolder.Writer
import GamePatch.ModText.Writer

set_option autoImplicit false

namespace GamePatch.Cli

/-- Why a command ends early. -/
structure Failure where
  message : Text
  cause : Option Text
deriving DecidableEq, Repr

namespace Failure

/-- A failure without a cause. -/
def plain (message : Text) : Failure := ⟨message, none⟩

/-- A text with each line four columns further in. -/
def indent (s : Text) : Text :=
  Text.joinLines ((Text.splitAt '\n' s).map fun line => "    " ++ line)

/-- The failure as it is printed. -/
def write (f : Failure) : Text :=
  "Error: " ++ f.message ++
    match f.cause with
    | some cause => "\n\nCaused by:\n" ++ indent cause
    | none => []

end Failure

/-- What a command did. -/
structure Report where
  output : Text
  failure : Option Failure
  files : FileSystem

/-- The number that the program ends with. -/
def Report.exitCode (r : Report) : Nat := if r.failure.isSome then 1 else 0

/-- The error with a message in front of it. -/
def withContext {ε α : Type} (message : Text) (text : ε → Text) : Except ε α → Except Failure α
  | .ok a => .ok a
  | .error e => .error ⟨message, some (text e)⟩

/-- The error as a failure of its own. -/
def withoutContext {ε α : Type} (text : ε → Text) : Except ε α → Except Failure α
  | .ok a => .ok a
  | .error e => .error (.plain (text e))

def Settings.tools (s : Settings) : ToolConfig :=
  { assembler := s.assembler
    disassembler := s.disassembler
    scratch := .ofString "/tmp"
    timeout := s.timeout.map (· * 1000)
    warnings := false }

/-- The report of a command that changes no file. -/
def reportOf (files : FileSystem) : Except Failure Text → Report
  | .ok output => ⟨output, none, files⟩
  | .error f => ⟨[], some f, files⟩

/-- The mods of a path after the first pass, and their library. The tools must be there. -/
def load (host : Host) (s : Settings) (path : Path) : Except Failure (Library × List GameMod) := do
  withContext "Unable to use the toolchain" Toolchain.Error.message (host.check s.tools)
  let (library, mods) ←
    withContext ("Unable to read mods from " ++ path.text) LibraryError.message
      ((Library.empty s.includePaths).load host.files path)
  .ok (library, (Library.evaluate host.files.isFile mods).run (host.toolchain s.tools))

/-- The mod with a name, or the only mod. -/
def selectMod (mods : List GameMod) : Option Text → Except Failure GameMod
  | some name =>
    match mods.find? fun m => m.name == name with
    | some m => .ok m
    | none => .error (.plain ("No mod named '" ++ name ++ "'"))
  | none =>
    match mods with
    | [m] => .ok m
    | _ =>
      .error (.plain ("Found " ++ Text.decimal mods.length ++ " mods, pick one of: "
        ++ Text.join ", " (mods.map GameMod.name)))

/-- The line of an error below its mod. -/
def errorLine (error : Text) : Text := "        " ++ error ++ "\n"

/-- The line of a mod, and what is wrong with it. -/
def describeMod (m : GameMod) : Text :=
  let revisions : Text := " [" ++ Text.join ", " (m.revisions.map Revision.label) ++ "]\n"
  if m.isAvailable then "ok      " ++ m.name ++ revisions
  else "broken  " ++ m.name ++ revisions ++ m.errors.flatMap errorLine

def scan (host : Host) (s : Settings) (path : Path) (revision : Option Text) :
    Except Failure Text := do
  let (library, mods) ← load host s path
  let mods ←
    match revision with
    | some label =>
      mods.mapM fun m => (withoutContext Overflow.message
        (m.assessConflicts label .ramOnly library.symbols)).map Prod.snd
    | none => .ok mods
  let broken := (mods.filter fun m => !m.isAvailable).length
  .ok (mods.flatMap describeMod ++ Text.decimal mods.length ++ " mods, "
    ++ Text.decimal library.symbols.length ++ " standalone functions, "
    ++ Text.decimal broken ++ " broken\n")

/-- The address at which the code of a change is shown, or why it is shown at none. -/
def buildAddress (symbols : SymbolTable) (c : Change) : Except Failure (Except Text Address) :=
  match c.kind with
  | .standalone =>
    match symbols.addressOf? c.target with
    | some a => .ok (.ok a)
    | none => .ok (.error ("<" ++ c.target ++ "> has no address, skipped\n"))
  | .gecko => .ok (.error [])
  | _ =>
    (withContext ("Unable to place " ++ c.describe) Address.Error.message
      (GameImage.locateRam c.target)).map .ok

/-- The result of the second pass at an address. -/
def showFinalized (c : Change) (address : Address) : Change.Finalized → Text
  | .complete hex =>
    let bytes := (Hex.decode hex).toOption.getD []
    c.describe ++ "\n" ++ (Hex.dump? bytes address.toNat 16).getD [] ++ "\n"
  | .pending _ outstanding => c.describe ++ " waits for " ++ Text.join ", " outstanding ++ "\n"

/-- What is shown of a change. -/
def buildChange (toolchain : Toolchain) (symbols : SymbolTable) (m : GameMod) (c : Change) :
    Except Failure Text := do
  match ← buildAddress symbols c with
  | .error text => .ok text
  | .ok address =>
    let finalized ← withContext ("Unable to resolve " ++ c.describe) Change.ResolveError.message
      ((c.resolve (m.context symbols address)).run toolchain)
    .ok (showFinalized c address finalized)

/-- What is shown of changes, up to the first that fails. -/
def buildChanges (toolchain : Toolchain) (symbols : SymbolTable) (m : GameMod) :
    List Change → Text × Option Failure
  | [] => ([], none)
  | c :: rest =>
    match buildChange toolchain symbols m c with
    | .error f => ([], some f)
    | .ok text =>
      let (more, failure) := buildChanges toolchain symbols m rest
      (text ++ more, failure)

def build (host : Host) (s : Settings) (path : Path) (name : Option Text) (revision : Text) :
    Report :=
  let chosen : Except Failure (Library × GameMod) := do
    let (library, mods) ← load host s path
    .ok (library, ← selectMod mods name)
  match chosen with
  | .error f => ⟨[], some f, host.files⟩
  | .ok (library, m) =>
    let (output, failure) :=
      buildChanges (host.toolchain s.tools) library.symbols m (m.changesFor revision)
    ⟨output, failure, host.files⟩

/-- The mod that is exported, and its library. -/
def loadForExport (host : Host) (s : Settings) (path : Path) (name : Option Text) :
    Except Failure (Library × GameMod) := do
  let (library, mods) ← load host s path
  let m ← selectMod mods name
  if m.isAvailable then .ok (library, m)
  else .error (.plain (m.name ++ " has errors:\n" ++ Text.joinLines m.errors))

/-- Writes a file. -/
def save (files : FileSystem) (path : Path) (bytes : Bytes) : Except Failure FileSystem :=
  withContext ("Unable to write " ++ path.text) FileError.message (files.write path bytes)

/-- The Gecko code of a mod, printed or written to a file. -/
def geckoTo (host : Host) (s : Settings) (library : Library) (m : GameMod) (revision : Text)
    (output : Option Path) : Except Failure (Text × FileSystem) := do
  let toolchain := host.toolchain s.tools
  match output with
  | none =>
    let text ← withoutContext GeckoRecord.Error.message
      ((m.geckoText revision .ramOnly library.symbols).run toolchain)
    .ok (text ++ "\n", host.files)
  | some path =>
    let records ← withoutContext GeckoRecord.Error.message
      ((m.geckoRecords revision .ramOnly library.symbols).run toolchain)
    .ok ([], ← save host.files path (GeckoRecord.toGct records))

def gecko (host : Host) (s : Settings) (path : Path) (name : Option Text) (revision : Text)
    (output : Option Path) : Report :=
  let done : Except Failure (Text × FileSystem) := do
    let (library, m) ← loadForExport host s path name
    geckoTo host s library m revision output
  match done with
  | .ok (text, files) => ⟨text, none, files⟩
  | .error f => ⟨[], some f, host.files⟩

/-- Writes each mod as a folder of its name, up to the first that cannot be written. -/
def saveFolders (output : Path) : FileSystem → List GameMod → Option Failure × FileSystem
  | files, [] => (none, files)
  | files, m :: rest =>
    match ModFolder.save files (output.join ⟨m.name⟩) m with
    | (.ok (), files) => saveFolders output files rest
    | (.error e, files) => (some ⟨"Unable to save " ++ m.name, some e.message⟩, files)

def saveAs (form : OutputForm) (output : Path) (files : FileSystem) (mods : List GameMod) :
    Option Failure × FileSystem :=
  match form with
  | .textFile =>
    match save files output (Text.encodeUtf8 (ModText.writeAll mods)) with
    | .ok files => (none, files)
    | .error f => (some f, files)
  | .folders => saveFolders output files mods

def convert (host : Host) (s : Settings) (path : Path) (form : OutputForm) (output : Path) :
    Report :=
  match load host s path with
  | .error f => ⟨[], some f, host.files⟩
  | .ok (_, mods) =>
    match saveAs form output host.files mods with
    | (some f, files) => ⟨[], some f, files⟩
    | (none, files) => ⟨"Converted " ++ Text.decimal mods.length ++ " mods\n", none, files⟩

def disassemble (host : Host) (s : Settings) (code : Text) : Report :=
  let bytes : Except Failure Bytes := do
    withoutContext Toolchain.Error.message (host.check s.tools)
    withContext "Invalid machine code" Hex.Error.message (Hex.decode code)
  match bytes with
  | .error f => ⟨[], some f, host.files⟩
  | .ok bytes =>
    let (text, files) := host.disassemble s.tools bytes
    reportOf files ((withoutContext Toolchain.Error.message text).map (· ++ "\n"))

def branch (host : Host) (s : Settings) (mnemonic origin destination : Text) :
    Except Failure Text := do
  let a ← withoutContext Address.Error.message (GameImage.locateRam origin)
  let b ← withoutContext Address.Error.message (GameImage.locateRam destination)
  let code ← withoutContext Toolchain.Error.message
    ((Branch.assemble mnemonic (b.toNat - a.toNat)).run (host.toolchain s.tools))
  .ok (code ++ "\n")

/-- Runs a command. -/
def run (host : Host) (a : Arguments) : Report :=
  match a.command with
  | .scan path revision => reportOf host.files (scan host a.settings path revision)
  | .build path name revision => build host a.settings path name revision
  | .gecko path name revision output => gecko host a.settings path name revision output
  | .convert path form output => convert host a.settings path form output
  | .disassemble code => disassemble host a.settings code
  | .branch mnemonic origin destination =>
    reportOf host.files (branch host a.settings mnemonic origin destination)

end GamePatch.Cli
