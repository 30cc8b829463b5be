import GamePatch.Cli.Run

set_option autoImplicit false

namespace GamePatch.Main

/-- A place without the steps that lead nowhere. -/
def resolve (start : Location) (p : Path) : Location :=
  p.parts.foldl (fun place part =>
    match part with
    | .root => []
    | .current => place
    | .parent => place.dropLast
    | .name name => place ++ [name]) start

/-- The absolute path of a place. -/
def textOf (place : Location) : String := String.ofList ('/' :: Text.join ['/'] place)

def nanoseconds (t : IO.FS.SystemTime) : Int := t.sec * 1000000000 + t.nsec.toNat

/-- The file system with a directory at a place, and at those that lead to it. -/
def putDirectory (fs : FileSystem) (place : Location) : FileSystem :=
  (List.range place.length).foldl
    (fun fs n => fs.put (place.take (n + 1)) .directory) fs

/-- The largest number of directories inside each other that are read. -/
def maxDepth : Nat := 64

/-- Reads what is at a place and below. What cannot be read is left out. -/
def readPlace : Nat → FileSystem → Location → IO FileSystem
  | 0, fs, _ => return fs
  | depth + 1, fs, place => do
    try
      let path ← IO.FS.realPath (textOf place)
      let info ← path.metadata
      match info.type with
      | .dir =>
        let mut fs := putDirectory fs place
        for entry in ← path.readDir do
          fs ← readPlace depth fs (place ++ [entry.fileName.toList])
        return fs
      | .file =>
        let bytes ← IO.FS.readBinFile path
        return (putDirectory fs place.dropLast).put place
          (.file bytes.data.toList (nanoseconds info.modified))
      | _ => return fs
    catch _ => return fs

/-- The paths that an argument may hold. -/
def pathsIn (argument : Text) : List Path :=
  match Text.cutAt '=' argument with
  | some (_, value) => [⟨argument⟩, ⟨value⟩]
  | none => [⟨argument⟩]

/-- Reads what a run with some arguments may need. -/
def readFiles (arguments : List Text) : IO FileSystem := do
  let home := resolve [] (Path.ofString (← IO.currentDir).toString)
  let start : FileSystem :=
    { entries := [(["tmp".toList], .directory)]
      workingDirectory := home
      clock := fun n => 100000000000000000000 + n
      writes := 0 }
  let mut fs ← readPlace maxDepth (putDirectory start home) home
  for p in arguments.flatMap pathsIn do
    let place := resolve home p
    if (fs.entryAt? place).isNone then
      fs ← readPlace maxDepth fs place
  return fs

/-- Writes what is new or differs. -/
def writeFiles (before after : FileSystem) : IO Unit := do
  for (place, entry) in after.entries do
    if before.entryAt? place != some entry then
      match entry with
      | .directory => IO.FS.createDirAll (textOf place)
      | .file bytes _ => IO.FS.writeBinFile (textOf place) ⟨bytes.toArray⟩

/-- Runs a command line and answers the number that the program ends with. -/
def run (arguments : List Text) : IO Nat := do
  match Cli.Arguments.read arguments with
  | .error stop =>
    IO.print (String.ofList stop.output)
    if stop = .misused then IO.eprint (String.ofList Cli.usage)
    return stop.exitCode
  | .ok a =>
    let files ← readFiles arguments
    let report := Cli.run ⟨files, Builtin.programs⟩ a
    IO.print (String.ofList report.output)
    writeFiles files report.files
    if let some failure := report.failure then
      IO.eprintln (String.ofList failure.write)
    return report.exitCode

end GamePatch.Main

def main (arguments : List String) : IO UInt32 := do
  return UInt32.ofNat (← GamePatch.Main.run (arguments.map String.toList))
