import GamePatch.FileSystem
import GamePatch.GameMod.Basic
import GamePatch.ParseError
import GamePatch.SourceFile.Header

set_option autoImplicit false

namespace GamePatch

/-- A source file that has been read. -/
structure SourceFile where
  code : Text
  header : SourceHeader
deriving DecidableEq, Repr

namespace SourceFile

/-- Whether a path has the extension of an assembly file. -/
def isAssemblyFile (p : Path) : Bool :=
  p.extension? == some "asm".toList || p.extension? == some ['s']

def readAssembledBytes? (fs : FileSystem) (p : Path) : Option Text :=
  (fs.readBytes p).toOption.map fun bytes => Hex.formatWords (Hex.encode bytes)

def readAssembledText? (fs : FileSystem) (p : Path) : Option Text :=
  (fs.readText p).toOption.map Text.trimEnd

/-- Reads a file unless it is older than a time. -/
def unlessOlder (fs : FileSystem) (time : Int) (read : FileSystem → Path → Option Text)
    (p : Path) : Option Text :=
  match fs.modified? p with
  | none => none
  | some modified => if modified < time then none else read fs p

/-- The code of an assembly file as it was assembled before. -/
def assembledCode? (fs : FileSystem) (p : Path) : Option Text :=
  if !isAssemblyFile p then none
  else
    (fs.modified? p).bind fun time =>
      (unlessOlder fs time readAssembledBytes? (p.withExtension "bin")).or
        (unlessOlder fs time readAssembledText? (p.withExtension "txt"))

def read (fs : FileSystem) (p : Path) : Except ParseError SourceFile :=
  match fs.readText p with
  | .error .notFound => .error (.missingSourceFile p.text)
  | .error e => .error (.unreadable p.text e.message)
  | .ok text =>
    .ok ⟨(assembledCode? fs p).getD (Text.trimEnd text), SourceHeader.parse text⟩

/-- The mod of an assembly file that says where it goes: one injection. -/
def asMod (p : Path) (address : Text) (file : SourceFile) : GameMod :=
  let m := GameMod.new (file.header.name.getD (p.fileStem?.getD []))
  let injection : Change :=
    { Change.new .injection address file.code with
      sourceFile := p.fileName?.map fun name => ⟨name⟩ }
  { ({ m with authors := file.header.authors }.setRevision allRevisions).push injection with
    source := some (.assemblyFile p) }

/-- Reads an assembly file as a mod. A file without an address is there to be included. -/
def readMod (fs : FileSystem) (p : Path) : Except ParseError (Option GameMod) :=
  (read fs p).map fun file => file.header.address.map fun address => asMod p address file

end SourceFile

end GamePatch
