import GamePatch.Library.Basic
import GamePatch.ModFolder.Reader
import GamePatch.ModText.Reader

set_option autoImplicit false

namespace GamePatch.Library

def readTextFile (fs : FileSystem) (p : Path) : Except ParseError (List GameMod) :=
  match fs.readText p with
  | .error e => .error (.unreadable p.text e.message)
  | .ok text => .ok ((ModText.parseAll text).map fun m => { m with source := some (.textFile p) })

/-- The mod of an assembly file, if it is one. -/
def readAssemblyFile (fs : FileSystem) (p : Path) : Except ParseError (List GameMod) :=
  (SourceFile.readMod fs p).map Option.toList

/-- Names that are left out. -/
def isHidden (name : Text) : Bool := name.head? == some '!' || name.head? == some '.'

/-- Whether a directory is a mod. -/
def isModFolder (fs : FileSystem) (p : Path) : Bool := fs.isFile (ModFolder.documentOf p)

/-- Whether a text file is what an assembly file of the same name was assembled to. -/
def isAssembledText (fs : FileSystem) (p : Path) : Bool :=
  fs.isFile (p.withExtension "asm") || fs.isFile (p.withExtension "s")

/-- The mods of a file or directory that a walk meets. -/
def readVisit (fs : FileSystem) (v : FileSystem.Visit) : List GameMod :=
  let found : Except ParseError (List GameMod) :=
    if v.isDirectory then (if isModFolder fs v.path then ModFolder.read fs v.path else .ok [])
    else if SourceFile.isAssemblyFile v.path then readAssemblyFile fs v.path
    else if v.path.extension? == some "txt".toList && !isAssembledText fs v.path then
      readTextFile fs v.path
    else .ok []
  found.toOption.getD []

/-- The mods of a directory. -/
def readAll (fs : FileSystem) (root : Path) : List GameMod :=
  (fs.walk ⟨none, isHidden, isModFolder fs⟩ root).flatMap (readVisit fs)

def loadDirectory (l : Library) (fs : FileSystem) (root : Path) :
    Except LibraryError (Library × List GameMod) :=
  if fs.pathExists root then
    (l.register (some root) (readAll fs root)).mapError fun _ => .overflow
  else .error (.notFound root.text)

/-- The mods of a path that was named by itself. -/
def readPath (fs : FileSystem) (p : Path) : Except ParseError (List GameMod) :=
  if fs.isDirectory p then ModFolder.read fs p
  else if p.fileName? == some ModFolder.documentName then
    ModFolder.read fs (p.parent?.getD ⟨['.']⟩)
  else if SourceFile.isAssemblyFile p then readAssemblyFile fs p
  else readTextFile fs p

/-- The library with the mods of a path that was named by itself. -/
def loadPath (l : Library) (fs : FileSystem) (p : Path) :
    Except LibraryError (Library × List GameMod) :=
  if fs.pathExists p then
    match readPath fs p with
    | .ok mods => (l.register none mods).mapError fun _ => .overflow
    | .error e => .error (.parse e)
  else .error (.notFound p.text)

/-- The library with the mods of a path: a directory of mods, or a path of its own. -/
def load (l : Library) (fs : FileSystem) (p : Path) :
    Except LibraryError (Library × List GameMod) :=
  if fs.isDirectory p && !isModFolder fs p then l.loadDirectory fs p else l.loadPath fs p

end GamePatch.Library
