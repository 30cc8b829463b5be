import GamePatch.Path
import GamePatch.Text.Utf8

set_option autoImplicit false

namespace GamePatch

/-- Why an operation on files fails. -/
inductive FileError where
  | notFound
  | alreadyExists
  | notADirectory
  | isADirectory
  | permissionDenied
  /-- A name or a whole path is too long. -/
  | nameTooLong
  /-- A path has a zero character. -/
  | zeroInPath
  | invalidUtf8
deriving DecidableEq, Repr

def FileError.message : FileError → Text
  | .notFound => "No such file or directory (os error 2)"
  | .alreadyExists => "File exists (os error 17)"
  | .notADirectory => "Not a directory (os error 20)"
  | .isADirectory => "Is a directory (os error 21)"
  | .permissionDenied => "Permission denied (os error 13)"
  | .nameTooLong => "File name too long (os error 36)"
  | .zeroInPath => "file name contained an unexpected NUL byte"
  | .invalidUtf8 => "stream did not contain valid UTF-8"

/-- The names that lead from the root to a place. -/
abbrev Location := List Text

/-- What is at a place. -/
inductive FileEntry where
  | directory
  | file (bytes : Bytes) (modified : Int)
deriving DecidableEq, Repr

def FileEntry.isDirectory : FileEntry → Bool
  | .directory => true
  | .file .. => false

/-- The directories and files below a root. -/
structure FileSystem where
  /-- What is at each place. The root is a directory and is not listed. -/
  entries : List (Location × FileEntry)
  /-- Where relative paths start. -/
  workingDirectory : Location
  /-- The time of the write with a number. -/
  clock : Nat → Int
  /-- The number of writes so far. -/
  writes : Nat

namespace FileSystem

def entryAt? (fs : FileSystem) (place : Location) : Option FileEntry :=
  if place.isEmpty then some .directory
  else (fs.entries.find? fun entry => entry.1 == place).map Prod.snd

/-- Puts an entry at a place, instead of what is there. -/
def putEntry (place : Location) (entry : FileEntry) :
    List (Location × FileEntry) → List (Location × FileEntry)
  | [] => [(place, entry)]
  | e :: rest => if e.1 = place then (place, entry) :: rest else e :: putEntry place entry rest

def put (fs : FileSystem) (place : Location) (entry : FileEntry) : FileSystem :=
  { fs with entries := putEntry place entry fs.entries }

/-- The length in bytes that a name may have. -/
def maxNameLength : Nat := 255

/-- The length in bytes that a path may have. -/
def maxPathLength : Nat := 4095

/-- Looks for what is at a place. The name of the place may be too long for that. -/
def lookUp (fs : FileSystem) (place : Location) : Except FileError (Option FileEntry) :=
  if place.getLast?.any fun name => maxNameLength < Text.byteLength name then .error .nameTooLong
  else .ok (fs.entryAt? place)

/-- Requires a directory at a place. -/
def enter (fs : FileSystem) (place : Location) : Except FileError Unit := do
  match ← fs.lookUp place with
  | none => .error .notFound
  | some .directory => .ok ()
  | some (.file ..) => .error .notADirectory

/-- Follows the parts of a path from a place. Nothing has to be at the last place. -/
def follow (fs : FileSystem) : Location → List Path.Part → Except FileError Location
  | place, [] => .ok place
  | place, part :: rest => do
    fs.enter place
    match part with
    | .root => fs.follow [] rest
    | .current => fs.follow place rest
    | .parent => fs.follow place.dropLast rest
    | .name name => fs.follow (place ++ [name]) rest

/-- The place that a path names. -/
def locate (fs : FileSystem) (p : Path) : Except FileError Location := do
  if Text.hasZero p.text then .error .zeroInPath
  if p.text.isEmpty then .error .notFound
  if maxPathLength < Text.byteLength p.text then .error .nameTooLong
  let place ← fs.follow fs.workingDirectory p.parts
  if p.endsInDot then fs.enter place
  .ok place

/-- What a path names. -/
def stat (fs : FileSystem) (p : Path) : Except FileError FileEntry := do
  let place ← fs.locate p
  match ← fs.lookUp place with
  | none => .error .notFound
  | some .directory => .ok .directory
  | some (.file bytes modified) =>
    if p.endsInSlash then .error .notADirectory else .ok (.file bytes modified)

def pathExists (fs : FileSystem) (p : Path) : Bool := (fs.stat p).toOption.isSome

def isDirectory (fs : FileSystem) (p : Path) : Bool :=
  (fs.stat p).toOption.any FileEntry.isDirectory

def isFile (fs : FileSystem) (p : Path) : Bool :=
  (fs.stat p).toOption.any fun entry => !entry.isDirectory

/-- The time of a file's last write. -/
def modified? (fs : FileSystem) (p : Path) : Option Int :=
  match fs.stat p with
  | .ok (.file _ modified) => some modified
  | _ => none

def readBytes (fs : FileSystem) (p : Path) : Except FileError Bytes := do
  match ← fs.stat p with
  | .directory => .error .isADirectory
  | .file bytes _ => .ok bytes

def readText (fs : FileSystem) (p : Path) : Except FileError Text := do
  match Text.decodeUtf8? (← fs.readBytes p) with
  | some text => .ok text
  | none => .error .invalidUtf8

/-- Writes a file, or writes one anew. -/
def write (fs : FileSystem) (p : Path) (bytes : Bytes) : Except FileError FileSystem := do
  let place ← fs.locate p
  if p.endsInSlash then .error .isADirectory
  if (← fs.lookUp place) = some .directory then .error .isADirectory
  .ok { fs.put place (.file bytes (fs.clock fs.writes)) with writes := fs.writes + 1 }

/-- Makes a directory in a directory that is there. -/
def createDirectory (fs : FileSystem) (p : Path) : Except FileError FileSystem := do
  let place ← fs.locate p
  match ← fs.lookUp place with
  | some _ => .error .alreadyExists
  | none => .ok (fs.put place .directory)

/-- Makes a directory unless it is there. -/
def ensureDirectory (fs : FileSystem) (p : Path) : Except FileError Unit × FileSystem :=
  match fs.createDirectory p with
  | .ok fs => (.ok (), fs)
  | .error e => (if fs.isDirectory p then .ok () else .error e, fs)

/-- Makes a directory, and before it those that lead to it. What was made before a failure stays.
The steps bound the number of directories. -/
def createDirectoriesWithin : Nat → FileSystem → Path → Except FileError Unit × FileSystem
  | 0, fs, _ => (.ok (), fs)
  | steps + 1, fs, p =>
    if p.text.isEmpty then (.ok (), fs)
    else
      match fs.createDirectory p, p.parent? with
      | .error .notFound, some parent =>
        match createDirectoriesWithin steps fs parent with
        | (.ok (), fs) => fs.ensureDirectory p
        | failed => failed
      | _, _ => fs.ensureDirectory p

/-- Makes a directory, and before it those that lead to it. -/
def createDirectories (fs : FileSystem) (p : Path) : Except FileError Unit × FileSystem :=
  createDirectoriesWithin (p.text.length + 1) fs p

/-- The name of a place right below another one. -/
def childName? : Location → Location → Option Text
  | [], [name] => some name
  | a :: as, b :: bs => if a = b then childName? as bs else none
  | _, _ => none

/-- The names in a directory, in order. -/
def names (fs : FileSystem) (place : Location) : List Text :=
  (fs.entries.filterMap fun entry => childName? place entry.1).mergeSort Text.le

/-- A file or directory that a walk meets. -/
structure Visit where
  path : Path
  /-- The number of directories above it that the walk went through. -/
  depth : Nat
  isDirectory : Bool
deriving DecidableEq, Repr

/-- What a walk does with what it meets. -/
structure WalkRule where
  /-- The walk does not go deeper than this. -/
  maxDepth : Option Nat
  /-- Left out, with all that is below. -/
  hidden : Text → Bool
  /-- A directory whose content is left out. -/
  closed : Path → Bool

/-- Everything at and below a path, a directory before its content and its content by names. The
steps bound the depth. -/
def walkWithin (fs : FileSystem) (rule : WalkRule) : Nat → Nat → Path → List Visit
  | 0, _, _ => []
  | steps + 1, depth, p =>
    match fs.stat p with
    | .error _ => []
    | .ok (.file ..) => [⟨p, depth, false⟩]
    | .ok .directory =>
      let inner :=
        if rule.maxDepth == some depth || rule.closed p then []
        else
          match fs.locate p with
          | .error _ => []
          | .ok place =>
            ((fs.names place).filter fun name => !rule.hidden name).flatMap fun name =>
              walkWithin fs rule steps (depth + 1) (p.join ⟨name⟩)
      ⟨p, depth, true⟩ :: inner

/-- The number of names that lead to the deepest place. -/
def height (fs : FileSystem) : Nat :=
  fs.entries.foldl (fun n entry => max n entry.1.length) 0

/-- Everything at and below a path. -/
def walk (fs : FileSystem) (rule : WalkRule) (p : Path) : List Visit :=
  fs.walkWithin rule (fs.height + 1) 0 p

end FileSystem

end GamePatch
