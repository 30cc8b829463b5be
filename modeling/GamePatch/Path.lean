import GamePatch.Text.Basic

set_option autoImplicit false

namespace GamePatch

/-- A file path as it is written. -/
structure Path where
  text : Text
deriving DecidableEq, Repr

namespace Path

/-- A step of a path. -/
inductive Part where
  | root
  | current
  | parent
  | name (name : Text)
deriving DecidableEq, Repr

def ofString (s : String) : Path := ⟨s.toList⟩

def isAbsolute (p : Path) : Bool := p.text.head? == some '/'

/-- A part between slashes, behind the start of a path. -/
def innerPart? (s : Text) : Option Part :=
  if s.isEmpty || s = ['.'] then none
  else if s = ['.', '.'] then some .parent
  else some (.name s)

/-- The parts of a path. A single dot counts only at the start of a relative path. -/
def parts (p : Path) : List Part :=
  let pieces := Text.splitAt '/' p.text
  (if p.isAbsolute then [Part.root] else if pieces.head? = some ['.'] then [Part.current] else [])
    ++ pieces.filterMap innerPart?

/-- Whether two paths have the same parts. -/
def same (p q : Path) : Bool := p.parts == q.parts

def endsInSlash (p : Path) : Bool := p.text.getLast? = some '/'

/-- Whether a single dot ends the path, perhaps with slashes behind it. -/
def endsInDot (p : Path) : Bool :=
  ((Text.splitAt '/' p.text).reverse.dropWhile List.isEmpty).head? = some ['.']

/-- The second path seen from the first, which is the second path itself if that is absolute. -/
def join (p q : Path) : Path :=
  if q.isAbsolute || p.text.isEmpty then q
  else if p.endsInSlash then ⟨p.text ++ q.text⟩
  else ⟨p.text ++ ['/'] ++ q.text⟩

/-- Whether a piece at the end of a path counts as no part. -/
def isIdle (s : Text) : Bool := s.isEmpty || s = ['.']

/-- The pieces of a path in reverse, from the last one that is a part. A dot is a part at the
start of a relative path. -/
def reversePieces (p : Path) : List Text :=
  let pieces := (Text.splitAt '/' p.text).reverse.dropWhile isIdle
  if pieces.isEmpty && (Text.splitAt '/' p.text).head? = some ['.'] then [['.']] else pieces

/-- The text of pieces in reverse. -/
def ofReversePieces (pieces : List Text) : Text := Text.join ['/'] pieces.reverse

/-- The path without its last part. -/
def parent? (p : Path) : Option Path :=
  match p.reversePieces with
  | [] => none
  | _ :: rest =>
    let rest' := rest.dropWhile isIdle
    if rest'.isEmpty then
      if p.isAbsolute then some ⟨['/']⟩
      else if rest.getLast? = some ['.'] then some ⟨['.']⟩
      else some ⟨[]⟩
    else some ⟨ofReversePieces rest'⟩

/-- The last part, if it is a name. -/
def fileName? (p : Path) : Option Text :=
  match p.parts.getLast? with
  | some (.name s) => some s
  | _ => none

/-- A file name before and after its last point. A name that starts with its only point has no
extension. -/
def splitExtension (name : Text) : Text × Option Text :=
  match Text.cutAtLast '.' name with
  | some (stem, extension) => if stem.isEmpty then (name, none) else (stem, some extension)
  | none => (name, none)

def fileStem? (p : Path) : Option Text := p.fileName?.map fun name => (splitExtension name).1

def extension? (p : Path) : Option Text := p.fileName?.bind fun name => (splitExtension name).2

/-- The path with another extension on its file name. -/
def withExtension (p : Path) (extension : Text) : Path :=
  match p.fileName?, p.reversePieces with
  | some name, _ :: rest =>
    ⟨ofReversePieces (((splitExtension name).1 ++ ['.'] ++ extension) :: rest)⟩
  | _, _ => p

/-- The rest of a list behind an equal start. -/
def partsBehind? : List Part → List Part → Option (List Part)
  | [], rest => some rest
  | _ :: _, [] => none
  | p :: ps, q :: qs => if p = q then partsBehind? ps qs else none

/-- The pieces behind the first `count` parts. -/
def dropPieces : Nat → List Text → List Text
  | 0, pieces => pieces.dropWhile isIdle
  | _ + 1, [] => []
  | count + 1, s :: rest =>
    if (innerPart? s).isSome then dropPieces count rest else dropPieces (count + 1) rest

/-- The path without the pieces at its end that count as no parts. -/
def withoutIdleEnd (p : Path) : Path :=
  if p.reversePieces.isEmpty && p.isAbsolute then ⟨['/']⟩ else ⟨ofReversePieces p.reversePieces⟩

/-- The path as seen from `base`, if it begins with the parts of `base`. Behind the parts of `base`
it starts with a part; seen from no parts at all it starts as it is written. -/
def relativeTo? (base p : Path) : Option Path :=
  match partsBehind? base.parts p.parts with
  | none => none
  | some _ =>
    if base.parts.isEmpty then some p.withoutIdleEnd
    else
      let skipped := (base.parts.filter fun part => part ≠ .root && part ≠ .current).length
      let pieces := dropPieces skipped (Text.splitAt '/' p.text)
      some ⟨ofReversePieces (pieces.reverse.dropWhile isIdle)⟩

end Path

end GamePatch
