import GamePatch.Gecko.Import
import GamePatch.GameMod.Basic
import GamePatch.ModText.Blocks
import GamePatch.ModText.Header

set_option autoImplicit false

namespace GamePatch.ModText

/-- The names in square brackets. -/
def readAuthors (line : Text) : Option (List Text) :=
  match Text.dropLeading? ['['] line with
  | none => none
  | some rest => (Text.dropTrailing? [']'] rest).map fun inner =>
      ((Text.splitAt ',' inner).map Text.trim).filter fun author => !author.isEmpty

/-- A link in angle brackets with a comment behind it. -/
def readLink (line : Text) : Option WebLink :=
  match angleBracketed line with
  | none => none
  | some (url, comment) =>
    if Text.contains "://" url || Text.startsWith "www." url then
      some ⟨url, if comment.isEmpty then none else some comment⟩
    else none

/-- Whether a line is above the columns of the table. -/
def isTableHeader (line : Text) : Bool :=
  (Text.startsWith "Revision" line || Text.startsWith "Version" line)
    && Text.contains "--" line && !Text.contains "->" line

/-- Whether a line belongs to the block of options. -/
def isIndented (line : Text) : Bool :=
  Text.isAllBlank line || line.head? == some ' ' || line.head? == some '\t'

/-- Whether a line of the block of options is a member of the option above. -/
def isMemberLine (line : Text) : Bool := !line.any (· == '=') && line.any (· == ':')

/-- The options with a line of their block read. -/
def addOptionLine (options : List Configuration) (line : Text) :
    Except Configuration.Error (List Configuration) :=
  match options.getLast?, isMemberLine line with
  | some o, true =>
    (o.parseMember line).map fun m =>
      options.dropLast ++ [{ o with members := o.members ++ [m] }]
  | _, _ => (Configuration.parse line).map fun o => options ++ [o]

/-- The mod with a line of the block of options read. -/
def addOption (m : GameMod) (line : Text) : GameMod :=
  if Text.isAllBlank line then m
  else
    match addOptionLine m.options (Text.trim line) with
    | .ok options => { m with options := options }
    | .error e => m.recordError e.message false

/-- Lines without the blank ones at both ends and without blanks at their own ends. -/
def bodyText (lines : List Text) : Text :=
  let kept := ((lines.dropWhile Text.isAllBlank).reverse.dropWhile Text.isAllBlank).reverse
  Text.joinLines (kept.map Text.trimEnd)

/-- Reads the lines above the changes. The description has been read so far; answers the mod and
the lines that are left. -/
def readTop (m : GameMod) (description : List Text) : List Text → GameMod × List Text
  | [] => ({ m with description := bodyText description }, [])
  | line :: rest =>
    let text := Text.trim line
    if Header.isStart text then ({ m with description := bodyText description }, line :: rest)
    else if text = "Configurations:" then
      readTop ((rest.takeWhile isIndented).foldl addOption m) description
        (rest.dropWhile isIndented)
    else if isTableHeader text then readTop m description rest
    else
      match readAuthors text with
      | some authors => readTop { m with authors := m.authors ++ authors } description rest
      | none =>
        match readLink text with
        | some link => readTop { m with links := m.links ++ [link] } description rest
        | none => readTop m (description ++ [line]) rest
termination_by lines => lines.length
decreasing_by
  all_goals simp only [List.length_cons]
  · have := (List.dropWhile_sublist isIndented (l := rest)).length_le
    omega
  all_goals omega

/-- The mod with a change that has no code on its header's line. -/
def addGeckoLines (m : GameMod) (body : Text) : Except ParseError GameMod :=
  let (note, code) := Code.splitRemark body
  match GeckoRecord.parse code with
  | .error line => .error (.invalidGecko line)
  | .ok changes => .ok (changes.foldl (fun m c => m.push { c with note := note }) m)

/-- The mod with a change, and what is wrong with the change. -/
def addChange (m : GameMod) (header : Header) (body : Text) : GameMod × Option ParseError :=
  match header with
  | .row revision offset vanilla .branch =>
    ((m.setRevision revision).addInjection offset body vanilla, none)
  | .row revision offset vanilla .below =>
    ((m.setRevision revision).addOverwrite offset body vanilla, none)
  | .row revision offset vanilla (.inline code) =>
    ((m.setRevision revision).addOverwrite offset code vanilla,
      if body.isEmpty then none else some (.orphanCode body))
  | .standalone name revision => ((m.setRevision revision).addStandalone name body, none)
  | .gecko revision =>
    match addGeckoLines (m.setRevision revision) body with
    | .ok m => (m, none)
    | .error e => (m.setRevision revision, some e)

def record : GameMod × Option ParseError → GameMod
  | (m, none) => m
  | (m, some e) => m.recordError e.message false

/-- Reads changes. The last revision is that of the row before. -/
def readChanges (m : GameMod) (last : Option Text) : List Text → GameMod
  | [] => m
  | line :: rest =>
    if Text.isAllBlank line then readChanges m last rest
    else
      match Header.parse last (Text.trim line) with
      | .error e => readChanges (m.recordError e.message false) last rest
      | .ok header =>
        let isBody (line : Text) : Bool := !Header.isStart (Text.trim line)
        readChanges (record (addChange m header (bodyText (rest.takeWhile isBody))))
          (header.rowRevision?.or last) (rest.dropWhile isBody)
termination_by lines => lines.length
decreasing_by
  all_goals simp only [List.length_cons]
  · omega
  · omega
  · have := (List.dropWhile_sublist (fun line => !Header.isStart (Text.trim line)) (l := rest)).length_le
    omega

/-- Whether a line above the title is passed over. -/
def isBeforeTitle (line : Text) : Bool :=
  Text.isAllBlank line || (Text.trim line).head? == some '#'

/-- Reads the text of a mod, which the mod keeps. -/
def parse (text : Text) : Except ParseError GameMod :=
  match (Text.lines text).dropWhile isBeforeTitle with
  | [] => .error .missingTitle
  | title :: rest =>
    let (m, rest) := readTop (GameMod.new title) [] rest
    .ok { readChanges m none rest with sourceText := some text }

/-- The mods of a file. Blocks without a title are left out. -/
def parseAll (text : Text) : List GameMod := (blocks text).filterMap fun b => (parse b).toOption

end GamePatch.ModText
