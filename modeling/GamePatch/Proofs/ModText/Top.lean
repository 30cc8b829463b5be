import GamePatch.Proofs.ModText.Composed
import GamePatch.Proofs.ModText.Options

set_option autoImplicit false

namespace GamePatch

namespace ModText

open GamePatch.Configuration (IsReadAs)
open Header (isRow isStart)
open Text (trim trimEnd isAllBlank IsLine)

/-- A line that belongs to the description, whatever stands around it. -/
structure IsPlainLine (line : Text) : Prop where
  start : isStart (trim line) = false
  block : trim line ≠ "Configurations:"
  header : isTableHeader (trim line) = false
  authors : readAuthors (trim line) = none
  link : readLink (trim line) = none

theorem readTop_plain {line : Text} (plain : IsPlainLine line) (m : GameMod)
    (description rest : List Text) :
    readTop m description (line :: rest) = readTop m (description ++ [line]) rest := by
  rw [readTop]
  simp only [plain.start, plain.block, plain.header, plain.authors, plain.link, Bool.false_eq_true,
    if_false]

theorem readTop_plain_append {lines : List Text} (plain : ∀ l ∈ lines, IsPlainLine l) (m : GameMod)
    (description rest : List Text) :
    readTop m description (lines ++ rest) = readTop m (description ++ lines) rest := by
  induction lines generalizing description with
  | nil => rw [List.nil_append, List.append_nil]
  | cons l lines ih =>
    rw [List.forall_mem_cons] at plain
    rw [List.cons_append, readTop_plain plain.1, ih plain.2, List.append_assoc,
      List.singleton_append]

structure IsLink (link : WebLink) : Prop where
  trimmed : trim link.url = link.url
  inside : '>' ∉ link.url
  line : '\n' ∉ link.url
  marked : (Text.contains "://" link.url || Text.startsWith "www." link.url) = true
  comment : ∀ c ∈ link.comment, c ≠ [] ∧ trim c = c ∧ '\n' ∉ c
  /-- The comment does not make it a function. -/
  noFunction : Text.contains "://" link.url = true ∨
    isRevisionLabel (link.comment.getD []) = false

/-- A link that is read from its own line. -/
structure IsReadableLink (link : WebLink) : Prop where
  single : link.url.head? ≠ some '<'
  noRow : isRow (linkText link) = false

variable {link : WebLink}

theorem IsLink.nonempty (own : IsLink link) : link.url ≠ [] := by
  intro empty
  have marked := own.marked
  rw [empty] at marked
  revert marked
  decide

def behindLink (link : WebLink) : Text :=
  match link.comment with
  | some comment => ' ' :: comment
  | none => []

theorem linkText_eq (link : WebLink) : linkText link = '<' :: (link.url ++ '>' :: behindLink link) := by
  unfold linkText behindLink
  cases link.comment <;> simp

theorem IsLink.trim_behind (own : IsLink link) : trim (behindLink link) = link.comment.getD [] := by
  unfold behindLink
  cases noted : link.comment with
  | none => rfl
  | some c =>
    simp only [Option.getD_some, Text.trim_cons_blank c ' ' (by decide)]
    exact (own.comment c noted).2.1

theorem IsLink.trimEnd_behind (own : IsLink link) : trimEnd (behindLink link) = behindLink link := by
  unfold behindLink
  cases noted : link.comment with
  | none => rfl
  | some c =>
    obtain ⟨some, trimmed, -⟩ := own.comment c noted
    have solid := Text.isAllBlank_eq_false_of_trim some trimmed
    exact (Text.trimEnd_append [' '] solid).trans (by rw [(Text.trim_eq_self_iff.mp trimmed).2]; rfl)

theorem IsLink.isLine (own : IsLink link) : IsLine (linkText link) := by
  have lead : IsLine ('<' :: (link.url ++ ['>'])) :=
    ⟨by simp [own.line], by rw [← List.cons_append, List.getLast?_append]; simp⟩
  have clean : '\n' ∉ behindLink link := by
    unfold behindLink
    cases noted : link.comment with
    | none => exact List.not_mem_nil
    | some c => simp [(own.comment c noted).2.2]
  have whole := lead.append clean own.trimEnd_behind
  rw [linkText_eq]
  simpa using whole

theorem IsLink.trim_line (own : IsLink link) : trim (linkText link) = linkText link := by
  have start : Text.trimStart (linkText link) = linkText link := by
    rw [Text.trimStart_eq_self_iff, linkText_eq]
    rintro _ ⟨⟩
    decide
  rw [trim, start, linkText_eq, Text.trimEnd_cons (by decide), Text.trimEnd_append _ rfl,
    Text.trimEnd_cons (by decide), own.trimEnd_behind]

theorem IsLink.angleBracketed_eq (own : IsLink link) (single : link.url.head? ≠ some '<') :
    angleBracketed (linkText link) = some (link.url, link.comment.getD []) := by
  rw [linkText_eq, ModText.angleBracketed_eq own.nonempty own.trimmed single own.inside,
    own.trim_behind]

theorem IsLink.isStart_line (own : IsLink link) (readable : IsReadableLink link) :
    isStart (linkText link) = false := by
  have first : (linkText link).head? = some '<' := by rw [linkText_eq]; rfl
  refine isStart_eq_false first (by decide) (by decide) readable.noRow ?_
  rw [Header.parseStandalone?, own.angleBracketed_eq readable.single]
  rcases own.noFunction with marked | plain
  · simp only [marked, Bool.or_true, Bool.true_or, if_true]
  · simp only [plain, Bool.not_false, Bool.or_true, if_true]

theorem IsLink.readLink_line (own : IsLink link) (readable : IsReadableLink link) :
    readLink (linkText link) = some link := by
  have same : (if (link.comment.getD []).isEmpty then none else some (link.comment.getD [])) =
      link.comment := by
    cases noted : link.comment with
    | none => rfl
    | some c =>
      have some : c.isEmpty = false := List.isEmpty_eq_false_iff.mpr (own.comment c noted).1
      rw [Option.getD_some, some]
      rfl
  rw [readLink, own.angleBracketed_eq readable.single]
  simp only [own.marked, if_true, same]

/-- What does not begin like the header of the table is none. -/
theorem isTableHeader_eq_false {line : Text} (noRevision : line.head? ≠ some 'R')
    (noVersion : line.head? ≠ some 'V') : isTableHeader line = false := by
  have lead {first : Char} {word : Text} (other : line.head? ≠ some first) :
      Text.startsWith (first :: word) line = false := by
    rw [Text.startsWith, Text.dropLeading?_eq_none other]
    rfl
  have revision : Text.startsWith "Revision" line = false := lead noRevision
  have version : Text.startsWith "Version" line = false := lead noVersion
  rw [isTableHeader, revision, version]
  rfl

theorem readAuthors_eq_none {line : Text} (plain : line.head? ≠ some '[') :
    readAuthors line = none := by
  rw [readAuthors, Text.dropLeading?_eq_none plain]

theorem readTop_link (own : IsLink link) (readable : IsReadableLink link) (m : GameMod)
    (description rest : List Text) :
    readTop m description (linkText link :: rest) =
      readTop { m with links := m.links ++ [link] } description rest := by
  have first : (linkText link).head? = some '<' := by rw [linkText_eq]; rfl
  have noBlock : linkText link ≠ "Configurations:" := by
    rw [linkText_eq]
    simp
  have noHeader : isTableHeader (linkText link) = false :=
    isTableHeader_eq_false (by rw [first]; decide) (by rw [first]; decide)
  have noAuthors : readAuthors (linkText link) = none :=
    readAuthors_eq_none (by rw [first]; decide)
  rw [readTop]
  simp only [own.trim_line, own.isStart_line readable, noBlock, noHeader, noAuthors,
    own.readLink_line readable, Bool.false_eq_true, if_false]

theorem readTop_links {links : List WebLink} (own : ∀ link ∈ links, IsLink link)
    (readable : ∀ link ∈ links, IsReadableLink link) (m : GameMod) (description rest : List Text) :
    readTop m description (links.map linkText ++ rest) =
      readTop { m with links := m.links ++ links } description rest := by
  induction links generalizing m with
  | nil => rw [List.map_nil, List.nil_append, List.append_nil]
  | cons link links ih =>
    rw [List.forall_mem_cons] at own readable
    rw [List.map_cons, List.cons_append, readTop_link own.1 readable.1, ih own.2 readable.2,
      List.append_assoc]
    rfl

def authorsLine (authors : List Text) : Text := "[" ++ Text.join ", " authors ++ "]"

structure IsAuthor (author : Text) : Prop where
  nonempty : author ≠ []
  trimmed : trim author = author
  clean : ',' ∉ author
  line : '\n' ∉ author

theorem splitAt_join {authors : List Text} (own : ∀ a ∈ authors, IsAuthor a) (some : authors ≠ []) :
    (Text.splitAt ',' (Text.join ", " authors)).map trim = authors := by
  obtain ⟨a, authors, rfl⟩ := List.exists_cons_of_ne_nil some
  rw [List.forall_mem_cons] at own
  have clean : ∀ s ∈ a :: authors.map (' ' :: ·), ',' ∉ s := by
    rw [List.forall_mem_cons, List.forall_mem_map]
    refine ⟨own.1.clean, fun b member => ?_⟩
    rw [List.mem_cons, not_or]
    exact ⟨by decide, (own.2 b member).clean⟩
  have split : Text.splitAt ',' (Text.join [','] (a :: authors.map (' ' :: ·))) =
      a :: authors.map (' ' :: ·) := List.splitOn_intercalate ',' clean (List.cons_ne_nil _ _)
  have joined : Text.join ", " (a :: authors) = Text.join [','] (a :: authors.map (' ' :: ·)) :=
    Text.join_pair ',' ' ' a authors
  have trimmed : authors.map (trim ∘ (' ' :: ·)) = authors := by
    conv_rhs => rw [← List.map_id authors]
    refine List.map_congr_left fun b member => ?_
    exact (Text.trim_cons_blank b ' ' (by decide)).trans (own.2 b member).trimmed
  rw [joined, split, List.map_cons, own.1.trimmed, List.map_map, trimmed]

theorem readAuthors_authorsLine {authors : List Text} (own : ∀ a ∈ authors, IsAuthor a)
    (some : authors ≠ []) : readAuthors (authorsLine authors) = .some authors := by
  have lead : Text.dropLeading? ['['] (authorsLine authors) =
      Option.some (Text.join ", " authors ++ [']']) :=
    Text.dropLeading?_eq_some_iff.mpr (by simp [authorsLine])
  have tail : Text.dropTrailing? [']'] (Text.join ", " authors ++ [']']) =
      Option.some (Text.join ", " authors) := Text.dropTrailing?_eq_some_iff.mpr rfl
  have kept : authors.filter (fun author => !author.isEmpty) = authors := by
    rw [List.filter_eq_self]
    intro a member
    rw [List.isEmpty_eq_false_iff.mpr (own a member).nonempty]
    rfl
  rw [readAuthors, lead]
  simp only [tail, Option.map_some, splitAt_join own some, kept]

theorem isLine_authorsLine {authors : List Text} (own : ∀ a ∈ authors, IsAuthor a) :
    IsLine (authorsLine authors) := by
  refine ⟨fun feed => ?_, by rw [authorsLine, List.getLast?_append]; simp⟩
  rw [authorsLine, List.mem_append, List.mem_append] at feed
  rcases feed with (lead | inner) | tail
  · exact absurd lead (by decide)
  · rcases Text.mem_join inner with between | ⟨a, member, inside⟩
    · exact absurd between (by decide)
    · exact (own a member).line inside
  · exact absurd tail (by decide)

theorem readTop_authors {authors : List Text} (own : ∀ a ∈ authors, IsAuthor a)
    (some : authors ≠ []) (noRow : isRow (authorsLine authors) = false) (m : GameMod)
    (description rest : List Text) :
    readTop m description (authorsLine authors :: rest) =
      readTop { m with authors := m.authors ++ authors } description rest := by
  have first : (authorsLine authors).head? = Option.some '[' := rfl
  have trimmed : trim (authorsLine authors) = authorsLine authors := by
    refine Text.trim_eq_self _ ?_ ?_
    · rintro _ ⟨⟩
      decide
    · intro last found
      rw [authorsLine, List.getLast?_append] at found
      cases found
      decide
  have noStart : isStart (authorsLine authors) = false := by
    refine isStart_eq_false first (by decide) (by decide) noRow ?_
    rw [Header.parseStandalone?, angleBracketed_eq_none (by rw [first]; decide)]
  have noBlock : authorsLine authors ≠ "Configurations:" := fun same => by
    rw [same] at first
    cases first
  have noHeader : isTableHeader (authorsLine authors) = false :=
    isTableHeader_eq_false (by rw [first]; decide) (by rw [first]; decide)
  rw [readTop]
  simp only [trimmed, noStart, noBlock, noHeader, readAuthors_authorsLine own some, Bool.false_eq_true,
    if_false]

/-- A block of options ends where a line is not indented. -/
theorem readTop_optionBlock {options : List Configuration} (some : options ≠ [])
    (written : ∀ o ∈ options, IsWrittenOption o) (readable : ∀ o ∈ options, IsReadableOption o)
    (m : GameMod) (description : List Text) :
    ∃ options', List.Forall₂ IsReadAs options options' ∧
      ∀ rest, (∀ l ∈ rest.head?, isIndented l = false) →
        readTop m description (optionBlock options ++ rest) =
          readTop { m with options := m.options ++ options' } description rest := by
  obtain ⟨options', read, same⟩ := foldl_addOption_block written readable m
  refine ⟨options', same, fun rest stop => ?_⟩
  have block : optionBlock options = "Configurations:".toList :: options.flatMap optionLines := by
    rw [optionBlock, List.isEmpty_eq_false_iff.mpr some]
    rfl
  have indented : ∀ l ∈ options.flatMap optionLines, isIndented l = true := by
    intro l member
    obtain ⟨o, inside, own⟩ := List.mem_flatMap.mp member
    exact (isLine_optionLines (written o inside) l own).1
  have ends : rest.takeWhile isIndented = [] ∧ rest.dropWhile isIndented = rest := by
    cases rest with
    | nil => exact ⟨rfl, rfl⟩
    | cons l rest =>
      have solid := stop l rfl
      exact ⟨List.takeWhile_cons_of_neg (by simp [solid]), List.dropWhile_cons_of_neg (by simp [solid])⟩
  have word : trim "Configurations:" = "Configurations:".toList := by decide +kernel
  have noStart : isStart "Configurations:" = false := by decide +kernel
  rw [block, List.cons_append, readTop]
  simp only [word, noStart, Bool.false_eq_true, if_false, if_true]
  rw [List.takeWhile_append_of_pos indented, List.dropWhile_append_of_pos indented, ends.1, ends.2,
    List.append_nil, read]
  rfl

/-- What stands above the changes of a mod, as it is read from some lines. -/
structure IsTop (m : GameMod) : Prop where
  title : IsTitle m.name
  description : m.description = [] ∨ IsTidy (Text.splitAt '\n' m.description) ∧
    ∀ l ∈ Text.splitAt '\n' m.description, IsPlainLine l
  links : ∀ link ∈ m.links, IsLink link
  authors : ∀ a ∈ m.authors, IsAuthor a
  options : ∀ o ∈ m.options, IsWrittenOption o

/-- What stands above the changes of a mod, if nothing of it is taken for something else. -/
structure IsReadableTop (m : GameMod) : Prop where
  links : ∀ link ∈ m.links, IsReadableLink link
  authors : isRow (authorsLine m.authors) = false
  options : ∀ o ∈ m.options, IsReadableOption o

def descriptionLines (description : Text) : List Text :=
  if description.isEmpty then [] else Text.splitAt '\n' description

variable {m : GameMod}

theorem IsTop.bodyText_description (top : IsTop m) :
    bodyText (descriptionLines m.description) = m.description := by
  rw [descriptionLines]
  split
  case isTrue empty =>
    rw [List.isEmpty_iff.mp empty]
    rfl
  case isFalse => exact bodyText_splitAt (top.description.imp_right And.left)

theorem IsTop.descriptionLines (top : IsTop m) :
    ∀ l ∈ descriptionLines m.description, IsPlainLine l ∧ IsLine l := by
  rw [ModText.descriptionLines]
  split
  case isTrue => simp
  case isFalse some =>
    rw [List.isEmpty_iff] at some
    obtain ⟨tidy, plain⟩ := top.description.resolve_left some
    exact fun l member => ⟨plain l member,
      Text.isLine_of_trimEnd (Text.mem_splitAt member).2 (tidy.ends l member)⟩

theorem flatMap_splitAt {ls : List Text} (whole : ∀ l ∈ ls, IsLine l) :
    ls.flatMap (Text.splitAt '\n') = ls := by
  have single : ls.flatMap (Text.splitAt '\n') = ls.flatMap fun l => [l] :=
    List.flatMap_congr fun l member => Text.splitAt_eq_singleton (whole l member).1
  rw [single, List.flatMap_singleton']

def authorsLines (authors : List Text) : List Text :=
  if authors.isEmpty then [] else [authorsLine authors]

/-- The header of the table, if there is a row. -/
def headerLines (changes : List Change) : List Text :=
  if changes.any hasRow then [tableHeader] else []

theorem IsTop.isLine_authorsLines (top : IsTop m) : ∀ l ∈ authorsLines m.authors, IsLine l := by
  rw [authorsLines]
  split
  · simp
  · exact List.forall_mem_singleton.mpr (isLine_authorsLine top.authors)

theorem IsTop.isLine_optionBlock (top : IsTop m) : ∀ l ∈ optionBlock m.options, IsLine l := by
  rw [optionBlock]
  split
  · simp
  · rw [List.forall_mem_cons]
    refine ⟨⟨by decide, by decide⟩, fun l member => ?_⟩
    obtain ⟨o, inside, own⟩ := List.mem_flatMap.mp member
    exact (isLine_optionLines (top.options o inside) l own).2

theorem isLine_headerLines (changes : List Change) : ∀ l ∈ headerLines changes, IsLine l := by
  rw [headerLines]
  split
  · exact List.forall_mem_singleton.mpr isLine_tableHeader
  · simp

/-- The lines above the changes, one after the other. -/
theorem IsTop.aboveChanges_eq (top : IsTop m) :
    aboveChanges m = ModText.descriptionLines m.description ++ (m.links.map linkText ++
      (authorsLines m.authors ++ (optionBlock m.options ++ headerLines m.changes))) := by
  have description : (if m.description.isEmpty then [] else [m.description]).flatMap
      (Text.splitAt '\n') = ModText.descriptionLines m.description := by
    rw [ModText.descriptionLines]
    split
    · rfl
    · exact List.flatMap_singleton _ _
  have links : ∀ l ∈ m.links.map linkText, IsLine l :=
    List.forall_mem_map.mpr fun link member => (top.links link member).isLine
  have pieces : (topLines m).tail = (if m.description.isEmpty then [] else [m.description]) ++
      (m.links.map linkText ++ (authorsLines m.authors ++
        (optionBlock m.options ++ headerLines m.changes))) := by
    simp [topLines, authorsLines, headerLines, authorsLine]
  rw [aboveChanges, pieces, List.flatMap_append, description, List.flatMap_append,
    flatMap_splitAt links, List.flatMap_append, flatMap_splitAt top.isLine_authorsLines,
    List.flatMap_append, flatMap_splitAt top.isLine_optionBlock,
    flatMap_splitAt (isLine_headerLines m.changes)]

theorem IsTop.isLine_aboveChanges (top : IsTop m) : ∀ l ∈ aboveChanges m, IsLine l := by
  rw [top.aboveChanges_eq]
  simp only [List.forall_mem_append]
  exact ⟨fun l member => (top.descriptionLines l member).2,
    List.forall_mem_map.mpr fun link member => (top.links link member).isLine,
    top.isLine_authorsLines, top.isLine_optionBlock, isLine_headerLines m.changes⟩

/-- What is found above the changes, with these options. -/
def topOf (m : GameMod) (options : List Configuration) : GameMod :=
  { GameMod.new m.name with
    authors := m.authors
    description := m.description
    links := m.links
    options := options }

/-- A line that starts a change is not indented. -/
theorem isIndented_of_isStart {l : Text} (trimmed : trim l = l) (start : isStart (trim l) = true) :
    isIndented l = false := by
  have some : l ≠ [] := by
    rintro rfl
    revert start
    decide
  have solid := Text.trimStart_eq_self_iff.mp (Text.trim_eq_self_iff.mp trimmed).1
  have other {c : Char} (blank : Text.isBlank c = true) : l.head? ≠ Option.some c := fun first => by
    rw [solid c first] at blank
    cases blank
  rw [isIndented, Text.isAllBlank_eq_false_of_trim some trimmed, Bool.false_or, Bool.or_eq_false_iff,
    beq_eq_false_iff_ne, beq_eq_false_iff_ne]
  exact ⟨other (by decide), other (by decide)⟩

/-- What stands above the changes is read back, up to the values of floats. -/
theorem IsTop.readTop_aboveChanges (top : IsTop m) (readable : IsReadableTop m) :
    ∃ options', List.Forall₂ IsReadAs m.options options' ∧
      ∀ rest, (∀ l ∈ rest.head?, trim l = l ∧ isStart (trim l) = true) →
        readTop (GameMod.new m.name) [] (aboveChanges m ++ rest) = (topOf m options', rest) := by
  have header (m' : GameMod) (description rest : List Text) :
      readTop m' description (headerLines m.changes ++ rest) = readTop m' description rest := by
    rw [headerLines]
    split
    · exact readTop_tableHeader m' description rest
    · rfl
  have authors (m' : GameMod) (description rest : List Text) :
      readTop m' description (authorsLines m.authors ++ rest) =
        readTop { m' with authors := m'.authors ++ m.authors } description rest := by
    rw [authorsLines]
    split
    case isTrue none =>
      rw [List.isEmpty_iff.mp none, List.append_nil]
      rfl
    case isFalse some =>
      rw [List.isEmpty_iff] at some
      exact readTop_authors top.authors some readable.authors m' description rest
  have options (m' : GameMod) (description : List Text) : ∃ options',
      List.Forall₂ IsReadAs m.options options' ∧
        ∀ rest, (∀ l ∈ rest.head?, isIndented l = false) →
          readTop m' description (optionBlock m.options ++ rest) =
            readTop { m' with options := m'.options ++ options' } description rest := by
    by_cases none : m.options = []
    · rw [none]
      refine ⟨[], .nil, fun rest _ => ?_⟩
      rw [List.append_nil]
      rfl
    · exact readTop_optionBlock none top.options readable.options m' description
  obtain ⟨options', same, read⟩ := options
    { GameMod.new m.name with links := m.links, authors := m.authors }
    (ModText.descriptionLines m.description)
  refine ⟨options', same, fun rest stop => ?_⟩
  have stop' : ∀ l ∈ (headerLines m.changes ++ rest).head?, isIndented l = false := by
    rw [headerLines]
    split
    · rintro _ ⟨⟩
      decide +kernel
    · exact fun l first => isIndented_of_isStart (stop l first).1 (stop l first).2
  have ends := readTop_stop
    { GameMod.new m.name with links := m.links, authors := m.authors, options := options' }
    (ModText.descriptionLines m.description) fun l first => (stop l first).2
  rw [top.bodyText_description] at ends
  simp only [top.aboveChanges_eq, List.append_assoc]
  rw [readTop_plain_append fun l member => (top.descriptionLines l member).1,
    readTop_links top.links readable.links, authors]
  exact (read _ stop').trans ((header _ _ _).trans ends)

end ModText

end GamePatch
