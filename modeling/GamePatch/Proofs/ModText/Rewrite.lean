import GamePatch.Proofs.ModText.RevisionReadings
import GamePatch.Proofs.ModText.TopReadings

set_option autoImplicit false

namespace GamePatch

namespace ModText

open GamePatch.Configuration (IsReadAs)
open Header (isStart)
open Text (trim)

variable {m : GameMod}

/-- A mod whose new text says what the mod is. -/
structure IsRewritable (m : GameMod) : Prop where
  top : IsReadableTop m
  /-- A revision without changes has no lines. -/
  nonempty : ∀ r ∈ m.revisions, r.changes ≠ []
  changes : ∀ r ∈ m.revisions, ∀ c ∈ r.changes, IsRewritableChange r.label c

theorem IsTop.of_hasSameTop {m' : GameMod} (top : IsTop m) (same : HasSameTop m m') : IsTop m' := by
  obtain ⟨name, authors, description, links, options⟩ := same
  obtain ⟨title, text, link, author, option⟩ := top
  rw [← name] at title
  rw [← description] at text
  rw [← links] at link
  rw [← authors] at author
  rw [← options] at option
  exact ⟨title, text, link, author, option⟩

/-- The title of a mod is trimmed, and it is neither blank nor a remark. -/
theorem isTitle_of_line {line : Text} (clean : '\n' ∉ line) (first : isBeforeTitle line = false) :
    IsTitle (trim line) := by
  rw [isBeforeTitle, Bool.or_eq_false_iff, beq_eq_false_iff_ne] at first
  refine ⟨?_, Text.trim_trim line, first.2, fun feed => clean ((Text.trim_isInfix line).subset feed)⟩
  rw [ne_eq, Text.trim_eq_nil_iff, first.1]
  simp

/-- Everything in a mod that was read has lines of its own. -/
theorem isTop_of_parse {text : Text} (read : parse text = .ok m) : IsTop m ∧ HasRead m := by
  have clean : ∀ l ∈ Text.lines text, '\n' ∉ l := fun l => Text.newline_not_mem_of_mem_lines
  rw [parse] at read
  split at read
  case h_1 => cases read
  case h_2 title rest lines =>
    have part : title :: rest <:+ Text.lines text := lines ▸ List.dropWhile_suffix isBeforeTitle
    have clean' : ∀ l ∈ title :: rest, '\n' ∉ l := fun l member => clean l (part.subset member)
    rw [List.forall_mem_cons] at clean'
    have first : isBeforeTitle title = false := by
      have stop := List.head?_dropWhile_not isBeforeTitle (Text.lines text)
      rw [lines] at stop
      simpa using stop
    have start : IsTop (GameMod.new title) :=
      ⟨isTitle_of_line clean'.1 first, Or.inl rfl, by simp [GameMod.new], by simp [GameMod.new],
        by simp [GameMod.new]⟩
    obtain ⟨top, none, below⟩ := isTop_readTop start (List.forall_mem_nil _) clean'.2
    cases found : readTop (GameMod.new title) [] rest with
    | mk above lines =>
      rw [found] at top none below
      simp only [found] at read
      have empty : above.revisions = [] := none
      have fresh : HasRead above := by
        constructor <;> rw [empty] <;> simp
      have before : ∀ r ∈ (Option.none : Option Text), IsCell r := by simp
      obtain ⟨changes, same⟩ := fresh.readChanges before
        fun l member => clean'.2 l (below.subset member)
      obtain rfl := Except.ok.inj read
      have top' := top.of_hasSameTop same
      exact ⟨⟨top'.title, top'.description, top'.links, top'.authors, top'.options⟩,
        changes.distinct, changes.trimmed, changes.changes⟩

/-- A mod that was read and then changed is read from its new text as it is, up to the values of its
options that are floats. -/
theorem parse_write_markModified {text : Text} (read : parse text = .ok m)
    (rewritable : IsRewritable m) :
    ∃ m', parse (write m.markModified) = .ok m' ∧ m'.errors = [] ∧ m'.name = m.name ∧
      m'.description = m.description ∧ m'.authors = m.authors ∧ m'.links = m.links ∧
      List.Forall₂ IsReadAs m.options m'.options ∧ m'.revisions = m.revisions := by
  obtain ⟨top, changes⟩ := isTop_of_parse read
  have legible : ∀ e ∈ entriesOf m.revisions, IsLegible e.1 e.2 := by
    rw [forall_entriesOf]
    intro r known c inside
    exact (changes.changes r known c inside).isLegible (rewritable.changes r known c inside)
  have listed : IsListed m.revisions := ⟨changes.distinct, changes.trimmed, rewritable.nonempty⟩
  have same : m.revisions.map Revision.asWritten = m.revisions := by
    conv_rhs => rw [← List.map_id m.revisions]
    refine List.map_congr_left fun r known => ?_
    have fresh : r.changes.map Change.asWritten = r.changes := by
      conv_rhs => rw [← List.map_id r.changes]
      exact List.map_congr_left fun c inside => (changes.changes r known c inside).fresh
    rw [Revision.asWritten, fresh]
    rfl
  obtain ⟨options, same', found⟩ := top.readTop_aboveChanges rewritable.top
  obtain ⟨current, parsed⟩ := parse_compose top.title top.isLine_aboveChanges legible
    listed found rfl
  have written : write m.markModified = compose m := rfl
  rw [written, parsed, same]
  exact ⟨_, rfl, rfl, top.title.trimmed, rfl, rfl, rfl, same', rfl⟩

/-- A text with authors on two lines, an option with a member, a row without its revision, and a
Gecko code. -/
def looseLines : List Text :=
  ["Loose", "  [Ann]", "Says", "\t little.", "<http://x>  site", "[Bo]", "Configurations:",
    "\tmask8 Flags=1;(0xF)#bits", "\t\t2:two", "", "ALL --- 80001000 ->", "  li r3, 1", "  blr",
    " --- 80001010 --- 60 -> branch", "# once", "nop", "ALL", "04001020 38600001"]

def looseMod : GameMod :=
  { GameMod.new "Loose" with
    authors := ["Ann", "Bo"]
    description := "Says\n\t little."
    links := [⟨"http://x", some "site"⟩]
    options :=
      [{ name := "Flags"
         kind := .mask .one (some 0xF)
         default := .int 1
         value := .int 1
         members := [⟨.int 2, "two", none⟩]
         note := some "bits"
         hexadecimal := false }]
    revisions :=
      [⟨"ALL", [.new .overwrite "80001000" "  li r3, 1\n  blr",
        { Change.new .injection "80001010" "nop" with
          note := some "once"
          vanilla := some "60" },
        .new .overwrite "0x80001020" "38600001"]⟩]
    sourceText := some (Text.terminated looseLines) }

theorem parse_looseLines : parse (Text.terminated looseLines) = .ok looseMod := by
  have whole : ∀ l ∈ looseLines, Text.IsLine l := by
    simp only [Text.IsLine]
    decide
  have title : looseLines.dropWhile isBeforeTitle = "Loose".toList :: looseLines.tail := by
    decide +kernel
  have top : readTop (GameMod.new "Loose") [] looseLines.tail =
      ({ looseMod with revisions := [], sourceText := none }, looseLines.drop 10) := by
    decide +kernel
  have changes : readChanges { looseMod with revisions := [], sourceText := none } none
      (looseLines.drop 10) = { looseMod with sourceText := none } := by
    decide +kernel
  exact parse_terminated whole title top changes

theorem looseMod_isRewritable : IsRewritable looseMod := by
  have rows : IsRewritableChange "ALL" (.new .overwrite "80001000" "  li r3, 1\n  blr") ∧
      IsRewritableChange "ALL" { Change.new .injection "80001010" "nop" with
        note := some "once"
        vanilla := some "60" } ∧
      IsRewritableChange "ALL" (.new .overwrite "0x80001020" "38600001") :=
    ⟨⟨⟨by decide +kernel, by decide +kernel⟩, by decide +kernel, by decide +kernel⟩,
      ⟨⟨by decide +kernel, by decide +kernel⟩, by decide +kernel, by decide +kernel⟩,
      ⟨⟨by decide +kernel, by decide +kernel⟩, by decide +kernel, by decide +kernel⟩⟩
  refine ⟨⟨?_, by decide +kernel, ?_⟩, by decide, ?_⟩
  · simp only [looseMod, List.forall_mem_singleton]
    exact ⟨by decide, by decide +kernel⟩
  · simp only [looseMod, List.forall_mem_singleton]
    exact ⟨by decide, by decide, List.forall_mem_singleton.mpr (by decide)⟩
  · simp only [looseMod, List.forall_mem_singleton, List.forall_mem_cons]
    exact rows

theorem looseMod_parse_write : parse (Text.terminated looseLines) = .ok looseMod ∧
    IsRewritable looseMod ∧
    ∃ m', parse (write looseMod.markModified) = .ok m' ∧ m'.errors = [] ∧ m'.name = looseMod.name ∧
      m'.description = looseMod.description ∧ m'.authors = looseMod.authors ∧
      m'.links = looseMod.links ∧ List.Forall₂ IsReadAs looseMod.options m'.options ∧
      m'.revisions = looseMod.revisions :=
  ⟨parse_looseLines, looseMod_isRewritable,
    parse_write_markModified parse_looseLines looseMod_isRewritable⟩

/-- A text with an option whose mask has all the bits of a number. -/
def wideLines : List Text := ["M", "Configurations:", "    mask32 Flags = 0; (-1)"]

def wideMod : GameMod :=
  { GameMod.new "M" with
    options :=
      [{ name := "Flags"
         kind := .mask .four (some 0xFFFFFFFFFFFFFFFF)
         default := .int 0
         value := .int 0
         members := []
         note := none
         hexadecimal := false }]
    sourceText := some (Text.terminated wideLines) }

/-- The mask is written as a number that the reader of numbers refuses, so the option is lost. -/
theorem wideMod_not_read_back : parse (Text.terminated wideLines) = .ok wideMod ∧
    wideMod.errors = [] ∧
    ¬ ∃ m', parse (write wideMod.markModified) = .ok m' ∧ m'.errors = [] ∧ m'.name = wideMod.name ∧
      m'.description = wideMod.description ∧ m'.authors = wideMod.authors ∧
      m'.links = wideMod.links ∧ List.Forall₂ IsReadAs wideMod.options m'.options ∧
      m'.revisions = wideMod.revisions := by
  let lines : List Text := ["M", "Configurations:", "    mask32 Flags = 0; (0xFFFFFFFFFFFFFFFF)"]
  have whole : (∀ l ∈ wideLines, Text.IsLine l) ∧ ∀ l ∈ lines, Text.IsLine l := by
    simp only [Text.IsLine]
    decide
  have title : wideLines.dropWhile isBeforeTitle = "M".toList :: wideLines.tail ∧
      lines.dropWhile isBeforeTitle = "M".toList :: lines.tail := by decide +kernel
  have written : write wideMod.markModified = Text.terminated lines := by decide +kernel
  have top : readTop (GameMod.new "M") [] wideLines.tail = ({ wideMod with sourceText := none }, []) := by
    decide +kernel
  have refused : (readTop (GameMod.new "M") [] lines.tail).1.options = [] ∧
      (readTop (GameMod.new "M") [] lines.tail).2 = [] := by
    decide +kernel
  refine ⟨?_, rfl, ?_⟩
  · exact parse_terminated whole.1 title.1 top (by rw [readChanges])
  · rintro ⟨m', read, -, -, -, -, -, options, -⟩
    rw [written, parse, Text.lines_terminated whole.2, title.2] at read
    simp only [refused.2, readChanges] at read
    rw [← Except.ok.inj read] at options
    have lost : List.Forall₂ IsReadAs wideMod.options [] := refused.1 ▸ options
    cases lost

end ModText

end GamePatch
