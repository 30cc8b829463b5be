import GamePatch.Listing
import GamePatch.Proofs.Text.Ends
import GamePatch.Proofs.Text.Search

set_option autoImplicit false

namespace GamePatch

namespace Text

/-! ### Words between blanks -/

def IsWord (w : Text) : Prop := w ≠ [] ∧ ∀ c ∈ w, isBlank c = false

/-- A text in front of which a word ends. -/
def StartsBlank (s : Text) : Prop := ∀ c, s.head? = some c → isBlank c = true

theorem startsBlank_of_isAllBlank {s : Text} (blank : isAllBlank s = true) : StartsBlank s :=
  fun c first => isAllBlank_iff.mp blank c (List.mem_of_mem_head? first)

theorem startsBlank_append {gap s : Text} (blank : isAllBlank gap = true) (apart : gap ≠ []) :
    StartsBlank (gap ++ s) := by
  obtain ⟨c, gap, rfl⟩ := List.exists_cons_of_ne_nil apart
  intro first here
  obtain rfl := Option.some.inj here
  exact isAllBlank_iff.mp blank c List.mem_cons_self

theorem takeWhile_blanks_append {gap w : Text} (blank : isAllBlank gap = true) (word : IsWord w)
    (s : Text) : (gap ++ w ++ s).takeWhile isBlank = gap := by
  obtain ⟨c, w, rfl⟩ := List.exists_cons_of_ne_nil word.1
  have solid : isBlank c = false := word.2 c List.mem_cons_self
  rw [List.append_assoc, List.takeWhile_append_of_pos (isAllBlank_iff.mp blank), List.cons_append,
    List.takeWhile_cons_of_neg (by simp [solid]), List.append_nil]

theorem trimStart_blanks_append {gap w : Text} (blank : isAllBlank gap = true) (word : IsWord w)
    (s : Text) : trimStart (gap ++ w ++ s) = w ++ s := by
  obtain ⟨c, w, rfl⟩ := List.exists_cons_of_ne_nil word.1
  have solid : isBlank c = false := word.2 c List.mem_cons_self
  rw [List.append_assoc, trimStart, List.dropWhile_append_of_pos (isAllBlank_iff.mp blank),
    List.cons_append, List.dropWhile_cons_of_neg (by simp [solid])]

theorem takeWhile_word_append {w s : Text} (word : IsWord w) (ends : StartsBlank s) :
    (w ++ s).takeWhile (fun c => !isBlank c) = w := by
  have solid : ∀ c ∈ w, (!isBlank c) = true := fun c member => by simp [word.2 c member]
  rw [List.takeWhile_append_of_pos solid]
  cases s with
  | nil => simp
  | cons c s => rw [List.takeWhile_cons_of_neg (by simp [ends c rfl]), List.append_nil]

theorem words_blanks_append {gap : Text} (blank : isAllBlank gap = true) (s : Text) :
    words (gap ++ s) = words s := by
  rw [isAllBlank_iff] at blank
  induction gap with
  | nil => rfl
  | cons c gap ih =>
    rw [List.forall_mem_cons] at blank
    have here : words (c :: (gap ++ s)) = words (gap ++ s) := by
      simp [words, List.splitOnP_cons_eq_if_modifyHead, blank.1]
    rw [List.cons_append, here, ih blank.2]

theorem words_of_isAllBlank {gap : Text} (blank : isAllBlank gap = true) : words gap = [] := by
  have same := words_blanks_append blank []
  rw [List.append_nil] at same
  rw [same]
  rfl

theorem words_word_append {w s : Text} (word : IsWord w) (ends : StartsBlank s) :
    words (w ++ s) = w :: words s := by
  cases s with
  | nil => simp [words, List.splitOnP_eq_singleton word.2, word.1]
  | cons c s =>
    have blank : isBlank c = true := ends c rfl
    have split := List.splitOnP_append_cons_of_forall_mem word.2 c blank s
    simp [words, split, word.1, List.splitOnP_cons_eq_if_modifyHead, blank]

theorem words_append {gap w s : Text} (blank : isAllBlank gap = true) (word : IsWord w)
    (ends : StartsBlank s) : words (gap ++ w ++ s) = w :: words s := by
  rw [List.append_assoc, words_blanks_append blank, words_word_append word ends]

/-- A text is blank, or its first word stands behind blanks and in front of the others. -/
theorem words_cases (s : Text) : isAllBlank s = true ∨
    ∃ gap w rest, s = gap ++ w ++ rest ∧ isAllBlank gap = true ∧ IsWord w ∧ StartsBlank rest := by
  cases behind : s.dropWhile isBlank with
  | nil => exact Or.inl (isAllBlank_iff.mpr (List.dropWhile_eq_nil_iff.mp behind))
  | cons c tail =>
    have solid : isBlank c = false := by
      have first := List.head?_dropWhile_not isBlank s
      simpa [behind] using first
    refine Or.inr ⟨s.takeWhile isBlank, (c :: tail).takeWhile fun c => !isBlank c,
      (c :: tail).dropWhile fun c => !isBlank c, ?_, ?_, ⟨?_, ?_⟩, ?_⟩
    · rw [List.append_assoc, List.takeWhile_append_dropWhile, ← behind,
        List.takeWhile_append_dropWhile]
    · exact isAllBlank_iff.mpr fun d member => List.mem_takeWhile_imp member
    · rw [List.takeWhile_cons_of_pos (by simp [solid])]
      exact List.cons_ne_nil _ _
    · intro d member
      simpa using List.mem_takeWhile_imp member
    · intro d here
      have first := List.head?_dropWhile_not (fun c => !isBlank c) (c :: tail)
      rw [here] at first
      simpa using first

end Text

namespace Listing

open Text (isAllBlank IsWord StartsBlank)

/-! ### The columns of a row -/

/-- The columns behind a line number, and the address and the bytes that they are. A lone column is an
address if it is as near to the number as it can be, and otherwise bytes. -/
inductive AreColumns : Text → Option Text → Option Text → Prop where
  | bare {gap : Text} (blank : isAllBlank gap = true) : AreColumns gap none none
  | address {gap address rest : Text} (blank : isAllBlank gap = true) (word : IsWord address)
      (last : isAllBlank rest = true) (near : Text.byteLength gap ≤ 1) :
      AreColumns (gap ++ address ++ rest) (some address) none
  | data {gap data rest : Text} (blank : isAllBlank gap = true) (word : IsWord data)
      (last : isAllBlank rest = true) (far : 1 < Text.byteLength gap) :
      AreColumns (gap ++ data ++ rest) none (some data)
  | both {gap address between data rest : Text} (blank : isAllBlank gap = true) (word : IsWord address)
      (space : isAllBlank between = true) (apart : between ≠ []) (word' : IsWord data)
      (last : isAllBlank rest = true) :
      AreColumns (gap ++ address ++ (between ++ data ++ rest)) (some address) (some data)

theorem AreColumns.read {rest : Text} {address data : Option Text}
    (shape : AreColumns rest address data) : columns? rest = some (address, data) := by
  cases shape with
  | bare blank => rw [columns?, Text.words_of_isAllBlank blank]
  | address blank word last near =>
    rw [columns?, Text.words_append blank word (Text.startsBlank_of_isAllBlank last),
      Text.words_of_isAllBlank last]
    simp only [Text.takeWhile_blanks_append blank word]
    rw [if_neg (Nat.not_lt.mpr near)]
  | data blank word last far =>
    rw [columns?, Text.words_append blank word (Text.startsBlank_of_isAllBlank last),
      Text.words_of_isAllBlank last]
    simp only [Text.takeWhile_blanks_append blank word]
    rw [if_pos far]
  | @both gap address between data last blank word space apart word' ends =>
    have front : StartsBlank (between ++ data ++ last) := by
      rw [List.append_assoc]
      exact Text.startsBlank_append space apart
    rw [columns?, Text.words_append blank word front,
      Text.words_append space word' (Text.startsBlank_of_isAllBlank ends),
      Text.words_of_isAllBlank ends]

/-- The columns are read in four shapes, and in no other one. -/
theorem columns?_eq_some_iff {rest : Text} {address data : Option Text} :
    columns? rest = some (address, data) ↔ AreColumns rest address data := by
  refine ⟨fun read => ?_, AreColumns.read⟩
  -- There are at most two words, and as many shapes as ways to have none, one or two.
  rcases Text.words_cases rest with blank | ⟨gap, w, tail, rfl, blank, word, ends⟩
  · rw [(AreColumns.bare blank).read] at read
    cases read
    exact .bare blank
  rcases Text.words_cases tail with last | ⟨between, w', last, rfl, space, word', ends'⟩
  · by_cases far : 1 < Text.byteLength gap
    · rw [(AreColumns.data blank word last far).read] at read
      cases read
      exact .data blank word last far
    · have near := Nat.not_lt.mp far
      rw [(AreColumns.address blank word last near).read] at read
      cases read
      exact .address blank word last near
  · have apart : between ≠ [] := by
      rintro rfl
      obtain ⟨c, w', rfl⟩ := List.exists_cons_of_ne_nil word'.1
      have blank' := ends c rfl
      rw [word'.2 c List.mem_cons_self] at blank'
      cases blank'
    rcases Text.words_cases last with last' | ⟨gap', w'', more, rfl, space', word'', ends''⟩
    · rw [(AreColumns.both blank word space apart word' last').read] at read
      cases read
      exact .both blank word space apart word' last'
    · rw [columns?, Text.words_append blank word ends, Text.words_append space word' ends',
        Text.words_append space' word'' ends''] at read
      cases read

/-! ### Rows -/

/-- A line of the listing that stands above its rows or between them. -/
def IsHeading (line : Text) : Prop :=
  isAllBlank line = true ∨ Text.contains "GAS LISTING" line = true

/-- The columns of a line, and the source line behind its first tab. -/
inductive IsCut : Text → Text → Text → Prop where
  | whole {line : Text} (clean : '\t' ∉ line) : IsCut line line []
  | tab {columns source : Text} (clean : '\t' ∉ columns) :
      IsCut (columns ++ '\t' :: source) columns source

theorem isCut_iff {line columns source : Text} :
    (Text.cutAt '\t' line).getD (line, []) = (columns, source) ↔ IsCut line columns source := by
  constructor
  · intro cut
    cases found : Text.cutAt '\t' line with
    | none =>
      have clean : '\t' ∉ line := by
        intro member
        obtain ⟨before, after, rfl, clean⟩ := List.eq_append_cons_of_mem member
        rw [Text.cutAt_append clean] at found
        cases found
      rw [found, Option.getD_none] at cut
      cases cut
      exact .whole clean
    | some parts =>
      rw [found, Option.getD_some] at cut
      subst cut
      obtain ⟨clean, -, -⟩ := Text.isInfix_of_cutAt found
      obtain ⟨c, marked, rfl, -⟩ := Text.eq_of_cutWhere found
      cases beq_iff_eq.mp marked
      exact .tab clean
  · intro shape
    cases shape with
    | whole clean => rw [Text.cutAt_eq_none clean, Option.getD_none]
    | tab clean => rw [Text.cutAt_append clean, Option.getD_some]

/-- A line number with what stands around it: blanks in front of it, columns behind it, and the source
line. -/
structure IsNumbered (line number columns source : Text) : Prop where
  solid : ¬ IsHeading line
  word : IsWord number
  ends : StartsBlank columns
  cut : ∃ margin, isAllBlank margin = true ∧ IsCut line (margin ++ number ++ columns) source

theorem read_of_isNumbered {line number columns source : Text}
    (numbered : IsNumbered line number columns source) :
    Row.read line =
      if (Text.readNat64 10 number).isNone then .ok none
      else
        match columns? columns with
        | none => .error (.listing line)
        | some (address, data) => .ok (some ⟨address, data, labelOf? source⟩) := by
  obtain ⟨solid, word, ends, margin, blank, cut⟩ := numbered
  have content : ¬ (isAllBlank line || Text.contains "GAS LISTING" line) = true := by
    rwa [Bool.or_eq_true]
  rewrite [Row.read, if_neg content, isCut_iff.mpr cut]
  dsimp only
  rewrite [Text.trimStart_blanks_append blank word, Text.takeWhile_word_append word ends,
    List.drop_left]
  rfl

/-- A line is passed over, or it has a first word that may be a line number. -/
theorem read_cases (line : Text) : Row.read line = .ok none ∨
    ∃ number columns source, IsNumbered line number columns source := by
  by_cases heading : IsHeading line
  · left
    rw [Row.read, if_pos (by rwa [Bool.or_eq_true])]
  · cases cut : (Text.cutAt '\t' line).getD (line, []) with
    | mk columns source =>
      rcases Text.words_cases columns with blank | ⟨margin, number, rest, rfl, blank, word, ends⟩
      · left
        have bare : Text.trimStart columns = [] :=
          List.dropWhile_eq_nil_iff.mpr (Text.isAllBlank_iff.mp blank)
        rw [Row.read, if_neg (by rwa [Bool.or_eq_true]), cut]
        simp only [bare]
        rfl
      · exact Or.inr ⟨number, rest, source, heading, word, ends, margin, blank, isCut_iff.mp cut⟩

/-- A row has a line number, columns behind it in one of the four shapes, and a source line that may
define a label. -/
theorem read_eq_some_iff {line : Text} {row : Row} :
    Row.read line = .ok (some row) ↔ ∃ number columns source, IsNumbered line number columns source ∧
      Text.readNat64 10 number ≠ none ∧ AreColumns columns row.address row.data ∧
      row.label = labelOf? source := by
  constructor
  · intro read
    rcases read_cases line with other | ⟨number, columns, source, numbered⟩
    · rw [other] at read
      cases read
    · refine ⟨number, columns, source, numbered, ?_⟩
      rw [read_of_isNumbered numbered] at read
      split at read
      case isTrue => cases read
      case isFalse counted =>
        rw [Option.isNone_iff_eq_none] at counted
        refine ⟨counted, ?_⟩
        split at read
        case h_1 => cases read
        case h_2 address data found =>
          cases read
          exact ⟨columns?_eq_some_iff.mp found, rfl⟩
  · rintro ⟨number, columns, source, numbered, counted, shape, label⟩
    rw [read_of_isNumbered numbered, if_neg (by rwa [Option.isNone_iff_eq_none]), shape.read, ← label]

/-- A line is passed over if it is a heading or does not start with a line number. -/
theorem read_eq_none_iff {line : Text} :
    Row.read line = .ok none ↔ ∀ number columns source, IsNumbered line number columns source →
      Text.readNat64 10 number = none := by
  constructor
  · intro read number columns source numbered
    rw [read_of_isNumbered numbered] at read
    split at read
    case isTrue uncounted => exact Option.isNone_iff_eq_none.mp uncounted
    case isFalse =>
      split at read
      · cases read
      · cases read
  · intro uncounted
    rcases read_cases line with other | ⟨number, columns, source, numbered⟩
    · exact other
    · rw [read_of_isNumbered numbered, uncounted number columns source numbered]
      rfl

end Listing

end GamePatch
