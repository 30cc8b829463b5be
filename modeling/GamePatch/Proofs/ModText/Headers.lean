import GamePatch.ModText.Reader
import GamePatch.ModText.Writer
import GamePatch.Proofs.ModText.Labels
import GamePatch.Proofs.Text.LineBreaks

set_option autoImplicit false

namespace GamePatch

namespace Text

/-- What has no character that the mark starts with is passed over by a search. -/
theorem cut_append_of_not_mem {lead : Char} {mark piece : Text} (absent : lead ∉ piece) (s : Text) :
    cut (lead :: mark) (piece ++ s) =
      (cut (lead :: mark) s).map fun found => (piece ++ found.1, found.2) := by
  induction piece with
  | nil => cases found : cut (lead :: mark) s <;> simp [found]
  | cons c piece ih =>
    rw [List.mem_cons, not_or] at absent
    rw [List.cons_append, cut, dropLeading?, if_neg absent.1]
    simp only [ih absent.2, Option.map_map]
    rfl

theorem cut_of_lead (mark rest : Text) : cut mark (mark ++ rest) = some ([], rest) := by
  have lead : dropLeading? mark (mark ++ rest) = some rest := dropLeading?_eq_some_iff.mpr rfl
  unfold cut
  rw [lead]

end Text

namespace ModText

open Header (isRow isOffset isStart rowCode rowParts)

structure IsCell (s : Text) : Prop where
  nonempty : s ≠ []
  trimmed : Text.trim s = s
  dashFree : '-' ∉ s
  line : '\n' ∉ s

theorem isCell_of_isOffset {s : Text} (trimmed : Text.trim s = s) (offset : isOffset s = true) :
    IsCell s := by
  have absent {mark : Char} (other : mark ∉ offsetLetters) : mark ∉ s := by
    intro member
    exact other (mem_offsetLetters offset (trimmed.symm ▸ member))
  refine ⟨?_, trimmed, absent (by decide), absent (by decide)⟩
  rintro rfl
  revert offset
  decide

theorem isCell_of_isRevisionLabel {label : Text} (trimmed : Text.trim label = label)
    (line : '\n' ∉ label) (revision : isRevisionLabel label = true) : IsCell label := by
  refine ⟨?_, trimmed, not_mem_label revision (by decide) (by decide), line⟩
  rintro rfl
  have marked := (mem_labelLetters revision).2
  simp at marked

theorem rowParts_append_dashes (s t : Text) :
    rowParts (s ++ "----".toList ++ t) = rowParts s ++ rowParts t := by
  have split : Text.splitAt '-' (s ++ "----".toList ++ t) =
      Text.splitAt '-' s ++ [[], [], []] ++ Text.splitAt '-' t := by
    have dash (u : Text) : Text.splitAt '-' ('-' :: u) = [] :: Text.splitAt '-' u :=
      Text.splitAt_append_mark_of_not_mem (s := []) (by simp) u
    have whole : s ++ "----".toList ++ t = s ++ '-' :: ('-' :: '-' :: '-' :: t) := by
      rw [List.append_assoc]
      rfl
    rw [whole, Text.splitAt_append_mark, dash, dash, dash, List.append_assoc]
    rfl
  have none : (([[], [], []] : List Text).map Text.trim).filter (fun part => !part.isEmpty) = [] :=
    rfl
  rw [rowParts, split, List.map_append, List.map_append, List.filter_append, List.filter_append, none,
    List.append_nil]
  rfl

/-- A column is found again between its blanks. -/
theorem rowParts_cell {s front back : Text} (cell : IsCell s)
    (blank : ∀ c ∈ front, c = ' ') (blank' : ∀ c ∈ back, c = ' ') :
    rowParts (front ++ s ++ back) = [s] := by
  have dashFree : '-' ∉ front ++ s ++ back := by
    rw [List.mem_append, List.mem_append, not_or, not_or]
    exact ⟨⟨fun member => absurd (blank _ member) (by decide), cell.dashFree⟩,
      fun member => absurd (blank' _ member) (by decide)⟩
  have space {t : Text} (blank : ∀ c ∈ t, c = ' ') : Text.isAllBlank t = true :=
    Text.isAllBlank_iff.mpr fun c member => by rw [blank c member]; decide
  have kept : s.isEmpty = false := List.isEmpty_eq_false_iff.mpr cell.nonempty
  rw [rowParts, Text.splitAt_eq_singleton dashFree, List.map_singleton,
    Text.trim_between_blanks (space blank) (space blank'), cell.trimmed, List.filter_cons, kept]
  rfl

/-- The columns of a row in front of its arrow. -/
def columnsText (label : Text) (c : Change) : Text :=
  label ++ " ".toList ++ "----".toList ++
    match c.vanilla with
    | some vanilla =>
      " ".toList ++ c.target ++ " ".toList ++ "----".toList ++ (" ".toList ++ vanilla ++ " ".toList)
    | none => " ".toList ++ c.target ++ " ".toList ++ "----".toList ++ " ".toList

theorem rowText_eq (label : Text) (c : Change) :
    rowText label c = columnsText label c ++ "->".toList := by
  unfold rowText columnsText
  cases c.vanilla <;> simp

/-- A change whose columns are found again in its row. -/
structure HasColumns (label : Text) (c : Change) : Prop where
  revision : IsCell label
  target : IsCell c.target
  offset : isOffset c.target = true
  vanilla : ∀ v ∈ c.vanilla, IsCell v ∧ Hex.normalize v = v
  /-- A row of two columns must not begin with something like a place. -/
  alone : c.vanilla = none → isOffset label = false

variable {label : Text} {c : Change}

theorem HasColumns.rowParts_eq (row : HasColumns label c) :
    rowParts (columnsText label c) = label :: c.target :: c.vanilla.toList := by
  have space : ∀ c ∈ " ".toList, c = ' ' := by simp
  have cell {s : Text} (cell : IsCell s) : rowParts (" ".toList ++ s ++ " ".toList) = [s] :=
    rowParts_cell cell space space
  have none : ∀ c ∈ ([] : Text), c = ' ' := by simp
  have first : rowParts (label ++ " ".toList) = [label] := rowParts_cell row.revision none space
  unfold columnsText
  cases found : c.vanilla with
  | none =>
    have blank : rowParts " ".toList = [] := by decide +kernel
    rw [rowParts_append_dashes, first, rowParts_append_dashes, cell row.target, blank]
    rfl
  | some vanilla =>
    rw [rowParts_append_dashes, first, rowParts_append_dashes, cell row.target,
      cell (row.vanilla vanilla found).1]
    rfl

/-- The first arrow of a row is the one behind its columns. -/
theorem HasColumns.cut_arrow (row : HasColumns label c) (right : Text) :
    Text.cut "->" (columnsText label c ++ ("->".toList ++ right)) =
      some (columnsText label c, right) := by
  have dashes (s : Text) : Text.cut "->" ("----".toList ++ (" ".toList ++ s)) =
      (Text.cut "->" s).map fun found => ("----".toList ++ (" ".toList ++ found.1), found.2) := by
    cases found : Text.cut "->".toList s <;>
      simp_all [Text.cut, Text.dropLeading?]
  have cell {s : Text} (cell : IsCell s) (t : Text) : Text.cut "->" (s ++ t) =
      (Text.cut "->" t).map fun found => (s ++ found.1, found.2) :=
    Text.cut_append_of_not_mem cell.dashFree t
  have space (t : Text) : Text.cut "->" (" ".toList ++ t) =
      (Text.cut "->" t).map fun found => (" ".toList ++ found.1, found.2) :=
    Text.cut_append_of_not_mem (by decide) t
  have arrow : Text.cut "->" ("->".toList ++ right) = some ([], right) := Text.cut_of_lead _ _
  unfold columnsText
  cases found : c.vanilla with
  | none =>
    simp only [List.append_assoc, cell row.revision, space, dashes, cell row.target, arrow,
      Option.map_some, List.append_nil]
  | some vanilla =>
    simp only [List.append_assoc, cell row.revision, space, dashes, cell row.target,
      cell (row.vanilla vanilla found).1, arrow, Option.map_some, List.append_nil]

theorem HasColumns.trim_row (row : HasColumns label c) (right : Text) :
    Text.trim (rowText label c ++ right) = rowText label c ++ Text.trimEnd right := by
  obtain ⟨first, rest, shape⟩ := List.exists_cons_of_ne_nil row.revision.nonempty
  have solid : Text.isBlank first = false := by
    have start := (Text.trim_eq_self_iff.mp row.revision.trimmed).1
    exact Text.trimStart_eq_self_iff.mp start first (by rw [shape]; rfl)
  have lead (s : Text) : Text.trimStart (rowText label c ++ s) = rowText label c ++ s := by
    rw [Text.trimStart_eq_self_iff, rowText_eq, columnsText, shape]
    rintro _ ⟨⟩
    exact solid
  have arrow : Text.trimEnd (rowText label c) = rowText label c := by
    rw [Text.trimEnd_eq_self_iff, rowText_eq]
    intro last found
    rw [List.getLast?_append] at found
    cases found
    decide
  rw [Text.trim, lead]
  by_cases blank : Text.isAllBlank right = true
  · rw [Text.trimEnd_append_blanks _ blank, arrow, Text.trimEnd_eq_nil_iff.mpr blank, List.append_nil]
  · exact Text.trimEnd_append _ (Bool.eq_false_iff.mpr blank)

theorem isRow_rowText (label : Text) (c : Change) (right : Text) :
    isRow (rowText label c ++ right) = true := by
  have dashes : "---".toList <:+: rowText label c ++ right := by
    unfold rowText
    cases c.vanilla <;> exact ⟨label ++ " ".toList, _, by simp; rfl⟩
  have arrow : "->".toList <:+: rowText label c ++ right :=
    ⟨columnsText label c, right, by rw [rowText_eq]⟩
  rw [isRow, Text.contains_iff.mpr dashes, Text.contains_iff.mpr arrow]
  rfl

theorem isStart_rowText (label : Text) (c : Change) (right : Text) :
    isStart (rowText label c ++ right) = true := by
  rw [isStart, isRow_rowText]
  rfl

/-- A row is read back, whatever stands behind its arrow. -/
theorem HasColumns.parse_row (row : HasColumns label c) (last : Option Text) (right : Text) :
    Header.parse last (rowText label c ++ right) =
      .ok (.row label c.target c.vanilla (rowCode (Text.trim right))) := by
  have columns : Header.readRow last (rowParts (columnsText label c)) =
      some (label, c.target, c.vanilla) := by
    rw [row.rowParts_eq]
    cases found : c.vanilla with
    | none => simp [Header.readRow, row.alone found, row.offset]
    | some vanilla => simp [Header.readRow, row.offset]
  rw [Header.parse, isRow_rowText, if_pos rfl, Header.parseRow, rowText_eq, List.append_assoc,
    row.cut_arrow]
  simp only [columns]

def bracketText (name label : Text) : Text := "<" ++ name ++ "> " ++ label

/-- What is in angle brackets is found again, if neither bracket is in it where it would count. -/
theorem angleBracketed_eq {name : Text} (nonempty : name ≠ []) (trimmed : Text.trim name = name)
    (single : name.head? ≠ some '<') (inside : '>' ∉ name) (after : Text) :
    angleBracketed ('<' :: (name ++ '>' :: after)) = some (name, Text.trim after) := by
  obtain ⟨first, rest, rfl⟩ := List.exists_cons_of_ne_nil nonempty
  have differs : '<' ≠ first := fun same => single (by rw [same]; rfl)
  have noReference : Text.startsWith ['<', '<'] ('<' :: (first :: rest ++ '>' :: after)) = false := by
    rw [Text.startsWith, Text.dropLeading?, if_pos rfl, List.cons_append, Text.dropLeading?,
      if_neg differs]
    rfl
  have lead : Text.dropLeading? ['<'] ('<' :: (first :: rest ++ '>' :: after)) =
      some (first :: rest ++ '>' :: after) := rfl
  rw [angleBracketed, noReference, if_neg (by simp)]
  simp only [lead, Text.cutAt_append inside, Option.map_some, trimmed]

theorem angleBracketed_bracketText {name : Text} (nonempty : name ≠ []) (trimmed : Text.trim name = name)
    (single : name.head? ≠ some '<') (inside : '>' ∉ name) (label : Text) :
    angleBracketed (bracketText name label) = some (name, Text.trim label) := by
  have line : bracketText name label = '<' :: (name ++ '>' :: ' ' :: label) := by
    simp [bracketText]
  rw [line, angleBracketed_eq nonempty trimmed single inside, Text.trim_cons_blank _ ' ' (by decide)]

/-- A function whose name and revision are found again in the line above it. -/
structure HasBrackets (label name : Text) : Prop where
  nonempty : name ≠ []
  trimmed : Text.trim name = name
  /-- A second bracket would make it a reference. -/
  single : name.head? ≠ some '<'
  inside : '>' ∉ name
  noLink : Text.contains "://" name = false
  nameLine : '\n' ∉ name
  revision : isRevisionLabel label = true
  trimmedLabel : Text.trim label = label
  labelLine : '\n' ∉ label
  noRow : isRow (bracketText name label) = false

variable {name : Text}

theorem HasBrackets.isCell (function : HasBrackets label name) : IsCell label :=
  isCell_of_isRevisionLabel function.trimmedLabel function.labelLine function.revision

theorem HasBrackets.trim_line (function : HasBrackets label name) :
    Text.trim (bracketText name label) = bracketText name label := by
  refine Text.trim_eq_self _ ?_ ?_
  · rintro _ ⟨⟩
    decide
  · intro last found
    have back := (Text.trim_eq_self_iff.mp function.trimmedLabel).2
    obtain ⟨c, same⟩ := Option.ne_none_iff_exists'.mp
      (mt List.getLast?_eq_none_iff.mp function.isCell.nonempty)
    rw [bracketText, List.getLast?_append, same] at found
    rw [← Option.some.inj found]
    exact Text.trimEnd_eq_self_iff.mp back c same

theorem HasBrackets.parseStandalone? (function : HasBrackets label name) :
    Header.parseStandalone? (bracketText name label) = some (.standalone name label) := by
  have some : name.isEmpty = false := List.isEmpty_eq_false_iff.mpr function.nonempty
  have brackets := angleBracketed_bracketText function.nonempty function.trimmed function.single
    function.inside label
  rw [function.trimmedLabel] at brackets
  rw [Header.parseStandalone?, brackets]
  simp only [some, function.noLink, function.revision]
  rfl

theorem HasBrackets.isStart_line (function : HasBrackets label name) :
    isStart (bracketText name label) = true := by
  rw [isStart, function.parseStandalone?]
  simp

theorem HasBrackets.parse_line (function : HasBrackets label name) (last : Option Text) :
    Header.parse last (bracketText name label) = .ok (.standalone name label) := by
  rw [Header.parse, function.noRow, if_neg (by simp), function.parseStandalone?]

theorem isStart_label (revision : isRevisionLabel label = true) : isStart label = true := by
  rw [isStart, revision, Bool.or_true]

theorem angleBracketed_eq_none {line : Text} (plain : line.head? ≠ some '<') :
    angleBracketed line = none := by
  rw [angleBracketed, Text.dropLeading?_eq_none plain]
  split <;> rfl

/-- What is read in angle brackets has no bracket at its end and no blanks around it. -/
theorem isInfix_of_angleBracketed {line name after : Text}
    (found : angleBracketed line = some (name, after)) :
    (Text.trim name = name ∧ '>' ∉ name ∧ name <:+: line) ∧ Text.trim after = after ∧ after <:+: line := by
  rw [angleBracketed] at found
  split at found
  · cases found
  · split at found
    · cases found
    case h_2 rest lead =>
      obtain ⟨⟨inner, behind⟩, cut, same⟩ := Option.map_eq_some_iff.mp found
      obtain ⟨rfl, rfl⟩ := Prod.mk.inj same
      obtain ⟨closed, inside, inside'⟩ := Text.isInfix_of_cutAt cut
      have part : rest <:+: line := by
        rw [Text.dropLeading?_eq_some_iff.mp lead]
        exact (List.suffix_append _ _).isInfix
      exact ⟨⟨Text.trim_trim inner, fun bracket => closed ((Text.trim_isInfix inner).subset bracket),
        ((Text.trim_isInfix inner).trans inside).trans part⟩, Text.trim_trim behind,
        ((Text.trim_isInfix behind).trans inside').trans part⟩

theorem isRow_eq_false {line : Text} (dashFree : '-' ∉ line) : isRow line = false := by
  have absent : Text.contains "---" line = false := by
    rw [Bool.eq_false_iff, ne_eq, Text.contains_iff]
    exact fun dashes => dashFree (dashes.subset (by decide))
  rw [isRow, absent, Bool.false_and]

/-- A line that begins with a character that no revision has starts a change only if it is a row
or has the name of a function. -/
theorem isStart_eq_false {line : Text} {lead : Char} (first : line.head? = some lead)
    (solid : Text.isBlank lead = false) (other : lead ∉ labelLetters) (noRow : isRow line = false)
    (noFunction : Header.parseStandalone? line = none) : isStart line = false := by
  have noLabel : isRevisionLabel line = false := by
    rw [Bool.eq_false_iff]
    intro revision
    exact not_mem_label revision solid other (List.mem_of_mem_head? first)
  rw [isStart, noRow, noFunction, noLabel]
  rfl

/-- The line above a Gecko code. -/
theorem parse_label (revision : isRevisionLabel label = true) (last : Option Text) :
    Header.parse last label = .ok (.gecko label) := by
  have dashFree : '-' ∉ label := not_mem_label revision (by decide) (by decide)
  have plain : label.head? ≠ some '<' := fun first =>
    not_mem_label revision (by decide) (by decide) (List.mem_of_mem_head? first)
  rw [Header.parse, isRow_eq_false dashFree, if_neg (by simp), Header.parseStandalone?,
    angleBracketed_eq_none plain, revision]
  rfl

end ModText

end GamePatch
