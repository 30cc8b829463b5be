import GamePatch.ModText.Reader
import GamePatch.ModText.Writer
import GamePatch.Proofs.Text.Ends
import GamePatch.Proofs.Text.LineBreaks
import GamePatch.Proofs.Text.Search

set_option autoImplicit false

namespace GamePatch.ModText

open Text (isAllBlank joinLines trimEnd)

/-- The lines without the blank ones at both ends. -/
def keptLines (lines : List Text) : List Text :=
  ((lines.dropWhile isAllBlank).reverse.dropWhile isAllBlank).reverse

theorem bodyText_eq (lines : List Text) : bodyText lines = joinLines ((keptLines lines).map trimEnd) :=
  rfl

/-- Lines without blanks at their ends, the outer ones not blank. -/
structure IsTidy (lines : List Text) : Prop where
  ends : ∀ l ∈ lines, trimEnd l = l
  first : ∀ l, lines.head? = some l → isAllBlank l = false
  last : ∀ l, lines.getLast? = some l → isAllBlank l = false

theorem IsTidy.bodyText {lines : List Text} (tidy : IsTidy lines) :
    bodyText lines = joinLines lines := by
  have front : lines.dropWhile isAllBlank = lines := by
    rw [List.dropWhile_eq_self_iff]
    intro positive
    rw [tidy.first _ (by rw [List.head?_eq_getElem?, List.getElem?_eq_getElem positive])]
    simp
  have back : lines.reverse.dropWhile isAllBlank = lines.reverse := by
    rw [List.dropWhile_eq_self_iff]
    intro positive
    rw [tidy.last _ (by rw [← List.head?_reverse, List.head?_eq_getElem?,
      List.getElem?_eq_getElem positive])]
    simp
  have whole : lines.map trimEnd = lines := by
    conv_rhs => rw [← List.map_id lines]
    exact List.map_congr_left tidy.ends
  rw [bodyText_eq, keptLines, front, back, List.reverse_reverse, whole]

/-- A blank line at the end means nothing. -/
theorem bodyText_concat_blank (lines : List Text) {l : Text} (blank : isAllBlank l = true) :
    bodyText (lines ++ [l]) = bodyText lines := by
  have kept : keptLines (lines ++ [l]) = keptLines lines := by
    rw [keptLines, keptLines, List.dropWhile_append]
    split
    case isTrue empty =>
      rw [List.isEmpty_iff] at empty
      rw [empty, List.dropWhile_cons_of_pos blank]
      rfl
    case isFalse =>
      rw [List.reverse_append, List.reverse_singleton, List.singleton_append,
        List.dropWhile_cons_of_pos blank]
  rw [bodyText_eq, bodyText_eq, kept]

/-- Blanks at the ends of lines mean nothing. -/
theorem bodyText_map_trimEnd (lines : List Text) : bodyText (lines.map trimEnd) = bodyText lines := by
  have blank : isAllBlank ∘ trimEnd = isAllBlank := funext Text.isAllBlank_trimEnd
  have again : trimEnd ∘ trimEnd = trimEnd := funext Text.trimEnd_trimEnd
  have kept : keptLines (lines.map trimEnd) = (keptLines lines).map trimEnd := by
    rw [keptLines, keptLines, List.dropWhile_map, blank, ← List.map_reverse, List.dropWhile_map, blank,
      ← List.map_reverse]
  rw [bodyText_eq, bodyText_eq, kept, List.map_map, again]

theorem keptLines_isInfix (lines : List Text) : keptLines lines <:+: lines :=
  (List.rdropWhile_prefix isAllBlank (lines.dropWhile isAllBlank)).isInfix.trans
    (List.dropWhile_suffix isAllBlank).isInfix

/-- Reading leaves lines in which nothing is left to drop. -/
theorem isTidy_keptLines (lines : List Text) : IsTidy ((keptLines lines).map trimEnd) := by
  refine ⟨?_, ?_, ?_⟩
  · rw [List.forall_mem_map]
    exact fun l _ => Text.trimEnd_trimEnd l
  · intro l first
    rw [List.head?_map, Option.map_eq_some_iff] at first
    obtain ⟨line, first, rfl⟩ := first
    have lead : keptLines lines <+: lines.dropWhile isAllBlank := List.rdropWhile_prefix ..
    obtain ⟨rest, shape⟩ := lead
    have stop := List.head?_dropWhile_not isAllBlank lines
    rw [← shape, List.head?_append, first] at stop
    rw [Text.isAllBlank_trimEnd]
    simpa using stop
  · intro l last
    rw [List.getLast?_map, Option.map_eq_some_iff] at last
    obtain ⟨line, last, rfl⟩ := last
    have stop := List.head?_dropWhile_not isAllBlank (lines.dropWhile isAllBlank).reverse
    rw [keptLines, List.getLast?_reverse] at last
    rw [last] at stop
    rw [Text.isAllBlank_trimEnd]
    simpa using stop

/-- What is read of some lines has no other lines than these, and they are tidy. -/
theorem bodyText_cases {lines : List Text} (clean : ∀ l ∈ lines, '\n' ∉ l) :
    bodyText lines = [] ∨ IsTidy (Text.splitAt '\n' (bodyText lines)) ∧
      ∀ l ∈ Text.splitAt '\n' (bodyText lines), ∃ line ∈ lines, trimEnd line = l := by
  by_cases none : (keptLines lines).map trimEnd = []
  · rw [bodyText_eq, none]
    exact Or.inl rfl
  · have split : Text.splitAt '\n' (bodyText lines) = (keptLines lines).map trimEnd := by
      refine Text.splitAt_joinLines ?_ none
      rw [List.forall_mem_map]
      intro l member feed
      exact clean l ((keptLines_isInfix lines).subset member)
        ((Text.trimEnd_isPrefix l).subset feed)
    rw [split]
    refine Or.inr ⟨isTidy_keptLines lines, fun l member => ?_⟩
    obtain ⟨line, inside, same⟩ := List.mem_map.mp member
    exact ⟨line, (keptLines_isInfix lines).subset inside, same⟩

/-- A body is read back from its own lines. -/
theorem bodyText_splitAt {s : Text} (tidy : s = [] ∨ IsTidy (Text.splitAt '\n' s)) :
    bodyText (Text.splitAt '\n' s) = s := by
  rcases tidy with rfl | tidy
  · rfl
  · rw [tidy.bodyText, Text.joinLines_splitAt]

/-- The first line of some code, and whether there are more. -/
theorem exists_first_line (code : Text) :
    ∃ l more, code = l ++ more ∧ '\n' ∉ l ∧ (Text.splitAt '\n' code).head? = some l ∧
      (more = [] ∨ ∃ rest, more = '\n' :: rest) := by
  by_cases feed : '\n' ∈ code
  · obtain ⟨l, rest, rfl, clean⟩ := List.eq_append_cons_of_mem feed
    refine ⟨l, '\n' :: rest, rfl, clean, ?_, Or.inr ⟨rest, rfl⟩⟩
    rw [Text.splitAt_append_mark_of_not_mem clean]
    rfl
  · refine ⟨code, [], (List.append_nil code).symm, feed, ?_, Or.inl rfl⟩
    rw [Text.splitAt_eq_singleton feed]
    rfl

/-- A remark is looked for in the first line that says something. -/
theorem splitRemark_append {l more : Text} (clean : '\n' ∉ l) (solid : isAllBlank l = false)
    (shape : more = [] ∨ ∃ rest, more = '\n' :: rest) :
    Code.splitRemark (l ++ more) =
      if (Text.trim l).head? = some '#' then (some (Code.remarkOf l), more.tail)
      else (none, l ++ more) := by
  have breaks {x : Char} (isBreak : Code.isLineBreak x = true) : Text.isBlank x = true := by
    rw [Code.isLineBreak, Bool.or_eq_true, beq_iff_eq, beq_iff_eq] at isBreak
    rcases isBreak with rfl | rfl <;> decide
  have front : isAllBlank (l.takeWhile Code.isLineBreak) = true :=
    Text.isAllBlank_iff.mpr fun x member => breaks (List.mem_takeWhile_imp member)
  have whole := List.takeWhile_append_dropWhile (p := Code.isLineBreak) (l := l)
  have trimmed : Text.trim (l.dropWhile Code.isLineBreak) = Text.trim l := by
    conv_rhs => rw [← whole, Text.trim_blanks_append front]
  have solid' : isAllBlank (l.dropWhile Code.isLineBreak) = false := by
    rw [← Text.isAllBlank_trim, trimmed, Text.isAllBlank_trim, solid]
  have kept : (l.dropWhile Code.isLineBreak).isEmpty = false := by
    rw [List.isEmpty_eq_false_iff]
    intro empty
    rw [empty] at solid'
    cases solid'
  have body : (l ++ more).dropWhile Code.isLineBreak = l.dropWhile Code.isLineBreak ++ more := by
    rw [List.dropWhile_append, kept]
    rfl
  have clean' : '\n' ∉ l.dropWhile Code.isLineBreak :=
    fun feed => clean ((List.dropWhile_sublist _).subset feed)
  have remark : Code.remarkOf (l.dropWhile Code.isLineBreak) = Code.remarkOf l := by
    rw [Code.remarkOf, Code.remarkOf, trimmed]
  rw [Code.splitRemark, body, Text.getD_cutAt clean' shape]
  simp only [← Text.head?_trim solid', trimmed, remark]

/-- Code whose first line says something other than a remark has no remark. -/
theorem splitRemark_eq_none {code l : Text} (first : (Text.splitAt '\n' code).head? = some l)
    (solid : isAllBlank l = false) (noRemark : (Text.trim l).head? ≠ some '#') :
    Code.splitRemark code = (none, code) := by
  obtain ⟨own, more, rfl, clean, first', shape⟩ := exists_first_line code
  obtain rfl : own = l := by
    rw [first] at first'
    exact (Option.some.inj first').symm
  rw [splitRemark_append clean solid shape, if_neg noRemark]

/-- Code that is read back from its lines, with its remark in the line above them. -/
structure IsCode (note : Option Text) (code : Text) : Prop where
  ends : ∀ l ∈ Text.splitAt '\n' code, trimEnd l = l
  last : code ≠ [] → ∀ l, (Text.splitAt '\n' code).getLast? = some l → isAllBlank l = false
  first : note = none → code ≠ [] →
    ∀ l, (Text.splitAt '\n' code).head? = some l → isAllBlank l = false
  plain : note = none → Code.splitRemark code = (none, code)
  remark : ∀ n ∈ note, Text.trim n = n ∧ '\n' ∉ n

variable {note : Option Text} {code : Text}

theorem trimEnd_joinLines {lines : List Text} {l : Text} (ends : trimEnd l = l)
    (last : lines.getLast? = some l) (solid : isAllBlank l = false) :
    trimEnd (joinLines lines) = joinLines lines := by
  obtain ⟨front, rfl⟩ := List.getLast?_eq_some_iff.mp last
  by_cases some : front = []
  · rw [some, List.nil_append, Text.joinLines_singleton, ends]
  · have more : isAllBlank ('\n' :: l) = false := by
      rw [isAllBlank, List.all_cons, ← isAllBlank, solid, Bool.and_false]
    have kept : trimEnd ('\n' :: l) = '\n' :: l := by
      rw [← List.singleton_append, Text.trimEnd_append _ solid, ends]
    rw [Text.joinLines_append some (List.cons_ne_nil _ _), Text.joinLines_singleton,
      Text.trimEnd_append _ more, kept]

theorem IsCode.trimEnd_eq (isCode : IsCode note code) : trimEnd code = code := by
  by_cases empty : code = []
  · rw [empty]
    rfl
  · obtain ⟨l, last⟩ := Option.ne_none_iff_exists'.mp
      (mt List.getLast?_eq_none_iff.mp (Text.splitAt_ne_nil '\n' code))
    have kept := trimEnd_joinLines (isCode.ends l (List.mem_of_mem_getLast? last)) last
      (isCode.last empty l last)
    rwa [Text.joinLines_splitAt] at kept

def remarkLine (n : Text) : Text := "# " ++ n

/-- The line of a remark as it is read, without the blank before a remark that says nothing. -/
theorem trimEnd_remarkLine {n : Text} (trimmed : Text.trim n = n) :
    trimEnd (remarkLine n) = if n = [] then ['#'] else remarkLine n := by
  split
  case isTrue empty =>
    rw [empty]
    rfl
  case isFalse some =>
    have solid := Text.isAllBlank_eq_false_of_trim some trimmed
    rw [remarkLine, Text.trimEnd_append _ solid, (Text.trim_eq_self_iff.mp trimmed).2]

theorem isAllBlank_remarkLine (n : Text) : isAllBlank (remarkLine n) = false := rfl

theorem head?_trim_remarkLine (n : Text) : (Text.trim (remarkLine n)).head? = some '#' := by
  have start : Text.trim (remarkLine n) = trimEnd ('#' :: ' ' :: n) := rfl
  rw [start, Text.trimEnd_cons (by decide)]
  rfl

theorem remarkOf_trimEnd {n : Text} (trimmed : Text.trim n = n) :
    Code.remarkOf (trimEnd (remarkLine n)) = n := by
  have start : Text.trim (trimEnd (remarkLine n)) = trimEnd (remarkLine n) := by
    rw [Text.trim_trimEnd]
    rfl
  rw [Code.remarkOf, start, trimEnd_remarkLine trimmed]
  split
  case isTrue empty =>
    rw [empty]
    rfl
  case isFalse =>
    have hash : (remarkLine n).dropWhile (· == '#') = ' ' :: n := rfl
    rw [hash, Text.trim_cons_blank _ ' ' (by decide), trimmed]

/-- A remark is read back from the line above the code. -/
theorem splitRemark_remarkLine {n below : Text} (trimmed : Text.trim n = n) (line : '\n' ∉ n)
    (shape : below = [] ∨ ∃ rest, below = '\n' :: rest) :
    Code.splitRemark (trimEnd (remarkLine n) ++ below) = (some n, below.tail) := by
  have clean : '\n' ∉ trimEnd (remarkLine n) := by
    intro feed
    have inside := (Text.trimEnd_isPrefix (remarkLine n)).subset feed
    rcases List.mem_append.mp inside with lead | own
    · exact absurd lead (by decide)
    · exact line own
  have solid : isAllBlank (trimEnd (remarkLine n)) = false := by
    rw [Text.isAllBlank_trimEnd]
    exact isAllBlank_remarkLine n
  have first : (Text.trim (trimEnd (remarkLine n))).head? = some '#' := by
    rw [Text.trim_trimEnd]
    exact head?_trim_remarkLine n
  rw [splitRemark_append clean solid shape, if_pos first, remarkOf_trimEnd trimmed]

theorem splitAt_codeText_some {c : Change} {n : Text} (noted : c.note = some n) (line : '\n' ∉ n) :
    Text.splitAt '\n' (codeText c) = remarkLine n :: Text.splitAt '\n' c.code := by
  have clean : '\n' ∉ remarkLine n := by
    intro feed
    rcases List.mem_append.mp feed with lead | own
    · exact absurd lead (by decide)
    · exact line own
  have whole : codeText c = remarkLine n ++ '\n' :: c.code := by
    rw [codeText, noted]
    exact List.append_assoc (remarkLine n) ['\n'] c.code
  rw [whole, Text.splitAt_append_mark_of_not_mem clean]

/-- The code of a change is read back with its remark. -/
theorem IsCode.splitRemark_bodyText {c : Change} (isCode : IsCode c.note c.code) :
    Code.splitRemark (bodyText (Text.splitAt '\n' (codeText c))) = (c.note, c.code) := by
  cases noted : c.note with
  | none =>
    have bare : codeText c = c.code := by rw [codeText, noted]
    have tidy : c.code = [] ∨ IsTidy (Text.splitAt '\n' c.code) := by
      refine (em (c.code = [])).imp_right fun some => ⟨isCode.ends, ?_, isCode.last some⟩
      exact isCode.first noted some
    rw [bare, bodyText_splitAt tidy]
    exact isCode.plain noted
  | some n =>
    obtain ⟨trimmed, line⟩ := isCode.remark n noted
    have remark : isAllBlank (trimEnd (remarkLine n)) = false := by
      rw [Text.isAllBlank_trimEnd]
      exact isAllBlank_remarkLine n
    have own : (Text.splitAt '\n' c.code).map trimEnd = Text.splitAt '\n' c.code := by
      conv_rhs => rw [← List.map_id (Text.splitAt '\n' c.code)]
      exact List.map_congr_left isCode.ends
    rw [splitAt_codeText_some noted line, ← bodyText_map_trimEnd, List.map_cons, own]
    have single : IsTidy [trimEnd (remarkLine n)] :=
      ⟨by simp, by simpa using remark, by simpa using remark⟩
    by_cases empty : c.code = []
    · have lines : trimEnd (remarkLine n) :: Text.splitAt '\n' c.code =
          [trimEnd (remarkLine n)] ++ [[]] := by
        rw [empty]
        rfl
      have read := splitRemark_remarkLine trimmed line (Or.inl rfl)
      rw [lines, bodyText_concat_blank _ rfl, single.bodyText, Text.joinLines_singleton, empty]
      rwa [List.append_nil, List.tail_nil] at read
    · obtain ⟨l, ls, split⟩ := List.exists_cons_of_ne_nil (Text.splitAt_ne_nil '\n' c.code)
      have tidy : IsTidy (trimEnd (remarkLine n) :: Text.splitAt '\n' c.code) := by
        refine ⟨?_, by simpa using remark, ?_⟩
        · rw [List.forall_mem_cons]
          exact ⟨Text.trimEnd_trimEnd _, isCode.ends⟩
        · have last := isCode.last empty
          rw [split] at last ⊢
          rw [List.getLast?_cons_cons]
          exact last
      have joined : joinLines (trimEnd (remarkLine n) :: Text.splitAt '\n' c.code) =
          trimEnd (remarkLine n) ++ '\n' :: c.code := by
        rw [split, Text.joinLines_cons_cons, ← split, Text.joinLines_splitAt]
      rw [tidy.bodyText, joined]
      exact splitRemark_remarkLine trimmed line (Or.inr ⟨c.code, rfl⟩)

end GamePatch.ModText
