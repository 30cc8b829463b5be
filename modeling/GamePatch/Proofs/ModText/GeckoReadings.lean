import GamePatch.Proofs.Gecko.Records
import GamePatch.Proofs.ModText.ChangeReadings

set_option autoImplicit false

namespace GamePatch

namespace ModText

open Header (isOffset isRow isStart)
open Text (isAllBlank trim trimStart trimEnd)

variable {label : Text} {note : Option Text} {code : Text}

/-- Digits in groups start nothing. -/
theorem isStart_wordLine {l : Text} (line : Hex.IsWordLine l) : isStart (trim l) = false := by
  obtain ⟨some, trimmed⟩ := line.trim_eq
  obtain ⟨c, rest, shape⟩ := List.exists_cons_of_ne_nil some
  have first : l.head? = Option.some c := by rw [shape]; rfl
  have noRow : isRow l = false := isRow_eq_false (line.not_mem (by decide) (by decide))
  have clean : '<' ∉ l := line.not_mem (by decide) (by decide)
  have noBracket : l.head? ≠ Option.some '<' := fun bracket => clean (List.mem_of_mem_head? bracket)
  have noLabel : isRevisionLabel l = false := by
    rw [Bool.eq_false_iff]
    intro revision
    rcases (mem_labelLetters revision).2 with marked | marked
    · exact line.not_mem (by decide) (by decide) marked
    · exact line.not_mem (by decide) (by decide) marked
  rw [trimmed, isStart, noRow, Header.parseStandalone?, angleBracketed_eq_none noBracket, noLabel]
  rfl

/-- Digits in lines of groups are read back as they are. -/
theorem isCode_formatWords (remark : ∀ n ∈ note, trim n = n ∧ '\n' ∉ n) (bytes : Bytes) :
    IsCode note (Hex.formatWords (Hex.encode bytes)) ∧
      ∀ l ∈ Text.splitAt '\n' (Hex.formatWords (Hex.encode bytes)), isStart (trim l) = false := by
  obtain ⟨ls, layout, words⟩ := Hex.formatWords_encode bytes
  by_cases none : ls = []
  · have empty : Hex.formatWords (Hex.encode bytes) = [] := by rw [layout, none]; rfl
    rw [empty]
    exact ⟨⟨by decide, by simp, by simp, fun _ => by decide, remark⟩, by decide⟩
  · have split : Text.splitAt '\n' (Hex.formatWords (Hex.encode bytes)) = ls := by
      rw [layout]
      exact Text.splitAt_joinLines (fun l member => (words l member).not_mem (by decide) (by decide)) none
    have solid : ∀ l ∈ ls, isAllBlank l = false := fun l member =>
      Text.isAllBlank_eq_false_of_trim (words l member).trim_eq.1 (words l member).trim_eq.2
    rw [split]
    refine ⟨⟨?_, ?_, ?_, ?_, remark⟩, fun l member => isStart_wordLine (words l member)⟩
    · rw [split]
      exact fun l member => (Text.trim_eq_self_iff.mp (words l member).trim_eq.2).2
    · rw [split]
      exact fun _ l last => solid l (List.mem_of_mem_getLast? last)
    · rw [split]
      exact fun _ _ l first => solid l (List.mem_of_mem_head? first)
    · intro _
      obtain ⟨l, rest, shape⟩ := List.exists_cons_of_ne_nil none
      have inside : l ∈ ls := by
        rw [shape]
        exact List.mem_cons_self
      have clean : '#' ∉ l := (words l inside).not_mem (by decide) (by decide)
      refine splitRemark_eq_none (l := l) (by rw [split, shape]; rfl) (solid l inside) ?_
      rw [(words l inside).trim_eq.2]
      exact fun hash => clean (List.mem_of_mem_head? hash)

/-- The first line of a text without blanks in front of it says something. -/
theorem isAllBlank_first_line {s l : Text} (some : s ≠ []) (trimmed : trimStart s = s)
    (first : (Text.splitAt '\n' s).head? = Option.some l) : isAllBlank l = false := by
  obtain ⟨own, more, rfl, -, first', shape⟩ := exists_first_line s
  obtain rfl : own = l := by
    rw [first] at first'
    exact (Option.some.inj first').symm
  have solid := Text.trimStart_eq_self_iff.mp trimmed
  cases own with
  | nil =>
    rcases shape with rfl | ⟨rest, rfl⟩
    · exact absurd rfl some
    · have feed := solid '\n' rfl
      revert feed
      decide
  | cons c own => rw [isAllBlank, List.all_cons, solid c rfl, Bool.false_and]

/-- So does the last line of a text without blanks behind it. -/
theorem isAllBlank_last_line {s l : Text} (some : s ≠ []) (trimmed : trimEnd s = s)
    (last : (Text.splitAt '\n' s).getLast? = Option.some l) : isAllBlank l = false := by
  rw [Bool.eq_false_iff]
  intro blank
  obtain ⟨front, split⟩ := List.getLast?_eq_some_iff.mp last
  have whole := Text.joinLines_splitAt s
  rw [split] at whole
  by_cases alone : front = []
  · rw [alone, List.nil_append, Text.joinLines_singleton] at whole
    rw [← whole, Text.trimEnd_eq_nil_iff.mpr blank] at trimmed
    exact some (whole.symm.trans trimmed.symm)
  · rw [Text.joinLines_append alone (List.cons_ne_nil _ _), Text.joinLines_singleton] at whole
    have blank' : isAllBlank ('\n' :: l) = true := by
      rw [isAllBlank, List.all_cons, ← isAllBlank, blank]
      decide
    have shorter := Text.trimEnd_append_blanks (Text.joinLines front) blank'
    rw [whole, trimmed] at shorter
    have length := congrArg List.length shorter
    have bound := (Text.trimEnd_isPrefix (Text.joinLines front)).length_le
    rw [← length, ← whole, List.length_append, List.length_cons] at bound
    omega

/-- Blanks in front of code that was read mean nothing to a reader. -/
theorem IsCode.trimStart (isCode : IsCode note code) : IsCode note (trimStart code) := by
  have trimmed : trimEnd (Text.trimStart code) = Text.trimStart code := by
    rw [Text.trimEnd_eq_self_iff]
    intro c last
    refine Text.trimEnd_eq_self_iff.mp isCode.trimEnd_eq c ?_
    obtain ⟨front, shape⟩ : Text.trimStart code <:+ code := List.dropWhile_suffix Text.isBlank
    rw [← shape, List.getLast?_append, last]
    rfl
  have start : Text.trimStart (Text.trimStart code) = Text.trimStart code :=
    List.dropWhile_idempotent _ _
  refine ⟨fun l member => ?_, fun some l last => isAllBlank_last_line some trimmed last,
    fun _ some l first => isAllBlank_first_line some start first, fun noted => ?_, isCode.remark⟩
  · obtain ⟨front, -, inside⟩ := Text.exists_blank_start member
    have ends := Text.trimEnd_eq_self_iff.mp (isCode.ends _ inside)
    rw [Text.trimEnd_eq_self_iff]
    intro c last
    refine ends c ?_
    rw [List.getLast?_append, last]
    rfl
  · have plain := isCode.plain noted
    by_cases empty : code = []
    · rw [empty]
      rfl
    · obtain ⟨l, more, whole, clean, first, shape⟩ := exists_first_line code
      have solid := isCode.first noted empty l first
      have begins : Text.trimStart code = Text.trimStart l ++ more := by
        have some : (l.dropWhile Text.isBlank).isEmpty = false := by
          rw [List.isEmpty_eq_false_iff, ne_eq, List.dropWhile_eq_nil_iff]
          intro all
          rw [Text.isAllBlank_iff.mpr all] at solid
          cases solid
        rw [whole, Text.trimStart, List.dropWhile_append, some]
        rfl
      have same : trim (Text.trimStart l) = trim l := by
        rw [trim, trim, Text.trimStart, Text.trimStart, List.dropWhile_idempotent]
      have clean' : '\n' ∉ Text.trimStart l := fun feed =>
        clean ((List.dropWhile_sublist _).subset feed)
      have solid' : isAllBlank (Text.trimStart l) = false := by
        rw [← Text.isAllBlank_trim, same, Text.isAllBlank_trim, solid]
      rw [whole, splitRemark_append clean solid shape] at plain
      rw [begins, splitRemark_append clean' solid' shape, same]
      split at plain
      · cases plain
      · rename_i noHash
        rw [if_neg noHash]

theorem isCell_targetOf (address : Address) :
    IsCell (GeckoRecord.targetOf address) ∧ isOffset (GeckoRecord.targetOf address) = true := by
  have trimmed : trim (GeckoRecord.targetOf address) = GeckoRecord.targetOf address :=
    Hex.trim_marked address
  have offset : isOffset (GeckoRecord.targetOf address) = true := by
    rw [isOffset, GeckoRecord.targetOf, Address.parse?_encodeWord]
    rfl
  exact ⟨isCell_of_isOffset trimmed offset, offset⟩

/-- The changes of a Gecko code. -/
theorem isRead_of_gecko {lines : List Text} {changes : List Change}
    (revision : isRevisionLabel label = true) (trimmed : trim label = label) (line : '\n' ∉ label)
    (clean : ∀ l ∈ lines, '\n' ∉ l) (quiet : ∀ l ∈ lines, isStart (trim l) = false)
    (split : Code.splitRemark (bodyText lines) = (note, code))
    (parsed : GeckoRecord.parse code = .ok changes) :
    ∀ c ∈ changes, IsRead label { c with note := note } := by
  obtain ⟨isCode, origin, remark⟩ := isReadBody_of_splitRemark clean split
  have noRow : ∀ n ∈ note, isRow n = false := by
    intro n noted
    obtain ⟨line, inside, part⟩ := remark n noted
    exact isRow_of_quiet (quiet line inside) part
  have cell := isCell_of_isRevisionLabel trimmed line revision
  have row {kind : ChangeKind} (row : kind = .overwrite ∨ kind = .injection) (address : Address)
      (bytes : Bytes) : IsRead label { Change.new kind (GeckoRecord.targetOf address)
        (Hex.formatWords (Hex.encode bytes)) with note := note } := by
    obtain ⟨place, offset⟩ := isCell_targetOf address
    obtain ⟨digits, still⟩ := isCode_formatWords isCode.remark bytes
    have target : (Change.new kind (GeckoRecord.targetOf address)
        (Hex.formatWords (Hex.encode bytes))).target = GeckoRecord.targetOf address := place.trimmed
    have columns : IsReadRow label (GeckoRecord.targetOf address) none :=
      ⟨cell, place, offset, by simp⟩
    rw [← target] at columns
    refine ⟨?_, digits, fun _ => still, fun _ => noRow, rfl⟩
    rcases row with rfl | rfl <;> exact columns
  have ordinary {record : GeckoRecord} (ordinary : record.IsOrdinary) :
      IsRead label { record.toChange with note := note } := by
    cases record with
    | raw => exact absurd ordinary id
    | write address bytes => exact row (Or.inl rfl) address bytes
    | inject address bytes => exact row (Or.inr rfl) address bytes
  obtain ⟨pairs, read, ⟨kept, rfl⟩ | ⟨records, all, rfl⟩⟩ := GeckoRecord.parse_eq_ok_cases parsed
  · -- A block that is kept loses the blanks in front of it, which changes none of its words.
    have whole : trim code = trimStart code := isCode.trimStart.trimEnd_eq
    have again : GeckoRecord.parse (trimStart code) =
        .ok [Change.new .gecko [] (trimStart code)] := by
      have same : trim (trimStart code) = trimStart code := by
        rw [← whole, Text.trim_trim]
      rw [GeckoRecord.parse, GeckoLine.readAll_trimStart, read]
      simp only [kept, same]
    rw [List.forall_mem_singleton, whole]
    refine ⟨⟨revision, trimmed, line, rfl, rfl, again⟩, isCode.trimStart, fun _ l member => ?_,
      fun _ => noRow, rfl⟩
    obtain ⟨front, blank, inside⟩ := Text.exists_blank_start member
    rw [← Text.trim_blanks_append blank]
    rcases origin _ inside with empty | ⟨line, known, same⟩
    · rw [empty]
      decide
    · rw [same]
      exact quiet line known
  · rw [List.forall_mem_map]
    exact fun record member => ordinary (all record member)

end ModText

end GamePatch
