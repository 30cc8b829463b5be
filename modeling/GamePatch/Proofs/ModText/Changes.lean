import GamePatch.Proofs.ModText.Bodies
import GamePatch.Proofs.ModText.Headers
import GamePatch.Proofs.ModText.Revisions

set_option autoImplicit false

namespace GamePatch

namespace ModText

open Header (isRow isStart rowCode)
open Text (isAllBlank trimEnd)

/-- A part of a line is a row only if the line is one. -/
theorem isRow_of_isInfix {s t : Text} (part : s <:+: t) (row : isRow s = true) : isRow t = true := by
  rw [isRow, Bool.and_eq_true, Text.contains_iff, Text.contains_iff] at row ⊢
  exact row.imp (·.trans part) (·.trans part)

/-- A line with a remark starts a change only if the remark has the marks of a row. -/
theorem isStart_remarkLine {n : Text} (noRow : isRow n = false) :
    isStart (Text.trim (remarkLine n)) = false := by
  have hash := head?_trim_remarkLine n
  refine isStart_eq_false hash (by decide) (by decide) ?_ ?_
  · rw [Bool.eq_false_iff]
    intro row
    have row' := isRow_of_isInfix (Text.trim_isInfix (remarkLine n)) row
    have behind {mark : Text} (dash : mark.head? = some '-') (found : mark <:+: remarkLine n) :
        mark <:+: n := by
      obtain ⟨rest, rfl⟩ := List.head?_eq_some_iff.mp dash
      have line : remarkLine n = '#' :: ' ' :: n := rfl
      rw [line, List.infix_cons_iff, List.infix_cons_iff] at found
      rcases found with lead | lead | own
      · simp at lead
      · simp at lead
      · exact own
    rw [isRow, Bool.and_eq_true, Text.contains_iff, Text.contains_iff] at row'
    rw [isRow, Text.contains_iff.mpr (behind rfl row'.1), Text.contains_iff.mpr (behind rfl row'.2)]
      at noRow
    cases noRow
  · rw [Header.parseStandalone?, angleBracketed_eq_none (by rw [hash]; decide)]

variable {label : Text} {c : Change}

/-- Whether the code of a change stands on its row. -/
def isInline (c : Change) : Bool :=
  c.kind == .overwrite && !(codeText c).isEmpty && !(codeText c).any (· == '\n')

/-- Only code of one line without a remark stands on a row. -/
theorem isInline_cases (inline : isInline c = true) :
    c.kind = .overwrite ∧ c.note = none ∧ c.code ≠ [] ∧ '\n' ∉ c.code := by
  rw [isInline, Bool.and_eq_true, Bool.and_eq_true, beq_iff_eq, Bool.not_eq_true',
    Bool.not_eq_true', List.isEmpty_eq_false_iff, List.any_eq_false] at inline
  obtain ⟨⟨kind, some⟩, clean⟩ := inline
  have noted : c.note = none := by
    by_contra noted
    obtain ⟨n, noted⟩ := Option.ne_none_iff_exists'.mp noted
    have feed : '\n' ∈ codeText c := by
      simp [codeText, noted]
    exact clean _ feed rfl
  have bare : codeText c = c.code := by rw [codeText, noted]
  rw [bare] at some clean
  exact ⟨kind, noted, some, fun feed => clean _ feed rfl⟩

def IsPlaced (label : Text) (c : Change) : Prop :=
  match c.kind with
  | .overwrite | .injection => HasColumns label c
  | .standalone => HasBrackets label c.target ∧ c.vanilla = none
  | .gecko =>
    isRevisionLabel label = true ∧ Text.trim label = label ∧ '\n' ∉ label ∧ c.target = [] ∧
      c.vanilla = none ∧ GeckoRecord.parse c.code = .ok [Change.new .gecko [] c.code]

structure IsLegible (label : Text) (c : Change) : Prop where
  placed : IsPlaced label c
  code : IsCode c.note c.code
  /-- Code below the header does not start another change. -/
  quiet : isInline c = false → ∀ l ∈ Text.splitAt '\n' (codeText c), isStart (Text.trim l) = false
  /-- Code on a row has no blanks around it, and is not taken for the word behind the arrow. -/
  inline : isInline c = true → Text.trim c.code = c.code ∧ Text.lower c.code ≠ "branch"

/-- A written change: the line that starts it, the lines below, and what a reader makes of them. -/
structure IsBlock (label : Text) (c : Change) (line : Text) (below : List Text) (header : Header) :
    Prop where
  lines : Text.splitAt '\n' (changeText label c) = line :: below
  trimmed : Text.trim line = line
  start : isStart (Text.trim line) = true
  parse : ∀ last, Header.parse last (Text.trim line) = .ok header
  quiet : ∀ l ∈ below, isStart (Text.trim l) = false
  whole : ∀ l ∈ line :: below, Text.IsLine l
  adds : ∀ m, addChange m header (bodyText below) =
    (m.pushTo label c.asWritten, none)

/-- The lines of the code are read as they are written. -/
theorem IsCode.isLine (code : IsCode c.note c.code) :
    ∀ l ∈ Text.splitAt '\n' (codeText c), Text.IsLine l := by
  have own : ∀ l ∈ Text.splitAt '\n' c.code, Text.IsLine l := fun l member =>
    Text.isLine_of_trimEnd (Text.mem_splitAt member).2 (code.ends l member)
  cases noted : c.note with
  | none =>
    have bare : codeText c = c.code := by rw [codeText, noted]
    rwa [bare]
  | some n =>
    obtain ⟨trimmed, line⟩ := code.remark n noted
    have remark : Text.IsLine (remarkLine n) :=
      Text.IsLine.append ⟨by decide, by decide⟩ line (Text.trim_eq_self_iff.mp trimmed).2
    rw [splitAt_codeText_some noted line, List.forall_mem_cons]
    exact ⟨remark, own⟩

/-- A change is made again from its columns and its body. -/
theorem changeOf_eq {vanilla : Option Text} {body : Text}
    (target : Text.trim c.target = c.target) (read : Code.splitRemark body = (c.note, c.code))
    (code : trimEnd c.code = c.code) (same : GameMod.vanillaCode? vanilla = c.vanilla) :
    GameMod.changeOf c.kind c.target body vanilla = c.asWritten := by
  rw [GameMod.changeOf, read]
  simp only [code, same]
  rw [Change.new, target]
  rfl

theorem HasColumns.vanillaCode? (row : HasColumns label c) :
    GameMod.vanillaCode? c.vanilla = c.vanilla := by
  cases found : c.vanilla with
  | none => rfl
  | some v =>
    obtain ⟨cell, normal⟩ := row.vanilla v found
    have some : v.isEmpty = false := List.isEmpty_eq_false_iff.mpr cell.nonempty
    rw [GameMod.vanillaCode?, Option.map_some, normal, Option.filter_some, some]
    rfl

theorem HasColumns.newline_not_mem (row : HasColumns label c) : '\n' ∉ rowText label c := by
  have dashes : '\n' ∉ " ---- ".toList := by decide
  unfold rowText
  cases found : c.vanilla with
  | none =>
    simp only [List.mem_append, not_or]
    exact ⟨⟨⟨row.revision.line, dashes⟩, row.target.line⟩, by decide⟩
  | some v =>
    simp only [List.mem_append, not_or]
    exact ⟨⟨⟨⟨⟨row.revision.line, dashes⟩, row.target.line⟩, dashes⟩, (row.vanilla v found).1.line⟩,
      by decide⟩

/-- A change with a row, and code below it. -/
theorem HasColumns.isBlock (row : HasColumns label c) (code : IsCode c.note c.code)
    (quiet : ∀ l ∈ Text.splitAt '\n' (codeText c), isStart (Text.trim l) = false)
    {right : Text} (solid : trimEnd right = right) (clean : '\n' ∉ right)
    (lines : changeText label c = rowText label c ++ right ++ '\n' :: codeText c)
    (kind : rowCode (Text.trim right) = .branch ∧ c.kind = .injection ∨
      rowCode (Text.trim right) = .below ∧ c.kind = .overwrite) :
    IsBlock label c (rowText label c ++ right) (Text.splitAt '\n' (codeText c))
      (.row label c.target c.vanilla (rowCode (Text.trim right))) := by
  have line : '\n' ∉ rowText label c ++ right := by
    rw [List.mem_append, not_or]
    exact ⟨row.newline_not_mem, clean⟩
  have trimmed : Text.trim (rowText label c ++ right) = rowText label c ++ right := by
    rw [row.trim_row, solid]
  refine ⟨?_, trimmed, ?_, ?_, quiet, ?_, ?_⟩
  · rw [lines, Text.splitAt_append_mark_of_not_mem line]
  · rw [trimmed]
    exact isStart_rowText label c right
  · intro last
    rw [trimmed]
    exact row.parse_row last right
  · rw [List.forall_mem_cons]
    exact ⟨Text.isLine_of_trimEnd line (Text.trim_eq_self_iff.mp trimmed).2, code.isLine⟩
  · intro m
    have change := changeOf_eq row.target.trimmed code.splitRemark_bodyText code.trimEnd_eq
      row.vanillaCode?
    rcases kind with ⟨word, kind⟩ | ⟨word, kind⟩
    · rw [kind] at change
      rw [word, addChange, GameMod.addInjection, GameMod.add, change, GameMod.pushTo]
    · rw [kind] at change
      rw [word, addChange, GameMod.addOverwrite, GameMod.add, change, GameMod.pushTo]

/-- A change with its code on its row. -/
theorem HasColumns.isBlock_inline (row : HasColumns label c) (code : IsCode c.note c.code)
    (kind : c.kind = .overwrite) (noted : c.note = none)
    (some : c.code ≠ []) (clean : '\n' ∉ c.code) (trimmed : Text.trim c.code = c.code)
    (word : Text.lower c.code ≠ "branch") :
    IsBlock label c (rowText label c ++ ' ' :: c.code) []
      (.row label c.target c.vanilla (.inline c.code)) := by
  have bare : codeText c = c.code := by rw [codeText, noted]
  have written : changeText label c = rowText label c ++ ' ' :: c.code := by
    have inline : (!c.code.isEmpty && !c.code.any (· == '\n')) = true := by
      rw [Bool.and_eq_true, Bool.not_eq_true', Bool.not_eq_true', List.isEmpty_eq_false_iff,
        List.any_eq_false]
      refine ⟨some, fun d member => ?_⟩
      rw [beq_iff_eq]
      rintro rfl
      exact clean member
    rw [changeText, kind]
    simp only [bare, inline, if_true]
    rw [List.append_assoc]
    rfl
  have solid : trimEnd (' ' :: c.code) = ' ' :: c.code := by
    have rest := Text.isAllBlank_eq_false_of_trim some trimmed
    rw [← List.singleton_append, Text.trimEnd_append _ rest, code.trimEnd_eq]
  have line : '\n' ∉ rowText label c ++ ' ' :: c.code := by
    rw [List.mem_append, List.mem_cons, not_or, not_or]
    exact ⟨row.newline_not_mem, by decide, clean⟩
  have whole : Text.trim (rowText label c ++ ' ' :: c.code) = rowText label c ++ ' ' :: c.code := by
    rw [row.trim_row, solid]
  have behind : rowCode (Text.trim (' ' :: c.code)) = .inline c.code := by
    rw [Text.trim_cons_blank _ ' ' (by decide), trimmed, rowCode, if_neg word,
      if_neg (mt List.isEmpty_iff.mp some)]
  refine ⟨?_, whole, ?_, ?_, by simp, ?_, ?_⟩
  · rw [written, Text.splitAt_eq_singleton line]
  · rw [whole]
    exact isStart_rowText label c _
  · intro last
    rw [whole, row.parse_row, behind]
  · rw [List.forall_mem_singleton]
    exact Text.isLine_of_trimEnd line (Text.trim_eq_self_iff.mp whole).2
  · intro m
    have read : Code.splitRemark c.code = (c.note, c.code) := by rw [code.plain noted, noted]
    have change := changeOf_eq row.target.trimmed read code.trimEnd_eq row.vanillaCode?
    rw [kind] at change
    rw [addChange, GameMod.addOverwrite, GameMod.add, change]
    rfl

/-- A function. -/
theorem HasBrackets.isBlock (function : HasBrackets label c.target) (code : IsCode c.note c.code)
    (quiet : ∀ l ∈ Text.splitAt '\n' (codeText c), isStart (Text.trim l) = false)
    (kind : c.kind = .standalone) (vanilla : c.vanilla = none) :
    IsBlock label c (bracketText c.target label) (Text.splitAt '\n' (codeText c))
      (.standalone c.target label) := by
  have line : '\n' ∉ bracketText c.target label := by
    simp only [bracketText, List.mem_append, not_or]
    exact ⟨⟨⟨by decide, function.nameLine⟩, by decide⟩, function.labelLine⟩
  have trimmed := function.trim_line
  refine ⟨?_, trimmed, ?_, ?_, quiet, ?_, ?_⟩
  · have written : changeText label c = bracketText c.target label ++ '\n' :: codeText c := by
      rw [changeText, kind]
      exact List.append_assoc (bracketText c.target label) ['\n'] (codeText c)
    rw [written, Text.splitAt_append_mark_of_not_mem line]
  · rw [trimmed]
    exact function.isStart_line
  · intro last
    rw [trimmed]
    exact function.parse_line last
  · rw [List.forall_mem_cons]
    exact ⟨Text.isLine_of_trimEnd line (Text.trim_eq_self_iff.mp trimmed).2, code.isLine⟩
  · intro m
    have none : GameMod.vanillaCode? none = c.vanilla := vanilla.symm
    have change := changeOf_eq function.trimmed code.splitRemark_bodyText code.trimEnd_eq none
    rw [kind] at change
    rw [addChange, GameMod.addStandalone, GameMod.add, change, GameMod.pushTo]

/-- Gecko lines that are kept as they are. -/
theorem isBlock_gecko (revision : isRevisionLabel label = true) (trimmed : Text.trim label = label)
    (line : '\n' ∉ label) (code : IsCode c.note c.code)
    (quiet : ∀ l ∈ Text.splitAt '\n' (codeText c), isStart (Text.trim l) = false)
    (kind : c.kind = .gecko) (target : c.target = []) (vanilla : c.vanilla = none)
    (parsed : GeckoRecord.parse c.code = .ok [Change.new .gecko [] c.code]) :
    IsBlock label c label (Text.splitAt '\n' (codeText c)) (.gecko label) := by
  refine ⟨?_, trimmed, ?_, ?_, quiet, ?_, ?_⟩
  · have written : changeText label c = label ++ '\n' :: codeText c := by
      rw [changeText, kind]
      exact List.append_assoc label ['\n'] (codeText c)
    rw [written, Text.splitAt_append_mark_of_not_mem line]
  · rw [trimmed]
    exact isStart_label revision
  · intro last
    rw [trimmed]
    exact parse_label revision last
  · rw [List.forall_mem_cons]
    exact ⟨Text.isLine_of_trimEnd line (Text.trim_eq_self_iff.mp trimmed).2, code.isLine⟩
  · intro m
    have change : { Change.new .gecko [] c.code with note := c.note } = c.asWritten := by
      rw [Change.new, Change.asWritten, kind, target, vanilla]
      rfl
    rw [addChange, addGeckoLines, code.splitRemark_bodyText]
    simp only [parsed, List.foldl_cons, List.foldl_nil, change]
    rfl

/-- A legible change is read back from its lines. -/
theorem IsLegible.exists_isBlock (legible : IsLegible label c) :
    ∃ line below header, IsBlock label c line below header := by
  have placed := legible.placed
  by_cases inline : isInline c = true
  · obtain ⟨trimmed, word⟩ := legible.inline inline
    obtain ⟨kind, noted, some, clean⟩ := isInline_cases inline
    rw [IsPlaced, kind] at placed
    exact ⟨_, _, _, placed.isBlock_inline legible.code kind noted some clean trimmed word⟩
  · rw [Bool.not_eq_true] at inline
    have quiet := legible.quiet inline
    cases kind : c.kind with
    | overwrite =>
      rw [IsPlaced, kind] at placed
      have written : changeText label c = rowText label c ++ [] ++ '\n' :: codeText c := by
        have below : (!(codeText c).isEmpty && !(codeText c).any (· == '\n')) = false := by
          rwa [isInline, kind, beq_self_eq_true, Bool.true_and] at inline
        rw [changeText, kind]
        simp only [below, Bool.false_eq_true, if_false, List.append_nil]
        rw [List.append_assoc]
        rfl
      exact ⟨_, _, _, placed.isBlock legible.code quiet rfl (by simp) written
        (Or.inr ⟨by decide, kind⟩)⟩
    | injection =>
      rw [IsPlaced, kind] at placed
      have written : changeText label c =
          rowText label c ++ " Branch".toList ++ '\n' :: codeText c := by
        rw [changeText, kind]
        simp
      exact ⟨_, _, _, placed.isBlock legible.code quiet (by decide) (by decide) written
        (Or.inl ⟨by decide, kind⟩)⟩
    | standalone =>
      rw [IsPlaced, kind] at placed
      exact ⟨_, _, _, placed.1.isBlock legible.code quiet kind placed.2⟩
    | gecko =>
      rw [IsPlaced, kind] at placed
      obtain ⟨revision, trimmed, line, target, vanilla, parsed⟩ := placed
      exact ⟨_, _, _, isBlock_gecko revision trimmed line legible.code quiet kind target vanilla
        parsed⟩

/-- A header and the lines up to the next one are read as one change. -/
theorem readChanges_block {m : GameMod} {last : Option Text} {line : Text} {below rest : List Text}
    {header : Header} (start : isStart (Text.trim line) = true)
    (parsed : Header.parse last (Text.trim line) = .ok header)
    (quiet : ∀ l ∈ below, isStart (Text.trim l) = false)
    (stop : ∀ l ∈ rest.head?, isStart (Text.trim l) = true) :
    readChanges m last (line :: (below ++ rest)) =
      readChanges (record (addChange m header (bodyText below))) (header.rowRevision?.or last)
        rest := by
  have solid : isAllBlank line = false := by
    rw [Bool.eq_false_iff]
    intro blank
    rw [Text.trim_eq_nil_iff.mpr blank] at start
    revert start
    decide
  have body : ∀ l ∈ below, (!isStart (Text.trim l)) = true := fun l member => by
    rw [quiet l member]
    rfl
  have taken : (below ++ rest).takeWhile (fun l => !isStart (Text.trim l)) = below := by
    rw [List.takeWhile_append_of_pos body]
    cases rest with
    | nil => rw [List.takeWhile_nil, List.append_nil]
    | cons l rest =>
      rw [List.takeWhile_cons, stop l rfl]
      exact List.append_nil below
  have dropped : (below ++ rest).dropWhile (fun l => !isStart (Text.trim l)) = rest := by
    rw [List.dropWhile_append_of_pos body]
    cases rest with
    | nil => rfl
    | cons l rest =>
      rw [List.dropWhile_cons, stop l rfl]
      rfl
  rw [readChanges, solid, if_neg (by simp)]
  simp only [parsed, taken, dropped]

def entryLines (entries : List (Text × Change)) : List Text :=
  entries.flatMap fun e => Text.splitAt '\n' (changeText e.1 e.2)

theorem entryLines_cons (e : Text × Change) (entries : List (Text × Change)) :
    entryLines (e :: entries) = Text.splitAt '\n' (changeText e.1 e.2) ++ entryLines entries :=
  List.flatMap_cons

/-- The lines of changes begin with a line that starts one. -/
theorem isStart_head_entryLines {entries : List (Text × Change)}
    (legible : ∀ e ∈ entries, IsLegible e.1 e.2) :
    ∀ l ∈ (entryLines entries).head?, Text.trim l = l ∧ isStart (Text.trim l) = true := by
  cases entries with
  | nil => simp [entryLines]
  | cons e entries =>
    obtain ⟨line, below, header, block⟩ := (legible e List.mem_cons_self).exists_isBlock
    rw [entryLines_cons, block.lines]
    rintro l ⟨⟩
    exact ⟨block.trimmed, block.start⟩

theorem isLine_entryLines {entries : List (Text × Change)}
    (legible : ∀ e ∈ entries, IsLegible e.1 e.2) : ∀ l ∈ entryLines entries, Text.IsLine l := by
  intro l member
  obtain ⟨e, inside, own⟩ := List.mem_flatMap.mp member
  obtain ⟨line, below, header, block⟩ := (legible e inside).exists_isBlock
  rw [block.lines] at own
  exact block.whole l own

/-- Written changes are read one after the other. -/
theorem readChanges_entryLines {entries : List (Text × Change)}
    (legible : ∀ e ∈ entries, IsLegible e.1 e.2) (m : GameMod) (last : Option Text) :
    readChanges m last (entryLines entries) =
      takeIn m entries := by
  induction entries generalizing m last with
  | nil =>
    rw [entryLines, List.flatMap_nil, readChanges]
    rfl
  | cons e entries ih =>
    rw [List.forall_mem_cons] at legible
    obtain ⟨line, below, header, block⟩ := legible.1.exists_isBlock
    rw [entryLines_cons, block.lines, List.cons_append,
      readChanges_block block.start (block.parse last) block.quiet
        fun l first => (isStart_head_entryLines legible.2 l first).2, block.adds]
    exact ih legible.2 _ _

end ModText

end GamePatch
