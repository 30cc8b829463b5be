import GamePatch.Proofs.ModText.Changes

set_option autoImplicit false

namespace GamePatch

namespace ModText

open Header (isOffset isRow isStart)
open Text (isAllBlank trim trimEnd)

/-- What is read of a body: its code, and the remark above the code. -/
structure IsReadBody (lines : List Text) (note : Option Text) (code : Text) : Prop where
  isCode : IsCode note code
  /-- The lines of the code stand in the body, up to blanks around them. -/
  origin : ∀ l ∈ Text.splitAt '\n' code, l = [] ∨ ∃ line ∈ lines, trim l = trim line
  /-- So does the remark. -/
  remark : ∀ n ∈ note, ∃ line ∈ lines, n <:+: trim line

theorem remarkOf_isInfix (line : Text) : Code.remarkOf line <:+: trim line :=
  (Text.trim_isInfix _).trans (List.dropWhile_suffix _).isInfix

/-- The first line of a body is read as a remark, and the code is what stands below it. -/
theorem isReadBody_below {lines : List Text} {l body code : Text} (clean : '\n' ∉ l)
    (tidy : IsTidy (Text.splitAt '\n' body))
    (origin : ∀ k ∈ Text.splitAt '\n' body, ∃ line ∈ lines, trim k = trim line)
    (first : (Text.splitAt '\n' body).head? = some l)
    (below : code = [] ∨ Text.splitAt '\n' body = l :: Text.splitAt '\n' code) :
    IsReadBody lines (some (Code.remarkOf l)) code := by
  have inside (some : code ≠ []) : ∀ k ∈ Text.splitAt '\n' code, k ∈ Text.splitAt '\n' body := by
    rw [below.resolve_left some]
    exact fun _ => List.mem_cons_of_mem l
  refine ⟨⟨fun k member => ?_, fun some k last => ?_, by simp, by simp, ?_⟩, fun k member => ?_, ?_⟩
  · by_cases none : code = []
    · rw [none] at member
      rw [List.mem_singleton.mp member]
      rfl
    · exact tidy.ends k (inside none k member)
  · refine tidy.last k ?_
    obtain ⟨k', ks, split⟩ := List.exists_cons_of_ne_nil (Text.splitAt_ne_nil '\n' code)
    rw [below.resolve_left some, split, List.getLast?_cons_cons, ← split]
    exact last
  · rintro _ ⟨⟩
    have line : '\n' ∉ Code.remarkOf l := fun feed =>
      clean (((remarkOf_isInfix l).trans (Text.trim_isInfix l)).subset feed)
    exact ⟨Text.trim_trim _, line⟩
  · by_cases none : code = []
    · rw [none] at member
      exact Or.inl (List.mem_singleton.mp member)
    · exact Or.inr (origin k (inside none k member))
  · rintro _ ⟨⟩
    obtain ⟨line, known, same⟩ := origin l (List.mem_of_mem_head? first)
    exact ⟨line, known, same ▸ remarkOf_isInfix l⟩

/-- Code and its remark are read from a body. -/
theorem isReadBody_of_splitRemark {lines : List Text} (clean : ∀ l ∈ lines, '\n' ∉ l)
    {note : Option Text} {code : Text} (read : Code.splitRemark (bodyText lines) = (note, code)) :
    IsReadBody lines note code := by
  rcases bodyText_cases clean with empty | ⟨tidy, origin⟩
  · rw [empty] at read
    obtain ⟨rfl, rfl⟩ : note = none ∧ code = [] := by
      have nothing : Code.splitRemark [] = (none, []) := by decide
      rw [nothing] at read
      exact ⟨(Prod.mk.inj read).1.symm, (Prod.mk.inj read).2.symm⟩
    refine ⟨⟨by decide, by simp, by simp, by decide, by simp⟩, fun l member => Or.inl ?_, by simp⟩
    exact List.mem_singleton.mp member
  · obtain ⟨l, more, whole, clean', first, shape⟩ := exists_first_line (bodyText lines)
    have solid : isAllBlank l = false := tidy.first l first
    have own : ∀ k ∈ Text.splitAt '\n' (bodyText lines), ∃ line ∈ lines, trim k = trim line := by
      intro k member
      obtain ⟨line, inside, rfl⟩ := origin k member
      exact ⟨line, inside, Text.trim_trimEnd line⟩
    have full := read
    rw [whole, splitRemark_append clean' solid shape] at read
    split at read
    case isTrue hash =>
      obtain ⟨rfl, rfl⟩ := Prod.mk.inj read
      apply isReadBody_below clean' tidy own first
      rcases shape with rfl | ⟨rest, rfl⟩
      · exact Or.inl rfl
      · rw [whole, Text.splitAt_append_mark_of_not_mem clean']
        exact Or.inr rfl
    case isFalse =>
      obtain ⟨rfl, rfl⟩ := Prod.mk.inj read
      rw [← whole] at full ⊢
      exact ⟨⟨tidy.ends, fun _ => tidy.last, fun _ _ => tidy.first, fun _ => full, by simp⟩,
        fun k member => Or.inr (own k member), by simp⟩

structure IsReadName (label name : Text) : Prop where
  nonempty : name ≠ []
  trimmed : trim name = name
  inside : '>' ∉ name
  noLink : Text.contains "://" name = false
  line : '\n' ∉ name
  revision : isRevisionLabel label = true
  trimmedLabel : trim label = label
  labelLine : '\n' ∉ label

structure IsReadRow (revision offset : Text) (vanilla : Option Text) : Prop where
  revision : IsCell revision
  place : IsCell offset
  isOffset : isOffset offset = true
  vanilla : ∀ v ∈ vanilla, IsCell v

/-- The place of a change, as it is read. -/
def IsReadPlace (label : Text) (c : Change) : Prop :=
  match c.kind with
  | .overwrite | .injection => IsReadRow label c.target c.vanilla
  | .standalone => IsReadName label c.target ∧ c.vanilla = none
  | .gecko => IsPlaced label c

structure IsRead (label : Text) (c : Change) : Prop where
  place : IsReadPlace label c
  code : IsCode c.note c.code
  quiet : isInline c = false → ∀ l ∈ Text.splitAt '\n' c.code, isStart (trim l) = false
  remark : c.kind ≠ .overwrite → ∀ n ∈ c.note, isRow n = false
  fresh : c.asWritten = c

/-- A place that is not taken for something else in its new header. A revision must not look like a
place, vanilla code must not lose another mark of hexadecimal digits, and what is around the name of
a function must not look like a reference or a row. -/
def IsRewritablePlace (label : Text) (c : Change) : Prop :=
  match c.kind with
  | .overwrite | .injection =>
    (c.vanilla = none → isOffset label = false) ∧ ∀ v ∈ c.vanilla, Hex.normalize v = v
  | .standalone => c.target.head? ≠ some '<' ∧ isRow (bracketText c.target label) = false
  | .gecko => True

/-- A change whose new lines are read as the change. Code of one line that goes on the row of an
overwrite loses its indentation there, and the word `branch` makes the row an injection. -/
structure IsRewritableChange (label : Text) (c : Change) : Prop where
  place : IsRewritablePlace label c
  remark : c.kind = .overwrite → ∀ n ∈ c.note, isRow n = false
  inline : c.kind = .overwrite → c.note = none → '\n' ∉ c.code →
    trim c.code = c.code ∧ Text.lower c.code ≠ "branch"

variable {label : Text} {c : Change}

theorem IsReadPlace.isPlaced (read : IsReadPlace label c) (rewritable : IsRewritablePlace label c) :
    IsPlaced label c := by
  have columns (read : IsReadRow label c.target c.vanilla)
      (rewritable : (c.vanilla = none → isOffset label = false) ∧
        ∀ v ∈ c.vanilla, Hex.normalize v = v) : HasColumns label c :=
    ⟨read.revision, read.place, read.isOffset,
      fun v known => ⟨read.vanilla v known, rewritable.2 v known⟩, rewritable.1⟩
  cases kind : c.kind with
  | overwrite =>
    rw [IsReadPlace, kind] at read
    rw [IsRewritablePlace, kind] at rewritable
    rw [IsPlaced, kind]
    exact columns read rewritable
  | injection =>
    rw [IsReadPlace, kind] at read
    rw [IsRewritablePlace, kind] at rewritable
    rw [IsPlaced, kind]
    exact columns read rewritable
  | standalone =>
    rw [IsReadPlace, kind] at read
    rw [IsRewritablePlace, kind] at rewritable
    rw [IsPlaced, kind]
    obtain ⟨name, vanilla⟩ := read
    exact ⟨⟨name.nonempty, name.trimmed, rewritable.1, name.inside, name.noLink, name.line,
      name.revision, name.trimmedLabel, name.labelLine, rewritable.2⟩, vanilla⟩
  | gecko =>
    rw [IsReadPlace, kind] at read
    exact read

/-- A change that was read and is not taken for something else is read from its own lines. -/
theorem IsRead.isLegible (read : IsRead label c) (rewritable : IsRewritableChange label c) :
    IsLegible label c := by
  have remark : ∀ n ∈ c.note, isRow n = false := by
    by_cases kind : c.kind = .overwrite
    · exact rewritable.remark kind
    · exact read.remark kind
  refine ⟨read.place.isPlaced rewritable.place, read.code, fun below => ?_, fun inline => ?_⟩
  · have own := read.quiet below
    cases noted : c.note with
    | none =>
      have bare : codeText c = c.code := by rw [codeText, noted]
      rw [bare]
      exact own
    | some n =>
      rw [splitAt_codeText_some noted (read.code.remark n noted).2, List.forall_mem_cons]
      exact ⟨isStart_remarkLine (remark n noted), own⟩
  · obtain ⟨kind, noted, -, clean⟩ := isInline_cases inline
    exact rewritable.inline kind noted clean

/-- A part of a line that starts nothing is no row. -/
theorem isRow_of_quiet {line part : Text} (quiet : isStart (trim line) = false)
    (inside : part <:+: trim line) : isRow part = false := by
  rw [isStart, Bool.or_eq_false_iff, Bool.or_eq_false_iff] at quiet
  rw [Bool.eq_false_iff]
  intro row
  rw [isRow_of_isInfix inside row] at quiet
  cases quiet.1.1

/-- A change that is made from a body. -/
theorem isRead_changeOf {kind : ChangeKind} {target : Text} {vanilla : Option Text}
    {lines : List Text} (trimmed : trim target = target) (clean : ∀ l ∈ lines, '\n' ∉ l)
    (quiet : ∀ l ∈ lines, isStart (trim l) = false)
    (place : ∀ c : Change, c.kind = kind → c.target = target →
      c.vanilla = GameMod.vanillaCode? vanilla → IsReadPlace label c) :
    IsRead label (GameMod.changeOf kind target (bodyText lines) vanilla) := by
  cases split : Code.splitRemark (bodyText lines) with
  | mk note code =>
    obtain ⟨isCode, origin, remark⟩ := isReadBody_of_splitRemark clean split
    have change : GameMod.changeOf kind target (bodyText lines) vanilla =
        { Change.new kind target code with
          note := note
          vanilla := GameMod.vanillaCode? vanilla } := by
      rw [GameMod.changeOf, split]
      simp only [isCode.trimEnd_eq]
    rw [change]
    refine ⟨place _ rfl trimmed rfl, isCode, fun _ l member => ?_, fun _ n noted => ?_, rfl⟩
    · rcases origin l member with rfl | ⟨line, inside, same⟩
      · decide
      · rw [same]
        exact quiet line inside
    · obtain ⟨line, inside, part⟩ := remark n noted
      exact isRow_of_quiet (quiet line inside) part

/-- A change that is made from the code on its row. -/
theorem isRead_changeOf_inline {target code : Text} {vanilla : Option Text}
    (trimmed : trim target = target) (some : code ≠ []) (trimmed' : trim code = code)
    (clean : '\n' ∉ code)
    (place : ∀ c : Change, c.kind = .overwrite → c.target = target →
      c.vanilla = GameMod.vanillaCode? vanilla → IsReadPlace label c) :
    IsRead label (GameMod.changeOf .overwrite target code vanilla) := by
  have solid := Text.isAllBlank_eq_false_of_trim some trimmed'
  have split := splitRemark_append clean solid (Or.inl rfl)
  rw [List.append_nil] at split
  by_cases hash : (trim code).head? = Option.some '#'
  · rw [if_pos hash] at split
    have change : GameMod.changeOf .overwrite target code vanilla =
        { Change.new .overwrite target [] with
          note := Option.some (Code.remarkOf code)
          vanilla := GameMod.vanillaCode? vanilla } := by
      rw [GameMod.changeOf, split]
      rfl
    have line : '\n' ∉ Code.remarkOf code := fun feed =>
      clean (((remarkOf_isInfix code).trans (Text.trim_isInfix code)).subset feed)
    have remark : trim (Code.remarkOf code) = Code.remarkOf code := Text.trim_trim _
    have empty : ∀ l ∈ Text.splitAt '\n' [], trimEnd l = l ∧ isStart (trim l) = false := by decide
    rw [change]
    refine ⟨place _ rfl trimmed rfl, ⟨fun l member => (empty l member).1, by simp [Change.new],
      by simp, by simp, ?_⟩, fun _ l member => (empty l member).2, fun other => absurd rfl other, rfl⟩
    rintro _ ⟨⟩
    exact ⟨remark, line⟩
  · rw [if_neg hash] at split
    have ends : trimEnd code = code := (Text.trim_eq_self_iff.mp trimmed').2
    have change : GameMod.changeOf .overwrite target code vanilla =
        { Change.new .overwrite target code with vanilla := GameMod.vanillaCode? vanilla } := by
      rw [GameMod.changeOf, split]
      simp only [ends]
      rfl
    have single : Text.splitAt '\n' code = [code] := Text.splitAt_eq_singleton clean
    have whole : ∀ l ∈ Text.splitAt '\n' code, trimEnd l = l ∧ isAllBlank l = false := by
      rw [single, List.forall_mem_singleton]
      exact ⟨ends, solid⟩
    have row : isInline { Change.new .overwrite target code with
        vanilla := GameMod.vanillaCode? vanilla } = true := by
      have noFeed : code.any (· == '\n') = false :=
        List.any_eq_false.mpr fun x member feed => clean (beq_iff_eq.mp feed ▸ member)
      have full : code.isEmpty = false := List.isEmpty_eq_false_iff.mpr some
      simp [isInline, codeText, Change.new, noFeed, full]
    rw [change]
    refine ⟨place _ rfl trimmed rfl, ⟨fun l member => (whole l member).1, fun _ l last =>
      (whole l (List.mem_of_mem_getLast? last)).2, fun _ _ l first =>
      (whole l (List.mem_of_mem_head? first)).2, fun _ => split, by simp [Change.new]⟩,
      fun below => ?_, fun other => absurd rfl other, rfl⟩
    rw [row] at below
    cases below

def IsReadHeader : Header → Prop
  | .row revision offset vanilla code =>
    IsReadRow revision offset vanilla ∧ ∀ t, code = .inline t → t ≠ [] ∧ trim t = t ∧ '\n' ∉ t
  | .standalone name revision => IsReadName revision name
  | .gecko revision => isRevisionLabel revision = true ∧ trim revision = revision ∧ '\n' ∉ revision

theorem isCell_of_mem_rowParts {left part : Text} (clean : '\n' ∉ left)
    (member : part ∈ Header.rowParts left) : IsCell part := by
  obtain ⟨inside, some⟩ := List.mem_filter.mp member
  obtain ⟨s, own, rfl⟩ := List.mem_map.mp inside
  obtain ⟨within, noDash⟩ := Text.mem_splitAt own
  have own' := Text.trim_isInfix s
  exact ⟨by simpa using some, Text.trim_trim s, fun dash => noDash (own'.subset dash),
    fun feed => clean ((own'.trans within).subset feed)⟩

/-- The columns of a row are its parts, or the revision of the row before. -/
theorem isReadRow_of_readRow {last : Option Text} {parts : List Text} {revision offset : Text}
    {vanilla : Option Text} (before : ∀ r ∈ last, IsCell r) (cells : ∀ part ∈ parts, IsCell part)
    (read : Header.readRow last parts = some (revision, offset, vanilla)) :
    IsReadRow revision offset vanilla := by
  have inherited {a : Text} {b : Option Text}
      (read : (last.map fun revision => (revision, a, b)) = some (revision, offset, vanilla)) :
      IsCell revision ∧ offset = a ∧ vanilla = b := by
    obtain ⟨r, known, same⟩ := Option.map_eq_some_iff.mp read
    obtain ⟨rfl, rfl, rfl⟩ : r = revision ∧ a = offset ∧ b = vanilla := by simpa using same
    exact ⟨before r known, rfl, rfl⟩
  unfold Header.readRow at read
  split at read
  case h_1 a =>
    rw [List.forall_mem_singleton] at cells
    split at read
    case isTrue place =>
      obtain ⟨cell, rfl, rfl⟩ := inherited read
      exact ⟨cell, cells, place, by simp⟩
    case isFalse => cases read
  case h_2 a b =>
    rw [List.forall_mem_cons, List.forall_mem_singleton] at cells
    split at read
    case isTrue place =>
      obtain ⟨cell, rfl, rfl⟩ := inherited read
      exact ⟨cell, cells.1, place, by simpa using cells.2⟩
    case isFalse =>
      split at read
      case isTrue place =>
        obtain ⟨rfl, rfl, rfl⟩ : a = revision ∧ b = offset ∧ none = vanilla := by simpa using read
        exact ⟨cells.1, cells.2, place, by simp⟩
      case isFalse => cases read
  case h_3 a b d =>
    rw [List.forall_mem_cons, List.forall_mem_cons, List.forall_mem_singleton] at cells
    split at read
    case isTrue place =>
      obtain ⟨rfl, rfl, rfl⟩ : a = revision ∧ b = offset ∧ some d = vanilla := by simpa using read
      exact ⟨cells.1, cells.2.1, place, by simpa using cells.2.2⟩
    case isFalse => cases read
  case h_4 => cases read

/-- What is read from a line that starts a change. -/
theorem isReadHeader_of_parse {last : Option Text} {line : Text} {header : Header}
    (before : ∀ r ∈ last, IsCell r) (clean : '\n' ∉ line) (trimmed : trim line = line)
    (read : Header.parse last line = .ok header) : IsReadHeader header := by
  rw [Header.parse] at read
  split at read
  case isTrue =>
    rw [Header.parseRow] at read
    split at read
    case h_1 => cases read
    case h_2 left right cut =>
      have whole := Text.eq_of_cut cut
      have left' : '\n' ∉ left := fun feed => clean (by simp [whole, feed])
      have right' : '\n' ∉ right := fun feed => clean (by simp [whole, feed])
      split at read
      case h_1 => cases read
      case h_2 revision offset vanilla columns =>
        obtain rfl := Except.ok.inj read
        have row := isReadRow_of_readRow before
          (fun part member => isCell_of_mem_rowParts left' member) columns
        refine ⟨row, fun t inline => ?_⟩
        rw [Header.rowCode] at inline
        split at inline
        · cases inline
        · split at inline
          · cases inline
          case isFalse some =>
            obtain rfl := RowCode.inline.inj inline
            exact ⟨by simpa using some, Text.trim_trim right, fun feed =>
              right' ((Text.trim_isInfix right).subset feed)⟩
  case isFalse =>
    split at read
    case h_1 found =>
      obtain rfl := Except.ok.inj read
      rw [Header.parseStandalone?] at found
      split at found
      case h_1 => cases found
      case h_2 name revision brackets =>
        split at found
        case isTrue => cases found
        case isFalse known =>
          obtain rfl := Option.some.inj found
          obtain ⟨⟨trimmed', inside, part⟩, trimmed'', part'⟩ := isInfix_of_angleBracketed brackets
          simp only [Bool.or_eq_true, not_or, Bool.not_eq_true, Bool.not_eq_false',
            List.isEmpty_eq_false_iff] at known
          exact ⟨known.1.1, trimmed', inside, known.1.2, fun feed => clean (part.subset feed),
            by simpa using known.2, trimmed'', fun feed => clean (part'.subset feed)⟩
    case h_2 =>
      split at read
      case isTrue revision =>
        obtain rfl := Except.ok.inj read
        exact ⟨revision, trimmed, clean⟩
      case isFalse => cases read

end ModText

end GamePatch
