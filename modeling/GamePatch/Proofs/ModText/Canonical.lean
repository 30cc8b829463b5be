import GamePatch.Proofs.ModText.Composed

set_option autoImplicit false

namespace GamePatch

instance : DecidablePred Hex.IsDigit :=
  fun c => inferInstanceAs (Decidable (Text.isHexDigit c = true ∧ c.toUpper = c))

instance : DecidablePred Hex.IsDigits := fun s => List.decidableBAll Hex.IsDigit s

namespace ModText

open Header (isOffset isRow isStart)
open Text (trim trimStart trimEnd isAllBlank)

/-- The characters of function names: letters, digits, the underscore and the period. What is not
ASCII counts as a letter unless it is blank. -/
def isNameLetter (c : Char) : Bool :=
  c.isAlphanum || c == '_' || c == '.' || (128 ≤ c.toNat && !Text.isBlank c)

/-- Whether the place of a change, or the name of a function, is written plainly. -/
def isPlainPlace (c : Change) : Bool :=
  match c.kind with
  | .overwrite | .injection => trim c.target == c.target && isOffset c.target
  | .standalone => !c.target.isEmpty && c.target.all isNameLetter && c.vanilla.isNone
  | .gecko => false

/-- A change as a careful author writes it. -/
structure IsCanonicalChange (c : Change) : Prop where
  place : isPlainPlace c = true
  vanilla : ∀ v ∈ c.vanilla, v ≠ [] ∧ Hex.IsDigits v
  note : ∀ n ∈ c.note, trim n = n ∧ '\n' ∉ n ∧ n.head? ≠ some '#' ∧ Text.contains "->" n = false
  first : c.code ≠ [] → ∀ l ∈ (Text.splitAt '\n' c.code).head?, isAllBlank l = false
  last : c.code ≠ [] → ∀ l ∈ (Text.splitAt '\n' c.code).getLast?, isAllBlank l = false
  ends : ∀ l ∈ Text.splitAt '\n' c.code, trimEnd l = l
  quiet : ∀ l ∈ Text.splitAt '\n' c.code, isStart (trim l) = false
  /-- Without a remark, the code does not begin with one. -/
  plain : c.note = none → ∀ l ∈ (Text.splitAt '\n' c.code).head?, (trim l).head? ≠ some '#'
  /-- Code that goes on the row of an overwrite. -/
  inline : c.kind = .overwrite → c.note = none → '\n' ∉ c.code →
    trimStart c.code = c.code ∧ Text.lower c.code ≠ "branch"

/-- A mod with a title and such changes. -/
structure IsCanonical (m : GameMod) : Prop where
  title : IsTitle m.name
  noSource : m.sourceText = none
  noTop : m.description = [] ∧ m.links = [] ∧ m.authors = [] ∧ m.options = []
  nonempty : m.revisions ≠ []
  distinct : (m.revisions.map Revision.label).Nodup
  labels : ∀ r ∈ m.revisions, trim r.label = r.label ∧ isRevisionLabel r.label = true
  changes : ∀ r ∈ m.revisions, r.changes ≠ [] ∧ ∀ c ∈ r.changes, IsCanonicalChange c

variable {label : Text} {c : Change}

theorem isCell_of_isDigits {s : Text} (nonempty : s ≠ []) (digits : Hex.IsDigits s) : IsCell s :=
  ⟨nonempty, Text.trim_eq_self_of_forall s fun c member => (digits c member).not_blank,
    fun dash => (digits _ dash).ne (by decide) rfl, fun feed => (digits _ feed).ne (by decide) rfl⟩

theorem isBlank_of_isNameLetter {x : Char} (letter : isNameLetter x = true) :
    Text.isBlank x = false := by
  rw [isNameLetter, Bool.or_eq_true, Bool.or_eq_true, Bool.or_eq_true, beq_iff_eq, beq_iff_eq,
    Bool.and_eq_true, Bool.not_eq_true'] at letter
  rcases letter with ((ascii | rfl) | rfl) | ⟨-, solid⟩
  · have range : (65 ≤ x.toNat ∧ x.toNat ≤ 90) ∨ (97 ≤ x.toNat ∧ x.toNat ≤ 122) ∨
        (48 ≤ x.toNat ∧ x.toNat ≤ 57) := by
      have both {p q : Prop} [Decidable p] [Decidable q] (holds : (decide p && decide q) = true) :
          p ∧ q :=
        (Bool.and_eq_true_iff.trans (and_congr decide_eq_true_iff decide_eq_true_iff)).mp holds
      rcases Bool.or_eq_true_iff.mp ascii with alpha | digit
      · rcases Bool.or_eq_true_iff.mp alpha with large | small
        · exact Or.inl (decide_eq_true_iff.mp large)
        · exact Or.inr (Or.inl (both small))
      · exact Or.inr (Or.inr (both digit))
    rw [Text.isBlank]
    simp
    omega
  · decide
  · decide
  · exact solid

theorem IsCanonicalChange.isCode (canonical : IsCanonicalChange c) : IsCode c.note c.code := by
  refine ⟨canonical.ends, canonical.last, fun _ => canonical.first, fun noted => ?_,
    fun n noted => ⟨(canonical.note n noted).1, (canonical.note n noted).2.1⟩⟩
  by_cases empty : c.code = []
  · rw [empty]
    rfl
  · obtain ⟨l, first⟩ := Option.ne_none_iff_exists'.mp
      (mt List.head?_eq_none_iff.mp (Text.splitAt_ne_nil '\n' c.code))
    exact splitRemark_eq_none first (canonical.first empty l first)
      (canonical.plain noted l first)

theorem IsCanonicalChange.isPlaced (canonical : IsCanonicalChange c) (trimmed : trim label = label)
    (line : '\n' ∉ label) (revision : isRevisionLabel label = true) : IsPlaced label c := by
  have place := canonical.place
  have columns (target : (trim c.target == c.target && isOffset c.target) = true) :
      HasColumns label c := by
    rw [Bool.and_eq_true, beq_iff_eq] at target
    refine ⟨isCell_of_isRevisionLabel trimmed line revision, isCell_of_isOffset target.1 target.2,
      target.2, fun v known => ?_, fun _ => isOffset_of_isRevisionLabel revision⟩
    obtain ⟨some, digits⟩ := canonical.vanilla v known
    exact ⟨isCell_of_isDigits some digits, Hex.normalize_of_isDigits digits⟩
  cases kind : c.kind with
  | overwrite =>
    rw [isPlainPlace, kind] at place
    rw [IsPlaced, kind]
    exact columns place
  | injection =>
    rw [isPlainPlace, kind] at place
    rw [IsPlaced, kind]
    exact columns place
  | gecko =>
    rw [isPlainPlace, kind] at place
    cases place
  | standalone =>
    rw [isPlainPlace, kind] at place
    rw [IsPlaced, kind]
    simp only [Bool.and_eq_true, Bool.not_eq_true', List.isEmpty_eq_false_iff, List.all_eq_true,
      Option.isNone_iff_eq_none] at place
    obtain ⟨⟨some, letters⟩, vanilla⟩ := place
    have absent {mark : Char} (other : isNameLetter mark = false) : mark ∉ c.target := by
      intro member
      rw [letters mark member] at other
      cases other
    have noDash : '-' ∉ bracketText c.target label := by
      simp only [bracketText, List.mem_append, not_or]
      exact ⟨⟨⟨by decide, absent (by decide)⟩, by decide⟩,
        not_mem_label revision (by decide) (by decide)⟩
    have solid : ∀ x ∈ c.target, Text.isBlank x = false :=
      fun x member => isBlank_of_isNameLetter (letters x member)
    refine ⟨⟨some, Text.trim_eq_self_of_forall _ solid, ?_, absent (by decide), ?_,
      absent (by decide), revision, trimmed, line, isRow_eq_false noDash⟩, vanilla⟩
    · exact fun first => absent (by decide) (List.mem_of_mem_head? first)
    · rw [Bool.eq_false_iff, ne_eq, Text.contains_iff]
      exact fun slashes => absent (by decide) (slashes.subset (by decide : '/' ∈ "://".toList))

/-- A canonical change is read back from its lines. -/
theorem IsCanonicalChange.isLegible (canonical : IsCanonicalChange c) (trimmed : trim label = label)
    (line : '\n' ∉ label) (revision : isRevisionLabel label = true) : IsLegible label c := by
  refine ⟨canonical.isPlaced trimmed line revision, canonical.isCode, fun _ => ?_, fun inline => ?_⟩
  · cases noted : c.note with
    | none =>
      have bare : codeText c = c.code := by rw [codeText, noted]
      rw [bare]
      exact canonical.quiet
    | some n =>
      obtain ⟨-, clean, -, noArrow⟩ := canonical.note n noted
      rw [splitAt_codeText_some noted clean, List.forall_mem_cons]
      have noRow : isRow n = false := by rw [isRow, noArrow, Bool.and_false]
      exact ⟨isStart_remarkLine noRow, canonical.quiet⟩
  · obtain ⟨kind, noted, -, clean⟩ := isInline_cases inline
    obtain ⟨start, word⟩ := canonical.inline kind noted clean
    exact ⟨Text.trim_eq_self_iff.mpr ⟨start, canonical.isCode.trimEnd_eq⟩, word⟩

/-- A canonical mod is read back from its text, if none of its revisions is broken over two lines. -/
theorem parse_write_of_canonical {m : GameMod} (canonical : IsCanonical m)
    (lines : ∀ r ∈ m.revisions, '\n' ∉ r.label) :
    ∃ m', parse (write m) = .ok m' ∧ m'.errors = [] ∧ m'.name = m.name ∧
      m'.revisions = m.revisions.map Revision.asWritten := by
  obtain ⟨noDescription, noLinks, noAuthors, noOptions⟩ := canonical.noTop
  have top : (topLines m).tail = if m.changes.any hasRow then [tableHeader] else [] := by
    simp [topLines, noDescription, noLinks, noAuthors, noOptions, optionBlock]
  have above : aboveChanges m = if m.changes.any hasRow then [tableHeader] else [] := by
    have single : Text.splitAt '\n' tableHeader = [tableHeader] := by decide +kernel
    rw [aboveChanges, top]
    split
    · rw [List.flatMap_cons, single]
      rfl
    · rfl
  have whole : ∀ l ∈ aboveChanges m, Text.IsLine l := by
    rw [above]
    split
    · exact List.forall_mem_singleton.mpr isLine_tableHeader
    · simp
  have legible : ∀ e ∈ entriesOf m.revisions, IsLegible e.1 e.2 := by
    rw [forall_entriesOf]
    intro r known c inside
    obtain ⟨trimmed, revision⟩ := canonical.labels r known
    exact ((canonical.changes r known).2 c inside).isLegible trimmed (lines r known) revision
  have listed : IsListed m.revisions :=
    ⟨canonical.distinct, fun r known => (canonical.labels r known).1,
      fun r known => (canonical.changes r known).1⟩
  have read (rest : List Text) (stop : ∀ l ∈ rest.head?, trim l = l ∧ isStart (trim l) = true) :
      readTop (GameMod.new m.name) [] (aboveChanges m ++ rest) = (GameMod.new m.name, rest) := by
    have empty : ({ GameMod.new m.name with description := bodyText [] } : GameMod) =
      GameMod.new m.name := rfl
    have ends := readTop_stop (GameMod.new m.name) [] fun l first => (stop l first).2
    rw [above]
    split
    · rw [List.singleton_append, readTop_tableHeader, ends, empty]
    · rw [List.nil_append, ends, empty]
  obtain ⟨current, parsed⟩ := parse_compose canonical.title whole legible listed read rfl
  have written : write m = compose m := by rw [write, canonical.noSource, Option.getD_none]
  rw [written, parsed]
  exact ⟨_, rfl, rfl, canonical.title.trimmed, rfl⟩

/-- A word on its row, an injection with a remark and vanilla code, and the function that it calls. -/
def tableMod : GameMod :=
  { GameMod.new "Table" with
    revisions :=
      [⟨"NTSC 1.02", [.new .overwrite "0x80001000" "38600001",
        { Change.new .injection "0x80002000" "bl <Helper>\n\nnop" with
          note := some "call it"
          vanilla := some "7C0802A6" }]⟩,
      ⟨"ALL", [.new .standalone "Helper" "blr"]⟩] }

theorem tableMod_isCanonical : IsCanonical tableMod := by
  have word : IsCanonicalChange (.new .overwrite "0x80001000" "38600001") := by
    constructor <;> decide +kernel
  have call : IsCanonicalChange
      { Change.new .injection "0x80002000" "bl <Helper>\n\nnop" with
        note := some "call it"
        vanilla := some "7C0802A6" } := by
    constructor <;> decide +kernel
  have function : IsCanonicalChange (.new .standalone "Helper" "blr") := by
    constructor <;> decide +kernel
  refine ⟨⟨by decide, by decide, by decide, by decide⟩, rfl, ⟨rfl, rfl, rfl, rfl⟩, by decide,
    by decide, by decide +kernel, ?_⟩
  simp only [tableMod, List.forall_mem_cons]
  exact ⟨⟨by simp, word, call, by simp⟩, ⟨by simp, function, by simp⟩, by simp⟩

theorem tableMod_parse_write : IsCanonical tableMod ∧ (∀ r ∈ tableMod.revisions, '\n' ∉ r.label) ∧
    ∃ m', parse (write tableMod) = .ok m' ∧ m'.errors = [] ∧ m'.name = "Table" ∧
      m'.revisions = tableMod.revisions := by
  have lines : ∀ r ∈ tableMod.revisions, '\n' ∉ r.label := by decide
  exact ⟨tableMod_isCanonical, lines, parse_write_of_canonical tableMod_isCanonical lines⟩

/-- A mod for a revision whose number is on a line of its own. -/
def brokenLabelMod : GameMod :=
  { GameMod.new "M" with revisions := [⟨"NTSC\n1.02", [.new .standalone "F" "blr"]⟩] }

/-- The second line of a revision is read as code. -/
theorem brokenLabelMod_not_read_back : IsCanonical brokenLabelMod ∧
    ¬ ∃ m', parse (write brokenLabelMod) = .ok m' ∧ m'.errors = [] ∧ m'.name = brokenLabelMod.name ∧
      m'.revisions = brokenLabelMod.revisions.map Revision.asWritten := by
  have function : IsCanonicalChange (.new .standalone "F" "blr") := by
    constructor <;> decide +kernel
  refine ⟨⟨⟨by decide, by decide, by decide, by decide⟩, rfl, ⟨rfl, rfl, rfl, rfl⟩, by decide,
    by decide, by decide +kernel, ?_⟩, ?_⟩
  · simp only [brokenLabelMod, List.forall_mem_singleton]
    exact ⟨by simp, function⟩
  · let header : Text := "<F> NTSC"
    let code : List Text := ["1.02", "blr"]
    have lines : Text.lines (write brokenLabelMod) = "M".toList :: header :: code := by
      decide +kernel
    have title : ("M".toList :: header :: code).dropWhile isBeforeTitle =
      "M".toList :: header :: code := by decide +kernel
    have start : isStart (trim header) = true := by decide +kernel
    have parsed : Header.parse none (trim header) = .ok (.standalone "F" "NTSC") := by
      decide +kernel
    have quiet : ∀ l ∈ code, isStart (trim l) = false := by decide +kernel
    have top (m : GameMod) : readTop m [] (header :: code) =
        ({ m with description := bodyText [] }, header :: code) := by
      refine readTop_stop m [] ?_
      rintro l ⟨⟩
      exact start
    have changes (m : GameMod) : readChanges m none (header :: code) =
        (m.setRevision "NTSC").addStandalone "F" (bodyText code) := by
      rw [← List.append_nil code, readChanges_block start parsed quiet (by simp), readChanges,
        List.append_nil]
      rfl
    rintro ⟨m', read, -, -, same⟩
    rw [parse, lines, title] at read
    simp only [top, changes] at read
    rw [← Except.ok.inj read] at same
    have labels := congrArg (List.map Revision.label) same
    revert labels
    decide +kernel

end ModText

end GamePatch
