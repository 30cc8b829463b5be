import GamePatch.Proofs.Change.HexAgreement
import GamePatch.Proofs.Hex.Parts
import GamePatch.Proofs.Hex.Words

set_option autoImplicit false

namespace GamePatch

namespace Line

open Hex (IsWordLine IsDigits)

theorem removeBlanks_of_isWordLine {l : Text} (line : IsWordLine l) :
    IsDigits (Text.removeBlanks l) ∧ Text.removeBlanks l ≠ [] := by
  have digits : IsDigits (Text.removeBlanks l) := by
    intro c member
    obtain ⟨inside, solid⟩ := List.mem_filter.mp member
    refine (line.mem inside).resolve_right ?_
    rintro rfl
    exact absurd solid (by decide)
  refine ⟨digits, ?_⟩
  obtain ⟨c, rest, rfl, digit⟩ := line.exists_cons
  exact List.ne_nil_of_mem (List.mem_filter.mpr ⟨List.mem_cons_self, by simp [digit.not_blank]⟩)

theorem stripComment_of_isWordLine {l : Text} (line : IsWordLine l) : stripComment l = l := by
  have free : IsCommentFree l := isCommentFree_of_not_mem (line.not_mem (by decide) (by decide))
    (line.not_mem (by decide) (by decide))
  rw [stripComment_of_commentFree free, line.trim_eq.2]

/-- A line of groups of digits has nothing on it but its digits. -/
theorem ofLine?_of_isWordLine {l : Text} (line : IsWordLine l) :
    Segment.ofLine? l = some [.hex (Text.removeBlanks l)] := by
  obtain ⟨digits, some⟩ := removeBlanks_of_isWordLine line
  have unmarked {opening closing : Text} (mark : Char) (known : mark ∈ closing)
      (absent : mark ∉ l) : Enclosed.all opening closing l = ([], l) :=
    Enclosed.all_of_no_closing fun inside => absent (inside.subset known)
  have none : Segment.allMarkers l = [] := by
    rw [Segment.allMarkers,
      unmarked '>' (by decide) (line.not_mem (by decide) (by decide)),
      unmarked ']' (by decide) (line.not_mem (by decide) (by decide))]
    rfl
  rw [Segment.ofLine?, stripComment_of_isWordLine line, none]
  simp [Segment.collect, Segment.digits?, some, digits.isHex, digits.upper]

theorem classify_of_isWordLine {l : Text} (line : IsWordLine l) :
    classify l = .hex [.hex (Text.removeBlanks l)] := by
  obtain ⟨c, rest, shape, digit⟩ := line.exists_cons
  have notB : c ≠ 'b' := by
    rintro rfl
    exact absurd digit.2 (by decide)
  have noBranch : SpecialBranch.parse l = .ok none :=
    parse_of_foreign ((stripComment_of_isWordLine line).trans shape) digit.not_blank notB
  unfold classify
  simp only [stripComment_of_isWordLine line, noBranch, ofLine?_of_isWordLine line]
  rw [shape]
  rfl

end Line

namespace Change

open Hex (IsWordLine)

namespace Draft

variable {options : KnownOptions}

theorem addLine_of_isWordLine (d : Draft) (ix : Nat) {l : Text} (line : IsWordLine l) :
    d.addLine options ix l = .ok { d with digits := d.digits ++ Text.removeBlanks l } := by
  unfold addLine
  rw [Line.classify_of_isWordLine line]
  rfl

theorem addLines_of_isWordLine (d : Draft) (ix : Nat) {ls : List Text}
    (words : ∀ l ∈ ls, IsWordLine l) :
    addLines options d ix ls = .ok { d with digits := d.digits ++ Text.removeBlanks ls.flatten } := by
  induction ls generalizing d ix with
  | nil => simp [addLines, Text.removeBlanks]
  | cons l ls ih =>
    rw [List.forall_mem_cons] at words
    rw [addLines, addLine_of_isWordLine d ix words.1]
    simp only [ih _ _ words.2, List.flatten_cons, Text.removeBlanks_append, List.append_assoc]

end Draft

/-- The lines of a layout in words are those that the groups of digits were put on. -/
theorem lines_formatWords (bytes : Bytes) :
    (∀ l ∈ Text.lines (Hex.formatWords (Hex.encode bytes)), IsWordLine l) ∧
      Text.removeBlanks (Text.lines (Hex.formatWords (Hex.encode bytes))).flatten =
        Hex.encode bytes := by
  obtain ⟨ls, layout, words⟩ := Hex.formatWords_encode bytes
  have lines : Text.lines (Text.joinLines ls) = ls :=
    Text.lines_joinLines (fun l member => (words l member).trim_eq.1) fun l member =>
      ⟨(words l member).not_mem (by decide) (by decide),
        (words l member).not_mem (by decide) (by decide)⟩
  have digits := Hex.removeBlanks_formatWords bytes
  rw [layout, Text.joinLines, Text.removeBlanks_join (by decide)] at digits
  rw [layout, lines]
  exact ⟨words, digits⟩

/-- The first pass gives bytes back that are laid out in words, and asks no assembler. -/
theorem evaluateCode_formatWords (includes : Includes) (options : KnownOptions) (bytes : Bytes) :
    evaluateCode includes options (Hex.formatWords (Hex.encode bytes)) =
      .done (.ok ⟨Hex.encode bytes, [], false⟩) := by
  obtain ⟨words, digits⟩ := lines_formatWords bytes
  have plain : Code.isAssembly (Hex.formatWords (Hex.encode bytes)) = .ok false := by
    have kinds {kind : Line.Kind} (notHex : ∀ segments, kind ≠ .hex segments) :
        kind ∉ (Text.lines (Hex.formatWords (Hex.encode bytes))).map Line.classify := by
      rw [List.mem_map]
      rintro ⟨l, member, rfl⟩
      exact notHex _ (Line.classify_of_isWordLine (words l member))
    exact Line.anyAssembly_eq_false_iff.mpr ⟨kinds nofun, kinds nofun⟩
  have added : Draft.addLines options ⟨[], []⟩ 0 (Text.lines (Hex.formatWords (Hex.encode bytes))) =
      .ok ⟨Hex.encode bytes, []⟩ := by
    rw [Draft.addLines_of_isWordLine _ _ words, digits, List.nil_append]
  have even : (Hex.encode bytes).length % 2 = 0 := by
    rw [Hex.length_encode]
    exact Nat.mul_mod_right 2 _
  have passed : evaluateHex options (Hex.formatWords (Hex.encode bytes)) =
      .ok ⟨Hex.encode bytes, [], false⟩ := by
    unfold evaluateHex
    simp only [added, even, ne_eq, not_true_eq_false, ↓reduceIte]
  rw [evaluateCode, plain, passed]

/-- Bytes are read back from their digits, alone or laid out in words, and are the result of the first
pass over the second, for which no assembler is asked. And whatever is read from a text as bytes has
the normal form of the text as its digits: there are such bytes exactly if the normal form consists of an
even number of digits. -/
theorem hex_readers_agree :
    (∀ bytes : Bytes,
      Hex.decode (Hex.encode bytes) = .ok bytes ∧
      Hex.decode (Hex.formatWords (Hex.encode bytes)) = .ok bytes ∧
      ∀ includes options, evaluateCode includes options (Hex.formatWords (Hex.encode bytes)) =
        .done (.ok ⟨Hex.encode bytes, [], false⟩)) ∧
    ∀ s : Text,
      ((∃ bytes, Hex.decode s = .ok bytes) ↔
        (Hex.normalize s).all Text.isHexDigit = true ∧ (Hex.normalize s).length % 2 = 0) ∧
      ∀ bytes, Hex.decode s = .ok bytes ↔ Hex.encode bytes = Hex.normalize s := by
  refine ⟨fun bytes => ⟨Hex.decode_encode bytes, Hex.decode_formatWords bytes, ?_⟩, fun s => ?_⟩
  · exact fun includes options => evaluateCode_formatWords includes options bytes
  · refine ⟨Hex.exists_decode_iff, fun bytes => ?_⟩
    rw [Hex.decode_eq_ok_iff, eq_comm]

end Change

end GamePatch
