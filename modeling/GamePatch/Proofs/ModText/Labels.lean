import GamePatch.ModText.Header
import GamePatch.Proofs.Configuration.ValueText
import GamePatch.Proofs.Hex.RoundTrip
import GamePatch.Proofs.Line.Functions
import GamePatch.Proofs.Text.Ends
import GamePatch.Proofs.Text.Search

set_option autoImplicit false

namespace GamePatch

namespace Text

theorem isHexDigit_of_readBelow {bound base n : Nat} {s : Text}
    (read : readBelow bound base s = some n) : ∀ c ∈ s, c = '+' ∨ isHexDigit c = true := by
  have digits := readDigits_isHexDigit (Option.filter_eq_some_iff.mp read).1
  intro c member
  cases lead : dropLeading? ['+'] s with
  | none =>
    rw [lead] at digits
    exact Or.inr (digits c member)
  | some rest =>
    rw [lead] at digits
    rw [dropLeading?_eq_some_iff.mp lead] at member
    rcases List.mem_cons.mp member with plus | later
    · exact Or.inl plus
    · exact Or.inr (digits c later)

/-- A character that is no blank is in one of the words. -/
theorem exists_mem_words {c : Char} {s : Text} (solid : isBlank c = false) (member : c ∈ s) :
    ∃ word ∈ words s, c ∈ word := by
  have split : ∃ part ∈ s.splitOnP isBlank, c ∈ part := by
    induction s with
    | nil => cases member
    | cons d s ih =>
      rw [List.splitOnP_cons_eq_if_modifyHead]
      split
      case isTrue blank =>
        have later : c ∈ s := by
          rcases List.mem_cons.mp member with rfl | later
          · rw [solid] at blank
            cases blank
          · exact later
        obtain ⟨part, inside, found⟩ := ih later
        exact ⟨part, List.mem_cons_of_mem _ inside, found⟩
      case isFalse =>
        obtain ⟨first, rest, parts⟩ := List.exists_cons_of_ne_nil (List.splitOnP_ne_nil isBlank s)
        rw [parts] at ih ⊢
        rw [List.modifyHead_cons]
        rcases List.mem_cons.mp member with rfl | later
        · exact ⟨c :: first, List.mem_cons_self, List.mem_cons_self⟩
        · obtain ⟨part, inside, found⟩ := ih later
          rcases List.mem_cons.mp inside with rfl | behind
          · exact ⟨d :: part, List.mem_cons_self, List.mem_cons_of_mem _ found⟩
          · exact ⟨part, List.mem_cons_of_mem _ behind, found⟩
  obtain ⟨part, inside, found⟩ := split
  refine ⟨part, List.mem_filter.mpr ⟨inside, ?_⟩, found⟩
  cases part with
  | nil => cases found
  | cons => rfl

/-- The words are parts of the text. -/
theorem mem_of_mem_words {c : Char} {s word : Text} (inside : word ∈ words s) (member : c ∈ word) :
    c ∈ s := by
  have part : word ∈ s.splitOnP isBlank := (List.mem_filter.mp inside).1
  clear inside
  induction s generalizing word with
  | nil =>
    rw [List.splitOnP_nil, List.mem_singleton] at part
    rw [part] at member
    exact member
  | cons d s ih =>
    rw [List.splitOnP_cons_eq_if_modifyHead] at part
    split at part
    · rcases List.mem_cons.mp part with rfl | later
      · cases member
      · exact List.mem_cons_of_mem _ (ih member later)
    · obtain ⟨first, rest, parts⟩ := List.exists_cons_of_ne_nil (List.splitOnP_ne_nil isBlank s)
      rw [parts] at ih part
      rw [List.modifyHead_cons] at part
      rcases List.mem_cons.mp part with rfl | later
      · rcases List.mem_cons.mp member with rfl | behind
        · exact List.mem_cons_self
        · exact List.mem_cons_of_mem _ (ih behind List.mem_cons_self)
      · exact List.mem_cons_of_mem _ (ih member (List.mem_cons_of_mem _ later))

theorem mem_trim_of_solid {c : Char} {s : Text} (solid : isBlank c = false) (member : c ∈ s) :
    c ∈ trim s := by
  rw [← List.count_pos_iff, count_trim c solid]
  exact List.count_pos_iff.mpr member

end Text

namespace ModText

def offsetLetters : List Char := "_xX+0123456789abcdefABCDEF".toList

def labelLetters : List Char := "ALNTSCP.0123456789".toList

theorem mem_offsetLetters {s : Text} (offset : Header.isOffset s = true) {c : Char}
    (member : c ∈ Text.trim s) : c ∈ offsetLetters := by
  have digit {c : Char} (digit : Text.isHexDigit c = true) : c ∈ offsetLetters :=
    List.mem_append_right "_xX+".toList (Text.mem_hexAlphabet digit)
  obtain ⟨a, parsed⟩ := Option.isSome_iff_exists.mp offset
  rw [Address.parse?] at parsed
  split at parsed
  · cases parsed
  · obtain ⟨n, read, -⟩ := Option.map_eq_some_iff.mp parsed
    have digits : ∀ c ∈ (Text.hexMarked? (Text.trim s)).getD (Text.trim s), c ∈ offsetLetters := by
      intro c inside
      by_cases underscore : c = '_'
      · subst underscore
        decide
      · have kept : c ∈ ((Text.hexMarked? (Text.trim s)).getD (Text.trim s)).filter (· != '_') :=
          List.mem_filter.mpr ⟨inside, by simpa using underscore⟩
        rcases Text.isHexDigit_of_readBelow read c kept with rfl | hex
        · decide
        · exact digit hex
    have marked : Text.trim s = (Text.hexMarked? (Text.trim s)).getD (Text.trim s) ∨
        ∃ mark ∈ [['0', 'x'], ['0', 'X']],
          Text.trim s = mark ++ (Text.hexMarked? (Text.trim s)).getD (Text.trim s) := by
      generalize Text.trim s = body
      unfold Text.hexMarked?
      split
      · exact Or.inr ⟨_, List.mem_cons_self, rfl⟩
      · exact Or.inr ⟨_, List.mem_cons_of_mem _ List.mem_cons_self, rfl⟩
      · exact Or.inl rfl
    rcases marked with plain | ⟨mark, known, whole⟩
    · rw [plain] at member
      exact digits c member
    · rw [whole, List.mem_append] at member
      have letters : ∀ mark ∈ [['0', 'x'], ['0', 'X']], ∀ c ∈ mark, c ∈ offsetLetters := by
        simp only [← List.all_iff_forall_prop]
        decide
      exact member.elim (letters mark known c) (digits c)

/-- A revision has one of the letters that no place has, and few others. -/
theorem mem_labelLetters {label : Text} (revision : isRevisionLabel label = true) :
    (∀ c ∈ label, Text.isBlank c = true ∨ c ∈ labelLetters) ∧ ('L' ∈ label ∨ 'N' ∈ label) := by
  have letter : ∀ region ∈ ["ALL".toList, "NTSC".toList, "PAL".toList],
      (∀ c ∈ region, c ∈ labelLetters) ∧ ('L' ∈ region ∨ 'N' ∈ region) := by
    simp only [← List.all_iff_forall_prop]
    decide
  have known {region : Text} (known : isRegion region = true) :
      region ∈ ["ALL".toList, "NTSC".toList, "PAL".toList] := by
    rw [isRegion, Bool.or_eq_true, beq_iff_eq, beq_iff_eq] at known
    rcases known with rfl | rfl <;> decide
  have all {words : List Text} (found : Text.words label = words)
      (letters : ∀ word ∈ words, ∀ c ∈ word, c ∈ labelLetters)
      {region : Text} (first : region ∈ words)
      (marked : 'L' ∈ region ∨ 'N' ∈ region) :
      (∀ c ∈ label, Text.isBlank c = true ∨ c ∈ labelLetters) ∧ ('L' ∈ label ∨ 'N' ∈ label) := by
    refine ⟨fun c member => ?_, ?_⟩
    · by_cases blank : Text.isBlank c = true
      · exact Or.inl blank
      · obtain ⟨word, inside, here⟩ :=
          Text.exists_mem_words (Bool.eq_false_iff.mpr blank) member
        exact Or.inr (letters word (found ▸ inside) c here)
    · have inside : region ∈ Text.words label := found ▸ first
      exact marked.imp (Text.mem_of_mem_words inside) (Text.mem_of_mem_words inside)
  rw [isRevisionLabel, Bool.or_eq_true, beq_iff_eq] at revision
  rcases revision with whole | regional
  · refine ⟨fun c member => ?_, Or.inl ?_⟩
    · by_cases blank : Text.isBlank c = true
      · exact Or.inl blank
      · have inside := Text.mem_trim_of_solid (Bool.eq_false_iff.mpr blank) member
        rw [whole] at inside
        exact Or.inr ((letter _ List.mem_cons_self).1 c inside)
    · have inside : 'L' ∈ Text.trim label := by
        rw [whole]
        decide
      exact (Text.trim_isInfix label).subset inside
  · split at regional
    case h_1 region found =>
      have letters := letter region (known regional)
      exact all found (by simpa using letters.1) List.mem_cons_self letters.2
    case h_2 region version found =>
      rw [Bool.and_eq_true] at regional
      have letters := letter region (known regional.1)
      refine all found ?_ List.mem_cons_self letters.2
      rw [List.forall_mem_cons, List.forall_mem_singleton]
      refine ⟨letters.1, fun c member => ?_⟩
      have digits := List.all_eq_true.mp (Bool.and_eq_true_iff.mp regional.2).2 c member
      rw [Bool.or_eq_true, beq_iff_eq] at digits
      rcases digits with digit | rfl
      · exact List.mem_append_right "ALNTSCP.".toList (Text.mem_digitAlphabet digit)
      · decide
    · cases regional

theorem not_mem_label {label : Text} (revision : isRevisionLabel label = true) {mark : Char}
    (solid : Text.isBlank mark = false) (other : mark ∉ labelLetters) : mark ∉ label := by
  intro member
  rcases (mem_labelLetters revision).1 mark member with blank | letter
  · rw [solid] at blank
    cases blank
  · exact other letter

/-- A revision is not a place. -/
theorem isOffset_of_isRevisionLabel {label : Text} (revision : isRevisionLabel label = true) :
    Header.isOffset label = false := by
  rw [Bool.eq_false_iff]
  intro offset
  rcases (mem_labelLetters revision).2 with marked | marked
  · exact absurd (mem_offsetLetters offset (Text.mem_trim_of_solid (by decide) marked)) (by decide)
  · exact absurd (mem_offsetLetters offset (Text.mem_trim_of_solid (by decide) marked)) (by decide)

end ModText

end GamePatch
