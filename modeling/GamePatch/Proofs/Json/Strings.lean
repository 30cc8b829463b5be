import GamePatch.Json.Reader
import Mathlib.Tactic.IntervalCases

set_option autoImplicit false

namespace GamePatch.Json

theorem skipSpace_append {blanks : Text} (blank : ∀ c ∈ blanks, isSpace c = true) (rest : Text) :
    skipSpace (blanks ++ rest) = skipSpace rest :=
  List.dropWhile_append_of_pos blank

theorem skipSpace_cons {c : Char} (solid : isSpace c = false) (rest : Text) :
    skipSpace (c :: rest) = c :: rest :=
  List.dropWhile_cons_of_neg (by simp [solid])

/-- The escape of a control character that has no letter. -/
theorem readEscape_controlDigits {n : Nat} (control : n < 32) (rest : Text) :
    readEscape ('u' :: (Text.zeroPad 4 (Text.hexLower n) ++ rest)) = some (Char.ofNat n, rest) := by
  interval_cases n <;> rfl

theorem readString_escape {e : Text} {c : Char} {r : Text} (escape : readEscape e = some (c, r))
    (steps : Nat) :
    readString (steps + 1) ('\\' :: e) = (readString steps r).map fun (s, rest) => (c :: s, rest) := by
  rw [readString, if_neg (by decide), if_pos (by decide), escape]

theorem readString_plain {c : Char} (quote : c ≠ '"') (slash : c ≠ '\\') (printed : 32 ≤ c.toNat)
    (steps : Nat) (r : Text) :
    readString (steps + 1) (c :: r) = (readString steps r).map fun (s, rest) => (c :: s, rest) := by
  rw [readString, if_neg (by simpa using quote), if_neg (by simpa using slash),
    if_neg (Nat.not_lt.mpr printed)]

/-- A step reads what was written for a character. -/
theorem readString_writeChar (c : Char) (steps : Nat) (r : Text) :
    readString (steps + 1) (writeChar c ++ r) =
      (readString steps r).map fun (s, rest) => (c :: s, rest) := by
  unfold writeChar
  split
  case h_1 => exact readString_escape rfl steps
  case h_2 => exact readString_escape rfl steps
  case h_3 => exact readString_escape rfl steps
  case h_4 => exact readString_escape rfl steps
  case h_5 => exact readString_escape rfl steps
  case h_6 quote slash _ _ _ =>
    split
    case isTrue code =>
      have same : c = Char.ofNat 8 := by rw [← code, Char.ofNat_toNat]
      rw [same]
      exact readString_escape rfl steps
    case isFalse =>
      split
      case isTrue code =>
        have same : c = Char.ofNat 12 := by rw [← code, Char.ofNat_toNat]
        rw [same]
        exact readString_escape rfl steps
      case isFalse =>
        split
        case isTrue control =>
          have escape := readEscape_controlDigits control r
          rw [Char.ofNat_toNat] at escape
          exact readString_escape escape steps
        case isFalse printed =>
          exact readString_plain quote slash (Nat.not_lt.mp printed) steps r

/-- A text is read back from between its quotes. -/
theorem readString_written (s rest : Text) {steps : Nat} (enough : s.length < steps) :
    readString steps (s.flatMap writeChar ++ '"' :: rest) = some (s, rest) := by
  induction s generalizing steps with
  | nil =>
    obtain ⟨steps, rfl⟩ : ∃ n, steps = n + 1 := ⟨steps - 1, by simp at enough; omega⟩
    rw [List.flatMap_nil, List.nil_append, readString, if_pos (by decide)]
  | cons c s ih =>
    rw [List.length_cons] at enough
    obtain ⟨steps, rfl⟩ : ∃ n, steps = n + 1 := ⟨steps - 1, by omega⟩
    rw [List.flatMap_cons, List.append_assoc, readString_writeChar, ih (by omega), Option.map_some]

theorem writeChar_ne_nil (c : Char) : writeChar c ≠ [] := by
  unfold writeChar
  split
  case h_6 => split <;> [skip; split <;> [skip; split]] <;> simp
  all_goals simp

theorem length_le_written (s : Text) : s.length ≤ (s.flatMap writeChar).length := by
  induction s with
  | nil => rfl
  | cons c s ih =>
    have := List.length_pos_iff.mpr (writeChar_ne_nil c)
    rw [List.flatMap_cons, List.length_append, List.length_cons]
    omega

theorem writeText_append (s rest : Text) :
    writeText s ++ rest = '"' :: (s.flatMap writeChar ++ '"' :: rest) := by
  simp [writeText]

/-- Strings are read with as many steps as there are characters. -/
theorem readString_writeText (s rest : Text) :
    readString ((s.flatMap writeChar ++ '"' :: rest).length + 1) (s.flatMap writeChar ++ '"' :: rest) =
      some (s, rest) := by
  refine readString_written s rest ?_
  have := length_le_written s
  rw [List.length_append]
  omega

end GamePatch.Json
