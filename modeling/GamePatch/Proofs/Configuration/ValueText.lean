import GamePatch.Configuration.Kind
import Mathlib.Data.Bool.AllAny
import Mathlib.Tactic.IntervalCases

set_option autoImplicit false

namespace GamePatch

namespace Text

def digitAlphabet : List Char := "0123456789".toList

theorem mem_digitAlphabet {c : Char} (digit : c.isDigit = true) : c ∈ digitAlphabet := by
  have range : 48 ≤ c.toNat ∧ c.toNat ≤ 57 :=
    (Bool.and_eq_true_iff.trans (and_congr decide_eq_true_iff decide_eq_true_iff)).mp digit
  obtain ⟨low, high⟩ := range
  rw [← Char.ofNat_toNat c]
  interval_cases c.toNat <;> decide

theorem decimal_ne_nil (n : Nat) : decimal n ≠ [] := Nat.toDigits_ne_nil

theorem mem_digitAlphabet_of_mem_decimal {n : Nat} {c : Char} (member : c ∈ decimal n) :
    c ∈ digitAlphabet :=
  mem_digitAlphabet (Nat.isDigit_of_mem_toDigits (by decide) (by decide) member)

end Text

namespace Configuration

def valueLetters : List Char := Text.digitAlphabet ++ ".NaNinf".toList

/-- Letters of written values, and at least one of them. -/
def IsUnsigned (body : Text) : Prop := body ≠ [] ∧ ∀ c ∈ body, c ∈ valueLetters

/-- The form of written values: at most a minus sign, and letters. -/
def IsWritten (v : Text) : Prop := IsUnsigned v ∨ ∃ body, v = '-' :: body ∧ IsUnsigned body

theorem mem_valueLetters_of_digit {c : Char} (digit : c ∈ Text.digitAlphabet) : c ∈ valueLetters :=
  List.mem_append_left _ digit

theorem isUnsigned_decimal (n : Nat) : IsUnsigned (Text.decimal n) :=
  ⟨Text.decimal_ne_nil n,
    fun _ member => mem_valueLetters_of_digit (Text.mem_digitAlphabet_of_mem_decimal member)⟩

theorem isWritten_signedDecimal (n : Int) : IsWritten (Text.signedDecimal n) := by
  unfold Text.signedDecimal
  split
  · exact Or.inr ⟨_, rfl, isUnsigned_decimal _⟩
  · exact Or.inl (isUnsigned_decimal _)

/-- The significant digits of a decimal number are digits. -/
theorem mem_digitAlphabet_of_mem_parts {d : Binary.Decimal} {c : Char}
    (member : c ∈ (Binary.Layout.parts d).1) : c ∈ Text.digitAlphabet := by
  have inside : c ∈ Text.decimal d.digits := by
    have kept := List.mem_reverse.mp member
    exact List.mem_reverse.mp ((List.dropWhile_sublist _).subset kept)
  exact Text.mem_digitAlphabet_of_mem_decimal inside

theorem isUnsigned_writePositional {digits : Text} (point : Int)
    (allDigits : ∀ c ∈ digits, c ∈ Text.digitAlphabet) :
    IsUnsigned (Value.floatLayout.writePositional digits point) := by
  have zeros (count : Nat) : ∀ c ∈ List.replicate count '0', c ∈ valueLetters := by
    intro c member
    rw [List.eq_of_mem_replicate member]
    decide
  have own : ∀ c ∈ digits, c ∈ valueLetters :=
    fun c member => mem_valueLetters_of_digit (allDigits c member)
  have mark : ∀ c ∈ ['.'], c ∈ valueLetters := List.forall_mem_singleton.mpr (by decide)
  unfold Binary.Layout.writePositional
  split
  · have lead : ∀ c ∈ "0.".toList, c ∈ valueLetters := List.all_iff_forall_prop.mp (by decide)
    refine ⟨by simp, ?_⟩
    simp only [List.forall_mem_append]
    exact ⟨⟨lead, zeros _⟩, own⟩
  case isFalse positive =>
    split
    case isTrue short =>
      refine ⟨fun empty => ?_, ?_⟩
      · have none := congrArg List.length empty
        simp only [Value.floatLayout, List.append_nil, List.length_append, List.length_replicate,
          List.length_nil] at none
        omega
      · simp only [Value.floatLayout, List.forall_mem_append]
        exact ⟨⟨own, zeros _⟩, by simp⟩
    case isFalse =>
      refine ⟨by simp, ?_⟩
      simp only [List.forall_mem_append]
      exact ⟨⟨fun c member => own c (List.mem_of_mem_take member), mark⟩,
        fun c member => own c (List.mem_of_mem_drop member)⟩

theorem isWritten_of_sign {body : Text} (negative : Bool) (unsigned : IsUnsigned body) :
    IsWritten ((if negative then ['-'] else []) ++ body) := by
  cases negative with
  | true => exact Or.inr ⟨body, rfl, unsigned⟩
  | false => exact Or.inl unsigned

theorem isWritten_writeFloat (bits : UInt32) : IsWritten (Value.writeFloat bits) := by
  unfold Value.writeFloat
  split
  · exact Or.inl ⟨by simp, List.all_iff_forall_prop.mp (by decide)⟩
  case h_2 negative _ =>
    have name : IsUnsigned "inf".toList := ⟨by simp, List.all_iff_forall_prop.mp (by decide)⟩
    cases negative with
    | true => exact Or.inr ⟨"inf".toList, rfl, name⟩
    | false => exact Or.inl name
  case h_3 negative significand exponent _ =>
    unfold Binary.Layout.writeFinite
    simp only
    split
    · rw [List.append_assoc]
      exact isWritten_of_sign negative ⟨by simp, List.all_iff_forall_prop.mp (by decide)⟩
    · have noExponent (point : Int) : Value.floatLayout.positional point = true := rfl
      refine isWritten_of_sign negative ?_
      rw [if_pos (noExponent _)]
      exact isUnsigned_writePositional _ fun c => mem_digitAlphabet_of_mem_parts

/-- Every value is written with at most a sign and at least one letter behind it. -/
theorem isWritten_write (v : Value) : IsWritten (v.write false) := by
  cases v with
  | int n => exact isWritten_signedDecimal n
  | float bits => exact isWritten_writeFloat bits

end Configuration

end GamePatch
