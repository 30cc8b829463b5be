import GamePatch.Text.Number
import Mathlib.Data.Option.Basic

set_option autoImplicit false

namespace GamePatch.Text

theorem continueDigits_append (base acc : Nat) (s t : Text) :
    continueDigits base acc (s ++ t) = (continueDigits base acc s).bind (continueDigits base · t) := by
  induction s generalizing acc with
  | nil => rfl
  | cons c s ih =>
    rw [List.cons_append, continueDigits, continueDigits]
    cases digitValue? c with
    | none => rfl
    | some d =>
      simp only
      split
      · exact ih _
      · rfl

theorem le_of_continueDigits {base acc n : Nat} {s : Text} (positive : 0 < base)
    (read : continueDigits base acc s = some n) : acc ≤ n := by
  fun_induction continueDigits base acc s with
  | case1 =>
    cases read
    exact Nat.le_refl n
  | case2 acc c s d value small ih =>
    have shifted := Nat.le_mul_of_pos_right acc positive
    have rest := ih read
    omega
  | case3 => cases read
  | case4 => cases read

/-- Each digit makes the number as many times larger as the base says. -/
theorem mul_le_of_continueDigits {base acc n : Nat} {s : Text} (positive : 0 < base)
    (nonempty : s ≠ []) (read : continueDigits base acc s = some n) : acc * base ≤ n := by
  obtain ⟨c, s, rfl⟩ := List.exists_cons_of_ne_nil nonempty
  rw [continueDigits] at read
  split at read
  · split at read
    · have rest := le_of_continueDigits positive read
      omega
    · cases read
  · cases read

theorem continueDigits_of_readDigits {base n : Nat} {s : Text} (read : readDigits base s = some n) :
    continueDigits base 0 s = some n := by
  unfold readDigits at read
  split at read
  · cases read
  · exact read

theorem continueDigits_isHexDigit {base acc n : Nat} {s : Text}
    (read : continueDigits base acc s = some n) : ∀ c ∈ s, isHexDigit c = true := by
  fun_induction continueDigits base acc s with
  | case1 => simp
  | case2 acc c s d value small ih =>
    rw [List.forall_mem_cons]
    exact ⟨by simp [isHexDigit, value], ih read⟩
  | case3 => cases read
  | case4 => cases read

theorem readDigits_isHexDigit {base n : Nat} {s : Text} (read : readDigits base s = some n) :
    ∀ c ∈ s, isHexDigit c = true := by
  unfold readDigits at read
  split at read
  · cases read
  · exact continueDigits_isHexDigit read

/-- The digits that numbers are written with, in either case. -/
theorem digitValue?_digitChar {d : Nat} (small : d < 16) :
    digitValue? (Nat.digitChar d) = some d ∧ digitValue? (Nat.digitChar d).toUpper = some d := by
  have all : ∀ d < 16, digitValue? (Nat.digitChar d) = some d ∧
      digitValue? (Nat.digitChar d).toUpper = some d := by decide
  exact all d small

theorem continueDigits_toDigits {base : Nat} (large : 1 < base) {f : Char → Char}
    (value : ∀ d < base, digitValue? (f (Nat.digitChar d)) = some d) (n : Nat) :
    continueDigits base 0 ((Nat.toDigits base n).map f) = some n := by
  induction n using Nat.strongRecOn with
  | ind n ih =>
    by_cases small : n < base
    · rw [Nat.toDigits_of_lt_base small, List.map_singleton, continueDigits, value n small]
      simp [small, continueDigits]
    · have whole : base ≤ n := Nat.le_of_not_lt small
      have rest : n % base < base := Nat.mod_lt n (Nat.lt_trans Nat.zero_lt_one large)
      have shorter : n / base < n :=
        Nat.div_lt_self (Nat.lt_of_lt_of_le (Nat.lt_trans Nat.zero_lt_one large) whole) large
      rw [Nat.toDigits_of_base_le large whole, List.map_append, List.map_singleton,
        continueDigits_append, ih _ shorter, Option.bind_some, continueDigits, value _ rest]
      simp only [rest, if_true, continueDigits]
      rw [Nat.mul_comm, Nat.div_add_mod]

theorem readDigits_decimal (n : Nat) : readDigits 10 (decimal n) = some n := by
  have some : (decimal n).isEmpty = false := List.isEmpty_eq_false_iff.mpr Nat.toDigits_ne_nil
  have value : ∀ d < 10, digitValue? (id (Nat.digitChar d)) = Option.some d := fun d small =>
    (digitValue?_digitChar (Nat.lt_trans small (by decide))).1
  have read := continueDigits_toDigits (by decide) value n
  rw [List.map_id] at read
  rw [readDigits, some]
  exact read

theorem readDigits_hexUpper (n : Nat) : readDigits 16 (hexUpper n) = some n := by
  have some : (hexUpper n).isEmpty = false := by
    rw [List.isEmpty_eq_false_iff, hexUpper, upper, ne_eq, List.map_eq_nil_iff]
    exact Nat.toDigits_ne_nil
  rw [readDigits, some]
  exact continueDigits_toDigits (by decide) (fun d small => (digitValue?_digitChar small).2) n

theorem decimal_injective {m n : Nat} (same : decimal m = decimal n) : m = n := by
  have read := congrArg (Nat.ofDigitChars 10 · 0) same
  simpa only [decimal, Nat.ofDigitChars_ten_toDigits] using read

end GamePatch.Text
