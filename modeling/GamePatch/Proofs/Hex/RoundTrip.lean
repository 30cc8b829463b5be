import GamePatch.Hex
import GamePatch.Proofs.Text.Trimming
import Mathlib.Data.Bool.AllAny
import Mathlib.Tactic.IntervalCases

set_option autoImplicit false

namespace GamePatch

namespace Text

def hexAlphabet : List Char := "0123456789abcdefABCDEF".toList

theorem mem_hexAlphabet {c : Char} (digit : isHexDigit c = true) : c ∈ hexAlphabet := by
  have ranges : (48 ≤ c.toNat ∧ c.toNat ≤ 57) ∨ (97 ≤ c.toNat ∧ c.toNat ≤ 102) ∨
      (65 ≤ c.toNat ∧ c.toNat ≤ 70) := by
    unfold isHexDigit digitValue? at digit
    split at digit
    case isTrue lower =>
      simp only [Bool.and_eq_true, decide_eq_true_eq, Char.le_def, UInt32.le_iff_toNat_le] at lower
      exact Or.inl lower
    split at digit
    case isTrue lower =>
      simp only [Bool.and_eq_true, decide_eq_true_eq, Char.le_def, UInt32.le_iff_toNat_le] at lower
      exact Or.inr (Or.inl lower)
    split at digit
    case isTrue upper =>
      simp only [Bool.and_eq_true, decide_eq_true_eq, Char.le_def, UInt32.le_iff_toNat_le] at upper
      exact Or.inr (Or.inr upper)
    · cases digit
  rw [← Char.ofNat_toNat c]
  rcases ranges with ⟨low, high⟩ | ⟨low, high⟩ | ⟨low, high⟩ <;>
    interval_cases c.toNat <;> decide

theorem hexMarked?_eq_none {s : Text} (small : 'x' ∉ s) (large : 'X' ∉ s) :
    hexMarked? s = none := by
  unfold hexMarked?
  split
  · exact absurd (by simp) small
  · exact absurd (by simp) large
  · rfl

theorem isSuffix_of_hexMarked? {s rest : Text} (marked : hexMarked? s = some rest) : rest <:+ s := by
  unfold hexMarked? at marked
  split at marked
  · obtain rfl := Option.some.inj marked
    exact List.suffix_append ['0', 'x'] _
  · obtain rfl := Option.some.inj marked
    exact List.suffix_append ['0', 'X'] _
  · cases marked

theorem isBlank_of_isHexDigit {c : Char} (digit : isHexDigit c = true) : isBlank c = false := by
  have all : ∀ c ∈ hexAlphabet, isBlank c = false := List.all_iff_forall_prop.mp (by decide)
  exact all c (mem_hexAlphabet digit)

end Text

namespace Hex

def IsDigit (c : Char) : Prop := Text.isHexDigit c = true ∧ c.toUpper = c

def IsDigits (s : Text) : Prop := ∀ c ∈ s, IsDigit c

theorem isDigit_toUpper {c : Char} (digit : Text.isHexDigit c = true) : IsDigit c.toUpper := by
  have all : ∀ c ∈ Text.hexAlphabet,
      Text.isHexDigit c.toUpper = true ∧ c.toUpper.toUpper = c.toUpper :=
    List.all_iff_forall_prop.mp (by decide)
  exact all c (Text.mem_hexAlphabet digit)

theorem IsDigit.not_blank {c : Char} (digit : IsDigit c) : Text.isBlank c = false :=
  Text.isBlank_of_isHexDigit digit.1

/-- A digit is none of the characters that have a meaning to the readers of lines. -/
theorem IsDigit.ne {c mark : Char} (digit : IsDigit c) (other : Text.isHexDigit mark = false) :
    c ≠ mark := by
  rintro rfl
  rw [digit.1] at other
  cases other

theorem digit_digitValue {c : Char} (digit : IsDigit c) :
    ∃ d < 16, Text.digitValue? c = some d ∧ Hex.digit d = c := by
  have all : ∀ c ∈ Text.hexAlphabet, c.toUpper = c →
      ∃ d < 16, Text.digitValue? c = some d ∧ Hex.digit d = c :=
    List.all_iff_forall_prop.mp (by decide)
  exact all c (Text.mem_hexAlphabet digit.1) digit.2

theorem isDigit_digit {d : Nat} (small : d < 16) :
    IsDigit (Hex.digit d) ∧ Text.digitValue? (Hex.digit d) = some d := by
  have all : ∀ d < 16, (Text.isHexDigit (Hex.digit d) = true ∧
      (Hex.digit d).toUpper = Hex.digit d) ∧ Text.digitValue? (Hex.digit d) = some d := by decide
  exact all d small

theorem isDigits_nil : IsDigits [] := by simp [IsDigits]

theorem isDigits_append {s t : Text} : IsDigits (s ++ t) ↔ IsDigits s ∧ IsDigits t := by
  simp only [IsDigits, List.forall_mem_append]

theorem isDigits_upper {s : Text} (digits : ∀ c ∈ s, Text.isHexDigit c = true) :
    IsDigits (Text.upper s) := by
  intro c member
  obtain ⟨x, inside, rfl⟩ := List.mem_map.mp member
  exact isDigit_toUpper (digits x inside)

theorem isDigits_replicate_zero (count : Nat) : IsDigits (List.replicate count '0') := by
  intro c member
  rw [List.eq_of_mem_replicate member]
  exact ⟨by decide, by decide⟩

theorem byte_halves_lt (b : UInt8) : b.toNat / 16 < 16 ∧ b.toNat % 16 < 16 := by
  have := b.toNat_lt
  omega

@[simp] theorem encode_nil : encode [] = [] := rfl

@[simp] theorem encode_append (a b : Bytes) : encode (a ++ b) = encode a ++ encode b :=
  List.flatMap_append

theorem encode_cons (b : UInt8) (bytes : Bytes) :
    encode (b :: bytes) = digit (b.toNat / 16) :: digit (b.toNat % 16) :: encode bytes := rfl

@[simp] theorem length_encode (bytes : Bytes) : (encode bytes).length = 2 * bytes.length := by
  induction bytes with
  | nil => rfl
  | cons b bytes ih =>
    simp only [encode_cons, List.length_cons, ih]
    omega

theorem isDigits_encode (bytes : Bytes) : IsDigits (encode bytes) := by
  induction bytes with
  | nil => exact isDigits_nil
  | cons b bytes ih =>
    have halves := byte_halves_lt b
    rw [encode_cons, IsDigits, List.forall_mem_cons, List.forall_mem_cons]
    exact ⟨(isDigit_digit halves.1).1, (isDigit_digit halves.2).1, ih⟩

theorem readBytes?_encode (bytes : Bytes) : readBytes? (encode bytes) = some bytes := by
  induction bytes with
  | nil => rfl
  | cons b bytes ih =>
    have halves := byte_halves_lt b
    have whole : UInt8.ofNat (b.toNat / 16 * 16 + b.toNat % 16) = b := by
      rw [Nat.div_add_mod', UInt8.ofNat_toNat]
    simp only [encode_cons, readBytes?, readByte?, (isDigit_digit halves.1).2,
      (isDigit_digit halves.2).2, ih, whole, Option.map_some]

theorem continueDigits_encode (bytes : Bytes) (acc : Nat) :
    Text.continueDigits 16 acc (encode bytes) =
      some (bytes.foldl (fun n b => n * 256 + b.toNat) acc) := by
  induction bytes generalizing acc with
  | nil => rfl
  | cons b bytes ih =>
    obtain ⟨high, low⟩ := byte_halves_lt b
    have value : (acc * 16 + b.toNat / 16) * 16 + b.toNat % 16 = acc * 256 + b.toNat := by omega
    simp only [encode_cons, Text.continueDigits, (isDigit_digit high).2, (isDigit_digit low).2,
      high, low, ↓reduceIte, value, ih, List.foldl_cons]

theorem readDigits_encode {bytes : Bytes} (nonempty : bytes ≠ []) :
    Text.readDigits 16 (encode bytes) = some bytes.toNat := by
  cases bytes with
  | nil => exact absurd rfl nonempty
  | cons b bytes => exact continueDigits_encode (b :: bytes) 0

/-- An even number of digits is the text of some bytes. -/
theorem IsDigits.eq_encode {s : Text} (digits : IsDigits s) (even : s.length % 2 = 0) :
    ∃ bytes, s = encode bytes := by
  induction s using List.twoStepInduction with
  | nil => exact ⟨[], rfl⟩
  | singleton c => cases even
  | cons_cons high low s ih =>
    obtain ⟨h, hSmall, -, rfl⟩ := digit_digitValue (digits high List.mem_cons_self)
    obtain ⟨l, lSmall, -, rfl⟩ := digit_digitValue (digits low (by simp))
    obtain ⟨bytes, rfl⟩ := ih (fun c member => digits c (by simp [member])) (by
      simp only [List.length_cons] at even
      omega)
    refine ⟨UInt8.ofNat (h * 16 + l) :: bytes, ?_⟩
    have value : (UInt8.ofNat (h * 16 + l)).toNat = h * 16 + l := by
      rw [UInt8.toNat_ofNat']
      omega
    rw [encode_cons, value]
    congr 2
    · omega
    · congr 1
      omega

theorem IsDigits.removeBlanks {s : Text} (digits : IsDigits s) : Text.removeBlanks s = s := by
  rw [Text.removeBlanks, List.filter_eq_self]
  intro c member
  simp [(digits c member).not_blank]

theorem IsDigits.upper {s : Text} (digits : IsDigits s) : Text.upper s = s := by
  conv_rhs => rw [← List.map_id s]
  exact List.map_congr_left fun c member => (digits c member).2

/-- Digits with blanks among them are put together. -/
theorem normalize_of_removeBlanks {s digits : Text} (same : Text.removeBlanks s = digits)
    (clean : IsDigits digits) : normalize s = digits := by
  have absent {mark : Char} (solid : Text.isBlank mark = false)
      (other : Text.isHexDigit mark = false) : mark ∉ Text.trim s := by
    intro member
    have kept : mark ∈ Text.removeBlanks (Text.trim s) :=
      List.mem_filter.mpr ⟨member, by simp [solid]⟩
    rw [Text.removeBlanks_trim, same] at kept
    exact (clean mark kept).ne other rfl
  rw [normalize, Text.hexMarked?_eq_none (absent (by decide) (by decide))
    (absent (by decide) (by decide)), Option.getD_none, Text.removeBlanks_trim, same, clean.upper]

theorem normalize_of_isDigits {s : Text} (digits : IsDigits s) : normalize s = s :=
  normalize_of_removeBlanks digits.removeBlanks digits

theorem IsDigits.isHex {s : Text} (digits : IsDigits s) : isHex s = true := by
  rw [Hex.isHex, List.all_eq_true]
  intro c member
  simp [(digits c member).1]

/-- Bytes are read back from their digits, with or without blanks among them. -/
theorem decode_of_removeBlanks {s : Text} {bytes : Bytes}
    (same : Text.removeBlanks s = encode bytes) : decode s = .ok bytes := by
  have digits := isDigits_encode bytes
  unfold decode
  simp only [normalize_of_removeBlanks same digits, digits.isHex, Bool.not_true, Bool.false_eq_true,
    ↓reduceIte, readBytes?_encode]

@[simp] theorem decode_encode (bytes : Bytes) : decode (encode bytes) = .ok bytes :=
  decode_of_removeBlanks (isDigits_encode bytes).removeBlanks

end Hex

end GamePatch
