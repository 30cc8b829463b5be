import GamePatch.Proofs.Hex.RoundTrip
import GamePatch.Proofs.Text.Ends

set_option autoImplicit false

namespace GamePatch

namespace Text

/-- An upper case letter stays in its place, and so does everything that has none. -/
theorem toUpper_cases (c : Char) : c.toUpper = c ∨ 65 ≤ c.toUpper.toNat ∧ c.toUpper.toNat ≤ 90 := by
  unfold Char.toUpper
  split
  case isTrue small =>
    right
    rw [UInt32.le_iff_toNat_le, UInt32.le_iff_toNat_le] at small
    have first : 'a'.val.toNat = 97 := rfl
    have last : 'z'.val.toNat = 122 := rfl
    have shift : ('A'.val - 'a'.val).toNat = 4294967264 := by decide
    rw [Char.toNat, UInt32.toNat_add, shift]
    omega
  case isFalse => exact Or.inl rfl

theorem removeBlanks_of_isAllBlank {s : Text} (blank : isAllBlank s = true) : removeBlanks s = [] := by
  rw [removeBlanks, List.filter_eq_nil_iff]
  intro c member
  simp [isAllBlank_iff.mp blank c member]

/-- A text without blanks at its ends is not touched by trimming what goes on behind it. -/
theorem trim_append {s : Text} (trimmed : trim s = s) (nonempty : s ≠ []) (t : Text) :
    ∃ t', trim (s ++ t) = s ++ t' ∧ removeBlanks t' = removeBlanks t := by
  obtain ⟨start, last⟩ := trim_eq_self_iff.mp trimmed
  obtain ⟨c, r, rfl⟩ := List.exists_cons_of_ne_nil nonempty
  have solid : isBlank c = false := trimStart_eq_self_iff.mp start c rfl
  have front : trimStart (c :: r ++ t) = c :: r ++ t :=
    trimStart_eq_self_iff.mpr fun d first => by cases first; exact solid
  rw [trim, front]
  cases blank : isAllBlank t with
  | true =>
    refine ⟨[], by rw [trimEnd_append_blanks _ blank, last, List.append_nil], ?_⟩
    exact (removeBlanks_of_isAllBlank blank).symm
  | false =>
    refine ⟨trimEnd t, trimEnd_append _ blank, ?_⟩
    obtain ⟨back, empty, whole⟩ := exists_blank_end t
    conv_rhs => rw [whole, removeBlanks_append, removeBlanks_of_isAllBlank empty, List.append_nil]

end Text

namespace Hex

theorem mem_normalize {s : Text} {x : Char} (member : x ∈ normalize s) :
    ∃ y, Text.isBlank y = false ∧ x = y.toUpper := by
  obtain ⟨y, inside, rfl⟩ := List.mem_map.mp member
  exact ⟨y, by simpa using (List.mem_filter.mp inside).2, rfl⟩

/-- A normal form in which nothing but digits stands is one of upper case digits. -/
theorem isDigits_normalize {s : Text} (hex : isHex (normalize s) = true) : IsDigits (normalize s) := by
  have fixed : ∀ c ∈ Text.hexAlphabet, 65 ≤ c.toNat → c.toNat ≤ 90 → c.toUpper = c :=
    List.all_iff_forall_prop.mp (by decide)
  intro x member
  have known := List.all_eq_true.mp hex x member
  obtain ⟨y, solid, rfl⟩ := mem_normalize member
  rcases Text.toUpper_cases y with same | ⟨low, high⟩
  · rw [same, solid, Bool.false_or] at known
    rw [same]
    exact ⟨known, same⟩
  · have letter : Text.isBlank y.toUpper = false := by
      simp only [Text.isBlank, Bool.or_eq_false_iff, Bool.and_eq_false_iff,
        decide_eq_false_iff_not, beq_eq_false_iff_ne]
      omega
    rw [letter, Bool.false_or] at known
    exact ⟨known, fixed _ (Text.mem_hexAlphabet known) low high⟩

theorem decode_of_normalize {s : Text} {bytes : Bytes} (digits : normalize s = encode bytes) :
    decode s = .ok bytes := by
  unfold decode
  simp only [digits, (isDigits_encode bytes).isHex, Bool.not_true, Bool.false_eq_true, ↓reduceIte,
    readBytes?_encode]

theorem decode_of_foreign {s : Text} {x : Char} (member : x ∈ normalize s)
    (foreign : Text.isBlank x = false ∧ Text.isHexDigit x = false) :
    decode s = .error (.invalidCharacter (Text.trim s)) := by
  have refused : isHex (normalize s) = false := by
    rw [isHex, List.all_eq_false]
    exact ⟨x, member, by simp [foreign]⟩
  unfold decode
  simp only [refused, Bool.not_false, ↓reduceIte]

theorem length_normalize_le {s : Text} (trimmed : Text.trim s = s) :
    (normalize s).length ≤ s.length := by
  have body : ((Text.hexMarked? s).getD s).length ≤ s.length := by
    cases mark : Text.hexMarked? s with
    | none => exact Nat.le_refl _
    | some rest => exact (Text.isSuffix_of_hexMarked? mark).length_le
  rw [normalize, trimmed, Text.upper, List.length_map]
  exact Nat.le_trans (List.length_filter_le _ _) body

/-- Only a mark at the start is taken off: what is added at the end keeps all its characters. -/
theorem normalize_append {s : Text} (trimmed : Text.trim s = s) (long : 2 ≤ s.length) (t : Text) :
    normalize (s ++ t) = normalize s ++ Text.upper (Text.removeBlanks t) := by
  have nonempty : s ≠ [] := by
    rintro rfl
    cases long
  obtain ⟨t', whole, same⟩ := Text.trim_append trimmed nonempty t
  have mark : (Text.hexMarked? (s ++ t')).getD (s ++ t') = (Text.hexMarked? s).getD s ++ t' := by
    match s, long with
    | a :: b :: r, _ =>
      unfold Text.hexMarked?
      grind
  rw [normalize, normalize, whole, trimmed, mark, Text.removeBlanks_append, same, Text.upper,
    List.map_append]
  rfl

theorem normalize_of_unmarked {s : Text} (trimmed : Text.trim s = s)
    (unmarked : Text.hexMarked? s = none) : normalize s = Text.upper (Text.removeBlanks s) := by
  rw [normalize, trimmed, unmarked, Option.getD_none]

/-- A part of a text, without blanks at its ends, that is read as some bytes. -/
structure IsPart (part : Text) (bytes : Bytes) : Prop where
  trimmed : Text.trim part = part
  digits : normalize part = encode bytes

theorem upper_flatten_of_unmarked {parts : List Text} {values : List Bytes}
    (read : List.Forall₂ IsPart parts values)
    (unmarked : ∀ part ∈ parts, Text.hexMarked? part = none) :
    Text.upper (Text.removeBlanks parts.flatten) = encode values.flatten := by
  induction read with
  | nil => rfl
  | @cons part bytes parts values own _ ih =>
    rw [List.forall_mem_cons] at unmarked
    rw [List.flatten_cons, List.flatten_cons, Text.removeBlanks_append, encode_append,
      ← ih unmarked.2, ← own.digits, normalize_of_unmarked own.trimmed unmarked.1, Text.upper,
      List.map_append]
    rfl

/-- A mark in the middle is a character that is no digit. -/
theorem mark_mem_upper_flatten {parts : List Text} {part : Text} (member : part ∈ parts)
    (marked : Text.hexMarked? part ≠ none) : 'X' ∈ Text.upper (Text.removeBlanks parts.flatten) := by
  have mark : 'x' ∈ part ∨ 'X' ∈ part := by
    by_contra absent
    rw [not_or] at absent
    exact marked (Text.hexMarked?_eq_none absent.1 absent.2)
  have kept {c : Char} (inside : c ∈ part) (solid : Text.isBlank c = false) :
      c.toUpper ∈ Text.upper (Text.removeBlanks parts.flatten) :=
    List.mem_map_of_mem (List.mem_filter.mpr
      ⟨List.mem_flatten_of_mem member inside, by simp [solid]⟩)
  rcases mark with small | large
  · exact kept small (by decide)
  · exact kept large (by decide)

/-- Parts that are read one by one are read as a whole exactly if only the first has a mark. -/
theorem decode_flatten {first : Text} {rest : List Text} {bytes : Bytes} {values : List Bytes}
    (own : IsPart first bytes) (nonempty : bytes ≠ []) (read : List.Forall₂ IsPart rest values) :
    decode (first ++ rest.flatten) =
      if ∀ part ∈ rest, Text.hexMarked? part = none then .ok (bytes ++ values.flatten)
      else .error (.invalidCharacter (Text.trim (first ++ rest.flatten))) := by
  have long : 2 ≤ first.length := by
    have some : 1 ≤ bytes.length := List.length_pos_iff.mpr nonempty
    have digits := length_normalize_le own.trimmed
    rw [own.digits, length_encode] at digits
    omega
  have whole := normalize_append own.trimmed long rest.flatten
  split
  case isTrue unmarked =>
    rw [upper_flatten_of_unmarked read unmarked, own.digits, ← encode_append] at whole
    exact decode_of_normalize whole
  case isFalse marked =>
    push Not at marked
    obtain ⟨part, member, marked⟩ := marked
    refine decode_of_foreign (x := 'X') ?_ (by decide)
    rw [whole, List.mem_append]
    exact Or.inr (mark_mem_upper_flatten member marked)

theorem length_of_readBytes? {s : Text} {bytes : Bytes} (read : readBytes? s = some bytes) :
    s.length = 2 * bytes.length := by
  fun_induction readBytes? s generalizing bytes with
  | case1 =>
    cases read
    rfl
  | case2 => cases read
  | case3 high low rest b pair ih =>
    obtain ⟨more, later, rfl⟩ := Option.map_eq_some_iff.mp read
    rw [List.length_cons, List.length_cons, ih later, List.length_cons]
    omega
  | case4 => cases read

/-- A text is read as the bytes whose digits are its normal form. -/
theorem decode_eq_ok_iff {s : Text} {bytes : Bytes} :
    decode s = .ok bytes ↔ normalize s = encode bytes := by
  refine ⟨fun decoded => ?_, decode_of_normalize⟩
  unfold decode at decoded
  simp only at decoded
  split at decoded
  case isTrue => cases decoded
  case isFalse known =>
    split at decoded
    case h_2 => cases decoded
    case h_1 bytes' read =>
      cases decoded
      have digits := isDigits_normalize (by simpa using known)
      obtain ⟨own, same⟩ := digits.eq_encode (by rw [length_of_readBytes? read]; omega)
      rw [same, readBytes?_encode] at read
      rw [same, Option.some.inj read]

/-- A text has bytes exactly if its normal form is an even number of digits. -/
theorem exists_decode_iff {s : Text} :
    (∃ bytes, decode s = .ok bytes) ↔
      (normalize s).all Text.isHexDigit = true ∧ (normalize s).length % 2 = 0 := by
  constructor
  · rintro ⟨bytes, decoded⟩
    rw [decode_eq_ok_iff.mp decoded, length_encode]
    refine ⟨List.all_eq_true.mpr fun c member => (isDigits_encode bytes c member).1, ?_⟩
    exact Nat.mul_mod_right 2 _
  · rintro ⟨known, even⟩
    have hex : isHex (normalize s) = true := by
      rw [isHex, List.all_eq_true]
      intro c member
      simp [List.all_eq_true.mp known c member]
    obtain ⟨bytes, same⟩ := (isDigits_normalize hex).eq_encode even
    exact ⟨bytes, decode_eq_ok_iff.mpr same⟩

end Hex

end GamePatch
