import GamePatch.Configuration.Declaration
import GamePatch.Proofs.Configuration.ValueText
import GamePatch.Proofs.Hex.RoundTrip
import GamePatch.Proofs.Text.Digits
import GamePatch.Proofs.Text.Ends
import GamePatch.Proofs.Text.Search

set_option autoImplicit false

namespace GamePatch

namespace Text

theorem readSigned_of_unsigned {s : Text} (noMinus : '-' ∉ s) (noPlus : '+' ∉ s) (base : Nat) :
    readSigned base s = (readDigits base s).map Int.ofNat := by
  unfold readSigned
  split
  · exact absurd List.mem_cons_self noMinus
  · exact absurd List.mem_cons_self noPlus
  · rfl

theorem mem_hexAlphabet_of_mem_hexUpper {n : Nat} {c : Char} (member : c ∈ hexUpper n) :
    c ∈ hexAlphabet :=
  mem_hexAlphabet (readDigits_isHexDigit (readDigits_hexUpper n) c member)

theorem mem_hexAlphabet_of_mem_decimal {n : Nat} {c : Char} (member : c ∈ decimal n) :
    c ∈ hexAlphabet :=
  mem_hexAlphabet (readDigits_isHexDigit (readDigits_decimal n) c member)

end Text

namespace Configuration

def writtenLetters : List Char := "-x.NaNinf".toList ++ Text.hexAlphabet

def magnitudeText (hexadecimal : Bool) (n : Nat) : Text :=
  if hexadecimal then "0x" ++ Text.hexUpper n else Text.decimal n

theorem write_int (hexadecimal : Bool) (n : Int) :
    (Value.int n).write hexadecimal =
      (if n < 0 then ['-'] else []) ++ magnitudeText hexadecimal n.natAbs := by
  cases hexadecimal with
  | false =>
    have digits : magnitudeText false n.natAbs = Text.decimal n.natAbs := rfl
    have written : (Value.int n).write false = Text.signedDecimal n := rfl
    rw [digits, written, Text.signedDecimal]
    split <;> rfl
  | true =>
    have digits : magnitudeText true n.natAbs = "0x" ++ Text.hexUpper n.natAbs := rfl
    have written : (Value.int n).write true = Text.signedHex n := rfl
    rw [digits, written, Text.signedHex]
    split <;> rfl

theorem write_hex_natCast (n : Nat) : (Value.int n).write true = "0x" ++ Text.hexUpper n := by
  rw [write_int, if_neg (by omega), List.nil_append]
  rfl

theorem mem_magnitudeText {hexadecimal : Bool} {n : Nat} {c : Char}
    (member : c ∈ magnitudeText hexadecimal n) : c = 'x' ∨ c ∈ Text.hexAlphabet := by
  unfold magnitudeText at member
  split at member
  · rcases List.mem_append.mp member with mark | digit
    · rcases List.mem_cons.mp mark with rfl | mark
      · exact Or.inr (by decide)
      · exact Or.inl (List.mem_singleton.mp mark)
    · exact Or.inr (Text.mem_hexAlphabet_of_mem_hexUpper digit)
  · exact Or.inr (Text.mem_hexAlphabet_of_mem_decimal member)

theorem not_mem_magnitudeText {mark : Char} (other : mark ≠ 'x' ∧ mark ∉ Text.hexAlphabet)
    (hexadecimal : Bool) (n : Nat) : mark ∉ magnitudeText hexadecimal n :=
  fun member => (mem_magnitudeText member).elim other.1 other.2

theorem magnitudeText_ne_nil (hexadecimal : Bool) (n : Nat) : magnitudeText hexadecimal n ≠ [] := by
  unfold magnitudeText
  split
  · simp
  · exact Text.decimal_ne_nil n

/-- The letters of a written value have no meaning to the readers of lines. -/
theorem mem_writtenLetters {hexadecimal : Bool} {v : Value} {c : Char}
    (member : c ∈ v.write hexadecimal) : c ∈ writtenLetters := by
  have digit {c : Char} (digit : c ∈ Text.hexAlphabet) : c ∈ writtenLetters :=
    List.mem_append_right _ digit
  cases v with
  | int n =>
    rw [write_int, List.mem_append] at member
    rcases member with sign | body
    · split at sign
      · rw [List.mem_singleton.mp sign]
        decide
      · cases sign
    · rcases mem_magnitudeText body with rfl | hex
      · decide
      · exact digit hex
  | float bits =>
    have letter {c : Char} (known : c ∈ valueLetters) : c ∈ writtenLetters := by
      have all : ∀ c ∈ valueLetters, c ∈ writtenLetters := List.all_iff_forall_prop.mp (by decide)
      exact all c known
    rcases isWritten_writeFloat bits with unsigned | ⟨body, shape, unsigned⟩
    · exact letter (unsigned.2 c member)
    · have inside : c ∈ '-' :: body := shape ▸ member
      rcases List.mem_cons.mp inside with rfl | inside
      · decide
      · exact letter (unsigned.2 c inside)

theorem write_ne_nil (hexadecimal : Bool) (v : Value) : v.write hexadecimal ≠ [] := by
  cases v with
  | int n =>
    rw [write_int]
    exact List.append_ne_nil_of_right_ne_nil _ (magnitudeText_ne_nil _ _)
  | float bits =>
    rcases isWritten_writeFloat bits with unsigned | ⟨body, shape, -⟩
    · exact unsigned.1
    · exact fun empty => List.cons_ne_nil '-' body (shape.symm.trans empty)

theorem not_mem_write {mark : Char} (other : mark ∉ writtenLetters) (hexadecimal : Bool) (v : Value) :
    mark ∉ v.write hexadecimal :=
  fun member => other (mem_writtenLetters member)

theorem solid_write {hexadecimal : Bool} {v : Value} :
    ∀ c ∈ v.write hexadecimal, Text.isBlank c = false := by
  have all : ∀ c ∈ writtenLetters, Text.isBlank c = false := List.all_iff_forall_prop.mp (by decide)
  exact fun c member => all c (mem_writtenLetters member)

@[simp] theorem trim_write (hexadecimal : Bool) (v : Value) :
    Text.trim (v.write hexadecimal) = v.write hexadecimal :=
  Text.trim_eq_self_of_forall _ solid_write

/-- A number whose digits are read without its sign. -/
def IsReadable (n : Int) : Prop := -0x8000000000000000 < n ∧ n < 0x8000000000000000

instance : DecidablePred IsReadable :=
  fun n => inferInstanceAs (Decidable (-0x8000000000000000 < n ∧ n < 0x8000000000000000))

theorem isReadable_natCast {n : Nat} : IsReadable n ↔ n < 0x8000000000000000 := by
  rw [IsReadable]
  omega

/-- The digits of a number are read if they have 64 bits. -/
theorem readInteger_magnitudeText (hexadecimal : Bool) (n : Nat) :
    Text.readInteger (magnitudeText hexadecimal n) =
      if n < 0x8000000000000000 then some (n : Int) else none := by
  have inside : Text.inInt64 (n : Int) = true ↔ n < 0x8000000000000000 := by
    rw [Text.inInt64, Bool.and_eq_true, decide_eq_true_eq, decide_eq_true_eq]
    omega
  have kept : (some (n : Int)).filter Text.inInt64 =
      if n < 0x8000000000000000 then some (n : Int) else none := by
    simp only [Option.filter_some, inside]
  have signless {s : Text} (digits : ∀ c ∈ s, c ∈ Text.hexAlphabet) : '-' ∉ s ∧ '+' ∉ s :=
    ⟨fun member => absurd (digits _ member) (by decide),
      fun member => absurd (digits _ member) (by decide)⟩
  cases hexadecimal with
  | true =>
    obtain ⟨noMinus, noPlus⟩ := signless fun c => Text.mem_hexAlphabet_of_mem_hexUpper (n := n)
    have marked : Text.hexMarked? (magnitudeText true n) = some (Text.hexUpper n) := rfl
    rw [Text.readInteger, marked]
    simp only [Text.readInt64, Text.readSigned_of_unsigned noMinus noPlus, Text.readDigits_hexUpper,
      Option.map_some]
    exact kept
  | false =>
    obtain ⟨noMinus, noPlus⟩ := signless fun c => Text.mem_hexAlphabet_of_mem_decimal (n := n)
    have absent {mark : Char} (other : mark ∉ Text.hexAlphabet) : mark ∉ Text.decimal n :=
      fun member => other (Text.mem_hexAlphabet_of_mem_decimal member)
    have unmarked : Text.hexMarked? (Text.decimal n) = none :=
      Text.hexMarked?_eq_none (absent (by decide)) (absent (by decide))
    rw [magnitudeText, if_neg (by simp), Text.readInteger, unmarked]
    simp only [Text.readInt64, Text.readSigned_of_unsigned noMinus noPlus, Text.readDigits_decimal,
      Option.map_some]
    exact kept

/-- A whole number is read back, or its text is refused. -/
theorem readInt_write_eq (n : Int) (hexadecimal : Bool) :
    readInt ((Value.int n).write hexadecimal) = .ok (if IsReadable n then some n else none) := by
  have small : IsReadable n ↔ n.natAbs < 0x8000000000000000 := by
    rw [IsReadable]
    omega
  have read := readInteger_magnitudeText hexadecimal n.natAbs
  rw [readInt, trim_write, write_int]
  simp only [small]
  by_cases negative : n < 0
  · have trimmed : Text.trim (magnitudeText hexadecimal n.natAbs) = magnitudeText hexadecimal n.natAbs := by
      refine Text.trim_eq_self_of_forall _ fun c member => ?_
      have all : ∀ c ∈ 'x' :: Text.hexAlphabet, Text.isBlank c = false :=
        List.all_iff_forall_prop.mp (by decide)
      exact all c ((mem_magnitudeText member).elim (fun mark => mark ▸ List.mem_cons_self)
        (List.mem_cons_of_mem _))
    rw [if_pos negative, List.singleton_append]
    have back : -(n.natAbs : Int) = n := by omega
    simp only [trimmed, Text.readNegated, read]
    by_cases bounded : n.natAbs < 0x8000000000000000
    · have fits : Text.inInt64 n = true := by
        rw [Text.inInt64, Bool.and_eq_true, decide_eq_true_eq, decide_eq_true_eq]
        omega
      rw [if_pos bounded, if_pos bounded]
      simp only [Overflow.negate, back, fits, if_true]
      rfl
    · rw [if_neg bounded, if_neg bounded]
  · have unsigned : '-' ∉ magnitudeText hexadecimal n.natAbs :=
      not_mem_magnitudeText (by decide) hexadecimal n.natAbs
    have same : (n.natAbs : Int) = n := by omega
    rw [if_neg negative, List.nil_append]
    split
    case h_1 rest shape =>
      rw [shape] at unsigned
      exact absurd List.mem_cons_self unsigned
    case h_2 => rw [read, same]

/-- Whole numbers are read back. -/
theorem readInt_write {n : Int} (readable : IsReadable n) (hexadecimal : Bool) :
    readInt ((Value.int n).write hexadecimal) = .ok (some n) := by
  rw [readInt_write_eq, if_pos readable]

theorem toLower_digit {c : Char} (digit : c ∈ Text.hexAlphabet) : c.toLower ≠ 'x' := by
  have all : ∀ c ∈ Text.hexAlphabet, c.toLower ≠ 'x' := List.all_iff_forall_prop.mp (by decide)
  exact all c digit

/-- Whether a number is in hexadecimal is seen from its text. -/
theorem mentionsHex_write (hexadecimal : Bool) (n : Int) :
    mentionsHex ((Value.int n).write hexadecimal) = hexadecimal := by
  cases hexadecimal with
  | true =>
    rw [mentionsHex, Text.contains_iff, write_int, magnitudeText, if_pos rfl, Text.lower,
      List.map_append, List.map_append]
    exact ⟨_, _, List.append_assoc _ _ _⟩
  | false =>
    rw [mentionsHex, Bool.eq_false_iff, ne_eq, Text.contains_iff]
    intro marked
    have inside : 'x' ∈ Text.lower ((Value.int n).write false) := marked.subset (by simp)
    obtain ⟨c, member, lowered⟩ := List.mem_map.mp inside
    rw [write_int, List.mem_append] at member
    rcases member with sign | digit
    · split at sign
      · rw [List.mem_singleton.mp sign] at lowered
        exact absurd lowered (by decide)
      · cases sign
    · exact toLower_digit (Text.mem_hexAlphabet_of_mem_decimal digit) lowered

/-- A text of digits with at most one point, behind the first of them. -/
def IsNumeral (s : Text) : Prop :=
  ∃ whole fraction, whole ≠ [] ∧ (∀ c ∈ whole ++ fraction, c ∈ Text.digitAlphabet) ∧
    (s = whole ∧ fraction = [] ∨ s = whole ++ '.' :: fraction)

theorem isNumeral_writePositional {digits : Text} (point : Int)
    (allDigits : ∀ c ∈ digits, c ∈ Text.digitAlphabet) :
    IsNumeral (Value.floatLayout.writePositional digits point) := by
  have zeros (count : Nat) : ∀ c ∈ List.replicate count '0', c ∈ Text.digitAlphabet := by
    intro c member
    rw [List.eq_of_mem_replicate member]
    decide
  unfold Binary.Layout.writePositional
  split
  case isTrue small =>
    refine ⟨['0'], List.replicate (-point).toNat '0' ++ digits, by simp, ?_, Or.inr ?_⟩
    · rw [List.singleton_append, List.forall_mem_cons, List.forall_mem_append]
      exact ⟨by decide, zeros _, allDigits⟩
    · rw [List.append_assoc]
      rfl
  case isFalse positive =>
    split
    case isTrue short =>
      have text : digits ++ List.replicate (point.toNat - digits.length) '0' ++
          Value.floatLayout.whole = digits ++ List.replicate (point.toNat - digits.length) '0' :=
        List.append_nil _
      refine ⟨_, [], fun empty => ?_, ?_, Or.inl ⟨text, rfl⟩⟩
      · have none := congrArg List.length empty
        rw [List.length_append, List.length_replicate, List.length_nil] at none
        omega
      · rw [List.append_nil, List.forall_mem_append]
        exact ⟨allDigits, zeros _⟩
    case isFalse long =>
      refine ⟨digits.take point.toNat, digits.drop point.toNat, fun empty => ?_, ?_, Or.inr ?_⟩
      · have none := congrArg List.length empty
        rw [List.length_take, List.length_nil] at none
        omega
      · rw [List.take_append_drop]
        exact allDigits
      · rw [List.append_assoc]
        rfl

theorem isDigit_of_mem_digitAlphabet {c : Char} (digit : c ∈ Text.digitAlphabet) :
    c.isDigit = true := by
  have all : ∀ c ∈ Text.digitAlphabet, c.isDigit = true := List.all_iff_forall_prop.mp (by decide)
  exact all c digit

theorem readNumeral_of_isNumeral {s : Text} (numeral : IsNumeral s) :
    ∃ n : Binary.Numeral, Binary.readNumeral s = some (n, []) ∧ n.digits ≠ [] ∧
      ∀ c ∈ n.digits, c ∈ Text.digitAlphabet := by
  obtain ⟨whole, fraction, some, digits, shape⟩ := numeral
  have parts := List.forall_mem_append.mp digits
  have all {t : Text} (digits : ∀ c ∈ t, c ∈ Text.digitAlphabet) : ∀ c ∈ t, c.isDigit = true :=
    fun c member => isDigit_of_mem_digitAlphabet (digits c member)
  have alone {t : Text} (digits : ∀ c ∈ t, c ∈ Text.digitAlphabet) : Binary.takeDigits t = (t, []) := by
    rw [Binary.takeDigits, List.takeWhile_eq_self_iff.mpr (all digits),
      List.dropWhile_eq_nil_iff.mpr (all digits)]
  have kept : whole.isEmpty = false := List.isEmpty_eq_false_iff.mpr some
  refine ⟨⟨whole ++ fraction, fraction.length⟩, ?_, by simp [some], digits⟩
  rcases shape with ⟨rfl, rfl⟩ | rfl
  · rw [Binary.readNumeral, alone parts.1]
    simp [kept]
  · have split : Binary.takeDigits (whole ++ '.' :: fraction) = (whole, '.' :: fraction) := by
      rw [Binary.takeDigits, List.takeWhile_append_of_pos (all parts.1),
        List.dropWhile_append_of_pos (all parts.1)]
      simp
    rw [Binary.readNumeral, split]
    simp only [alone parts.2, kept, Bool.false_and, Bool.false_eq_true, if_false]

theorem isSome_readDigits {s : Text} (some : s ≠ []) (digits : ∀ c ∈ s, c ∈ Text.digitAlphabet) :
    (Text.readDigits 10 s).isSome = true := by
  have continued (acc : Nat) : (Text.continueDigits 10 acc s).isSome = true := by
    clear some
    induction s generalizing acc with
    | nil => rfl
    | cons c s ih =>
      rw [List.forall_mem_cons] at digits
      have value : ∀ c ∈ Text.digitAlphabet, ∃ d < 10, Text.digitValue? c = Option.some d :=
        List.all_iff_forall_prop.mp (by decide)
      obtain ⟨d, small, read⟩ := value c digits.1
      rw [Text.continueDigits, read]
      simp only [small, if_true]
      exact ih digits.2 _
  rw [Text.readDigits, List.isEmpty_eq_false_iff.mpr some]
  exact continued 0

theorem isSome_readUnsigned? {s : Text} (numeral : IsNumeral s) (negative : Bool) :
    (Binary.single.readUnsigned? negative s).isSome = true := by
  obtain ⟨n, read, some, digits⟩ := readNumeral_of_isNumeral numeral
  obtain ⟨k, value⟩ := Option.isSome_iff_exists.mp (isSome_readDigits some digits)
  unfold Binary.Format.readUnsigned?
  simp only [read, Binary.readExponent, value]
  split
  · rfl
  · split <;> rfl

theorem isSome_read?_of_isNumeral {s : Text} (numeral : IsNumeral s) (negative : Bool) :
    (Binary.single.read? ((if negative then ['-'] else []) ++ s)).isSome = true := by
  cases negative with
  | true => exact isSome_readUnsigned? numeral true
  | false =>
    obtain ⟨whole, fraction, some, digits, shape⟩ := id numeral
    obtain ⟨first, rest, rfl⟩ := List.exists_cons_of_ne_nil some
    have digit : first ∈ Text.digitAlphabet := digits first List.mem_cons_self
    have unsigned : ∀ c ∈ Text.digitAlphabet, c ≠ '-' ∧ c ≠ '+' :=
      List.all_iff_forall_prop.mp (by decide)
    obtain ⟨more, lead⟩ : ∃ more, s = first :: more := by
      rcases shape with ⟨rfl, -⟩ | rfl
      · exact ⟨rest, rfl⟩
      · exact ⟨_, List.cons_append⟩
    rw [if_neg (by simp), List.nil_append]
    unfold Binary.Format.read?
    split
    · exact absurd (List.cons.inj lead).1.symm (unsigned first digit).1
    · exact absurd (List.cons.inj lead).1.symm (unsigned first digit).2
    · exact isSome_readUnsigned? numeral false

/-- Every float has a text that is read as a float. -/
theorem isSome_read?_writeFloat (bits : UInt32) :
    (Binary.single.read? (Value.writeFloat bits)).isSome = true := by
  unfold Value.writeFloat
  split
  · decide
  case h_2 negative _ => cases negative <;> decide
  case h_3 negative significand exponent _ =>
    unfold Binary.Layout.writeFinite
    simp only
    split
    · have zero : IsNumeral ['0'] :=
        ⟨['0'], [], by simp, List.all_iff_forall_prop.mp (by decide), Or.inl ⟨rfl, rfl⟩⟩
      rw [List.append_assoc]
      exact isSome_read?_of_isNumeral zero negative
    · have noExponent (point : Int) : Value.floatLayout.positional point = true := rfl
      rw [if_pos (noExponent _)]
      exact isSome_read?_of_isNumeral
        (isNumeral_writePositional _ fun c => mem_digitAlphabet_of_mem_parts) negative

end Configuration

end GamePatch
