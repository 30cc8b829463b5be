import GamePatch.Change.Resolve
import GamePatch.Proofs.Assembler.Items
import GamePatch.Proofs.Bytes
import GamePatch.Proofs.Configuration.ValueText
import GamePatch.Proofs.Hex.RoundTrip
import GamePatch.Proofs.Line.Functions
import GamePatch.Proofs.Text.Digits
import GamePatch.Proofs.Text.Variation

set_option autoImplicit false

namespace GamePatch

namespace Assembler

open Change (unknownAddress)
open GamePatch.Configuration (IsUnsigned IsWritten)
open Text (Varies Avoids)

/-- What may take the place of a text that stands for an unknown value: an address, or a value in
one of some forms. -/
inductive Settles (form : Text → Prop) : Text → Text → Prop
  | address (a : Address) : Settles form unknownAddress ("0x" ++ Hex.encodeWord a)
  | value {text : Text} (formed : form text) : Settles form ['0'] text

/-- A zero that is a digit of a number, and letters of a value. -/
inductive Fills : Text → Text → Prop
  | zero {text : Text} (unsigned : IsUnsigned text) : Fills ['0'] text

/-- Digits in the place of a zero do not make a number smaller. -/
theorem continueDigits_le {base acc acc' m n : Nat} {s t : Text} (positive : 0 < base)
    (varies : Varies Fills s t) (more : acc ≤ acc')
    (first : Text.continueDigits base acc s = some m)
    (second : Text.continueDigits base acc' t = some n) : m ≤ n := by
  induction varies generalizing acc acc' with
  | nil =>
    cases first
    cases second
    exact more
  | keep c rest ih =>
    rw [Text.continueDigits] at first second
    split at first
    case h_1 d value =>
      rw [value] at second
      simp only at second
      split at first
      case isTrue small =>
        rw [if_pos small] at second
        exact ih (Nat.add_le_add_right (Nat.mul_le_mul_right base more) d) first second
      case isFalse => cases first
    case h_2 => cases first
  | piece filled rest ih =>
    obtain ⟨unsigned⟩ := filled
    rw [Text.continueDigits_append] at first second
    obtain ⟨mid, own, first⟩ := Option.bind_eq_some_iff.mp first
    obtain ⟨mid', own', second⟩ := Option.bind_eq_some_iff.mp second
    have zero : mid = acc * base := by
      simp only [Text.continueDigits, show Text.digitValue? '0' = some 0 from rfl, positive,
        ↓reduceIte, Nat.add_zero, Option.some.injEq] at own
      exact own.symm
    have raised := Text.mul_le_of_continueDigits positive unsigned.1 own'
    have shifted := Nat.mul_le_mul_right base more
    exact ih (by omega) first second

/-- Where no address was unknown, only zeros have been filled. -/
theorem varies_fills_or_address {s t : Text} (varies : Varies (Settles IsUnsigned) s t) :
    Varies Fills s t ∨ unknownAddress <:+: s := by
  induction varies with
  | nil => exact Or.inl .nil
  | keep c rest ih =>
    exact ih.imp (.keep c) fun inside => inside.trans (List.suffix_cons _ _).isInfix
  | piece settled rest ih =>
    cases settled with
    | address a => exact Or.inr (List.prefix_append _ _).isInfix
    | value unsigned =>
      exact ih.imp (.piece (.zero unsigned)) fun inside => inside.trans (List.suffix_append _ _).isInfix

theorem not_mem_of_isUnsigned {c : Char} (foreign : c ∉ Configuration.valueLetters) {text : Text}
    (unsigned : IsUnsigned text) : c ∉ text := fun member => foreign (unsigned.2 c member)

theorem fills_avoids (mark : Char) (other : mark ∉ Configuration.valueLetters) :
    Avoids Fills fun c => (c == mark) = true := by
  rintro old new ⟨unsigned⟩
  have zero : '0' ≠ mark := by
    rintro rfl
    exact other (by decide)
  refine ⟨⟨List.cons_ne_nil _ _, by simpa using zero⟩, unsigned.1, fun c member same => ?_⟩
  rw [beq_iff_eq.mp same] at member
  exact not_mem_of_isUnsigned other unsigned member

theorem mark_mem_unknownAddress : 'x' ∈ unknownAddress := by decide

/-- An address holds the mark of a base, and no value does. -/
theorem mark_mem_iff {s t : Text} (varies : Varies (Settles IsUnsigned) s t) : 'x' ∈ s ↔ 'x' ∈ t := by
  refine varies.mem_iff fun old new settled => ?_
  cases settled with
  | address a =>
    have marked : 'x' ∈ "0x".toList := by decide
    exact iff_of_true mark_mem_unknownAddress (List.mem_append_left _ marked)
  | value unsigned =>
    exact iff_of_false (by decide) (not_mem_of_isUnsigned (by decide) unsigned)

theorem readMagnitude_of_mark {s : Text} {n : Nat} (marked : 'x' ∈ s)
    (read : readMagnitude s = some n) :
    ∃ digits, s = '0' :: 'x' :: digits ∧ Text.readDigits 16 digits = some n := by
  unfold readMagnitude at read
  split at read
  case h_1 digits => exact ⟨digits, rfl, read⟩
  case h_2 => exact absurd (Text.readDigits_isHexDigit read 'x' marked) (by decide)

theorem readMagnitude_of_no_mark {s : Text} {n : Nat} (unmarked : 'x' ∉ s)
    (read : readMagnitude s = some n) : Text.readDigits 10 s = some n := by
  unfold readMagnitude at read
  split at read
  case h_1 digits => exact absurd (by simp) unmarked
  case h_2 => exact read

/-- An address that is not known yet is more than any space. -/
theorem maxSpace_lt_of_unknownAddress {s : Text} {n : Nat}
    (read : Text.readDigits 16 ("80000000".toList ++ s) = some n) : maxSpace < n := by
  have digits := Text.continueDigits_of_readDigits read
  rw [Text.continueDigits_append] at digits
  obtain ⟨mid, lead, rest⟩ := Option.bind_eq_some_iff.mp digits
  have value : Text.continueDigits 16 0 "80000000".toList = some 0x80000000 := by decide
  have least := Text.le_of_continueDigits (by decide) rest
  rw [value] at lead
  cases lead
  rw [maxSpace]
  omega

/-- The unknown address in a number is the number. -/
theorem maxSpace_lt_of_address {digits : Text} {n : Nat}
    (address : unknownAddress <:+: '0' :: 'x' :: digits)
    (read : Text.readDigits 16 digits = some n) : maxSpace < n := by
  have unmarked : 'x' ∉ digits :=
    fun member => absurd (Text.readDigits_isHexDigit read 'x' member) (by decide)
  rcases List.infix_cons_iff.mp address with lead | inside
  · obtain ⟨rest, shape⟩ := lead
    obtain rfl : "80000000".toList ++ rest = digits := (List.cons.inj (List.cons.inj shape).2).2
    exact maxSpace_lt_of_unknownAddress read
  · rcases List.infix_cons_iff.mp inside with ⟨rest, shape⟩ | inside
    · exact absurd (List.cons.inj shape).1 (by decide)
    · exact absurd (inside.subset mark_mem_unknownAddress) unmarked

theorem readMagnitude_le {s t : Text} {m n : Nat} (varies : Varies (Settles IsUnsigned) s t)
    (first : readMagnitude s = some m) (second : readMagnitude t = some n) (small : m ≤ maxSpace) :
    m ≤ n := by
  by_cases marked : 'x' ∈ s
  · obtain ⟨ds, rfl, first⟩ := readMagnitude_of_mark marked first
    obtain ⟨dt, rfl, second⟩ := readMagnitude_of_mark ((mark_mem_iff varies).mp marked) second
    rcases varies_fills_or_address varies with fills | address
    · -- The mark is at the same place of both numbers, as no value holds one.
      have parts := fills.cutWhere (fills_avoids 'x' (by decide))
      have behind : Varies Fills ds dt := by
        cases parts with
        | some both => exact both.2
      exact continueDigits_le (by decide) behind (Nat.le_refl 0)
        (Text.continueDigits_of_readDigits first) (Text.continueDigits_of_readDigits second)
    · exact absurd small (Nat.not_le.mpr (maxSpace_lt_of_address address first))
  · have first := readMagnitude_of_no_mark marked first
    have second := readMagnitude_of_no_mark (fun member => marked ((mark_mem_iff varies).mpr member))
      second
    rcases varies_fills_or_address varies with fills | address
    · exact continueDigits_le (by decide) fills (Nat.le_refl 0)
        (Text.continueDigits_of_readDigits first) (Text.continueDigits_of_readDigits second)
    · exact absurd (address.subset mark_mem_unknownAddress) marked

/-- A number is a magnitude or the negative of one. -/
theorem readNumber_eq_some {s : Text} {n : Int} (read : readNumber s = some n) :
    (∃ digits k, Text.trim s = '-' :: digits ∧ readMagnitude digits = some k ∧ n = -(k : Int)) ∨
      ∃ k : Nat, readMagnitude (Text.trim s) = some k ∧ n = k := by
  obtain ⟨parsed, -⟩ := Option.filter_eq_some_iff.mp read
  split at parsed
  case h_1 digits shape =>
    obtain ⟨_, chain, rfl⟩ := Option.map_eq_some_iff.mp parsed
    obtain ⟨k, magnitude, same⟩ := Option.bind_eq_some_iff.mp chain
    cases same
    exact Or.inl ⟨digits, k, shape, magnitude, rfl⟩
  case h_2 =>
    obtain ⟨k, magnitude, rfl⟩ := Option.map_eq_some_iff.mp parsed
    exact Or.inr ⟨k, magnitude, rfl⟩

theorem minus_not_mem_of_readMagnitude {s : Text} {n : Nat} (read : readMagnitude s = some n) :
    '-' ∉ s := by
  intro member
  by_cases marked : 'x' ∈ s
  · obtain ⟨digits, rfl, digitsRead⟩ := readMagnitude_of_mark marked read
    have inside : '-' ∈ digits := by simpa using member
    exact absurd (Text.readDigits_isHexDigit digitsRead '-' inside) (by decide)
  · exact absurd (Text.readDigits_isHexDigit (readMagnitude_of_no_mark marked read) '-' member)
      (by decide)

/-- Without a minus sign, all values that have been filled in are unsigned. -/
theorem varies_unsigned {s t : Text} (varies : Varies (Settles IsWritten) s t) (positive : '-' ∉ t) :
    Varies (Settles IsUnsigned) s t := by
  induction varies with
  | nil => exact .nil
  | keep c rest ih =>
    rw [List.mem_cons, not_or] at positive
    exact .keep c (ih positive.2)
  | piece settled rest ih =>
    rw [List.mem_append, not_or] at positive
    cases settled with
    | address a => exact .piece (.address a) (ih positive.2)
    | value written =>
      rcases written with unsigned | ⟨body, rfl, -⟩
      · exact .piece (.value unsigned) (ih positive.2)
      · exact absurd List.mem_cons_self positive.1

/-- A minus sign in front of a number that had none belongs to a value. -/
theorem varies_of_minus {s body : Text} (varies : Varies (Settles IsWritten) s ('-' :: body))
    (unsigned : '-' ∉ s) (positive : '-' ∉ body) : Varies (Settles IsUnsigned) s body := by
  generalize shape : '-' :: body = t at varies
  cases varies with
  | nil => cases shape
  | keep c rest =>
    cases shape
    exact absurd List.mem_cons_self unsigned
  | piece settled rest =>
    cases settled with
    | address a => cases shape
    | value written =>
      rcases written with written | ⟨value, rfl, written⟩
      · obtain ⟨c, text, rfl⟩ := List.exists_cons_of_ne_nil written.1
        obtain rfl : '-' = c := (List.cons.inj shape).1
        exact absurd List.mem_cons_self (not_mem_of_isUnsigned (by decide) written)
      · cases shape
        rw [List.append_eq, List.mem_append, not_or] at positive
        exact .piece (.value written) (varies_unsigned rest positive.2)

/-- The characters that addresses and values are written in. -/
def settledLetters : List Char := "0x-".toList ++ Text.hexAlphabet ++ Configuration.valueLetters

theorem settles_avoids {p : Char → Prop} [DecidablePred p]
    (foreign : (settledLetters.all fun c => decide (¬ p c)) = true) :
    Avoids (Settles IsWritten) p := by
  have none : ∀ c ∈ settledLetters, ¬ p c := List.all_iff_forall_prop.mp foreign
  rw [settledLetters, List.forall_mem_append, List.forall_mem_append] at none
  obtain ⟨⟨marks, digits⟩, letters⟩ := none
  intro old new settled
  cases settled with
  | address a =>
    have mark : ∀ c ∈ "0x".toList, ¬ p c := fun c member => marks c (List.mem_append_left ['-'] member)
    have written (word : UInt32) : ∀ c ∈ "0x" ++ Hex.encodeWord word, ¬ p c :=
      List.forall_mem_append.mpr ⟨mark, fun c member =>
        digits c (Text.mem_hexAlphabet (Hex.isDigits_encode _ c member).1)⟩
    exact ⟨⟨List.cons_ne_nil _ _, written 0x80000000⟩, List.cons_ne_nil _ _, written a⟩
  | value formed =>
    refine ⟨⟨List.cons_ne_nil _ _, by simpa using digits '0' (by decide)⟩, ?_⟩
    rcases formed with unsigned | ⟨body, rfl, unsigned⟩
    · exact ⟨unsigned.1, fun c member => letters c (unsigned.2 c member)⟩
    · have sign : ¬ p '-' := marks '-' (by decide)
      refine ⟨List.cons_ne_nil _ _, List.forall_mem_cons.mpr ⟨sign, fun c member => ?_⟩⟩
      exact letters c (unsigned.2 c member)

theorem settles_avoids_blank : Avoids (Settles IsWritten) (Text.isBlank · = true) :=
  settles_avoids (by decide)

/-- A number of zeros does not get smaller when the values in it become known. -/
theorem readNumber_le {s t : Text} {m n : Int} (varies : Varies (Settles IsWritten) s t)
    (first : readNumber s = some m) (second : readNumber t = some n) (small : m ≤ maxSpace)
    (natural : 0 ≤ n) : m ≤ n := by
  have trimmed := varies.trim settles_avoids_blank
  rcases readNumber_eq_some first with ⟨digits, k, -, -, rfl⟩ | ⟨k, magnitude, rfl⟩
  · omega
  have unsigned := minus_not_mem_of_readMagnitude magnitude
  rcases readNumber_eq_some second with ⟨body, k', shape, magnitude', rfl⟩ | ⟨k', magnitude', rfl⟩
  · rw [shape] at trimmed
    have positive := minus_not_mem_of_readMagnitude magnitude'
    have raised := readMagnitude_le (varies_of_minus trimmed unsigned positive) magnitude magnitude'
      (by omega)
    omega
  · have positive := minus_not_mem_of_readMagnitude magnitude'
    have raised := readMagnitude_le (varies_unsigned trimmed positive) magnitude magnitude' (by omega)
    omega

/-- The words that the assembler knows. -/
def mnemonics : List Text :=
  [".long", ".short", ".byte", ".space", ".include", "nop", "blr", "li", "lis", "addi", "ori", "beq",
    "bne"]

theorem mem_mnemonics {mnemonic : Text} {operands : List Text} {result : Option Bytes}
    (known : encode mnemonic operands = some result) : mnemonic ∈ mnemonics := by
  by_contra unknown
  simp only [mnemonics, List.mem_cons, List.not_mem_nil, or_false, not_or] at unknown
  obtain ⟨long, short, byte, space, included, nop, blr, li, lis, addi, ori, beq, bne⟩ := unknown
  unfold encode at known
  rw [if_neg long, if_neg short, if_neg byte, if_neg space, if_neg included, if_neg nop, if_neg blr,
    if_neg li, if_neg lis, if_neg addi, if_neg ori, if_neg beq, if_neg bne] at known
  cases known

/-- Bytes in a number, if there are any. -/
def IsOfSize (size : Nat) (bytes : Option Bytes) : Prop := ∀ b, bytes = some b → b.length = size

theorem isOfSize_none (size : Nat) : IsOfSize size none := fun _ impossible => by cases impossible

theorem isOfSize_some (bytes : Bytes) : IsOfSize bytes.length (some bytes) := by
  rintro b ⟨⟩
  rfl

theorem isOfSize_instruction (word : Nat) : IsOfSize 4 (some (instruction word)) := by
  rintro b ⟨⟩
  exact Bytes.length_bigEndian 4 word

theorem IsOfSize.bind {α : Type} {size : Nat} {x : Option α} {f : α → Option Bytes}
    (each : ∀ a, IsOfSize size (f a)) : IsOfSize size (x >>= f) := by
  intro b chain
  obtain ⟨a, -, made⟩ := Option.bind_eq_some_iff.mp chain
  exact each a b made

theorem length_of_mapM {α β : Type} {f : α → Option β} {xs : List α} {ys : List β}
    (read : xs.mapM f = some ys) : ys.length = xs.length := by
  induction xs generalizing ys with
  | nil => cases read; rfl
  | cons x xs ih =>
    rw [List.mapM_cons] at read
    obtain ⟨y, -, chain⟩ := Option.bind_eq_some_iff.mp read
    obtain ⟨rest, tail, same⟩ := Option.bind_eq_some_iff.mp chain
    cases same
    rw [List.length_cons, ih tail, List.length_cons]

theorem isOfSize_dataBytes (width : Nat) (operands : List Text) :
    IsOfSize (width * operands.length) (dataBytes width operands) := by
  intro b data
  obtain ⟨values, read, rfl⟩ := Option.map_eq_some_iff.mp data
  simp [List.length_flatMap, length_of_mapM read, Nat.mul_comm]

theorem isOfSize_conditional (word : Nat) (operands : List Text) :
    IsOfSize 4 (conditional word operands) := by
  unfold conditional
  split
  · intro b branch
    obtain ⟨n, -, rfl⟩ := Option.map_eq_some_iff.mp branch
    exact Bytes.length_bigEndian 4 _
  · exact isOfSize_none 4

theorem isOfSize_of_ite {p : Prop} [Decidable p] {size : Nat} {own result : Option Bytes}
    {others : Option (Option Bytes)} (encoded : (if p then some own else others) = some result)
    (there : others = some result → IsOfSize size result) (here : IsOfSize size own) :
    IsOfSize size result := by
  split at encoded
  · exact Option.some.inj encoded ▸ here
  · exact there encoded

/-- An instruction is a word, if its operands can be read. -/
theorem isOfSize_of_not_directive {mnemonic : Text} {operands : List Text} {result : Option Bytes}
    (long : mnemonic ≠ ".long".toList) (short : mnemonic ≠ ".short".toList)
    (byte : mnemonic ≠ ".byte".toList) (space : mnemonic ≠ ".space".toList)
    (included : mnemonic ≠ ".include".toList) (encoded : encode mnemonic operands = some result) :
    IsOfSize 4 result := by
  have alone (word : Nat) :
      IsOfSize 4 (if operands = [[]] then some (instruction word) else none) := by
    split
    · exact isOfSize_instruction word
    · exact isOfSize_none 4
  unfold encode at encoded
  rw [if_neg long, if_neg short, if_neg byte, if_neg space, if_neg included] at encoded
  refine isOfSize_of_ite encoded (fun encoded => ?_) (alone _)
  refine isOfSize_of_ite encoded (fun encoded => ?_) (alone _)
  refine isOfSize_of_ite encoded (fun encoded => ?_) ?li
  refine isOfSize_of_ite encoded (fun encoded => ?_) ?lis
  refine isOfSize_of_ite encoded (fun encoded => ?_) ?addi
  refine isOfSize_of_ite encoded (fun encoded => ?_) ?ori
  refine isOfSize_of_ite encoded (fun encoded => ?_) (isOfSize_conditional _ operands)
  refine isOfSize_of_ite encoded (fun unknown => ?_) (isOfSize_conditional _ operands)
  · cases unknown
  case li | lis =>
    split
    · exact .bind fun _ => .bind fun _ => isOfSize_instruction _
    · exact isOfSize_none 4
  case addi | ori =>
    split
    · exact .bind fun _ => .bind fun _ => .bind fun _ => isOfSize_instruction _
    · exact isOfSize_none 4

/-- How many bytes a mnemonic makes of a number of operands, `.space` apart. -/
def sizeOf (mnemonic : Text) (operands : Nat) : Nat :=
  if mnemonic = ".long".toList then 4 * operands
  else if mnemonic = ".short".toList then 2 * operands
  else if mnemonic = ".byte".toList then 1 * operands
  else if mnemonic = ".include".toList then 0
  else 4

/-- The number of a line's bytes does not depend on what its operands are, `.space` apart. -/
theorem isOfSize_encode {mnemonic : Text} {operands : List Text} {result : Option Bytes}
    (other : mnemonic ≠ ".space".toList) (encoded : encode mnemonic operands = some result) :
    IsOfSize (sizeOf mnemonic operands.length) result := by
  have read := encoded
  unfold encode at read
  unfold sizeOf
  by_cases long : mnemonic = ".long".toList
  · rw [if_pos long] at read ⊢
    exact Option.some.inj read ▸ isOfSize_dataBytes 4 operands
  rw [if_neg long] at read ⊢
  by_cases short : mnemonic = ".short".toList
  · rw [if_pos short] at read ⊢
    exact Option.some.inj read ▸ isOfSize_dataBytes 2 operands
  rw [if_neg short] at read ⊢
  by_cases byte : mnemonic = ".byte".toList
  · rw [if_pos byte] at read ⊢
    exact Option.some.inj read ▸ isOfSize_dataBytes 1 operands
  rw [if_neg byte, if_neg other] at read
  rw [if_neg byte]
  by_cases included : mnemonic = ".include".toList
  · rw [if_pos included] at read ⊢
    exact Option.some.inj read ▸ isOfSize_some []
  rw [if_neg included]
  exact isOfSize_of_not_directive long short byte other included encoded

/-- The zeros that `.space` makes are as many as its only operand says. -/
theorem encode_space {operands : List Text} {bytes : Bytes}
    (encoded : encode ".space".toList operands = some (some bytes)) :
    ∃ count n, operands = [count] ∧ readNumber count = some n ∧ 0 ≤ n ∧ n ≤ maxSpace ∧
      bytes.length = n.toNat := by
  unfold encode at encoded
  rw [if_neg (by decide), if_neg (by decide), if_neg (by decide), if_pos rfl] at encoded
  have made := Option.some.inj encoded
  split at made
  case h_1 count =>
    split at made
    case h_1 n read =>
      split at made
      case isTrue bounds =>
        cases made
        rw [Bool.and_eq_true, decide_eq_true_iff, decide_eq_true_iff] at bounds
        exact ⟨count, n, rfl, read, bounds.1, bounds.2, Bytes.length_zeros _⟩
      case isFalse => cases made
    case h_2 => cases made
  case h_2 => cases made

/-- A directive or an instruction has no fewer bytes with values in its operands. -/
theorem length_encode_le {mnemonic : Text} {operands operands' : List Text} {bytes bytes' : Bytes}
    (varies : List.Forall₂ (Varies (Settles IsWritten)) operands operands')
    (first : encode mnemonic operands = some (some bytes))
    (second : encode mnemonic operands' = some (some bytes')) : bytes.length ≤ bytes'.length := by
  by_cases space : mnemonic = ".space".toList
  · subst space
    obtain ⟨count, m, rfl, read, -, small, length⟩ := encode_space first
    obtain ⟨count', n, rfl, read', natural, -, length'⟩ := encode_space second
    have raised := readNumber_le (List.forall₂_cons.mp varies).1 read read' small natural
    omega
  · have length := isOfSize_encode space first bytes rfl
    have length' := isOfSize_encode space second bytes' rfl
    rw [length, length', varies.length_eq]

/-- What a mnemonic ends at. -/
abbrev isGap (c : Char) : Bool := c == ' ' || c == '\t'

theorem labelOf?_of_gap {line : Text} {c : Char} (gap : isGap c = true) (member : c ∈ line) :
    labelOf? line = none := by
  unfold labelOf?
  split
  · rfl
  case h_2 name shape =>
    split
    case isTrue letters =>
      rw [Bool.and_eq_true, List.all_eq_true] at letters
      rw [Text.dropTrailing?_eq_some_iff.mp shape, List.mem_append, List.mem_singleton] at member
      rw [Bool.or_eq_true, beq_iff_eq, beq_iff_eq] at gap
      have known : isLabelChar ' ' = false ∧ isLabelChar '\t' = false := by decide
      rcases member with inName | rfl
      · have letter := letters.2 c inName
        rcases gap with rfl | rfl
        · rw [known.1] at letter
          cases letter
        · rw [known.2] at letter
          cases letter
      · exact absurd gap (by decide)
    case isFalse => rfl

/-- A line with a word and more behind it makes the bytes of the word and its operands. -/
theorem exists_encode_of_cut {line mnemonic rest : Text}
    (cut : Text.cutWhere isGap (Line.stripComment line) = some (mnemonic, rest))
    (accepted : ¬ (item line).IsBad) :
    ∃ bytes, item line = .data bytes ∧
      encode mnemonic (Text.splitAt ',' (Text.trim rest)) = some (some bytes) := by
  obtain ⟨c, gap, shape, -⟩ := Text.eq_of_cutWhere cut
  have member : c ∈ Line.stripComment line := by simp [shape]
  have nonempty : ¬ (Line.stripComment line).isEmpty = true := by
    rw [List.isEmpty_iff]
    exact List.ne_nil_of_mem member
  unfold item at accepted ⊢
  simp only [labelOf?_of_gap gap member, cut, Option.getD_some] at accepted ⊢
  rw [if_neg nonempty] at accepted ⊢
  split at accepted
  case h_1 => exact absurd trivial accepted
  case h_2 => exact absurd trivial accepted
  case h_3 bytes encoded => exact ⟨bytes, rfl, encoded⟩

/-- A line of one word that makes bytes is a word that the assembler knows. -/
theorem mem_mnemonics_of_item {line : Text} {bytes : Bytes}
    (cut : Text.cutWhere isGap (Line.stripComment line) = none) (made : item line = .data bytes) :
    Line.stripComment line ∈ mnemonics := by
  unfold item at made
  simp only [cut, Option.getD_none] at made
  split at made
  · cases made
  split at made
  · cases made
  split at made
  case h_1 => cases made
  case h_2 => cases made
  case h_3 encoded => exact mem_mnemonics encoded

theorem zero_not_mem_of_mem_mnemonics {mnemonic : Text} (known : mnemonic ∈ mnemonics) :
    '0' ∉ mnemonic := by
  have each : ∀ m ∈ mnemonics, '0' ∉ m := by decide
  exact each mnemonic known

/-- Values take the places of texts with a zero in them. -/
theorem zero_mem_of_settles {form : Text → Prop} {old new : Text} (settled : Settles form old new) :
    '0' ∈ old := by
  cases settled with
  | address a => decide
  | value formed => decide

theorem settles_avoids_gap : Avoids (Settles IsWritten) (isGap · = true) :=
  settles_avoids (by decide)

theorem settles_avoids_comma : Avoids (Settles IsWritten) (· = ',') :=
  settles_avoids (by decide)

/-- A line has no fewer bytes when values take the places of what is not known yet. -/
theorem length_item_le {s t : Text} (varies : Varies (Settles IsWritten) s t)
    (free : Line.IsCommentFree s) (free' : Line.IsCommentFree t) (accepted : ¬ (item t).IsBad) :
    (item s).bytes.length ≤ (item t).bytes.length := by
  cases made : item s with
  | nothing => exact Nat.zero_le _
  | label name => exact Nat.zero_le _
  | bad message => exact Nat.zero_le _
  | data bytes =>
    have trimmed := varies.trim settles_avoids_blank
    rw [← Line.stripComment_of_commentFree free, ← Line.stripComment_of_commentFree free'] at trimmed
    have words := trimmed.cutWhere settles_avoids_gap
    cases cut : Text.cutWhere isGap (Line.stripComment s) with
    | none =>
      have unchanged : Line.stripComment s = Line.stripComment t :=
        trimmed.eq_of_not_mem (fun _ _ => zero_mem_of_settles)
          (zero_not_mem_of_mem_mnemonics (mem_mnemonics_of_item cut made))
      rw [← item_stripComment t, ← unchanged, item_stripComment, made]
    | some found =>
      obtain ⟨found', cut', both⟩ : ∃ found', Text.cutWhere isGap (Line.stripComment t) =
          some found' ∧ Varies.Both (Settles IsWritten) found found' := by
        rw [cut] at words
        generalize Text.cutWhere isGap (Line.stripComment t) = b at words
        cases words with
        | some both => exact ⟨_, rfl, both⟩
      obtain ⟨mnemonic, rest⟩ := found
      obtain ⟨mnemonic', rest'⟩ := found'
      obtain ⟨_, same, first⟩ := exists_encode_of_cut cut (by rw [made]; exact id)
      obtain ⟨bytes', made', second⟩ := exists_encode_of_cut cut' accepted
      cases made.symm.trans same
      obtain rfl : mnemonic = mnemonic' := both.1.eq_of_not_mem
        (fun _ _ => zero_mem_of_settles) (zero_not_mem_of_mem_mnemonics (mem_mnemonics first))
      rw [made']
      exact length_encode_le ((both.2.trim settles_avoids_blank).splitAt settles_avoids_comma) first
        second

end Assembler

end GamePatch
