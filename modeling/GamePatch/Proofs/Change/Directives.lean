import GamePatch.Change.Source
import GamePatch.Proofs.Assembler.Items
import GamePatch.Proofs.Bytes
import GamePatch.Proofs.Hex.RoundTrip
import GamePatch.Proofs.Line.Functions
import GamePatch.Proofs.Text.Lines

set_option autoImplicit false

namespace GamePatch

namespace Text

instance : DecidablePred IsNumeral := fun c =>
  inferInstanceAs (Decidable (isHexDigit c = true ∨ c = '-' ∨ c = '+' ∨ c = 'x' ∨ c = 'X'))

end Text

namespace Assembler

def operand (bytes : Bytes) : Text := "0x" ++ Hex.encode bytes

theorem operand_isNumeral (bytes : Bytes) : ∀ c ∈ operand bytes, Text.IsNumeral c := by
  have lead : ∀ c ∈ ['0', 'x'], Text.IsNumeral c := List.all_iff_forall_prop.mp (by decide)
  intro c member
  rcases List.mem_append.mp member with mark | digit
  · exact lead c mark
  · exact Or.inl (Hex.isDigits_encode bytes c digit).1

theorem not_mem_operand {mark : Char} (other : ¬ Text.IsNumeral mark) (bytes : Bytes) :
    mark ∉ operand bytes := fun member => other (operand_isNumeral bytes mark member)

theorem not_isNumeral_of_isBlank {c : Char} (blank : Text.isBlank c = true) :
    ¬ Text.IsNumeral c := by
  intro numeral
  rcases numeral with digit | rfl | rfl | rfl | rfl
  · rw [Text.isBlank_of_isHexDigit digit] at blank
    cases blank
  all_goals exact absurd blank (by decide)

theorem operand_solid (bytes : Bytes) : ∀ c ∈ operand bytes, Text.isBlank c = false := by
  intro c member
  rw [← Bool.not_eq_true]
  exact fun blank => not_isNumeral_of_isBlank blank (operand_isNumeral bytes c member)

/-- An operand of at most four bytes is read as their number, with or without a blank before it. -/
theorem readExpression_operand {bytes : Bytes} (nonempty : bytes ≠ []) (short : bytes.length ≤ 4)
    {lead : Text} (blank : lead = [] ∨ lead = [' ']) :
    readExpression (lead ++ operand bytes) = some bytes.toNat := by
  have bound : bytes.toNat < 0x100000000 :=
    Nat.lt_of_lt_of_le bytes.toNat_lt (Nat.pow_le_pow_right (by decide) short)
  have alone : Text.splitAt '|' (lead ++ operand bytes) = [lead ++ operand bytes] := by
    refine List.splitOn_eq_singleton fun member => ?_
    rcases List.mem_append.mp member with inLead | inOperand
    · rcases blank with rfl | rfl
      · cases inLead
      · revert inLead
        decide
    · exact not_mem_operand (by decide) bytes inOperand
  have trimmed : Text.trim (lead ++ operand bytes) = '0' :: 'x' :: Hex.encode bytes := by
    have solid := Text.trim_eq_self_of_forall _ (operand_solid bytes)
    rcases blank with rfl | rfl
    · exact solid
    · exact (Text.trim_cons_blank _ ' ' (by decide)).trans solid
  have number : readNumber (lead ++ operand bytes) = some (bytes.toNat : Int) := by
    have inside : Text.inInt64 (bytes.toNat : Int) = true := by
      simp only [Text.inInt64, Bool.and_eq_true, decide_eq_true_eq]
      omega
    rw [readNumber, trimmed]
    change Option.filter Text.inInt64 ((Text.readDigits 16 (Hex.encode bytes)).map Int.ofNat) = _
    rw [Hex.readDigits_encode nonempty, Option.map_some, Int.ofNat_eq_natCast, Option.filter_some,
      if_pos inside]
  have low : ((bytes.toNat : Int) % 0x10000000000000000).toNat = bytes.toNat := by omega
  rw [readExpression, alone, List.mapM_cons, number]
  simp [low]

def directive (mnemonic : Text) (values : List Bytes) : Text :=
  mnemonic ++ ' ' :: Text.join ", " (values.map operand)

theorem directive_singleton (mnemonic : Text) (value : Bytes) :
    directive mnemonic [value] = mnemonic ++ ' ' :: operand value := by
  rw [directive, List.map_singleton, Text.join, List.intercalate_singleton]

/-- The data directives, each with the number of bytes in a value. -/
def dataWidths : List (Text × Nat) := [(".long", 4), (".short", 2), (".byte", 1)]

theorem encode_of_mem_dataWidths {mnemonic : Text} {width : Nat}
    (known : (mnemonic, width) ∈ dataWidths) (operands : List Text) :
    encode mnemonic operands = some (dataBytes width operands) := by
  simp only [dataWidths, List.mem_cons, Prod.mk.injEq, List.not_mem_nil, or_false] at known
  rcases known with ⟨rfl, rfl⟩ | ⟨rfl, rfl⟩ | ⟨rfl, rfl⟩
  · exact if_pos rfl
  · exact (if_neg (by decide)).trans (if_pos rfl)
  · exact (if_neg (by decide)).trans ((if_neg (by decide)).trans (if_pos rfl))

/-- A directive is written in the letters of its name, digits and separators. -/
theorem not_mem_directive {mnemonic : Text} {width : Nat} (known : (mnemonic, width) ∈ dataWidths)
    {mark : Char} (foreign : ¬ Text.IsNumeral mark) (other : mark ∉ " ,.longshortbyte".toList)
    (values : List Bytes) : mark ∉ directive mnemonic values := by
  have letters : ∀ m ∈ dataWidths, m.1.all (· ∈ " ,.longshortbyte".toList) := by decide
  intro member
  rcases List.mem_append.mp member with inName | inRest
  · exact other (List.all_iff_forall_prop.mp (letters _ known) mark inName)
  rcases List.mem_cons.mp inRest with rfl | inOperands
  · exact other (by decide)
  rcases Text.mem_join inOperands with separator | ⟨t, inside, found⟩
  · have separators : ∀ c ∈ ", ".toList, c ∈ " ,.longshortbyte".toList :=
      List.all_iff_forall_prop.mp (by decide)
    exact other (separators mark separator)
  · obtain ⟨v, -, rfl⟩ := List.mem_map.mp inside
    exact not_mem_operand foreign v found

/-- The values of a directive are read back, each in its width. -/
theorem dataBytes_operands {width : Nat} {first : Bytes} {more : List Bytes} (small : width ≤ 4)
    (positive : 0 < width) (widths : ∀ v ∈ first :: more, v.length = width) :
    dataBytes width (operand first :: more.map fun v => ' ' :: operand v) =
      some (first :: more).flatten := by
  have read {lead : Text} (blank : lead = [] ∨ lead = [' ']) :
      ∀ v ∈ first :: more, readExpression (lead ++ operand v) = some v.toNat := by
    intro v member
    have width := widths v member
    refine readExpression_operand ?_ (by omega) blank
    rintro rfl
    rw [List.length_nil] at width
    omega
  have later (vs : List Bytes) (inside : vs ⊆ first :: more) :
      (vs.map fun v => ' ' :: operand v).mapM readExpression = some (vs.map Bytes.toNat) := by
    induction vs with
    | nil => rfl
    | cons v vs ih =>
      have here := read (Or.inr rfl) v (inside List.mem_cons_self)
      rw [List.singleton_append] at here
      rw [List.map_cons, List.mapM_cons, here, ih fun w member => inside (List.mem_cons_of_mem _ member)]
      rfl
  have here := read (Or.inl rfl) first List.mem_cons_self
  rw [List.nil_append] at here
  have numbers : (operand first :: more.map fun v => ' ' :: operand v).mapM readExpression =
      some ((first :: more).map Bytes.toNat) := by
    rw [List.mapM_cons, here, later more (List.subset_cons_self _ _)]
    rfl
  rw [dataBytes, numbers, Option.map_some, List.flatMap_map, List.flatMap_def, Option.some_inj]
  congr 1
  conv_rhs => rw [← List.map_id (first :: more)]
  refine List.map_congr_left fun v member => ?_
  rw [← widths v member, Bytes.bigEndian_toNat, id]

theorem labelOf?_eq_none {line : Text} (noColon : ':' ∉ line) : labelOf? line = none := by
  have none : Text.dropTrailing? [':'] line = none := by
    rw [Option.eq_none_iff_forall_ne_some]
    intro name found
    exact noColon (by simp [Text.dropTrailing?_eq_some_iff.mp found])
  rw [labelOf?, none]

/-- The item of a mnemonic and its operands. -/
theorem item_of_words {mnemonic rest : Text} {bytes : Bytes} (named : mnemonic ≠ [])
    (solid : ∀ c ∈ mnemonic, Text.isBlank c = false) (nonempty : rest ≠ [])
    (front : ∀ c, rest.head? = some c → Text.isBlank c = false)
    (back : ∀ c, rest.getLast? = some c → Text.isBlank c = false)
    (plain : ∀ c ∈ mnemonic ++ ' ' :: rest, c ≠ '#' ∧ c ≠ '/' ∧ c ≠ ':')
    (encoded : encode mnemonic (Text.splitAt ',' rest) = some (some bytes)) :
    item (mnemonic ++ ' ' :: rest) = .data bytes := by
  have free : Line.IsCommentFree (mnemonic ++ ' ' :: rest) :=
    Line.isCommentFree_of_not_mem (fun member => (plain _ member).1 rfl)
      fun member => (plain _ member).2.1 rfl
  have stripped : Line.stripComment (mnemonic ++ ' ' :: rest) = mnemonic ++ ' ' :: rest := by
    rw [Line.stripComment_of_commentFree free]
    refine Text.trim_eq_self _ ?_ ?_
    · rw [List.head?_append_of_ne_nil _ named]
      exact fun c first => solid c (List.mem_of_mem_head? first)
    · rw [List.getLast?_append_cons, List.getLast?_cons]
      obtain ⟨c, last⟩ : ∃ c, rest.getLast? = some c :=
        ⟨rest.getLast nonempty, List.getLast?_eq_some_getLast nonempty⟩
      rw [last]
      rintro d ⟨⟩
      exact back c last
  have cut : Text.cutWhere (fun c => c == ' ' || c == '\t') (mnemonic ++ ' ' :: rest) =
      some (mnemonic, rest) := by
    refine Text.cutWhere_append (fun c member => ?_) (by decide)
    rw [← Bool.not_eq_true, Bool.or_eq_true, beq_iff_eq, beq_iff_eq]
    rintro (rfl | rfl)
    · exact absurd (solid _ member) (by decide)
    · exact absurd (solid _ member) (by decide)
  have unlabelled := labelOf?_eq_none fun member => (plain _ member).2.2 rfl
  unfold item
  simp only [stripped, cut, unlabelled, Option.getD_some, Text.trim_eq_self rest front back, encoded]
  rw [if_neg (by simp)]

/-- A directive gives the bytes of its values. -/
theorem item_directive {mnemonic : Text} {width : Nat} (known : (mnemonic, width) ∈ dataWidths)
    {values : List Bytes} (nonempty : values ≠ []) (widths : ∀ v ∈ values, v.length = width) :
    item (directive mnemonic values) = .data values.flatten := by
  obtain ⟨first, more, rfl⟩ := List.exists_cons_of_ne_nil nonempty
  have bounds : ∀ m ∈ dataWidths, 0 < m.2 ∧ m.2 ≤ 4 := by decide
  have names : ∀ m ∈ dataWidths, m.1 ≠ [] ∧ m.1.all (Text.isBlank · = false) := by decide
  obtain ⟨positive, small⟩ := bounds _ known
  obtain ⟨named, allSolid⟩ := names _ known
  have solid := List.all_iff_forall_prop.mp allSolid
  have split : Text.splitAt ',' (Text.join ", " ((first :: more).map operand)) =
      operand first :: more.map fun v => ' ' :: operand v := by
    rw [List.map_cons]
    change (Text.join [',', ' '] _).splitOn ',' = _
    rw [Text.join_pair, List.map_map]
    refine List.splitOn_intercalate _ ?_ (List.cons_ne_nil _ _)
    rw [List.forall_mem_cons]
    refine ⟨not_mem_operand (by decide) first, fun l member => ?_⟩
    obtain ⟨v, -, rfl⟩ := List.mem_map.mp member
    rw [Function.comp_apply, List.mem_cons, not_or]
    exact ⟨by decide, not_mem_operand (by decide) v⟩
  refine item_of_words named solid ?_ ?_ ?_ ?_ ?_
  · cases more <;> exact List.cons_ne_nil _ _
  · intro c isFirst
    cases more <;> exact (Option.some.inj isFirst) ▸ by decide
  · intro c isLast
    rw [Text.getLast?_join (List.getLast?_map.trans (by
      rw [List.getLast?_eq_some_getLast (List.cons_ne_nil first more)]; rfl))
      (List.cons_ne_nil _ _)] at isLast
    exact operand_solid _ c (List.mem_of_mem_getLast? isLast)
  · intro c member
    refine ⟨?_, ?_, ?_⟩
    all_goals
      rintro rfl
      exact not_mem_directive known (by decide) (by decide) (first :: more) member
  · rw [encode_of_mem_dataWidths known, split, dataBytes_operands small positive widths]

theorem not_blank_of_isLabelChar {c : Char} (letter : isLabelChar c = true) :
    Text.isBlank c = false := by
  have ranges : (48 ≤ c.toNat ∧ c.toNat ≤ 57) ∨ (65 ≤ c.toNat ∧ c.toNat ≤ 90) ∨
      (97 ≤ c.toNat ∧ c.toNat ≤ 122) ∨ c.toNat = 95 ∨ c.toNat = 46 ∨ c.toNat = 36 := by
    have upper : c.isUpper = true ↔ 65 ≤ c.toNat ∧ c.toNat ≤ 90 := decide_eq_true_iff
    have lower : c.isLower = true ↔ 97 ≤ c.toNat ∧ c.toNat ≤ 122 :=
      Bool.and_eq_true_iff.trans (and_congr decide_eq_true_iff decide_eq_true_iff)
    have digit : c.isDigit = true ↔ 48 ≤ c.toNat ∧ c.toNat ≤ 57 :=
      Bool.and_eq_true_iff.trans (and_congr decide_eq_true_iff decide_eq_true_iff)
    have shape : isLabelChar c =
      (((((c.isUpper || c.isLower) || c.isDigit) || c == '_') || c == '.') || c == '$') := rfl
    rw [shape] at letter
    simp only [Bool.or_eq_true, upper, lower, digit, beq_iff_eq] at letter
    rcases letter with ((((upper | lower) | digit) | rfl) | rfl) | rfl
    · exact Or.inr (Or.inl upper)
    · exact Or.inr (Or.inr (Or.inl lower))
    · exact Or.inl digit
    all_goals decide
  simp only [Text.isBlank, Bool.or_eq_false_iff, Bool.and_eq_false_iff, decide_eq_false_iff_not,
    beq_eq_false_iff_ne]
  omega

/-- A label on a line of its own. -/
theorem item_label {name : Text} (nonempty : name ≠ []) (letters : ∀ c ∈ name, isLabelChar c = true) :
    item (name ++ [':']) = .label name := by
  have plain : ∀ c ∈ name ++ [':'], c ≠ '#' ∧ c ≠ '/' := by
    intro c member
    rcases List.mem_append.mp member with inName | colon
    · constructor <;> (rintro rfl; exact absurd (letters _ inName) (by decide))
    · rw [List.mem_singleton.mp colon]
      decide
  have stripped : Line.stripComment (name ++ [':']) = name ++ [':'] := by
    rw [Line.stripComment_of_commentFree (Line.isCommentFree_of_not_mem
      (fun member => (plain _ member).1 rfl) fun member => (plain _ member).2 rfl)]
    refine Text.trim_eq_self _ ?_ ?_
    · rw [List.head?_append_of_ne_nil _ nonempty]
      exact fun c first => not_blank_of_isLabelChar (letters c (List.mem_of_mem_head? first))
    · rw [List.getLast?_concat]
      rintro c ⟨⟩
      decide
  have label : labelOf? (name ++ [':']) = some name := by
    have found : Text.dropTrailing? [':'] (name ++ [':']) = some name :=
      Text.dropTrailing?_eq_some_iff.mpr rfl
    rw [labelOf?, found]
    simp only [List.all_eq_true.mpr letters, Bool.and_true, Bool.not_eq_true',
      List.isEmpty_eq_false_iff.mpr nonempty, ↓reduceIte]
  unfold item
  simp only [stripped, label]
  rw [if_neg (by simp)]

/-- A line that defines a label is the label and a colon. -/
theorem stripComment_of_item_label {line name : Text} (defines : item line = .label name) :
    Line.stripComment line = name ++ [':'] := by
  unfold item at defines
  simp only at defines
  split at defines
  · cases defines
  split at defines
  case h_1 other found =>
    cases defines
    unfold labelOf? at found
    split at found
    · cases found
    case h_2 candidate shape =>
      split at found
      · cases found
        exact Text.dropTrailing?_eq_some_iff.mp shape
      · cases found
  case h_2 => split at defines <;> cases defines

end Assembler

namespace Change

open Assembler (item bytesOf Accepts directive dataWidths)

/-- The line for a chunk of at most four bytes. -/
def dataLine (chunk : Bytes) : Text :=
  if chunk.length = 4 then ".long 0x" ++ Hex.encode chunk
  else if chunk.length = 2 then ".short 0x" ++ Hex.encode chunk
  else ".byte " ++ Text.join ", " (chunk.map fun b => "0x" ++ Hex.encodeByte b)

theorem dataDirectives_eq (bytes : Bytes) : dataDirectives bytes = (chunks 4 bytes).map dataLine :=
  rfl

theorem length_dataDirectives (bytes : Bytes) :
    (dataDirectives bytes).length = (bytes.length + 3) / 4 := by
  rw [dataDirectives_eq, List.length_map, length_chunks (by decide)]

theorem dataLine_eq_directive {chunk : Bytes} (bounds : 1 ≤ chunk.length ∧ chunk.length ≤ 4) :
    ∃ mnemonic width values, (mnemonic, width) ∈ dataWidths ∧ values ≠ [] ∧
      (∀ v ∈ values, v.length = width) ∧ values.flatten = chunk ∧
        dataLine chunk = directive mnemonic values := by
  unfold dataLine
  split
  case isTrue long =>
    exact ⟨".long", 4, [chunk], by decide, by simp, by simpa using long, by simp,
      by rw [Assembler.directive_singleton]; rfl⟩
  split
  case isTrue short =>
    exact ⟨".short", 2, [chunk], by decide, by simp, by simpa using short, by simp,
      by rw [Assembler.directive_singleton]; rfl⟩
  case isFalse =>
    refine ⟨".byte", 1, chunk.map fun b => [b], by decide, ?_, by simp, ?_, ?_⟩
    · rw [ne_eq, List.map_eq_nil_iff]
      rintro rfl
      exact absurd bounds.1 (by decide)
    · rw [← List.flatMap_def, List.flatMap_singleton']
    · rw [directive, List.map_map]
      rfl

theorem item_dataLine {chunk : Bytes} (bounds : 1 ≤ chunk.length ∧ chunk.length ≤ 4) :
    item (dataLine chunk) = .data chunk := by
  obtain ⟨mnemonic, width, values, known, nonempty, widths, whole, line⟩ :=
    dataLine_eq_directive bounds
  rw [line, Assembler.item_directive known nonempty widths, whole]

theorem item_of_mem_dataDirectives {bytes : Bytes} {line : Text}
    (member : line ∈ dataDirectives bytes) : ∃ chunk, item line = .data chunk := by
  obtain ⟨chunk, inside, rfl⟩ := List.mem_map.mp member
  exact ⟨chunk, item_dataLine (length_of_mem_chunks (by decide) inside)⟩

/-- Bytes are what the assembler makes of their directives. -/
@[simp] theorem bytesOf_dataDirectives (bytes : Bytes) : bytesOf (dataDirectives bytes) = bytes := by
  have each : ∀ chunk ∈ chunks 4 bytes, (item (dataLine chunk)).bytes = chunk := fun chunk member => by
    rw [item_dataLine (length_of_mem_chunks (by decide) member)]
    rfl
  rw [dataDirectives_eq, bytesOf, List.flatMap_map, List.flatMap_def, List.map_congr_left each,
    List.map_id', chunks_flatten]

theorem accepts_dataDirectives (bytes : Bytes) : Accepts (dataDirectives bytes) := by
  intro line member
  obtain ⟨chunk, data⟩ := item_of_mem_dataDirectives member
  rw [data]
  exact id

theorem not_mem_dataDirectives {mark : Char} (foreign : ¬ Text.IsNumeral mark)
    (other : mark ∉ " ,.longshortbyte".toList) {bytes : Bytes} {line : Text}
    (member : line ∈ dataDirectives bytes) : mark ∉ line := by
  obtain ⟨chunk, inside, rfl⟩ := List.mem_map.mp member
  obtain ⟨mnemonic, width, values, known, -, -, -, shape⟩ :=
    dataLine_eq_directive (length_of_mem_chunks (by decide) inside)
  change mark ∉ dataLine chunk
  rw [shape]
  exact Assembler.not_mem_directive known foreign other values

end Change

end GamePatch
