import GamePatch.Address
import GamePatch.Proofs.Bytes
import GamePatch.Proofs.Hex.RoundTrip
import GamePatch.Proofs.Text.Lines
import GamePatch.Proofs.Text.Search
import GamePatch.Proofs.Text.Utf8

set_option autoImplicit false

namespace GamePatch

namespace Text

theorem removeBlanks_flatten (parts : List Text) :
    removeBlanks parts.flatten = (parts.map removeBlanks).flatten := List.filter_flatten

/-- Blanks between the parts of a text are taken away with those in them. -/
theorem removeBlanks_join {sep : Text} (blank : removeBlanks sep = []) (parts : List Text) :
    removeBlanks (join sep parts) = removeBlanks parts.flatten := by
  induction parts with
  | nil => rfl
  | cons t parts ih =>
    cases parts with
    | nil => rw [join, List.intercalate_singleton, List.flatten_singleton]
    | cons t' parts =>
      rw [join_cons_cons, removeBlanks_append, removeBlanks_append, blank, List.append_nil, ih,
        List.flatten_cons (l := t), removeBlanks_append]

end Text

namespace Hex

/-- A digit is one byte in UTF-8. -/
theorem IsDigit.utf8 {c : Char} (digit : IsDigit c) :
    String.utf8EncodeChar c = [UInt8.ofNat c.toNat] := by
  have all : ∀ c ∈ Text.hexAlphabet, String.utf8EncodeChar c = [UInt8.ofNat c.toNat] :=
    List.all_iff_forall_prop.mp (by decide)
  exact all c (Text.mem_hexAlphabet digit.1)

theorem IsDigits.encodeUtf8 {s : Text} (digits : IsDigits s) :
    Text.encodeUtf8 s = s.map fun c => UInt8.ofNat c.toNat :=
  (List.flatMap_congr fun c member => (digits c member).utf8).trans List.map_eq_flatMap.symm

theorem IsDigits.byteLength {s : Text} (digits : IsDigits s) : Text.byteLength s = s.length := by
  rw [Text.byteLength, digits.encodeUtf8, List.length_map]

/-- Groups of digits are cut as they would be cut from the characters. -/
theorem IsDigits.groups {s : Text} (digits : IsDigits s) (size : Nat) :
    (chunks size (Text.encodeUtf8 s)).filterMap Text.decodeUtf8? = chunks size s := by
  have whole : ∀ chunk ∈ chunks size s, IsDigits chunk := fun chunk member c inside =>
    digits c (chunks_flatten size s ▸ List.mem_flatten_of_mem member inside)
  have read : ∀ chunk ∈ chunks size s,
      Text.decodeUtf8? (chunk.map fun c => UInt8.ofNat c.toNat) = some chunk := fun chunk member => by
    rw [← (whole chunk member).encodeUtf8, Text.decodeUtf8?_encodeUtf8]
  rw [digits.encodeUtf8, chunks_map, List.filterMap_map]
  exact (List.filterMap_congr read).trans List.filterMap_some

/-- A line of groups of digits, with a blank between each two. -/
def IsWordLine (l : Text) : Prop :=
  ∃ groups : List Text, groups ≠ [] ∧ (∀ g ∈ groups, g ≠ [] ∧ IsDigits g) ∧ l = Text.join [' '] groups

theorem IsWordLine.mem {l : Text} (line : IsWordLine l) {c : Char} (member : c ∈ l) :
    IsDigit c ∨ c = ' ' := by
  obtain ⟨groups, -, digits, rfl⟩ := line
  rcases Text.mem_join member with between | ⟨g, known, inside⟩
  · exact Or.inr (List.mem_singleton.mp between)
  · exact Or.inl ((digits g known).2 c inside)

theorem IsWordLine.not_mem {l : Text} (line : IsWordLine l) {mark : Char}
    (other : Text.isHexDigit mark = false) (solid : mark ≠ ' ') : mark ∉ l := fun member =>
  (line.mem member).elim (fun digit => digit.ne other rfl) solid

theorem IsWordLine.exists_cons {l : Text} (line : IsWordLine l) :
    ∃ c rest, l = c :: rest ∧ IsDigit c := by
  obtain ⟨groups, some, digits, rfl⟩ := line
  obtain ⟨g, gs, rfl⟩ := List.exists_cons_of_ne_nil some
  obtain ⟨nonempty, own⟩ := digits g List.mem_cons_self
  obtain ⟨c, g, rfl⟩ := List.exists_cons_of_ne_nil nonempty
  have digit : IsDigit c := own c List.mem_cons_self
  cases gs with
  | nil => exact ⟨c, g, List.intercalate_singleton, digit⟩
  | cons g' gs =>
    rw [Text.join_cons_cons, List.append_assoc, List.cons_append]
    exact ⟨c, _, rfl, digit⟩

/-- Such a line begins and ends with a digit. -/
theorem IsWordLine.trim_eq {l : Text} (line : IsWordLine l) : l ≠ [] ∧ Text.trim l = l := by
  obtain ⟨c, rest, shape, digit⟩ := line.exists_cons
  refine ⟨by simp [shape], Text.trim_eq_self _ (fun d lead => ?_) fun d last => ?_⟩
  · rw [shape] at lead
    cases lead
    exact digit.not_blank
  · obtain ⟨groups, some, digits, rfl⟩ := line
    have isLast : groups.getLast? = Option.some (groups.getLast some) :=
      List.getLast?_eq_some_getLast some
    obtain ⟨nonempty, own⟩ := digits _ (List.getLast_mem some)
    rw [Text.getLast?_join isLast nonempty] at last
    exact (own d (List.mem_of_mem_getLast? last)).not_blank

/-- Digits are laid out in lines of groups. -/
theorem formatWords_encode (bytes : Bytes) :
    ∃ ls, formatWords (encode bytes) = Text.joinLines ls ∧ ∀ l ∈ ls, IsWordLine l := by
  have digits := isDigits_encode bytes
  refine ⟨(chunks 8 (chunks 8 (encode bytes))).map (Text.join [' ']), ?_, ?_⟩
  · rw [formatWords, normalize_of_isDigits digits]
    simp only [digits.groups]
  · rw [List.forall_mem_map]
    intro groups member
    have nonempty {α : Type} {l chunk : List α} (member : chunk ∈ chunks 8 l) : chunk ≠ [] := by
      have length := (length_of_mem_chunks (by decide) member).1
      rintro rfl
      cases length
    refine ⟨groups, nonempty member, fun g inside => ?_, rfl⟩
    have known : g ∈ chunks 8 (encode bytes) :=
      chunks_flatten 8 (chunks 8 (encode bytes)) ▸ List.mem_flatten_of_mem member inside
    exact ⟨nonempty known, fun c within =>
      digits c (chunks_flatten 8 (encode bytes) ▸ List.mem_flatten_of_mem known within)⟩

theorem removeBlanks_formatWords (bytes : Bytes) :
    Text.removeBlanks (formatWords (encode bytes)) = encode bytes := by
  have digits := isDigits_encode bytes
  have row (groups : List Text) :
      Text.removeBlanks (Text.join [' '] groups) = Text.removeBlanks groups.flatten :=
    Text.removeBlanks_join (by decide) groups
  rw [formatWords, normalize_of_isDigits digits]
  simp only [digits.groups]
  generalize rows : chunks 8 (chunks 8 (encode bytes)) = lines
  have whole : lines.flatten.flatten = encode bytes := by
    rw [← rows, chunks_flatten, chunks_flatten]
  calc Text.removeBlanks (Text.joinLines (lines.map (Text.join [' '])))
      = (lines.map fun groups => Text.removeBlanks (Text.join [' '] groups)).flatten := by
        rw [Text.joinLines, Text.removeBlanks_join (by decide), Text.removeBlanks_flatten,
          List.map_map]
        rfl
    _ = (lines.map fun groups => Text.removeBlanks groups.flatten).flatten := by simp only [row]
    _ = Text.removeBlanks lines.flatten.flatten := by
        rw [List.flatten_flatten, Text.removeBlanks_flatten, List.map_map]
        rfl
    _ = encode bytes := by rw [whole, digits.removeBlanks]

/-- Bytes are read back from the lines that their digits are laid out in. -/
theorem decode_formatWords (bytes : Bytes) : decode (formatWords (encode bytes)) = .ok bytes :=
  decode_of_removeBlanks (removeBlanks_formatWords bytes)

theorem isDigits_encodeWord (w : UInt32) : IsDigits (encodeWord w) := isDigits_encode _

@[simp] theorem length_encodeWord (w : UInt32) : (encodeWord w).length = 8 := by
  rw [encodeWord, length_encode, Bytes.length_ofWord]

theorem readNat32_encodeWord (w : UInt32) : Text.readNat32 16 (encodeWord w) = some w.toNat := by
  have unsigned : Text.dropLeading? ['+'] (encodeWord w) = none := by
    apply Text.dropLeading?_eq_none
    intro plus
    exact (isDigits_encodeWord w '+' (List.mem_of_head? plus)).ne (by decide) rfl
  have nonempty : Bytes.ofWord w ≠ [] := List.ne_nil_of_length_eq_add_one (Bytes.length_ofWord w)
  rw [Text.readNat32, Text.readBelow, unsigned, Option.getD_none, encodeWord,
    readDigits_encode nonempty, Bytes.toNat_ofWord, Option.filter_some, if_pos]
  exact decide_eq_true w.toNat_lt

@[simp] theorem trim_marked (w : UInt32) :
    Text.trim ("0x" ++ encodeWord w) = "0x" ++ encodeWord w := by
  have mark : ∀ c ∈ ['0', 'x'], Text.isBlank c = false :=
    List.all_iff_forall_prop.mp (by decide)
  refine Text.trim_eq_self_of_forall _ fun c member => ?_
  exact (List.mem_append.mp member).elim (mark c) fun digit =>
    (isDigits_encodeWord w c digit).not_blank

end Hex

/-- An address is read back from its eight digits. -/
theorem Address.parse?_encodeWord (a : Address) :
    Address.parse? ("0x" ++ Hex.encodeWord a) = some a := by
  have digits := Hex.isDigits_encodeWord a
  have plain : (Hex.encodeWord a).filter (· != '_') = Hex.encodeWord a := by
    rw [List.filter_eq_self]
    intro c member
    simpa using (digits c member).ne (by decide)
  have marked : Text.hexMarked? ("0x" ++ Hex.encodeWord a) = some (Hex.encodeWord a) := rfl
  have length := digits.byteLength
  rw [Hex.length_encodeWord] at length
  have nonempty : (Hex.encodeWord a).isEmpty = false := by
    rw [List.isEmpty_eq_false_iff, ← List.length_pos_iff, Hex.length_encodeWord]
    decide
  rw [Address.parse?, Hex.trim_marked, marked, Option.getD_some]
  simp only [plain, nonempty, length, Hex.readNat32_encodeWord, Option.map_some, UInt32.ofNat_toNat]
  rfl

end GamePatch
