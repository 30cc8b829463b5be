import GamePatch.Gecko.Import
import GamePatch.Proofs.Fallible
import GamePatch.Proofs.Hex.Words

set_option autoImplicit false

namespace GamePatch

namespace Bytes

/-- Four bytes are a word. -/
theorem exists_ofWord {bytes : Bytes} (length : bytes.length = 4) : ∃ w, ofWord w = bytes := by
  have small := toNat_lt bytes
  rw [length] at small
  refine ⟨UInt32.ofNat bytes.toNat, ?_⟩
  rw [ofWord, UInt32.toNat_ofNat_of_lt' small, ← length, bigEndian_toNat]

end Bytes

namespace GeckoLine

namespace Pair

@[simp] theorem length_bytes (p : Pair) : p.bytes.length = 8 := by
  rw [Pair.bytes, List.length_append, Bytes.length_ofWord, Bytes.length_ofWord]

theorem lineText_bytes (p : Pair) : GeckoRecord.lineText p.bytes = p.write := by
  have first := Bytes.length_ofWord p.first
  rw [GeckoRecord.lineText, if_pos (by rw [length_bytes]; decide), Pair.bytes, ← first,
    List.take_left, List.drop_left]
  rfl

theorem mem_write {p : Pair} {c : Char} (member : c ∈ p.write) : Hex.IsDigit c ∨ c = ' ' := by
  rw [Pair.write, List.mem_append, List.mem_append, List.mem_singleton] at member
  rcases member with (first | blank) | second
  · exact Or.inl (Hex.isDigits_encodeWord _ c first)
  · exact Or.inr blank
  · exact Or.inl (Hex.isDigits_encodeWord _ c second)

theorem not_mem_write (p : Pair) {mark : Char} (other : Text.isHexDigit mark = false)
    (solid : mark ≠ ' ') : mark ∉ p.write := fun member =>
  (mem_write member).elim (fun digit => digit.ne other rfl) solid

theorem removeBlanks_write (p : Pair) :
    Text.removeBlanks p.write = Hex.encodeWord p.first ++ Hex.encodeWord p.second := by
  have blank : Text.removeBlanks [' '] = [] := by decide
  rw [Pair.write, Text.removeBlanks_append, Text.removeBlanks_append, blank, List.append_nil,
    (Hex.isDigits_encodeWord _).removeBlanks, (Hex.isDigits_encodeWord _).removeBlanks]

theorem stripComment_write (p : Pair) : Line.stripComment p.write = Text.trim p.write :=
  Line.stripComment_of_commentFree (Line.isCommentFree_of_not_mem
    (p.not_mem_write (by decide) (by decide)) (p.not_mem_write (by decide) (by decide)))

end Pair

/-- The two words of a line are read back. -/
theorem read?_write (p : Pair) : read? (Line.stripComment p.write) = some p := by
  have clean : Hex.IsDigits (Hex.encodeWord p.first ++ Hex.encodeWord p.second) :=
    Hex.isDigits_append.mpr ⟨Hex.isDigits_encodeWord _, Hex.isDigits_encodeWord _⟩
  have digits : Hex.normalize (Line.stripComment p.write) =
      Hex.encodeWord p.first ++ Hex.encodeWord p.second := by
    refine Hex.normalize_of_removeBlanks ?_ clean
    rw [p.stripComment_write, Text.removeBlanks_trim, p.removeBlanks_write]
  have length : (Hex.encodeWord p.first ++ Hex.encodeWord p.second).length = 16 := by
    rw [List.length_append, Hex.length_encodeWord, Hex.length_encodeWord]
  have front : (Hex.encodeWord p.first ++ Hex.encodeWord p.second).take 8 =
      Hex.encodeWord p.first := List.take_left' (Hex.length_encodeWord _)
  have back : (Hex.encodeWord p.first ++ Hex.encodeWord p.second).drop 8 =
      Hex.encodeWord p.second := List.drop_left' (Hex.length_encodeWord _)
  unfold read?
  simp only [digits, length, clean.isHex, decide_true, Bool.and_self, ↓reduceIte, readPair, front,
    back, Hex.readNat32_encodeWord, UInt32.ofNat_toNat]

/-- The words of lines are read back. -/
theorem readAll_write (pairs : List Pair) :
    readAll (Text.joinLines (pairs.map Pair.write)) = .ok pairs := by
  have found (p : Pair) : Line.stripComment p.write ≠ [] := by
    intro empty
    have kept := Text.removeBlanks_trim p.write
    rw [← p.stripComment_write, empty, p.removeBlanks_write] at kept
    have length := congrArg List.length kept
    rw [List.length_append, Hex.length_encodeWord] at length
    cases length
  have nonempty : ∀ l ∈ pairs.map Pair.write, l ≠ [] := by
    intro l member
    obtain ⟨p, -, rfl⟩ := List.mem_map.mp member
    rintro empty
    exact found p (by rw [empty]; rfl)
  have clean : ∀ l ∈ pairs.map Pair.write, '\n' ∉ l ∧ '\r' ∉ l := by
    intro l member
    obtain ⟨p, -, rfl⟩ := List.mem_map.mp member
    exact ⟨p.not_mem_write (by decide) (by decide), p.not_mem_write (by decide) (by decide)⟩
  have kept : ∀ l ∈ pairs.map Pair.write, (!(Line.stripComment l).isEmpty) = true := by
    intro l member
    obtain ⟨p, -, rfl⟩ := List.mem_map.mp member
    simpa using found p
  rw [readAll, Text.lines_joinLines nonempty clean, List.filter_eq_self.mpr kept,
    Fallible.mapM_eq_ok_iff, List.forall₂_map_left_iff, List.forall₂_same]
  intro p _
  rw [read?_write]

/-- A blank in front of some lines means nothing. -/
theorem readAll_cons_blank {c : Char} (blank : Text.isBlank c = true) (code : Text) :
    readAll (c :: code) = readAll code := by
  have empty : (!(Line.stripComment []).isEmpty) = false := rfl
  unfold readAll
  rw [Text.lines.eq_def (c :: code)]
  split
  case h_1 shape => cases shape
  case h_2 rest shape =>
    obtain ⟨-, rfl⟩ := List.cons.inj shape
    rw [List.filter_cons, empty]
    rfl
  case h_3 rest shape =>
    obtain ⟨-, rfl⟩ := List.cons.inj shape
    rw [Text.lines]
  case h_4 d rest noFeed noReturn shape =>
    obtain ⟨rfl, rfl⟩ := List.cons.inj shape
    cases Text.lines code with
    | nil =>
      have alone : (!(Line.stripComment [c]).isEmpty) = false := by
        rw [Line.stripComment_cons_blank blank]
        rfl
      simp only [List.filter_cons, alone]
      rfl
    | cons l ls =>
      have trimmed : Text.trim (c :: l) = Text.trim l := Text.trim_cons_blank l c blank
      simp only [List.filter_cons, Line.stripComment_cons_blank blank]
      split
      · simp only [List.mapM_cons, Line.stripComment_cons_blank blank, trimmed]
      · rfl

/-- Blanks in front of some lines mean nothing. -/
theorem readAll_trimStart (code : Text) : readAll (Text.trimStart code) = readAll code := by
  induction code with
  | nil => rfl
  | cons c code ih =>
    by_cases blank : Text.isBlank c = true
    · have dropped : Text.trimStart (c :: code) = Text.trimStart code :=
        List.dropWhile_cons_of_pos blank
      rw [dropped, ih, readAll_cons_blank blank]
    · have kept : Text.trimStart (c :: code) = c :: code := List.dropWhile_cons_of_neg blank
      rw [kept]

theorem payload_cons (p : Pair) (pairs : List Pair) :
    payload (p :: pairs) = p.bytes ++ payload pairs := List.flatMap_cons

/-- The lines of some bytes hold them. -/
theorem chunks_payload (pairs : List Pair) : chunks 8 (payload pairs) = pairs.map Pair.bytes := by
  induction pairs with
  | nil => rw [payload, List.flatMap_nil, chunks, List.map_nil]
  | cons p pairs ih =>
    rw [payload_cons, chunks_append (by decide) p.length_bytes, ih, List.map_cons]

/-- Whole lines of bytes are words. -/
theorem exists_payload {bytes : Bytes} {count : Nat} (whole : bytes.length = 8 * count) :
    ∃ pairs, payload pairs = bytes ∧ pairs.length = count := by
  induction count generalizing bytes with
  | zero => exact ⟨[], (List.length_eq_zero_iff.mp whole).symm, rfl⟩
  | succ count ih =>
    have shorter : (bytes.drop 8).length = 8 * count := by
      rw [List.length_drop]
      omega
    obtain ⟨pairs, rest, length⟩ := ih shorter
    have first : (bytes.take 4).length = 4 := by
      rw [List.length_take]
      omega
    have second : ((bytes.drop 4).take 4).length = 4 := by
      rw [List.length_take, List.length_drop]
      omega
    obtain ⟨v, firstWord⟩ := Bytes.exists_ofWord first
    obtain ⟨w, secondWord⟩ := Bytes.exists_ofWord second
    refine ⟨⟨v, w⟩ :: pairs, ?_, by rw [List.length_cons, length]⟩
    calc payload (⟨v, w⟩ :: pairs)
        = Bytes.ofWord v ++ Bytes.ofWord w ++ payload pairs := payload_cons ⟨v, w⟩ pairs
      _ = bytes.take 4 ++ (bytes.drop 4).take 4 ++ (bytes.drop 4).drop 4 := by
        rw [firstWord, secondWord, rest, List.drop_drop]
      _ = bytes := by rw [List.append_assoc, List.take_append_drop, List.take_append_drop]

end GeckoLine

/-- The text of a code is the text of its lines. -/
theorem GeckoRecord.toText_eq {r : GeckoRecord} {pairs : List GeckoLine.Pair}
    (lines : r.toBytes = GeckoLine.payload pairs) :
    r.toText = Text.joinLines (pairs.map GeckoLine.Pair.write) := by
  rw [GeckoRecord.toText, lines, GeckoLine.chunks_payload, List.map_map]
  exact congrArg Text.joinLines (List.map_congr_left fun p _ => p.lineText_bytes)

end GamePatch
