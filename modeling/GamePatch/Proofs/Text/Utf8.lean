import GamePatch.Text.Utf8
import Mathlib.Data.List.TakeWhile
import Mathlib.Tactic.IntervalCases

set_option autoImplicit false

namespace GamePatch.Text

def continuation (n : Nat) : UInt8 := UInt8.ofNat (n % 64 + 128)

theorem toNat_continuation (n : Nat) : (continuation n).toNat = n % 64 + 128 := by
  rw [continuation, UInt8.toNat_ofNat']
  omega

theorem isContinuation_continuation (n : Nat) : isContinuation (continuation n) = true := by
  have byte := toNat_continuation n
  rw [isContinuation, Bool.and_eq_true, decide_eq_true_iff, decide_eq_true_iff,
    UInt8.le_iff_toNat_le, UInt8.le_iff_toNat_le, byte]
  change 128 ≤ _ ∧ _ ≤ 191
  omega

/-- No byte of a character of one byte is a lead byte. -/
theorem leadRange_one {b : UInt8} (short : b < 0x80) : leadRange b = none := by
  have all : ∀ n < 128, leadRange (UInt8.ofNat n) = none := by decide
  have own := all b.toNat (UInt8.lt_iff_toNat_lt.mp short)
  rwa [UInt8.ofNat_toNat] at own

/-- A character of more than one byte, from the bits of its bytes. -/
theorem decodeChar_of_lead {b second low high : UInt8} (tail : Bytes)
    (lead : leadRange b = some (low, high, tail.length + 1)) (above : low ≤ second)
    (below : second ≤ high) (continues : ∀ c ∈ tail, isContinuation c = true) (rest : Bytes) :
    decodeChar b (second :: (tail ++ rest)) =
      (some (Char.ofNat ((second :: tail).foldl (fun n c => n * 64 + c.toNat % 64)
        (leadBits b (tail.length + 1)))), tail.length + 1) := by
  have kept : ((tail ++ rest).take tail.length).takeWhile isContinuation = tail := by
    rw [List.take_left]
    exact List.takeWhile_eq_self_iff.mpr continues
  have long : ¬ b < 0x80 := by
    intro short
    rw [leadRange_one short] at lead
    cases lead
  rw [decodeChar, if_neg long, lead]
  simp only [above, below, decide_true, Bool.and_self, if_true, Nat.add_sub_cancel, kept]

theorem decodeUtf8?_cons {b : UInt8} (bytes : Bytes) {c : Char}
    (read : ∀ rest, decodeChar b (bytes ++ rest) = (some c, bytes.length)) (rest : Bytes) :
    decodeUtf8? (b :: bytes ++ rest) = (decodeUtf8? rest).map (c :: ·) := by
  rw [List.cons_append, decodeUtf8?, read rest]
  simp only [List.drop_left]

theorem leadRange_two {n : Nat} (low : 2 ≤ n) (high : n < 32) :
    leadRange (UInt8.ofNat (n + 192)) = some (0x80, 0xBF, 1) := by
  interval_cases n <;> rfl

theorem leadBits_two {n : Nat} (high : n < 32) : leadBits (UInt8.ofNat (n + 192)) 1 = n := by
  interval_cases n <;> rfl

/-- The least second byte behind the lead byte of a character of three bytes, and the greatest. -/
theorem leadRange_three {n : Nat} (high : n < 16) :
    leadRange (UInt8.ofNat (n + 224)) =
      some (if n = 0 then 0xA0 else 0x80, if n = 13 then 0x9F else 0xBF, 2) := by
  interval_cases n <;> rfl

theorem leadBits_three {n : Nat} (high : n < 16) : leadBits (UInt8.ofNat (n + 224)) 2 = n := by
  interval_cases n <;> rfl

theorem leadRange_four {n : Nat} (high : n < 5) :
    leadRange (UInt8.ofNat (n + 240)) =
      some (if n = 0 then 0x90 else 0x80, if n = 4 then 0x8F else 0xBF, 3) := by
  interval_cases n <;> rfl

theorem leadBits_four {n : Nat} (high : n < 5) : leadBits (UInt8.ofNat (n + 240)) 3 = n := by
  interval_cases n <;> rfl

theorem decodeUtf8?_one {c : Char} (short : c.toNat ≤ 0x7F) (rest : Bytes) :
    decodeUtf8? (UInt8.ofNat c.toNat :: rest) = (decodeUtf8? rest).map (c :: ·) := by
  have byte : (UInt8.ofNat c.toNat).toNat = c.toNat := by
    rw [UInt8.toNat_ofNat']
    omega
  have low : UInt8.ofNat c.toNat < 0x80 := by
    rw [UInt8.lt_iff_toNat_lt, byte]
    change c.toNat < 128
    omega
  refine decodeUtf8?_cons [] (fun rest => ?_) rest
  rw [decodeChar, if_pos low, byte, Char.ofNat_toNat, List.length_nil]

theorem decodeUtf8?_two {c : Char} (low : 0x7F < c.toNat) (high : c.toNat ≤ 0x7FF) (rest : Bytes) :
    decodeUtf8? (UInt8.ofNat (c.toNat / 64 % 32 + 192) :: [continuation c.toNat] ++ rest) =
      (decodeUtf8? rest).map (c :: ·) := by
  have lead : c.toNat / 64 % 32 < 32 := Nat.mod_lt _ (by decide)
  have second := isContinuation_continuation c.toNat
  rw [isContinuation, Bool.and_eq_true, decide_eq_true_iff, decide_eq_true_iff] at second
  refine decodeUtf8?_cons _ (fun rest => ?_) rest
  refine (decodeChar_of_lead [] (leadRange_two (by omega) lead) second.1 second.2
    (by simp) rest).trans ?_
  rw [List.length_nil, Nat.zero_add, leadBits_two lead, List.foldl_cons, List.foldl_nil,
    toNat_continuation]
  have value : c.toNat / 64 % 32 * 64 + (c.toNat % 64 + 128) % 64 = c.toNat := by omega
  rw [value, Char.ofNat_toNat]
  rfl

/-- No character is a surrogate. -/
theorem toNat_not_surrogate (c : Char) : c.toNat < 0xD800 ∨ 0xDFFF < c.toNat ∧ c.toNat < 0x110000 :=
  c.valid

theorem decodeUtf8?_three {c : Char} (low : 0x7FF < c.toNat) (high : c.toNat ≤ 0xFFFF) (rest : Bytes) :
    decodeUtf8? (UInt8.ofNat (c.toNat / 4096 % 16 + 224) ::
        [continuation (c.toNat / 64), continuation c.toNat] ++ rest) =
      (decodeUtf8? rest).map (c :: ·) := by
  have lead : c.toNat / 4096 % 16 < 16 := Nat.mod_lt _ (by decide)
  have valid := toNat_not_surrogate c
  refine decodeUtf8?_cons _ (fun rest => ?_) rest
  refine (decodeChar_of_lead [continuation c.toNat] (leadRange_three lead) ?_ ?_ ?_
    rest).trans ?_
  · rw [UInt8.le_iff_toNat_le, toNat_continuation]
    split
    · change 160 ≤ _
      omega
    · change 128 ≤ _
      omega
  · rw [UInt8.le_iff_toNat_le, toNat_continuation]
    split
    · change _ ≤ 159
      omega
    · change _ ≤ 191
      omega
  · simp only [List.mem_singleton, forall_eq]
    exact isContinuation_continuation _
  · rw [List.length_singleton, leadBits_three lead, List.foldl_cons, List.foldl_cons, List.foldl_nil,
      toNat_continuation, toNat_continuation]
    have value : (c.toNat / 4096 % 16 * 64 + (c.toNat / 64 % 64 + 128) % 64) * 64 +
        (c.toNat % 64 + 128) % 64 = c.toNat := by omega
    rw [value, Char.ofNat_toNat]
    rfl

theorem decodeUtf8?_four {c : Char} (low : 0xFFFF < c.toNat) (rest : Bytes) :
    decodeUtf8? (UInt8.ofNat (c.toNat / 262144 % 8 + 240) ::
        [continuation (c.toNat / 4096), continuation (c.toNat / 64), continuation c.toNat] ++ rest) =
      (decodeUtf8? rest).map (c :: ·) := by
  have valid := toNat_not_surrogate c
  have lead : c.toNat / 262144 % 8 < 5 := by omega
  refine decodeUtf8?_cons _ (fun rest => ?_) rest
  refine (decodeChar_of_lead [continuation (c.toNat / 64), continuation c.toNat]
    (leadRange_four lead) ?_ ?_ ?_ rest).trans ?_
  · rw [UInt8.le_iff_toNat_le, toNat_continuation]
    split
    · change 144 ≤ _
      omega
    · change 128 ≤ _
      omega
  · rw [UInt8.le_iff_toNat_le, toNat_continuation]
    split
    · change _ ≤ 143
      omega
    · change _ ≤ 191
      omega
  · intro b member
    simp only [List.mem_cons, List.not_mem_nil, or_false] at member
    rcases member with rfl | rfl <;> exact isContinuation_continuation _
  · rw [List.length_cons, List.length_singleton, leadBits_four lead, List.foldl_cons, List.foldl_cons,
      List.foldl_cons, List.foldl_nil, toNat_continuation, toNat_continuation, toNat_continuation]
    have value : ((c.toNat / 262144 % 8 * 64 + (c.toNat / 4096 % 64 + 128) % 64) * 64 +
        (c.toNat / 64 % 64 + 128) % 64) * 64 + (c.toNat % 64 + 128) % 64 = c.toNat := by omega
    rw [value, Char.ofNat_toNat]
    rfl

theorem decodeUtf8?_encodeChar (c : Char) (rest : Bytes) :
    decodeUtf8? (String.utf8EncodeChar c ++ rest) = (decodeUtf8? rest).map (c :: ·) := by
  rw [String.utf8EncodeChar]
  change decodeUtf8? ((if c.toNat ≤ _ then _ else _) ++ rest) = _
  split
  case isTrue one => exact decodeUtf8?_one one rest
  case isFalse more =>
    split
    case isTrue two => exact decodeUtf8?_two (Nat.not_le.mp more) two rest
    case isFalse more =>
      split
      case isTrue three => exact decodeUtf8?_three (Nat.not_le.mp more) three rest
      case isFalse more => exact decodeUtf8?_four (Nat.not_le.mp more) rest

/-- A text is read back from its UTF-8 form. -/
theorem decodeUtf8?_encodeUtf8 (s : Text) : decodeUtf8? (encodeUtf8 s) = some s := by
  induction s with
  | nil => rw [encodeUtf8, List.flatMap_nil, decodeUtf8?]
  | cons c s ih =>
    have rest : decodeUtf8? (s.flatMap String.utf8EncodeChar) = some s := ih
    rw [encodeUtf8, List.flatMap_cons, decodeUtf8?_encodeChar, rest, Option.map_some]

end GamePatch.Text
