import GamePatch.Proofs.Gecko.Lines

set_option autoImplicit false

namespace GamePatch

namespace Bytes

theorem ofWord_ofNat (n : Nat) : ofWord (UInt32.ofNat n) = bigEndian 4 n := by
  have value := toNat_bigEndian 4 n
  have width := bigEndian_toNat (bigEndian 4 n)
  rw [length_bigEndian, value] at width
  rw [ofWord, UInt32.toNat_ofNat']
  exact width

/-- Zeros in front of bytes fill a wider number. -/
theorem bigEndian_zeros (count : Nat) (bytes : Bytes) :
    bigEndian (count + bytes.length) bytes.toNat = zeros count ++ bytes := by
  have value : toNat (zeros count ++ bytes) = bytes.toNat := by
    have none : (zeros count).foldl (fun n b => n * 256 + b.toNat) 0 = 0 := by
      induction count with
      | zero => rfl
      | succ count ih => exact ih
    rw [toNat, List.foldl_append, none]
    rfl
  have digits := bigEndian_toNat (zeros count ++ bytes)
  rwa [value, List.length_append, length_zeros] at digits

end Bytes

namespace GeckoRecord

open GeckoLine (Pair payload)

def header (type : Nat) (address : Address) (second : Nat) : Pair :=
  ⟨UInt32.ofNat (type * 0x1000000 ||| address.toNat % 0x2000000), UInt32.ofNat second⟩

variable {type second : Nat} {address : Address}

theorem header_bytes : (header type address second).bytes =
    addressWord type address ++ Bytes.bigEndian 4 second := by
  rw [Pair.bytes, header, Bytes.ofWord_ofNat, Bytes.ofWord_ofNat, addressWord]

/-- The type lies above the address. -/
theorem header_first (small : type < 256) (even : type % 2 = 0) :
    (header type address second).first.toNat =
      type / 2 * 0x2000000 + address.toNat % 0x2000000 := by
  have apart : type * 0x1000000 ||| address.toNat % 0x2000000 =
      type / 2 * 0x2000000 + address.toNat % 0x2000000 := by
    have below : address.toNat % 0x2000000 < 2 ^ 25 := Nat.mod_lt _ (by decide)
    have joined := Nat.two_pow_add_eq_or_of_lt below (type / 2)
    have high : type * 0x1000000 = 2 ^ 25 * (type / 2) := by omega
    rw [high, ← joined]
    omega
  rw [header, apart, UInt32.toNat_ofNat']
  omega

theorem header_type (small : type < 256) (even : type % 2 = 0) :
    (header type address second).type = type := by
  rw [Pair.type, header_first small even]
  omega

theorem header_address (small : type < 256) (even : type % 2 = 0) (ram : address.isRam = true) :
    (header type address second).address = address := by
  rw [Address.isRam, Bool.and_eq_true, decide_eq_true_eq, decide_eq_true_eq] at ram
  simp only [Address.ramStart, Address.ramEnd] at ram
  rw [Pair.address, header_first small even, ← UInt32.toNat_inj, UInt32.toNat_ofNat',
    Address.ramStart]
  omega

theorem header_second (type : Nat) (address : Address) (small : second < 0x100000000) :
    (header type address second).second.toNat = second := UInt32.toNat_ofNat_of_lt' small

/-- The records whose lines say what they are. -/
def IsPlain : GeckoRecord → Prop
  | .write address bytes => address.isRam = true ∧ 1 ≤ bytes.length ∧ bytes.length < 0x100000000
  | .inject address code => address.isRam = true ∧ code.length < 0x100000000
  | .raw _ => False

/-- What the lines of a code are read as. -/
inductive Restored : GeckoRecord → GeckoRecord → Prop
  | write (address : Address) (bytes : Bytes) :
      Restored (.write address bytes) (.write address bytes)
  | inject (address : Address) {code code' : Bytes}
      (same : (inject address code').toBytes = (inject address code).toBytes) :
      Restored (.inject address code) (.inject address code')

/-- A record with lines of its own, which are read as another one whatever stands behind them. -/
structure Delimited (r back : GeckoRecord) (lines : List Pair) : Prop where
  bytes : r.toBytes = payload lines
  nonempty : lines ≠ []
  read : ∀ rest, readLines (lines ++ rest) =
    (readLines rest).map fun records => records.map (back :: ·)

/-- The widths of a write that has one line, by their types. -/
def shortTypes : List (Nat × Nat) := [(0x00, 1), (0x02, 2), (0x04, 4)]

theorem toBytes_short {bytes : Bytes} (short : (type, bytes.length) ∈ shortTypes) :
    (write address bytes).toBytes =
      addressWord type address ++ (Bytes.zeros (4 - bytes.length) ++ bytes) := by
  simp only [shortTypes, List.mem_cons, Prod.mk.injEq, List.not_mem_nil, or_false] at short
  rcases short with ⟨rfl, one⟩ | ⟨rfl, two⟩ | ⟨rfl, four⟩
  · match bytes, one with
    | [b], _ => rfl
  · match bytes, two with
    | [a, b], _ => rfl
  · match bytes, four with
    | [a, b, c, d], _ => rfl

theorem toBytes_long {bytes : Bytes} (long : bytes.length ∉ [1, 2, 4]) :
    (write address bytes).toBytes =
      Bytes.padTo 8 (addressWord 0x06 address ++ Bytes.bigEndian 4 bytes.length ++ bytes) := by
  rw [toBytes]
  · rintro b rfl
    simp at long
  · rintro a b rfl
    simp at long
  · rintro a b c d rfl
    simp at long

/-- A write of one line keeps the low bytes of the second word. -/
theorem readLines_short {p : Pair} {width : Nat} (short : (p.type, width) ∈ shortTypes)
    (once : width < 4 → p.second.toNat < 0x10000) (rest : List Pair) :
    readLines (p :: rest) = (readLines rest).map fun records =>
      records.map (.write p.address (Bytes.bigEndian width p.second.toNat) :: ·) := by
  simp only [shortTypes, List.mem_cons, Prod.mk.injEq, List.not_mem_nil, or_false] at short
  rw [readLines]
  rcases short with ⟨type, rfl⟩ | ⟨type, rfl⟩ | ⟨type, rfl⟩
  · simp [type, once (by decide), Bytes.bigEndian]
  · simp [type, once (by decide)]
  · simp [type]

theorem readLines_long {p : Pair} (type : p.type = 0x06) {rest : List Pair}
    (enough : (p.second.toNat + 7) / 8 ≤ rest.length) :
    readLines (p :: rest) =
      (readLines (rest.drop ((p.second.toNat + 7) / 8))).map fun records => records.map
        (.write p.address
          ((payload (rest.take ((p.second.toNat + 7) / 8))).take p.second.toNat) :: ·) := by
  rw [readLines]
  simp [type, Nat.not_lt.mpr enough]

theorem readLines_inject {p : Pair} (type : p.type = 0xC2) {rest : List Pair}
    (enough : p.second.toNat ≤ rest.length) :
    readLines (p :: rest) =
      (readLines (rest.drop p.second.toNat)).map fun records => records.map
        (.inject p.address (codeOfPayload (payload (rest.take p.second.toNat))) :: ·) := by
  rw [readLines]
  simp [type, Nat.not_lt.mpr enough]

/-- A record that is not kept as it is. -/
def IsOrdinary : GeckoRecord → Prop
  | .raw _ => False
  | _ => True

/-- The records of some lines are writes and insertions. -/
theorem isOrdinary_of_readLines (lines : List GeckoLine.Pair) :
    ∀ records, readLines lines = .ok (some records) → ∀ r ∈ records, r.IsOrdinary := by
  have more {record : GeckoRecord} {result : Except GeckoLine.Pair (Option (List GeckoRecord))}
      (ordinary : record.IsOrdinary)
      (ih : ∀ records, result = .ok (some records) → ∀ r ∈ records, r.IsOrdinary)
      (records : List GeckoRecord)
      (read : (result.map fun rs => rs.map (record :: ·)) = .ok (some records)) :
      ∀ r ∈ records, r.IsOrdinary := by
    obtain ⟨found, known, same⟩ := Fallible.map_eq_ok_iff.mp read
    obtain ⟨rs, rfl, rfl⟩ := Option.map_eq_some_iff.mp same
    rw [List.forall_mem_cons]
    exact ⟨ordinary, ih rs known⟩
  have write (address : Address) (bytes : Bytes) : (write address bytes).IsOrdinary := trivial
  have inject (address : Address) (code : Bytes) : (inject address code).IsOrdinary := trivial
  fun_induction readLines lines with
  | case1 => simp
  | case2 p rest second step type ih => exact more (write _ _) (ih 0)
  | case3 p rest second step _ type ih => exact more (write _ _) (ih 0)
  | case4 p rest second step _ _ type ih => exact more (write _ _) (ih 0)
  | case5 => simp
  | case6 p rest second step _ _ _ type count long ih => exact more (write _ _) (ih count)
  | case7 => simp
  | case8 p rest second step _ _ _ _ type long ih => exact more (inject _ _) (ih second)
  | case9 => simp

theorem isOrdinary_mergeInto {first : GeckoRecord} {records : List GeckoRecord}
    (ordinary : first.IsOrdinary) (others : ∀ r ∈ records, r.IsOrdinary) :
    ∀ r ∈ mergeInto first records, r.IsOrdinary := by
  have kept : ∀ r ∈ first :: records, r.IsOrdinary := by
    rw [List.forall_mem_cons]
    exact ⟨ordinary, others⟩
  rw [mergeInto.eq_def]
  split
  case h_1 address bytes next more rest =>
    split
    · rw [List.forall_mem_cons] at others ⊢
      exact ⟨trivial, others.2⟩
    · exact kept
  case h_2 => exact kept

theorem isOrdinary_mergeWrites {records : List GeckoRecord} (ordinary : ∀ r ∈ records, r.IsOrdinary) :
    ∀ r ∈ mergeWrites records, r.IsOrdinary := by
  induction records with
  | nil => simp [mergeWrites]
  | cons record records ih =>
    rw [List.forall_mem_cons] at ordinary
    exact isOrdinary_mergeInto ordinary.1 (ih ordinary.2)

/-- What a block of Gecko lines is read as: itself, with the blanks around it left out, or the changes of its
records, which are writes and insertions. -/
theorem parse_eq_ok_cases {code : Text} {changes : List Change} (parsed : parse code = .ok changes) :
    ∃ pairs, GeckoLine.readAll code = .ok pairs ∧
      (readLines pairs = .ok none ∧ changes = [Change.new .gecko [] (Text.trim code)] ∨
        ∃ records : List GeckoRecord, (∀ r ∈ records, r.IsOrdinary) ∧
          changes = records.map toChange) := by
  rw [parse] at parsed
  split at parsed
  case h_1 => cases parsed
  case h_2 pairs read =>
    refine ⟨pairs, read, ?_⟩
    split at parsed
    case h_1 => cases parsed
    case h_2 kept => exact Or.inl ⟨kept, (Except.ok.inj parsed).symm⟩
    case h_3 records known =>
      have ordinary := isOrdinary_mergeWrites (isOrdinary_of_readLines pairs records known)
      exact Or.inr ⟨mergeWrites records, ordinary, (Except.ok.inj parsed).symm⟩

/-- A write of one, two or four bytes has one line. -/
theorem delimited_short {bytes : Bytes} (ram : address.isRam = true)
    (short : (type, bytes.length) ∈ shortTypes) :
    Delimited (.write address bytes) (.write address bytes) [header type address bytes.toNat] := by
  have known : type < 256 ∧ type % 2 = 0 ∧ bytes.length ≤ 4 := by
    simp only [shortTypes, List.mem_cons, Prod.mk.injEq, List.not_mem_nil, or_false] at short
    omega
  obtain ⟨low, even, width⟩ := known
  have value := Bytes.toNat_lt bytes
  have fits : bytes.toNat < 0x100000000 :=
    Nat.lt_of_lt_of_le value (Nat.pow_le_pow_right (by decide) width)
  refine ⟨?_, List.cons_ne_nil _ _, fun rest => ?_⟩
  · have word := Bytes.bigEndian_zeros (4 - bytes.length) bytes
    rw [Nat.sub_add_cancel width] at word
    rw [toBytes_short short, ← word, ← header_bytes]
    exact (List.append_nil _).symm
  · have kind : ((header type address bytes.toNat).type, bytes.length) ∈ shortTypes := by
      rwa [header_type low even]
    have second := header_second type address fits
    have once : bytes.length < 4 → bytes.toNat < 0x10000 := by
      intro narrow
      have two : bytes.length ≤ 2 := by
        simp only [shortTypes, List.mem_cons, Prod.mk.injEq, List.not_mem_nil, or_false] at short
        omega
      exact Nat.lt_of_lt_of_le value (Nat.pow_le_pow_right (by decide) two)
    have line := readLines_short kind (second.symm ▸ once) rest
    rwa [second, header_address low even ram, Bytes.bigEndian_toNat] at line

/-- Any other write counts its bytes, and has as many lines as they fill behind the first one. -/
theorem delimited_long {bytes : Bytes} (ram : address.isRam = true)
    (long : bytes.length ∉ [1, 2, 4]) (small : bytes.length < 0x100000000) :
    ∃ lines, Delimited (.write address bytes) (.write address bytes) lines := by
  have filled : (bytes ++ Bytes.zeros ((bytes.length + 7) / 8 * 8 - bytes.length)).length =
      8 * ((bytes.length + 7) / 8) := by
    rw [List.length_append, Bytes.length_zeros]
    omega
  obtain ⟨body, same, count⟩ := GeckoLine.exists_payload filled
  refine ⟨header 0x06 address bytes.length :: body, ?_, List.cons_ne_nil _ _, fun rest => ?_⟩
  · have length : (addressWord 0x06 address ++ Bytes.bigEndian 4 bytes.length ++ bytes).length =
        8 + bytes.length := by
      rw [List.length_append, List.length_append, addressWord, Bytes.length_bigEndian,
        Bytes.length_bigEndian]
    have padding : (8 + bytes.length + 8 - 1) / 8 * 8 - (8 + bytes.length) =
        (bytes.length + 7) / 8 * 8 - bytes.length := by omega
    rw [toBytes_long long, GeckoLine.payload_cons, header_bytes, same, Bytes.padTo, Bytes.extendTo,
      length, padding, List.append_assoc]
  · have kind : (header 0x06 address bytes.length).type = 0x06 :=
      header_type (by decide) (by decide)
    have second := header_second 0x06 address small
    have enough : ((header 0x06 address bytes.length).second.toNat + 7) / 8 ≤
        (body ++ rest).length := by
      rw [second, List.length_append, count]
      omega
    have line := readLines_long kind enough
    rw [second, List.take_left' count, List.drop_left' count, same, List.take_left,
      header_address (by decide) (by decide) ram] at line
    exact line

/-- The words that hold some code. -/
theorem length_padTo_four (code : Bytes) :
    (Bytes.padTo 4 code).length = (code.length + 3) / 4 * 4 := by
  rw [Bytes.padTo, Bytes.extendTo, List.length_append, Bytes.length_zeros]
  omega

theorem padTo_four_of_whole {code : Bytes} (whole : code.length % 4 = 0) :
    Bytes.padTo 4 code = code := by
  have none : (code.length + 4 - 1) / 4 * 4 - code.length = 0 := by omega
  rw [Bytes.padTo, Bytes.extendTo, none]
  exact List.append_nil code

/-- An injection is an odd number of words and a zero word behind them. -/
theorem injectPayload_eq (code : Bytes) :
    ∃ body : Bytes, injectPayload code = body ++ Bytes.zeros 4 ∧ body.length % 8 = 4 ∧
      body.length ≤ code.length + 7 := by
  have words := length_padTo_four code
  rw [injectPayload]
  by_cases even : (Bytes.padTo 4 code).length % 8 = 0
  · have filler : nop.length = 4 := rfl
    refine ⟨Bytes.padTo 4 code ++ nop, by simp only [even, ↓reduceIte], ?_, ?_⟩
    · rw [List.length_append, filler]
      omega
    · rw [List.length_append, filler]
      omega
  · exact ⟨Bytes.padTo 4 code, by simp only [even, ↓reduceIte], by omega, by omega⟩

/-- Code of an odd number of words that ends in the instruction that does nothing. Its last line
looks like the last line of the code in front of that instruction, which needs a filler. -/
def EndsInFiller (code : Bytes) : Prop := code.length % 8 = 4 ∧ code.drop (code.length - 4) = nop

instance : DecidablePred EndsInFiller := fun code =>
  inferInstanceAs (Decidable (code.length % 8 = 4 ∧ code.drop (code.length - 4) = nop))

/-- The code without an instruction at its end that may be a filler. -/
def withoutFiller (code : Bytes) : Bytes :=
  if EndsInFiller code then code.take (code.length - 4) else code

/-- An even number of words needs a filler, and an odd number does not. -/
theorem injectPayload_of_even {code : Bytes} (even : code.length % 8 = 0) :
    injectPayload code = code ++ nop ++ Bytes.zeros 4 := by
  simp only [injectPayload, padTo_four_of_whole (by omega : code.length % 4 = 0), even, ↓reduceIte]

theorem injectPayload_of_odd {code : Bytes} (odd : code.length % 8 = 4) :
    injectPayload code = code ++ Bytes.zeros 4 := by
  have uneven : code.length % 8 ≠ 0 := by omega
  simp only [injectPayload, padTo_four_of_whole (by omega : code.length % 4 = 0), uneven,
    ↓reduceIte]

theorem codeOfPayload_append_zeros (body : Bytes) :
    codeOfPayload (body ++ Bytes.zeros 4) = withoutFiller body := by
  have front : (body ++ Bytes.zeros 4).length - 4 = body.length := by
    rw [List.length_append, Bytes.length_zeros, Nat.add_sub_cancel]
  simp only [codeOfPayload, front, List.drop_left, List.take_left, ↓reduceIte, Bool.and_eq_true,
    decide_eq_true_eq]
  exact if_congr Iff.rfl rfl rfl

/-- Code and the same code without its filler have the same lines. -/
theorem injectPayload_withoutFiller (code : Bytes) :
    injectPayload (withoutFiller code) = injectPayload code := by
  rw [withoutFiller]
  split
  case isTrue filled =>
    obtain ⟨odd, last⟩ := filled
    have even : (code.take (code.length - 4)).length % 8 = 0 := by
      rw [List.length_take]
      omega
    rw [injectPayload_of_even even, injectPayload_of_odd odd, ← last, List.take_append_drop]
  case isFalse => rfl

/-- What a reader leaves out of an injection is nothing but a filler. -/
theorem codeOfPayload_injectPayload {code : Bytes} (whole : code.length % 4 = 0) :
    codeOfPayload (injectPayload code) = withoutFiller code := by
  by_cases odd : code.length % 8 = 4
  · rw [injectPayload_of_odd odd, codeOfPayload_append_zeros]
  · have even : code.length % 8 = 0 := by omega
    have filler : nop.length = 4 := rfl
    have front : (code ++ nop).length - 4 = code.length := by
      rw [List.length_append, filler, Nat.add_sub_cancel]
    have uneven : (code ++ nop).length % 8 = 4 := by
      rw [List.length_append, filler]
      omega
    have added : EndsInFiller (code ++ nop) := ⟨uneven, by rw [front, List.drop_left]⟩
    rw [injectPayload_of_even even, codeOfPayload_append_zeros, withoutFiller, if_pos added, front,
      List.take_left, withoutFiller, if_neg fun filled => odd filled.1]

/-- What a reader leaves out of an injection, it gets again. -/
theorem injectPayload_codeOfPayload {body : Bytes} (odd : body.length % 8 = 4) :
    injectPayload (codeOfPayload (body ++ Bytes.zeros 4)) = body ++ Bytes.zeros 4 := by
  rw [codeOfPayload_append_zeros, injectPayload_withoutFiller, injectPayload_of_odd odd]

/-- An injection counts its lines. -/
theorem delimited_inject {code : Bytes} (ram : address.isRam = true)
    (small : code.length < 0x100000000) :
    ∃ lines, Delimited (.inject address code)
      (.inject address (codeOfPayload (injectPayload code))) lines := by
  obtain ⟨body, shape, odd, short⟩ := injectPayload_eq code
  have total : (injectPayload code).length = 8 * ((injectPayload code).length / 8) := by
    rw [shape, List.length_append, Bytes.length_zeros]
    omega
  have fits : (injectPayload code).length / 8 < 0x100000000 := by
    rw [shape, List.length_append, Bytes.length_zeros]
    omega
  obtain ⟨tail, same, count⟩ := GeckoLine.exists_payload total
  refine ⟨header 0xC2 address ((injectPayload code).length / 8) :: tail, ?_, List.cons_ne_nil _ _,
    fun rest => ?_⟩
  · rw [GeckoLine.payload_cons, header_bytes, same]
    rfl
  · have kind : (header 0xC2 address ((injectPayload code).length / 8)).type = 0xC2 :=
      header_type (by decide) (by decide)
    have second := header_second 0xC2 address fits
    have enough : (header 0xC2 address ((injectPayload code).length / 8)).second.toNat ≤
        (tail ++ rest).length := by
      rw [second, List.length_append, count]
      omega
    have line := readLines_inject kind enough
    rw [second, List.take_left' count, List.drop_left' count, same,
      header_address (by decide) (by decide) ram] at line
    exact line

/-- The code that an injection is read back with has the same lines. -/
theorem toBytes_readBack (address : Address) (code : Bytes) :
    (inject address (codeOfPayload (injectPayload code))).toBytes =
      (inject address code).toBytes := by
  obtain ⟨body, shape, odd, -⟩ := injectPayload_eq code
  simp only [toBytes, shape, injectPayload_codeOfPayload odd]

/-- Every write and every injection has lines that read it back, whatever stands behind them. -/
theorem exists_delimited {r : GeckoRecord} (plain : r.IsPlain) :
    ∃ back lines, Restored r back ∧ Delimited r back lines := by
  cases r with
  | write address bytes =>
    obtain ⟨ram, -, small⟩ := plain
    by_cases long : bytes.length ∉ [1, 2, 4]
    · obtain ⟨lines, delimited⟩ := delimited_long ram long small
      exact ⟨_, lines, .write address bytes, delimited⟩
    · have short : ∃ type, (type, bytes.length) ∈ shortTypes := by
        simp only [List.mem_cons, List.not_mem_nil, or_false, not_not] at long
        rcases long with width | width | width
        · exact ⟨0x00, by rw [width]; decide⟩
        · exact ⟨0x02, by rw [width]; decide⟩
        · exact ⟨0x04, by rw [width]; decide⟩
      obtain ⟨type, short⟩ := short
      exact ⟨_, _, .write address bytes, delimited_short ram short⟩
  | inject address code =>
    obtain ⟨ram, small⟩ := plain
    obtain ⟨lines, delimited⟩ := delimited_inject ram small
    exact ⟨_, lines, .inject address (toBytes_readBack address code), delimited⟩
  | raw bytes => exact plain.elim

/-- Records one under another are read back one by one. -/
theorem exists_blocks {rs : List GeckoRecord} (plain : ∀ r ∈ rs, r.IsPlain) :
    ∃ (backs : List GeckoRecord) (blocks : List (List Pair)),
      List.Forall₂ Restored rs backs ∧
        List.Forall₂ (fun r lines => r.toBytes = payload lines) rs blocks ∧
          (∀ lines ∈ blocks, lines ≠ []) ∧ readLines blocks.flatten = .ok (some backs) := by
  induction rs with
  | nil => exact ⟨[], [], .nil, .nil, by simp, by rw [List.flatten_nil, readLines]⟩
  | cons r rs ih =>
    rw [List.forall_mem_cons] at plain
    obtain ⟨back, lines, restored, delimited⟩ := exists_delimited plain.1
    obtain ⟨backs, blocks, more, bytes, nonempty, read⟩ := ih plain.2
    refine ⟨back :: backs, lines :: blocks, .cons restored more, .cons delimited.bytes bytes,
      List.forall_mem_cons.mpr ⟨delimited.nonempty, nonempty⟩, ?_⟩
    rw [List.flatten_cons, delimited.read, read]
    rfl

/-- The text of records is the text of all their lines. -/
theorem joinLines_toText {rs : List GeckoRecord} {blocks : List (List Pair)}
    (bytes : List.Forall₂ (fun r lines => r.toBytes = payload lines) rs blocks)
    (nonempty : ∀ lines ∈ blocks, lines ≠ []) :
    Text.joinLines (rs.map toText) = Text.joinLines (blocks.flatten.map Pair.write) := by
  have texts : rs.map toText = (blocks.map (List.map Pair.write)).map Text.joinLines := by
    rw [List.map_map, ← List.forall₂_eq_eq_eq, List.forall₂_map_left_iff,
      List.forall₂_map_right_iff]
    exact bytes.imp fun r lines same => toText_eq same
  have groups : ∀ group ∈ blocks.map (List.map Pair.write), group ≠ [] := by
    intro group member
    obtain ⟨lines, inside, rfl⟩ := List.mem_map.mp member
    exact fun empty => nonempty lines inside (List.map_eq_nil_iff.mp empty)
  rw [texts, Text.joinLines_flatten groups, List.map_flatten]

end GeckoRecord

end GamePatch
