import GamePatch.Proofs.Configuration.Declarations
import GamePatch.Proofs.Configuration.Records
import GamePatch.Proofs.Json.Records

set_option autoImplicit false

namespace GamePatch.Configuration

/-! ### The form of records -/

namespace MemberRecord

def fields : List Text := ["name", "value", "comment"]

def values (m : MemberRecord) : List (Option Json) :=
  [some (.text m.name), some m.value, m.comment.map .text]

theorem toJson_eq (m : MemberRecord) : m.toJson = .object (Json.recordEntries fields m.values) := by
  simp [toJson, fields, values, Json.recordEntries, Json.entry?_eq]

theorem read?_toJson (m : MemberRecord) : read? m.toJson = some m := by
  have written : Json.fields? fields m.toJson = some m.values := by
    rw [toJson_eq]
    exact Json.fields?_recordEntries (by decide) rfl
  have comment : Json.optional Json.asText (m.comment.map .text) = some m.comment :=
    Json.optional_map Json.asText .text (fun _ => rfl) (by simp) m.comment
  change (Json.fields? fields m.toJson).bind _ = _
  rw [written]
  simp [values, Json.required, Json.asText, comment]

end MemberRecord

namespace Record

def fields : List Text := ["type", "value", "default", "range", "mask", "members", "annotation"]

def values (r : Record) : List (Option Json) :=
  [r.type.map .text, r.value, r.default, r.range.map fun (low, high) => .list [low, high], r.mask,
    r.members.map fun ms => .list (ms.map MemberRecord.toJson), r.note.map .text]

theorem toJson_eq (r : Record) : r.toJson = .object (Json.recordEntries fields r.values) := by
  simp [toJson, fields, values, Json.recordEntries, Json.entry?_eq]

/-- No value is null, which stands for a field that is left out. -/
structure IsProper (r : Record) : Prop where
  value : r.value ≠ some .null
  default : r.default ≠ some .null
  mask : r.mask ≠ some .null

theorem optional_some {field : Option Json} (proper : field ≠ some .null) :
    Json.optional some field = some field := by
  cases field with
  | none => rfl
  | some json =>
    cases json with
    | null => exact absurd rfl proper
    | _ => rfl

theorem read?_toJson {r : Record} (proper : r.IsProper) : read? r.toJson = some r := by
  have written : Json.fields? fields r.toJson = some r.values := by
    rw [toJson_eq]
    exact Json.fields?_recordEntries (by decide) rfl
  have text (field : Option Text) : Json.optional Json.asText (field.map .text) = some field :=
    Json.optional_map Json.asText .text (fun _ => rfl) (by simp) field
  have range : Json.optional readPair (r.range.map fun (low, high) => .list [low, high]) =
      some r.range :=
    Json.optional_map readPair (fun (low, high) => .list [low, high]) (fun _ => rfl) (by simp) r.range
  have members : Json.optional (Json.asList MemberRecord.read?)
      (r.members.map fun ms => .list (ms.map MemberRecord.toJson)) = some r.members :=
    Json.optional_map _ _ (fun ms => Json.asList_map ms fun m _ => m.read?_toJson) (by simp) r.members
  change (Json.fields? fields r.toJson).bind _ = _
  rw [written]
  simp [values, text, range, members, optional_some proper.value, optional_some proper.default,
    optional_some proper.mask]

end Record

/-! ### Values in records -/

section Values

variable {kind : Kind} {v : Value}

theorem exists_number {n : Int} (readable : IsReadable n) :
    ∃ number, Json.int n = .number number ∧ number.toInt64? = some n := by
  obtain ⟨low, high⟩ := readable
  rw [Json.int]
  by_cases negative : n < 0
  · refine ⟨.negative n.natAbs, if_pos negative, ?_⟩
    rw [Json.Number.toInt64?]
    congr 1
    omega
  · refine ⟨.natural n.natAbs, if_neg negative, ?_⟩
    rw [Json.Number.toInt64?, if_pos (by omega)]
    congr 1
    omega

/-- A whole number is read back from its value. -/
theorem ofJson_toJson (whole : kind ≠ .float) (admits : kind.Admits v) (readable : v.IsReadable)
    (hexadecimal : Bool) : kind.ofJson (v.toJson hexadecimal) = .ok (some v) := by
  cases v with
  | float bits => exact absurd admits whole
  | int n =>
    cases hexadecimal with
    | true =>
      obtain ⟨v', read, -, same⟩ := Kind.read_write admits readable true
      rw [same whole] at read
      exact read
    | false =>
      obtain ⟨number, written, read⟩ := exists_number readable
      rw [Value.toJson, if_neg (by simp), written]
      cases kind with
      | float => exact absurd rfl whole
      | int | mask =>
        change Except.ok (number.toInt64?.map Value.int) = _
        rw [read]
        rfl

theorem readJson_toJson (name : Text) (whole : kind ≠ .float) (admits : kind.Admits v)
    (readable : v.IsReadable) (hexadecimal : Bool) :
    readJson name kind (v.toJson hexadecimal) = .ok v := by
  rw [readJson, ofJson_toJson whole admits readable, required]

theorem readJsonInt_toJson (name : Text) (whole : kind ≠ .float) {n : Int} (readable : IsReadable n)
    (hexadecimal : Bool) : readJsonInt name kind ((Value.int n).toJson hexadecimal) = .ok n := by
  rw [readJsonInt, readJson_toJson name whole (v := .int n) whole readable]

/-- A mask is written as it stands in 64 bits, and read as a signed number. -/
theorem readJsonInt_mask (name : Text) (width : Width) (allowed : Nat) :
    readJsonInt name (.mask width none) (.text ("0x" ++ Text.hexUpper allowed)) =
      if allowed < 0x8000000000000000 then .ok (allowed : Int)
      else .error (.invalidValue name (Json.text ("0x" ++ Text.hexUpper allowed)).compact) := by
  have read : Kind.ofJson (.mask width none) (.text ("0x" ++ Text.hexUpper allowed)) =
      .ok (if allowed < 0x8000000000000000 then some (.int allowed) else none) := by
    rw [← write_hex_natCast, Kind.ofJson, Kind.read_of_ne_float (by simp), trim_write,
      readInt_write_eq]
    simp only [isReadable_natCast, Except.map, apply_ite (Option.map _), Option.map_some,
      Option.map_none]
  rw [readJsonInt, readJson, read]
  by_cases small : allowed < 0x8000000000000000
  · simp [required, small]
  · simp [required, small]

/-- Whether numbers are in hexadecimal is seen from the values of a record. -/
theorem isHexText_toJson (n : Int) (hexadecimal : Bool) :
    isHexText (some ((Value.int n).toJson hexadecimal)) = hexadecimal := by
  cases hexadecimal with
  | true => exact mentionsHex_write true n
  | false =>
    rw [Value.toJson, if_neg (by simp), Json.int]
    split <;> rfl

end Values

/-! ### Options -/

/-- An option of whole numbers, whose values are read back and are allowed. -/
structure HasWholeValues (c : Configuration) : Prop where
  whole : c.kind ≠ .float
  default : c.kind.Admits c.default ∧ c.default.IsReadable
  value : c.kind.Admits c.value ∧ c.value.IsReadable
  members : ∀ m ∈ c.members, c.kind.Admits m.value ∧ m.value.IsReadable
  checkedDefault : c.check c.default = .ok ()
  checkedValue : c.check c.value = .ok ()

/-- An option of whole numbers, all of which are read back. -/
structure IsRecordable (c : Configuration) : Prop extends HasWholeValues c where
  kind : c.kind.IsReadable

section Options

variable {c : Configuration}

theorem unrestricted_eq_float {kind : Kind} : kind.unrestricted = .float ↔ kind = .float := by
  cases kind <;> simp [Kind.unrestricted]

theorem Kind.Admits.unrestricted {kind : Kind} {v : Value} (admits : kind.Admits v) :
    kind.unrestricted.Admits v := by
  cases v with
  | int n => exact fun float => admits (unrestricted_eq_float.mp float)
  | float bits => exact unrestricted_eq_float.mpr admits

/-- A restriction is read back from the record. -/
theorem restrictBy_toRecord (whole : c.kind ≠ .float) (readable : c.kind.IsReadable) :
    restrictBy c.name c.toRecord c.kind.unrestricted = .ok c.kind := by
  cases shape : c.kind with
  | float => exact absurd shape whole
  | int width signed range =>
    rw [shape] at readable
    cases range with
    | none => simp [restrictBy, toRecord, shape, Kind.unrestricted]
    | some bounds =>
      obtain ⟨low, high⟩ := bounds
      obtain ⟨lowReadable, highReadable⟩ := readable
      have bound {n : Int} (readable : IsReadable n) :
          readJsonInt c.name (.int width signed none) ((Value.int n).toJson c.hexadecimal) = .ok n :=
        readJsonInt_toJson c.name (by simp) readable c.hexadecimal
      simp [restrictBy, toRecord, shape, Kind.unrestricted, bound lowReadable, bound highReadable, bind,
        Except.bind]
  | mask width allowed =>
    rw [shape] at readable
    cases allowed with
    | none => simp [restrictBy, toRecord, shape, Kind.unrestricted]
    | some allowed =>
      have small : allowed < 0x8000000000000000 := readable
      have read := readJsonInt_mask c.name width allowed
      have back : toBits64 allowed = allowed := by
        rw [toBits64]
        omega
      rw [if_pos small] at read
      simp only [restrictBy, toRecord, shape, Kind.unrestricted, Option.map_some, read, bind, Except.bind,
        back]

/-- A mask with the highest bit is not read back. -/
theorem restrictBy_toRecord_of_wide {width : Width} {allowed : Nat}
    (shape : c.kind = .mask width (some allowed)) (wide : ¬allowed < 0x8000000000000000) :
    restrictBy c.name c.toRecord c.kind.unrestricted =
      .error (.invalidValue c.name (Json.text ("0x" ++ Text.hexUpper allowed)).compact) := by
  have read := readJsonInt_mask c.name width allowed
  rw [if_neg wide] at read
  simp only [restrictBy, toRecord, shape, Kind.unrestricted, Option.map_some, read, bind, Except.bind]

/-- The members are read back from the record. -/
theorem readMembers_toRecord (values : c.HasWholeValues) :
    (c.toRecord.members.getD []).mapM (readMember c.name c.kind.unrestricted) = .ok c.members := by
  have whole : c.kind.unrestricted ≠ .float :=
    fun float => values.whole (unrestricted_eq_float.mp float)
  have written : c.toRecord.members.getD [] =
      c.members.map fun m => ⟨m.name, m.value.toJson c.hexadecimal, m.comment⟩ := by
    cases shape : c.members with
    | nil => simp [toRecord, shape]
    | cons m rest => simp [toRecord, shape]
  rw [written, Fallible.mapM_eq_ok_iff, List.forall₂_map_left_iff, List.forall₂_same]
  intro m member
  obtain ⟨admits, readable⟩ := values.members m member
  have read := readJson_toJson c.name whole admits.unrestricted readable c.hexadecimal
  rw [readMember, read]
  rfl

theorem isHexText_of_admits {v : Value} (whole : c.kind ≠ .float) (admits : c.kind.Admits v) :
    isHexText (some (v.toJson c.hexadecimal)) = c.hexadecimal := by
  cases v with
  | int n => exact isHexText_toJson n c.hexadecimal
  | float bits => exact absurd admits whole

theorem readJson_unrestricted {v : Value} (whole : c.kind ≠ .float)
    (known : c.kind.Admits v ∧ v.IsReadable) :
    readJson c.name c.kind.unrestricted (v.toJson c.hexadecimal) = .ok v :=
  readJson_toJson c.name (fun float => whole (unrestricted_eq_float.mp float)) known.1.unrestricted
    known.2 c.hexadecimal

/-- An option is read back from its record. -/
theorem ofRecord_toRecord (recordable : c.IsRecordable) : ofRecord c.name c.toRecord = .ok c := by
  have hexadecimal : c.hexadecimal =
      (isHexText c.toRecord.value || isHexText c.toRecord.default) := by
    simp only [toRecord]
    rw [isHexText_of_admits recordable.whole recordable.value.1,
      isHexText_of_admits recordable.whole recordable.default.1, Bool.or_self]
  exact ofRecord_of_isReadFrom
    { named := rfl
      type := ⟨c.kind.name, rfl, Kind.ofName?_name c.kind⟩
      value := ⟨_, rfl, readJson_unrestricted recordable.whole recordable.value⟩
      default := ⟨_, rfl, readJson_unrestricted recordable.whole recordable.default⟩
      members := readMembers_toRecord recordable.toHasWholeValues
      kind := restrictBy_toRecord recordable.whole recordable.kind
      note := rfl
      hexadecimal := hexadecimal
      checkedDefault := recordable.checkedDefault
      checkedValue := recordable.checkedValue }

/-- The record of an option whose mask has the highest bit is refused for the mask. -/
theorem ofRecord_toRecord_of_wide (values : c.HasWholeValues) {width : Width} {allowed : Nat}
    (shape : c.kind = .mask width (some allowed)) (wide : ¬allowed < 0x8000000000000000) :
    ofRecord c.name c.toRecord =
      .error (.invalidValue c.name (Json.text ("0x" ++ Text.hexUpper allowed)).compact) :=
  ofRecord_of_restrictBy_error ⟨c.kind.name, rfl, Kind.ofName?_name c.kind⟩
    ⟨_, c.value, rfl, readJson_unrestricted values.whole values.value⟩
    ⟨_, c.default, rfl, readJson_unrestricted values.whole values.default⟩
    ⟨c.members, readMembers_toRecord values⟩ (restrictBy_toRecord_of_wide shape wide)

theorem toJson_ne_null {kind : Kind} {v : Value} (whole : kind ≠ .float) (admits : kind.Admits v)
    (hexadecimal : Bool) : v.toJson hexadecimal ≠ .null := by
  cases v with
  | float bits => exact absurd admits whole
  | int n =>
    cases hexadecimal with
    | true => simp [Value.toJson]
    | false =>
      rw [Value.toJson, if_neg (by simp), Json.int]
      split <;> simp

/-- An option is read back from the JSON of its record. -/
theorem ofJson_toRecord (recordable : c.IsRecordable) : ofJson c.name c.toRecord.toJson = .ok c := by
  have proper : c.toRecord.IsProper := by
    constructor
    · simpa [toRecord] using toJson_ne_null recordable.whole recordable.value.1 c.hexadecimal
    · simpa [toRecord] using toJson_ne_null recordable.whole recordable.default.1 c.hexadecimal
    · cases shape : c.kind with
      | mask width allowed => cases allowed <;> simp [toRecord, shape]
      | _ => simp [toRecord, shape]
  rw [ofJson, Record.read?_toJson proper]
  exact ofRecord_toRecord recordable

end Options

end GamePatch.Configuration
