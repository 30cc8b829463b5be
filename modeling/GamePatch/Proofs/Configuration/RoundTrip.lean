import GamePatch.Proofs.Configuration.Ranges
import GamePatch.Proofs.Configuration.Values
import GamePatch.Proofs.Configuration.WrittenRecords

set_option autoImplicit false

namespace GamePatch.Configuration

open Text (trim trimEnd isAllBlank)

variable {c : Configuration}

/-! ### Declarations -/

/-- A declaration has no blanks around it. -/
theorem trim_declaration (declared : c.IsDeclared) : trim c.declaration = c.declaration := by
  let body : Text := c.kind.name ++ " " ++ c.name ++ " = " ++ c.default.write c.hexadecimal ++
    writeRestriction c.hexadecimal c.kind
  have whole : c.declaration = body ++ writeRemark c.note := rfl
  have front : trimEnd body = body := trimEnd_append_write _ c.hexadecimal c.kind c.default
  rw [Text.trim_eq_self_iff]
  constructor
  · obtain ⟨first, rest, shape⟩ := List.exists_cons_of_ne_nil c.kind.name_ne_nil
    rw [Text.trimStart_eq_self_iff]
    intro x lead
    have same : x = first := by simpa [declaration, shape] using lead.symm
    rw [same]
    exact c.kind.solid_name first (by rw [shape]; exact List.mem_cons_self)
  · rw [whole]
    cases noted : c.note with
    | none => rw [writeRemark, List.append_nil, front]
    | some r =>
      obtain ⟨some, trimmed⟩ := declared.note r noted
      rw [writeRemark, ← List.append_assoc,
        Text.trimEnd_append _ (Text.isAllBlank_eq_false_of_trim some trimmed),
        (Text.trim_eq_self_iff.mp trimmed).2]

/-- The declaration of an option of whole numbers is read as the option, or refused for a number of its
restriction. -/
theorem parse_declaration_of_whole (declared : c.IsDeclared) (whole : c.kind ≠ .float)
    (readable : c.default.IsReadable) (fresh : c.members = []) :
    parse c.declaration =
      if c.kind.IsReadable then .ok c else .error (.invalidDeclaration c.declaration) := by
  have trimmed := trim_declaration declared
  obtain ⟨v, read, admits, same⟩ := Kind.read_write declared.admits readable c.hexadecimal
  obtain rfl := same whole
  by_cases inside : c.kind.IsReadable
  · obtain ⟨c', parsed, back⟩ := parse_declaration declared inside readable
    have own : ({ c with members := [] } : Configuration) = c := by rw [← fresh]
    rw [(Text.trim_eq_self_iff.mp trimmed).2] at parsed
    rw [own] at back
    rw [if_pos inside, parsed, back.whole whole]
  · have refused := parse_declaration_eq declared
    rw [(Text.trim_eq_self_iff.mp trimmed).2, trimmed, read] at refused
    simpa [required, inside] using refused

/-- Blanks at the end of a line do not matter to its remark, and at most blanks are added in front of
it. -/
theorem splitRemark_append_blanks (s : Text) {back : Text} (blank : isAllBlank back = true) :
    ∃ gap, isAllBlank gap = true ∧
      splitRemark (s ++ back) = ((splitRemark s).1 ++ gap, (splitRemark s).2) := by
  have absent : '#' ∉ back := Text.not_mem_of_isAllBlank blank (by decide)
  by_cases marked : '#' ∈ s
  · obtain ⟨left, right, rfl, clean⟩ := List.eq_append_cons_of_mem marked
    refine ⟨[], rfl, ?_⟩
    rw [List.append_assoc, List.cons_append, splitRemark, splitRemark, Text.cutAt_append clean,
      Text.cutAt_append clean]
    simp only [remark?, Text.trim_append_blanks right blank, List.append_nil]
  · have clean : '#' ∉ s ++ back := by
      rw [List.mem_append, not_or]
      exact ⟨marked, absent⟩
    exact ⟨back, blank, by rw [splitRemark, splitRemark, Text.cutAt_eq_none marked,
      Text.cutAt_eq_none clean]⟩

/-- Blanks at the end of the line of a member do not matter. -/
theorem parseMember_trimEnd (c : Configuration) (line : Text) :
    c.parseMember (trimEnd line) = c.parseMember line := by
  obtain ⟨back, blank, whole⟩ := Text.exists_blank_end line
  have absent : ':' ∉ back := Text.not_mem_of_isAllBlank blank (by decide)
  by_cases marked : ':' ∈ trimEnd line
  · obtain ⟨value, rest, shape, clean⟩ := List.eq_append_cons_of_mem marked
    obtain ⟨gap, blank', split⟩ := splitRemark_append_blanks rest blank
    have cut : Text.cutAt ':' (trimEnd line) = some (value, rest) := by
      rw [shape, Text.cutAt_append clean]
    have cut' : Text.cutAt ':' line = some (value, rest ++ back) := by
      rw [whole, shape, List.append_assoc, List.cons_append, Text.cutAt_append clean]
    rw [parseMember, parseMember, cut, cut']
    simp only [split, Text.trim_append_blanks _ blank']
  · have unmarked : ':' ∉ line := by
      rw [whole, List.mem_append, not_or]
      exact ⟨marked, absent⟩
    rw [parseMember, parseMember, Text.cutAt_eq_none marked, Text.cutAt_eq_none unmarked,
      Text.trim_trimEnd]

/-- A member that was read is read back from its line. -/
theorem parseMember_of_parseMember {line : Text} {m : Member} (whole : c.kind ≠ .float)
    (read : c.parseMember line = .ok m) (readable : m.value.IsReadable) :
    c.parseMember (c.memberLine m) = .ok m := by
  obtain ⟨listed, -⟩ := isMemberOf_of_parseMember read
  obtain ⟨m', parsed, same⟩ := parseMember_memberLine rfl listed readable
  rw [← parseMember_trimEnd, parsed, same whole]

/-- An option of whole numbers that was declared is read back from its declaration, and its members
from their lines. -/
theorem declared_integers_read_back {line : Text} {width : Width} {signed : Bool}
    {range : Option (Int × Int)} (read : parse line = .ok c)
    (integer : c.kind = .int width signed range) :
    parse c.declaration = .ok c ∧
      ∀ (memberLine : Text) (m : Member), c.parseMember memberLine = .ok m → m.value.IsReadable →
        c.parseMember (c.memberLine m) = .ok m := by
  obtain ⟨declared, fresh, -⟩ := isDeclared_of_parse read
  obtain ⟨default, kind⟩ := isReadable_of_parse read (integer ▸ trivial)
  have whole : c.kind ≠ .float := by
    rw [integer]
    simp
  constructor
  · rw [parse_declaration_of_whole declared whole default fresh, if_pos kind]
  · intro memberLine m listed readable
    exact parseMember_of_parseMember whole listed readable

/-- A range of negative bounds, in hexadecimal and with blanks. -/
def stepLine : Text := "int16  Step size =  -0x4 ; -0X10 - -0x1 # first # second"

def stepOption : Configuration where
  name := "Step size"
  kind := .int .two true (some (-16, -1))
  default := .int (-4)
  value := .int (-4)
  members := []
  note := some "first # second"
  hexadecimal := true

theorem stepOption_read_back :
    parse stepLine = .ok stepOption ∧ parse stepOption.declaration = .ok stepOption ∧
      stepOption.parseMember " - 10:Far: back #" = .ok ⟨.int (-10), "Far: back", none⟩ ∧
        stepOption.parseMember (stepOption.memberLine ⟨.int (-10), "Far: back", none⟩) =
          .ok ⟨.int (-10), "Far: back", none⟩ := by
  have line : parse stepLine = .ok stepOption := by decide
  have member : stepOption.parseMember " - 10:Far: back #" = .ok ⟨.int (-10), "Far: back", none⟩ := by
    decide
  obtain ⟨declared, listed⟩ := declared_integers_read_back line rfl
  exact ⟨line, declared, member, listed " - 10:Far: back #" _ member (by decide)⟩

/-! ### Records -/

section Records

variable {name : Text} {r : Record}

theorem Kind.admits_of_ofJson {kind : Kind} {json : Json} {v : Value}
    (read : kind.ofJson json = .ok (some v)) : kind.Admits v := by
  unfold Kind.ofJson at read
  split at read
  case h_1 s => exact Kind.admits_of_read read
  case h_2 n =>
    split at read
    case h_1 =>
      cases read
      rfl
    case h_2 whole =>
      obtain ⟨n, -, rfl⟩ := Option.map_eq_some_iff.mp (Except.ok.inj read)
      exact whole
  case h_3 => cases read

theorem Kind.admits_of_readJson {kind : Kind} {json : Json} {v : Value}
    (read : readJson name kind json = .ok v) : kind.Admits v :=
  Kind.admits_of_ofJson (required_eq_ok_iff.mp read)

/-- A restriction does not change the type. -/
theorem unrestricted_of_restrictBy {base kind : Kind} (read : restrictBy name r base = .ok kind) :
    kind.unrestricted = base.unrestricted := by
  unfold restrictBy at read
  split at read
  case h_1 =>
    split at read
    case h_1 =>
      cases read
      rfl
    case h_2 =>
      obtain ⟨low, -, read⟩ := Fallible.bind_eq_ok_iff.mp read
      obtain ⟨high, -, same⟩ := Fallible.bind_eq_ok_iff.mp read
      cases same
      rfl
  case h_2 =>
    split at read
    case h_1 =>
      cases read
      rfl
    case h_2 =>
      obtain ⟨mask, -, same⟩ := Fallible.bind_eq_ok_iff.mp read
      cases same
      rfl
  case h_3 =>
    cases read
    rfl

/-- The values of an option that was read from a record are allowed, and the default and the value have
far fewer than 64 bits. -/
theorem hasWholeValues_of_ofRecord (read : ofRecord name r = .ok c) (whole : c.kind ≠ .float)
    (members : ∀ m ∈ c.members, m.value.IsReadable) : c.name = name ∧ c.HasWholeValues := by
  obtain ⟨base, steps⟩ := isReadFrom_of_ofRecord read
  have same : base = .float ↔ c.kind = .float := by
    rw [← unrestricted_eq_float, ← unrestricted_of_restrictBy steps.kind, unrestricted_eq_float]
  have admits {json : Json} {v : Value} (read : readJson name base json = .ok v) :
      c.kind.Admits v := by
    have own := Kind.admits_of_readJson read
    cases v with
    | int n => exact fun float => own (same.mpr float)
    | float bits => exact same.mp own
  obtain ⟨valueJson, -, value⟩ := steps.value
  obtain ⟨defaultJson, -, default⟩ := steps.default
  have listed := Fallible.mapM_eq_ok_iff.mp steps.members
  refine ⟨steps.named,
    { whole := whole
      default := ⟨admits default,
        Value.isReadable_of_check whole (admits default) steps.checkedDefault⟩
      value := ⟨admits value, Value.isReadable_of_check whole (admits value) steps.checkedValue⟩
      members := ?_
      checkedDefault := steps.checkedDefault
      checkedValue := steps.checkedValue }⟩
  intro m member
  obtain ⟨record, -, memberRead⟩ := exists_left_of_forall₂ listed member
  obtain ⟨v, valueRead, same⟩ := Fallible.bind_eq_ok_iff.mp memberRead
  cases same
  exact ⟨admits valueRead, members _ member⟩

/-- An option of whole numbers that was read from a record is read back from its own record, whichever
of the numbers were given as texts. The bounds and the values of members are those of 64 bits above the
least, and a mask does not have the highest bit. -/
theorem recorded_wholes_read_back (read : ofRecord name r = .ok c) (whole : c.kind ≠ .float)
    (restriction : c.kind.IsReadable) (members : ∀ m ∈ c.members, m.value.IsReadable) :
    ofRecord name c.toRecord = .ok c := by
  obtain ⟨named, values⟩ := hasWholeValues_of_ofRecord read whole members
  have recordable : c.IsRecordable := { values with kind := restriction }
  rw [← named]
  exact ofRecord_toRecord recordable

/-- Numbers as numbers and as texts, in both bases. -/
def sizeRecord : Record where
  type := some "int32"
  value := some (.text "-0X10")
  default := some (.text " 8 ")
  range := some (Json.int (-64), .text "0x40")
  mask := none
  members := some [⟨"Eight", Json.int 8, none⟩, ⟨"", .text "0x7", some ""⟩]
  note := some "size"

def sizeOption : Configuration where
  name := "Size"
  kind := .int .four true (some (-64, 64))
  default := .int 8
  value := .int (-16)
  members := [⟨.int 8, "Eight", none⟩, ⟨.int 7, "", some ""⟩]
  note := some "size"
  hexadecimal := true

theorem sizeOption_read_back :
    ofRecord "Size" sizeRecord = .ok sizeOption ∧ sizeOption.kind ≠ .float ∧
      sizeOption.kind.IsReadable ∧ (∀ m ∈ sizeOption.members, m.value.IsReadable) ∧
        ofRecord "Size" sizeOption.toRecord = .ok sizeOption := by
  have record : ofRecord "Size" sizeRecord = .ok sizeOption := by decide
  have members : ∀ m ∈ sizeOption.members, m.value.IsReadable := by decide
  exact ⟨record, by decide, by decide, members,
    recorded_wholes_read_back record (by decide) (by decide) members⟩

end Records

/-! ### Masks -/

theorem Kind.isReadable_mask_iff {width : Width} {allowed : Option Nat} :
    (Kind.mask width allowed).IsReadable ↔ ∀ a ∈ allowed, a < 0x8000000000000000 := by
  cases allowed with
  | none => simp [Kind.IsReadable]
  | some a => simp [Kind.IsReadable]

section Masks

variable {width : Width} {allowed : Option Nat}

theorem parse_declaration_of_mask {line : Text} (read : parse line = .ok c)
    (mask : c.kind = .mask width allowed) :
    parse c.declaration =
      if ∀ a ∈ allowed, a < 0x8000000000000000 then .ok c
      else .error (.invalidDeclaration c.declaration) := by
  obtain ⟨declared, fresh, -⟩ := isDeclared_of_parse read
  have whole : c.kind ≠ .float := by
    rw [mask]
    simp
  have default : c.default.IsReadable :=
    Value.isReadable_of_check whole declared.admits declared.checked
  rw [parse_declaration_of_whole declared whole default fresh]
  simp only [mask, Kind.isReadable_mask_iff]

theorem ofRecord_toRecord_of_mask {name : Text} {r : Record} (read : ofRecord name r = .ok c)
    (mask : c.kind = .mask width allowed) (members : ∀ m ∈ c.members, m.value.IsReadable) :
    ofRecord c.name c.toRecord =
      match allowed with
      | none => .ok c
      | some a =>
        if a < 0x8000000000000000 then .ok c
        else .error (.invalidValue c.name (Json.text ("0x" ++ Text.hexUpper a)).compact) := by
  have whole : c.kind ≠ .float := by
    rw [mask]
    simp
  obtain ⟨-, values⟩ := hasWholeValues_of_ofRecord read whole members
  cases allowed with
  | none => exact ofRecord_toRecord { values with kind := mask ▸ trivial }
  | some a =>
    by_cases small : a < 0x8000000000000000
    · simp only [small, if_true]
      exact ofRecord_toRecord { values with kind := mask ▸ small }
    · simp only [small, if_false]
      exact ofRecord_toRecord_of_wide values mask small

/-- A mask that was read comes back exactly if it does not have the highest of its 64 bits, from the
declaration of its option as well as from the record. -/
theorem masks_read_back_iff (mask : c.kind = .mask width allowed) :
    (∀ line : Text, parse line = .ok c →
      (parse c.declaration = .ok c ↔ ∀ a ∈ allowed, a < 0x8000000000000000)) ∧
    ∀ (name : Text) (r : Record), ofRecord name r = .ok c → (∀ m ∈ c.members, m.value.IsReadable) →
      (ofRecord c.name c.toRecord = .ok c ↔ ∀ a ∈ allowed, a < 0x8000000000000000) := by
  constructor
  · intro line read
    rw [parse_declaration_of_mask read mask]
    split
    case isTrue small => exact iff_of_true rfl small
    case isFalse wide => exact iff_of_false (by simp) wide
  · intro name r read members
    rw [ofRecord_toRecord_of_mask read mask members]
    cases allowed with
    | none => simp
    | some a =>
      by_cases small : a < 0x8000000000000000
      · simp [small]
      · simp [small]

end Masks

def flagsLine : Text := "mask16 Flags = 0x0101; (0x0F0F) # bits"

def flagsOption : Configuration where
  name := "Flags"
  kind := .mask .two (some 0x0F0F)
  default := .int 0x0101
  value := .int 0x0101
  members := []
  note := some "bits"
  hexadecimal := true

def flagsRecord : Record where
  type := some "mask16"
  value := some (.text "0x0101")
  default := some (Json.int 257)
  range := none
  mask := some (Json.int 3855)
  members := none
  note := some "bits"

theorem flagsOption_read_back :
    flagsOption.kind = .mask .two (some 0x0F0F) ∧
      (parse flagsLine = .ok flagsOption ∧ parse flagsOption.declaration = .ok flagsOption) ∧
        ofRecord "Flags" flagsRecord = .ok flagsOption ∧
          ofRecord flagsOption.name flagsOption.toRecord = .ok flagsOption := by
  have line : parse flagsLine = .ok flagsOption := by decide
  have record : ofRecord "Flags" flagsRecord = .ok flagsOption := by decide
  have members : ∀ m ∈ flagsOption.members, m.value.IsReadable := by decide
  obtain ⟨declared, recorded⟩ := masks_read_back_iff (show flagsOption.kind = _ from rfl)
  refine ⟨rfl, ⟨line, ?_⟩, record, ?_⟩
  · exact (declared flagsLine line).mpr (by simp)
  · exact (recorded "Flags" flagsRecord record members).mpr (by simp)

/-- A mask of all 64 bits, given by a negative number. -/
def allFlags : Configuration where
  name := "Flags"
  kind := .mask .one (some 0xFFFFFFFFFFFFFFFF)
  default := .int 1
  value := .int 1
  members := []
  note := none
  hexadecimal := false

/-- The mask is written as a number that the reader of numbers refuses. -/
theorem allFlags_not_read_back :
    parse "mask8 Flags = 1; (-1)" = .ok allFlags ∧
      allFlags.declaration = "mask8 Flags = 1; (0xFFFFFFFFFFFFFFFF)".toList ∧
        parse allFlags.declaration = .error (.invalidDeclaration allFlags.declaration) := by
  decide

end GamePatch.Configuration
