import GamePatch.Gecko.Export
import GamePatch.Proofs.Assembling
import GamePatch.Proofs.Change.NormalLines
import GamePatch.Proofs.Gecko.Records
import GamePatch.Proofs.Hex.Parts

set_option autoImplicit false

namespace GamePatch

open GeckoLine (Pair payload readAll)

namespace GeckoLine

/-- The lines of a block are its normal lines, and each of them is two words. -/
theorem readAll_eq_ok_iff {code : Text} {pairs : List Pair} :
    readAll code = .ok pairs ↔
      List.Forall₂ (fun l p => read? l = some p) (Code.normalLines (Text.lines code)) pairs := by
  have normal : Code.normalLines (Text.lines code) =
      ((Text.lines code).filter fun line => !(Line.stripComment line).isEmpty).map
        Line.stripComment := List.filter_map ..
  rw [readAll, Fallible.mapM_eq_ok_iff, normal, List.forall₂_map_left_iff]
  constructor <;> refine List.Forall₂.imp fun line p known => ?_
  · cases found : read? (Line.stripComment line) <;> simp_all
  · rw [known]

/-- The digits of a line are those of its words. -/
theorem isPart_of_read? {l : Text} {p : Pair} (trimmed : Text.trim l = l) (read : read? l = some p) :
    Hex.IsPart l p.bytes := by
  refine ⟨trimmed, ?_⟩
  unfold read? at read
  simp only at read
  split at read
  case isFalse => cases read
  case isTrue shape =>
    rw [Bool.and_eq_true, decide_eq_true_eq] at shape
    obtain ⟨length, hex⟩ := shape
    obtain ⟨bytes, digits⟩ := (Hex.isDigits_normalize hex).eq_encode (by rw [length])
    rw [digits, Hex.length_encode] at length
    have whole : bytes.length = 8 * 1 := by omega
    obtain ⟨pairs, rfl, one⟩ := exists_payload whole
    obtain ⟨q, rfl⟩ := List.length_eq_one_iff.mp one
    have bytes : payload [q] = q.bytes := List.append_nil _
    rw [bytes] at digits
    have front : (Hex.normalize l).take 8 = Hex.encodeWord q.first := by
      rw [digits, Pair.bytes, Hex.encode_append]
      exact List.take_left' (Hex.length_encodeWord _)
    have back : (Hex.normalize l).drop 8 = Hex.encodeWord q.second := by
      rw [digits, Pair.bytes, Hex.encode_append]
      exact List.drop_left' (Hex.length_encodeWord _)
    rw [readPair, front, back, Hex.readNat32_encodeWord, Hex.readNat32_encodeWord] at read
    simp only [UInt32.ofNat_toNat, Option.some.injEq] at read
    rwa [← read]

/-- No line of a block but the first begins with a mark. -/
def MarksFirstOnly (code : Text) : Prop :=
  ∀ line ∈ (Code.normalLines (Text.lines code)).tail, Text.hexMarked? line = none

instance : DecidablePred MarksFirstOnly := fun code =>
  inferInstanceAs (Decidable (∀ line ∈ (Code.normalLines (Text.lines code)).tail,
    Text.hexMarked? line = none))

/-- The text of a block as the export sees it, without comments and line breaks. -/
def joined (code : Text) : Text := (Code.normalLines (Text.lines code)).flatten

/-- All lines of a block at once are read as its words, or not at all. -/
theorem decode_joined {code : Text} {pairs : List Pair} (read : readAll code = .ok pairs)
    (nonempty : pairs ≠ []) :
    Hex.decode (joined code) =
      if MarksFirstOnly code then .ok (payload pairs)
      else .error (.invalidCharacter (Text.trim (joined code))) := by
  have parts : List.Forall₂ Hex.IsPart (Code.normalLines (Text.lines code)) (pairs.map Pair.bytes) := by
    have trimmed : ∀ l ∈ Code.normalLines (Text.lines code), Text.trim l = l := by
      intro l member
      obtain ⟨line, -, rfl⟩ := List.mem_map.mp (List.mem_of_mem_filter member)
      exact Text.trim_trim _
    rw [List.forall₂_map_right_iff]
    refine ((List.forall₂_and_left _ _).mpr ⟨trimmed, readAll_eq_ok_iff.mp read⟩).imp ?_
    exact fun l p known => isPart_of_read? known.1 known.2
  obtain ⟨p, pairs, rfl⟩ := List.exists_cons_of_ne_nil nonempty
  obtain ⟨first, rest, own, others, lines⟩ := List.forall₂_cons_right_iff.mp parts
  have marks : MarksFirstOnly code ↔ ∀ line ∈ rest, Text.hexMarked? line = none := by
    rw [MarksFirstOnly, lines, List.tail_cons]
  have words : p.bytes ≠ [] := by
    intro empty
    have length := p.length_bytes
    rw [empty] at length
    cases length
  simp only [joined, lines, List.flatten_cons, payload_cons, marks]
  rw [payload, List.flatMap_def]
  exact Hex.decode_flatten own words others

end GeckoLine

namespace GeckoRecord

/-- A Gecko code comes from a block that is kept, with the blanks around it left out. -/
theorem parse_kept {code : Text} {c : Change} (parsed : parse code = .ok [c])
    (kind : c.kind = .gecko) :
    ∃ pairs, readAll code = .ok pairs ∧ pairs ≠ [] ∧ c = Change.new .gecko [] (Text.trim code) := by
  obtain ⟨pairs, read, ⟨kept, single⟩ | ⟨records, ordinary, single⟩⟩ := parse_eq_ok_cases parsed
  · cases single
    refine ⟨pairs, read, ?_, rfl⟩
    rintro rfl
    rw [readLines] at kept
    cases kept
  · -- Every other block has nothing but writes and insertions.
    obtain ⟨record, rfl, rfl⟩ := List.map_eq_singleton_iff.mp single.symm
    have own := ordinary record List.mem_cons_self
    cases record with
    | write => cases kind
    | inject => cases kind
    | raw => exact own.elim

end GeckoRecord

namespace GameMod

open GeckoRecord (Error)

theorem run_geckoRecordsOf_cons (toolchain : Toolchain) (m : GameMod) (image : GameImage)
    (symbols : SymbolTable) (c : Change) (rest : List Change) :
    (m.geckoRecordsOf image symbols (c :: rest)).run toolchain = (do
      let first ← (m.geckoRecord image symbols c).run toolchain
      let more ← (m.geckoRecordsOf image symbols rest).run toolchain
      .ok (first.toList ++ more)) := by
  rw [geckoRecordsOf, Assembling.run_bind]
  cases (m.geckoRecord image symbols c).run toolchain with
  | error e => rfl
  | ok first =>
    simp only
    rw [Assembling.run_bind]
    cases (m.geckoRecordsOf image symbols rest).run toolchain <;> rfl

/-- Changes one behind another have their records one behind another. -/
theorem run_geckoRecordsOf_append (toolchain : Toolchain) (m : GameMod) (image : GameImage)
    (symbols : SymbolTable) (front back : List Change) :
    (m.geckoRecordsOf image symbols (front ++ back)).run toolchain = (do
      let above ← (m.geckoRecordsOf image symbols front).run toolchain
      let below ← (m.geckoRecordsOf image symbols back).run toolchain
      .ok (above ++ below)) := by
  induction front with
  | nil =>
    rw [List.nil_append]
    change _ = (m.geckoRecordsOf image symbols back).run toolchain >>= fun below => .ok ([] ++ below)
    cases (m.geckoRecordsOf image symbols back).run toolchain <;> rfl
  | cons c front ih =>
    rw [List.cons_append, run_geckoRecordsOf_cons, run_geckoRecordsOf_cons, ih]
    cases (m.geckoRecord image symbols c).run toolchain with
    | error e => rfl
    | ok first =>
      cases (m.geckoRecordsOf image symbols front).run toolchain with
      | error e => rfl
      | ok above =>
        cases (m.geckoRecordsOf image symbols back).run toolchain with
        | error e => rfl
        | ok below => exact congrArg Except.ok (List.append_assoc ..).symm

theorem geckoLines_eq (code : Text) :
    geckoLines code = (Hex.decode (GeckoLine.joined code)).mapError .invalidCode := by
  have whole : (Text.lines code).flatMap Line.stripComment = GeckoLine.joined code := by
    rw [← Code.flatMap_normalLines Line.stripComment Line.stripComment_stripComment rfl,
      GeckoLine.joined, List.flatMap_def]
    congr 1
    conv_rhs => rw [← List.map_id (Code.normalLines (Text.lines code))]
    refine List.map_congr_left fun l member => ?_
    obtain ⟨line, -, rfl⟩ := List.mem_map.mp (List.mem_of_mem_filter member)
    exact Line.stripComment_stripComment line
  rw [geckoLines, whole]
  cases Hex.decode (GeckoLine.joined code) <;> rfl

/-- A block that was kept is exported as the words of all its lines, in one record between those of
the changes around it, exactly if no line but the first begins with a mark. -/
theorem geckoRecords_of_kept {code : Text} {c : Change} (parsed : GeckoRecord.parse code = .ok [c])
    (kind : c.kind = .gecko) :
    ∃ pairs, readAll code = .ok pairs ∧
      ∀ (toolchain : Toolchain) (m : GameMod) (revision : Text) (image : GameImage)
        (symbols : SymbolTable) (before behind : List Change),
        m.changesFor revision = before ++ c :: behind →
        (m.geckoRecords revision image symbols).run toolchain = (do
          let above ← (m.geckoRecordsOf image symbols before).run toolchain
          let record ← (if GeckoLine.MarksFirstOnly code then .ok (.raw (payload pairs))
            else .error (.invalidCode (.invalidCharacter (Text.trim (GeckoLine.joined code)))) :
            Except Error GeckoRecord)
          let below ← (m.geckoRecordsOf image symbols behind).run toolchain
          .ok (above ++ record :: below)) := by
  obtain ⟨pairs, read, nonempty, rfl⟩ := GeckoRecord.parse_kept parsed kind
  refine ⟨pairs, read, fun toolchain m revision image symbols before behind changes => ?_⟩
  have decoded : Hex.decode (GeckoLine.joined (Text.trim code)) =
      if GeckoLine.MarksFirstOnly code then .ok (payload pairs)
      else .error (.invalidCharacter (Text.trim (GeckoLine.joined code))) := by
    have same : GeckoLine.joined (Text.trim code) = GeckoLine.joined code := by
      rw [GeckoLine.joined, Code.normalLines_lines_trim, GeckoLine.joined]
    rw [same]
    exact GeckoLine.decode_joined read nonempty
  have own : m.geckoRecord image symbols (Change.new .gecko [] (Text.trim code)) =
      pure ((geckoLines (Text.trim code)).map fun bytes => some (.raw bytes)) := rfl
  rw [geckoRecords, changes, run_geckoRecordsOf_append, run_geckoRecordsOf_cons, own, geckoLines_eq,
    decoded]
  cases (m.geckoRecordsOf image symbols before).run toolchain with
  | error e => rfl
  | ok above =>
    by_cases marks : GeckoLine.MarksFirstOnly code
    · rw [if_pos marks, if_pos marks]
      cases (m.geckoRecordsOf image symbols behind).run toolchain <;> rfl
    · rw [if_neg marks, if_neg marks]
      rfl

/-- A block with a comment, a blank line and digits of both cases, whose first line is marked. -/
def markedBlock : Text := "0x28001000 00000001 # buttons\n\n 28 00 1000 0000 000a // more\n"

def markedMod : GameMod :=
  (GameMod.new "Marked").push (Change.new .gecko [] (Text.trim markedBlock))

theorem markedMod_geckoRecords :
    (markedMod.geckoRecords allRevisions .ramOnly []).run Assembler.toolchain =
      .ok [.raw [0x28, 0x00, 0x10, 0x00, 0x00, 0x00, 0x00, 0x01,
        0x28, 0x00, 0x10, 0x00, 0x00, 0x00, 0x00, 0x0A]] := by
  have parsed : GeckoRecord.parse markedBlock =
      .ok [Change.new .gecko [] (Text.trim markedBlock)] := by decide +kernel
  obtain ⟨pairs, read, exported⟩ := geckoRecords_of_kept parsed rfl
  have alone : markedMod.changesFor allRevisions =
      [] ++ Change.new .gecko [] (Text.trim markedBlock) :: [] := by decide +kernel
  have first : GeckoLine.MarksFirstOnly markedBlock := by decide +kernel
  obtain rfl : pairs = [⟨0x28001000, 1⟩, ⟨0x28001000, 10⟩] := by
    have words : readAll markedBlock = .ok [⟨0x28001000, 1⟩, ⟨0x28001000, 10⟩] := by decide +kernel
    exact Except.ok.inj (read.symm.trans words)
  rw [exported Assembler.toolchain markedMod allRevisions .ramOnly [] [] [] alone, if_pos first]
  decide +kernel

def markedBehind : Text := "28001000 00000001\n0x28001000 00000002"

/-- A block that was read and kept, and that the export refuses. -/
theorem markedBehind_not_exported :
    GeckoRecord.parse markedBehind = .ok [Change.new .gecko [] markedBehind] ∧
      readAll markedBehind = .ok [⟨0x28001000, 1⟩, ⟨0x28001000, 2⟩] ∧
        ((((GameMod.new "Marked").push (Change.new .gecko [] markedBehind)).geckoRecords
          allRevisions .ramOnly []).run Assembler.toolchain =
            .error (.invalidCode (.invalidCharacter "28001000 000000010x28001000 00000002"))) := by
  decide +kernel

end GameMod

end GamePatch
