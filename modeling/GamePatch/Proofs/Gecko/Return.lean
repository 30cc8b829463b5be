import GamePatch.Gecko.Export
import GamePatch.Proofs.Change.LastBranch

set_option autoImplicit false

namespace GamePatch

namespace Change

/-- The goal of the branch at the end of the code that an export leaves out. -/
def Intermediate.dropped? (i : Intermediate) : Option Int :=
  match i.spans.getLast? with
  | some s =>
    match s.placeholder with
    | .branch ⟨.b, .address a, n⟩ => if s.stop = i.length then some (a.toNat + n) else none
    | _ => none
  | none => none

theorem endsIn_of_dropped? {i : Intermediate} {goal : Int} (dropped : i.dropped? = some goal) :
    i.endsWithReturn = true ∧
      ∃ s a n, EndsIn i s ⟨.b, .address a, n⟩ ∧ goal = a.toNat + n := by
  unfold Intermediate.dropped? at dropped
  split at dropped
  case h_2 => cases dropped
  case h_1 s last =>
    split at dropped
    case h_2 => cases dropped
    case h_1 a n shape =>
      split at dropped
      case isFalse => cases dropped
      case isTrue stop =>
        cases dropped
        refine ⟨?_, s, a, n, ⟨last, stop, shape⟩, rfl⟩
        simp [Intermediate.endsWithReturn, last, stop, shape, Placeholder.isReturn]

theorem endsWithReturn_of_kept {i : Intermediate} (kept : i.dropped? = none) :
    i.endsWithReturn = false := by
  unfold Intermediate.dropped? at kept
  unfold Intermediate.endsWithReturn
  cases last : i.spans.getLast? with
  | none => rfl
  | some s =>
    simp only [last] at kept ⊢
    rw [Bool.and_eq_false_iff]
    by_cases stop : s.stop = i.length
    · right
      unfold Placeholder.isReturn
      split
      case h_1 a n shape =>
        rw [shape] at kept
        simp [stop] at kept
      case h_2 => rfl
    · left
      simp [stop]

end Change

namespace GameMod

/-- The code at a site goes on to a goal by one more word, a plain branch. -/
def LeavesBy (site : Address) (code full : Bytes) (goal : Int) : Prop :=
  ∃ word : UInt32, full = code ++ Bytes.ofWord word ∧ word.toNat / 0x4000000 = Branch.opcode ∧
    Branch.linkBit word = false ∧ Branch.absoluteBit word = false ∧
      Branch.displacement? word = some (goal - (site.toNat + code.length))

/-- If anything of the full code is left out, it is a plain branch to the word behind the site. -/
def KeepsReturn (site : Address) (code full : Bytes) : Prop :=
  code.length < full.length → LeavesBy site code full (site.toNat + 4)

theorem LeavesBy.longer {site : Address} {code full : Bytes} {goal : Int}
    (leaves : LeavesBy site code full goal) : code.length < full.length := by
  obtain ⟨word, rfl, -⟩ := leaves
  rw [List.length_append, Bytes.length_ofWord]
  omega

/-- A code leaves to one goal only. -/
theorem LeavesBy.unique {site : Address} {code full : Bytes} {goal goal' : Int}
    (leaves : LeavesBy site code full goal) (leaves' : LeavesBy site code full goal') :
    goal = goal' := by
  obtain ⟨word, whole, -, -, -, distance⟩ := leaves
  obtain ⟨word', whole', -, -, -, distance'⟩ := leaves'
  obtain rfl : word = word' :=
    Bytes.ofWord_injective (List.append_cancel_left (whole.symm.trans whole'))
  have same := Option.some.inj (distance.symm.trans distance')
  omega

theorem geckoCode_eq_ok {toolchain : Toolchain} {m : GameMod} {symbols : SymbolTable} {c : Change}
    {i : Change.Intermediate} {site : Address} {full : Bytes} (evaluated : c.evaluated = some i)
    (found : (m.geckoCode symbols c site).run toolchain = .ok full) :
    ∃ hex, (Change.resolveCode (m.context symbols site) i c.code).run toolchain =
      .ok (.complete hex) ∧ Hex.decode hex = .ok full := by
  rw [geckoCode, Assembling.run_bind, Change.resolve, evaluated] at found
  simp only at found
  split at found
  case h_1 hex complete =>
    split at found
    case h_1 bytes decoded =>
      cases found
      exact ⟨hex, complete, decoded⟩
    case h_2 => cases found
  case h_2 => cases found
  case h_3 => cases found
  case h_4 => cases found

/-- What an export of an injection has done. -/
theorem injectionRecord_eq_ok {toolchain : Toolchain} {m : GameMod} {image : GameImage}
    {symbols : SymbolTable} {c : Change} {i : Change.Intermediate} {site : Address}
    {record : GeckoRecord} (evaluated : c.evaluated = some i)
    (located : image.locate c.target = .ok site)
    (exported : (m.injectionRecord image symbols c).run toolchain = .ok (some record)) :
    ∃ full, (m.geckoCode symbols c site).run toolchain = .ok full ∧
      record = .inject site (withoutReturn i full) := by
  unfold injectionRecord at exported
  simp only [located, evaluated] at exported
  by_cases dependent : i.addressSpans.length > if i.endsWithReturn then 1 else 0
  · rw [if_pos dependent] at exported
    cases exported
  · rw [if_neg dependent, Assembling.run_bind] at exported
    split at exported
    case h_1 => cases exported
    case h_2 full found =>
      cases exported
      exact ⟨full, found, rfl⟩

theorem withoutReturn_concat {i : Change.Intermediate} (returns : i.endsWithReturn = true)
    (base : Bytes) (word : UInt32) : withoutReturn i (base ++ Bytes.ofWord word) = base := by
  rw [withoutReturn, if_pos returns, List.length_append, Bytes.length_ofWord, Nat.add_sub_cancel,
    List.take_left]

/-- The branch that an export leaves out, as a word of the full code. -/
theorem leavesBy_of_dropped? {toolchain : Toolchain} {includes : Includes}
    {options : Change.KnownOptions} {c : Change.Context} {i : Change.Intermediate}
    {code hex : Text} {full : Bytes} {goal : Int}
    (first : (Change.evaluateCode includes options code).run toolchain = .ok i)
    (assembler : Change.needsReassembly i (Text.lines code) = .ok true →
      toolchain = Assembler.toolchain ∧ Text.contains "__cs_" code = false)
    (resolved : (Change.resolveCode c i code).run toolchain = .ok (.complete hex))
    (decoded : Hex.decode hex = .ok full) (dropped : i.dropped? = some goal) :
    LeavesBy c.installAddress (withoutReturn i full) full goal := by
  obtain ⟨ends, s, a, n, endsIn, rfl⟩ := Change.endsIn_of_dropped? dropped
  obtain ⟨bytes, rfl, front, word, encoded, rfl, length⟩ :=
    Change.complete_endsIn first assembler endsIn resolved
  rw [Hex.decode_encode] at decoded
  cases decoded
  obtain ⟨target, means, branch⟩ := Change.Context.branchWord_eq_ok encoded
  obtain rfl : target = a := means
  rw [withoutReturn_concat ends]
  refine ⟨word, rfl, Branch.opcode_of_encode branch, Branch.linkBit_of_encode branch,
    Branch.absoluteBit_of_encode branch, ?_⟩
  rw [Branch.displacement?_of_encode branch, length]
  rfl

/-- An exported injection holds the full code, or all of it but a plain branch at its end; it still
returns where it did before exactly if there is no such branch or if it goes behind the site. -/
theorem inject_keepsReturn_iff {toolchain : Toolchain} {includes : Includes}
    {options : Change.KnownOptions} {m : GameMod} {image : GameImage} {symbols : SymbolTable}
    {c : Change} {i : Change.Intermediate} {site : Address} {record : GeckoRecord}
    (kind : c.kind = .injection) (evaluated : c.evaluated = some i)
    (located : image.locate c.target = .ok site)
    (first : (Change.evaluateCode includes options c.code).run toolchain = .ok i)
    (assembler : Change.needsReassembly i (Text.lines c.code) = .ok true →
      toolchain = Assembler.toolchain ∧ Text.contains "__cs_" c.code = false)
    (exported : (m.geckoRecord image symbols c).run toolchain = .ok (some record)) :
    ∃ code full, record = .inject site code ∧
      (m.geckoCode symbols c site).run toolchain = .ok full ∧
      (i.dropped? = none → code = full) ∧
      (∀ goal, i.dropped? = some goal → LeavesBy site code full goal) ∧
      (KeepsReturn site code full ↔ ∀ goal, i.dropped? = some goal → goal = site.toNat + 4) := by
  have injection : m.geckoRecord image symbols c = m.injectionRecord image symbols c := by
    rw [geckoRecord, kind]
  rw [injection] at exported
  obtain ⟨full, found, rfl⟩ := injectionRecord_eq_ok evaluated located exported
  obtain ⟨hex, resolved, decoded⟩ := geckoCode_eq_ok evaluated found
  have whole (kept : i.dropped? = none) : withoutReturn i full = full := by
    rw [withoutReturn, Change.endsWithReturn_of_kept kept]
    rfl
  have leaves (goal : Int) (dropped : i.dropped? = some goal) :
      LeavesBy site (withoutReturn i full) full goal :=
    leavesBy_of_dropped? first assembler resolved decoded dropped
  refine ⟨withoutReturn i full, full, rfl, found, whole, leaves, ?_, ?_⟩
  · intro keeps goal dropped
    have leaves := leaves goal dropped
    exact leaves.unique (keeps leaves.longer)
  · intro behind shorter
    cases dropped : i.dropped? with
    | none =>
      rw [whole dropped] at shorter
      exact absurd shorter (Nat.lt_irrefl _)
    | some goal =>
      rw [← behind goal dropped]
      exact leaves goal dropped

/-- An injection with an option in it that goes back behind its site. -/
def backInjection : Change :=
  { Change.new .injection "0x80002000" "li r3, [[Lives]]\nb 0x80002004" with
    evaluated := some
      { hex := "0000000000000000"
        spans :=
          [⟨0, 4, .options ["Lives"], "li r3, [[Lives]]", 0⟩,
            ⟨4, 4, .branch ⟨.b, .address 0x80002004, 0⟩, "b 0x80002004", 1⟩]
        isAssembly := true } }

def livesMod : GameMod :=
  { GameMod.new "Lives" with options := [⟨"Lives", .int .two true none, .int 3, .int 99, [], none, false⟩] }

theorem backInjection_keepsReturn :
    ∃ code full,
      GeckoRecord.inject 0x80002000 [0x38, 0x60, 0x00, 0x63] = .inject 0x80002000 code ∧
        (livesMod.geckoCode [] backInjection 0x80002000).run Assembler.toolchain = .ok full ∧
          KeepsReturn 0x80002000 code full := by
  have exported : (livesMod.geckoRecord .ramOnly [] backInjection).run Assembler.toolchain =
      .ok (some (.inject 0x80002000 [0x38, 0x60, 0x00, 0x63])) := by decide +kernel
  have first : (Change.evaluateCode ⟨fun _ => false, []⟩ (some livesMod.options)
      backInjection.code).run Assembler.toolchain = .ok (backInjection.evaluated.get (by decide)) := by
    decide +kernel
  have located : GameImage.ramOnly.locate backInjection.target = .ok 0x80002000 := by decide +kernel
  obtain ⟨code, full, same, found, -, -, keeps⟩ := inject_keepsReturn_iff rfl rfl located first
    (fun _ => ⟨rfl, by decide +kernel⟩) exported
  refine ⟨code, full, same, found, keeps.mpr fun goal dropped => ?_⟩
  have back : (backInjection.evaluated.get (by decide)).dropped? = some 0x80002004 := by
    decide +kernel
  exact Option.some.inj (dropped.symm.trans back)

def awayInjection : Change :=
  { Change.new .injection "0x80002000" "38600001\nb 0x80003000" with
    evaluated := some
      { hex := "3860000100000000"
        spans := [⟨4, 4, .branch ⟨.b, .address 0x80003000, 0⟩, "b 0x80003000", 1⟩]
        isAssembly := false } }

/-- The export leaves out the branch of an injection that does not go back. -/
theorem awayInjection_not_keepsReturn :
    (Change.evaluateCode ⟨fun _ => false, []⟩ none awayInjection.code).run Assembler.toolchain =
        .ok (awayInjection.evaluated.get (by decide)) ∧
      ((GameMod.new "M").geckoRecord .ramOnly [] awayInjection).run Assembler.toolchain =
        .ok (some (.inject 0x80002000 [0x38, 0x60, 0x00, 0x01])) ∧
      ((GameMod.new "M").geckoCode [] awayInjection 0x80002000).run Assembler.toolchain =
        .ok [0x38, 0x60, 0x00, 0x01, 0x48, 0x00, 0x0F, 0xFC] ∧
      ¬ KeepsReturn 0x80002000 [0x38, 0x60, 0x00, 0x01]
        [0x38, 0x60, 0x00, 0x01, 0x48, 0x00, 0x0F, 0xFC] := by
  refine ⟨by decide +kernel, by decide +kernel, by decide +kernel, fun keeps => ?_⟩
  obtain ⟨word, whole, -, -, -, distance⟩ := keeps (by decide)
  have last : [0x48, 0x00, 0x0F, 0xFC] = Bytes.ofWord word := congrArg (List.drop 4) whole
  have away : Bytes.ofWord 0x48000FFC = [0x48, 0x00, 0x0F, 0xFC] := by decide
  obtain rfl : 0x48000FFC = word := Bytes.ofWord_injective (away.trans last)
  exact absurd distance (by decide)

end GameMod

end GamePatch
