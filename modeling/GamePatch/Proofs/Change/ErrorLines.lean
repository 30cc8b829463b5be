import GamePatch.Proofs.Change.Placement
import GamePatch.Proofs.Text.LineBreaks

set_option autoImplicit false

namespace GamePatch.Change

namespace Expansion

variable {options : KnownOptions} {index first ix n : Nat} {line : Text} {above below lines : List Text}
  {expansions front back : List Expansion} {e : Expansion}

theorem length_of_ofLines (expanded : ofLines options index lines = .ok expansions) :
    expansions.length = lines.length := by
  induction lines generalizing index expansions with
  | nil =>
    cases expanded
    rfl
  | cons line lines ih =>
    obtain ⟨e, rest, -, tail, rfl⟩ := ofLines_cons_eq_ok_iff.mp expanded
    exact congrArg Nat.succ (ih tail)

/-- The expansion of a line stands behind those of the lines above it. -/
theorem exists_back (expanded : ofLines options index (above ++ line :: below) = .ok expansions)
    (before : ofLines options index above = .ok front)
    (here : ofLine options (index + (front.flatMap found).length) line = .ok e) :
    ∃ back, expansions = front ++ e :: back := by
  induction above generalizing index front expansions with
  | nil =>
    cases before
    obtain ⟨own, back, head, -, rfl⟩ := ofLines_cons_eq_ok_iff.mp expanded
    cases head.symm.trans here
    exact ⟨back, rfl⟩
  | cons top above ih =>
    obtain ⟨own, more, head, tail, rfl⟩ := ofLines_cons_eq_ok_iff.mp expanded
    obtain ⟨own', front, head', between, rfl⟩ := ofLines_cons_eq_ok_iff.mp before
    cases head.symm.trans head'
    rw [List.flatMap_cons, List.length_append, ← Nat.add_assoc] at here
    obtain ⟨back, rfl⟩ := ih tail between here
    exact ⟨back, rfl⟩

/-- Each expansion is that of one line. -/
theorem exists_line (expanded : ofLines options index lines = .ok (front ++ e :: back)) :
    ∃ above line below, lines = above ++ line :: below ∧ above.length = front.length ∧
      ofLines options index above = .ok front ∧
      ofLine options (index + (front.flatMap found).length) line = .ok e := by
  induction front generalizing index lines with
  | nil =>
    cases lines with
    | nil => cases expanded
    | cons line below =>
      obtain ⟨own, more, head, -, same⟩ := ofLines_cons_eq_ok_iff.mp expanded
      cases same
      exact ⟨[], line, below, rfl, rfl, rfl, head⟩
  | cons top front ih =>
    cases lines with
    | nil => cases expanded
    | cons line lines =>
      obtain ⟨own, more, head, tail, same⟩ := ofLines_cons_eq_ok_iff.mp expanded
      cases same
      obtain ⟨above, own, below, rfl, length, before, here⟩ := ih tail
      refine ⟨line :: above, own, below, rfl, congrArg Nat.succ length, ?_, ?_⟩
      · exact ofLines_cons_eq_ok_iff.mpr ⟨top, front, head, before, rfl⟩
      · rw [List.flatMap_cons, List.length_append, ← Nat.add_assoc]
        exact here

theorem length_lineMap (first : Nat) (expansions : List Expansion) :
    (lineMap first expansions).length = (expansions.flatMap source).length := by
  induction expansions generalizing first with
  | nil => rfl
  | cons e rest ih =>
    rw [lineMap, List.length_append, List.length_replicate, ih, List.flatMap_cons, List.length_append]

theorem lineMap_append (first : Nat) (front back : List Expansion) :
    lineMap first (front ++ back) = lineMap first front ++ lineMap (first + front.length) back := by
  induction front generalizing first with
  | nil => rfl
  | cons e front ih =>
    rw [List.cons_append, lineMap, ih, lineMap, List.append_assoc, List.length_cons, Nat.add_assoc,
      Nat.add_comm 1]

/-- All lines that an expansion gives have the number of its line. -/
theorem lineMap_inside (lower : (front.flatMap source).length ≤ ix)
    (upper : ix < (front.flatMap source).length + e.source.length) :
    (lineMap first (front ++ e :: back))[ix]? = some (first + front.length) := by
  rw [lineMap_append, List.getElem?_append_right (by rw [length_lineMap]; exact lower),
    length_lineMap, lineMap, List.getElem?_append_left (by rw [List.length_replicate]; omega),
    List.getElem?_replicate_of_lt (by omega)]

/-- Each line of the source is one of those that some expansion gives. -/
theorem exists_expansion (inside : ix < (expansions.flatMap source).length) :
    ∃ front e back, expansions = front ++ e :: back ∧ (front.flatMap source).length ≤ ix ∧
      ix < (front.flatMap source).length + e.source.length := by
  induction expansions generalizing ix with
  | nil => cases inside
  | cons e rest ih =>
    rw [List.flatMap_cons, List.length_append] at inside
    by_cases here : ix < e.source.length
    · exact ⟨[], e, rest, rfl, Nat.zero_le ix, by simpa using here⟩
    · obtain ⟨front, own, back, rfl, lower, upper⟩ := ih (by omega : ix - e.source.length < _)
      refine ⟨e :: front, own, back, rfl, ?_, ?_⟩
      · rw [List.flatMap_cons, List.length_append]
        omega
      · rw [List.flatMap_cons, List.length_append]
        omega

end Expansion

theorem Part.body_ofPlainLine_ne_nil (line : Text) : (Part.ofPlainLine line).body ≠ [] := by
  unfold Part.ofPlainLine
  split <;> exact List.cons_ne_nil _ _

/-- The line of code with the number `raw` is expanded to some lines, of which one is the line of the
source with the number `generated`. Both numbers count from one. -/
def Gives (options : KnownOptions) (lines : List Text) (raw generated : Nat) : Prop :=
  ∃ above line below front e, lines = above ++ line :: below ∧ raw = above.length + 1 ∧
    Expansion.ofLines options 0 above = .ok front ∧
    Expansion.ofLine options (front.flatMap Expansion.found).length line = .ok e ∧
    (front.flatMap Expansion.source).length < generated ∧
    generated ≤ (front.flatMap Expansion.source).length + e.source.length

/-- The line that is handed on is the one that gives the line of the source. -/
theorem rawLine?_eq_some_iff {options : KnownOptions} {lines : List Text} {expansions : List Expansion}
    (expanded : Expansion.ofLines options 0 lines = .ok expansions) {raw generated : Nat} :
    Expansion.rawLine? expansions generated = some raw ↔ Gives options lines raw generated := by
  unfold Expansion.rawLine?
  constructor
  · intro mapped
    split at mapped
    · cases mapped
    case isFalse some =>
      have inside := (List.getElem?_eq_some_iff.mp mapped).1
      rw [Expansion.length_lineMap] at inside
      obtain ⟨front, e, back, rfl, lower, upper⟩ := Expansion.exists_expansion inside
      rw [Expansion.lineMap_inside lower upper] at mapped
      obtain ⟨above, line, below, rfl, length, before, here⟩ := Expansion.exists_line expanded
      rw [Nat.zero_add] at here
      have number : raw = above.length + 1 := by
        rw [length, Nat.add_comm]
        exact (Option.some.inj mapped).symm
      exact ⟨above, line, below, front, e, rfl, number, before, here, by omega, by omega⟩
  · rintro ⟨above, line, below, front, e, rfl, rfl, before, here, lower, upper⟩
    rw [← Nat.zero_add (front.flatMap Expansion.found).length] at here
    obtain ⟨back, rfl⟩ := Expansion.exists_back expanded before here
    rw [if_neg (by omega), Expansion.lineMap_inside (by omega) (by omega),
      Expansion.length_of_ofLines before,
      Nat.add_comm]

/-- Each line of the source has one line of code that gives it, and there are no others. -/
theorem rawLine?_isSome_iff (expansions : List Expansion) (generated : Nat) :
    (Expansion.rawLine? expansions generated).isSome ↔
      1 ≤ generated ∧ generated ≤ (expansions.flatMap Expansion.source).length := by
  unfold Expansion.rawLine?
  split
  case isTrue none =>
    rw [none]
    simp
  case isFalse some =>
    rw [Option.isSome_iff_ne_none, ne_eq, List.getElem?_eq_none_iff, Expansion.length_lineMap]
    omega

/-- A message of the assembler for a source of `count` lines, and what is handed on of it: the message,
with the line of code that gives its line of the source. A message without a line, or with one that is
not there, has none. -/
structure PointsBack (options : KnownOptions) (lines : List Text) (count : Nat)
    (d reported : Diagnostic) : Prop where
  message : reported.message = d.message
  inside : ∀ generated, d.line = some generated → 1 ≤ generated → generated ≤ count →
    ∃ raw, reported.line = some raw ∧ ∀ other, Gives options lines other generated ↔ other = raw
  outside : (∀ generated, d.line = some generated → generated = 0 ∨ count < generated) →
    reported.line = none

theorem pointsBack_remap {options : KnownOptions} {lines : List Text} {expansions : List Expansion}
    (expanded : Expansion.ofLines options 0 lines = .ok expansions) (d : Diagnostic) :
    PointsBack options lines (expansions.flatMap Expansion.source).length d
      (d.remap (Expansion.rawLine? expansions)) where
  message := rfl
  inside := by
    intro generated own lower upper
    obtain ⟨raw, mapped⟩ := Option.isSome_iff_exists.mp
      ((rawLine?_isSome_iff expansions generated).mpr ⟨lower, upper⟩)
    refine ⟨raw, ?_, fun other => ?_⟩
    · rw [Diagnostic.remap, own]
      exact mapped
    · rw [← rawLine?_eq_some_iff expanded, mapped, Option.some.injEq, eq_comm]
  outside := by
    intro beyond
    change d.line.bind _ = none
    rw [Option.bind_eq_none_iff]
    intro generated own
    rw [← Option.not_isSome_iff_eq_none, rawLine?_isSome_iff]
    rcases beyond generated own with zero | behind
    · omega
    · omega

/-- Code that needs the assembler has a source. Its lines are those of the text that the assembler gets. -/
theorem splitAt_text {options : KnownOptions} {code : Text} {expansions : List Expansion}
    (assembly : Code.isAssembly code = .ok true)
    (expanded : Expansion.ofLines options 0 (Text.lines code) = .ok expansions) :
    Text.splitAt '\n' (Expansion.text expansions) = expansions.flatMap Expansion.source := by
  have sources := (Expansion.ofLines_eq_parts expanded).1
  have clean : ∀ line ∈ expansions.flatMap Expansion.source, '\n' ∉ line := by
    rw [sources]
    exact newline_not_mem_source (Part.newline_not_mem_ofCode options code)
  have some : expansions.flatMap Expansion.source ≠ [] := by
    obtain ⟨line, member, kind⟩ := List.mem_map.mp (Line.assembly_mem_of_anyAssembly assembly)
    have own : Part.ofLine options line = [Part.ofPlainLine line] := by
      unfold Part.ofLine
      rw [kind]
    have part : Part.ofPlainLine line ∈ Part.ofCode options code :=
      List.mem_flatMap.mpr ⟨line, member, own ▸ List.mem_cons_self⟩
    obtain ⟨text, inside⟩ := List.exists_mem_of_ne_nil _ (Part.body_ofPlainLine_ne_nil line)
    rw [sources]
    exact List.ne_nil_of_mem (Part.mem_source part inside)
  exact Text.splitAt_joinLines clean some

/-- The errors of the assembler for the source that some code is expanded to are handed on in their order,
each with the line of code that its line of the source was made from. -/
theorem errors_at_lines_of_code {toolchain : Toolchain} {includes : Includes} {options : KnownOptions}
    {code : Text} {expansions : List Expansion} {ds : List Diagnostic}
    (assembly : Code.isAssembly code = .ok true)
    (expanded : expand includes options (Text.lines code) = .ok expansions)
    (failed : toolchain.assemble (Expansion.text expansions) includes.paths =
      .error (.assemblyFailed ds)) :
    Text.splitAt '\n' (Expansion.text expansions) = expansions.flatMap Expansion.source ∧
      ∃ reported,
        (evaluateCode includes options code).run toolchain = .error (.assemblyFailed reported) ∧
          List.Forall₂ (PointsBack options (Text.lines code)
            (expansions.flatMap Expansion.source).length) ds reported := by
  have ofLines : Expansion.ofLines options 0 (Text.lines code) = .ok expansions := by
    unfold expand at expanded
    split at expanded
    · cases expanded
    · exact expanded
  refine ⟨splitAt_text assembly ofLines,
    ds.map (Diagnostic.remap (Expansion.rawLine? expansions)), ?_, ?_⟩
  · rw [evaluateCode, assembly]
    simp only [evaluateAssembly]
    simp only [expanded, Assembling.run, failed]
    rfl
  · rw [List.forall₂_map_right_iff, List.forall₂_same]
    exact fun d _ => pointsBack_remap ofLines d

/-- A call, two words, and an instruction that the assembler does not know. -/
def callWordsAndTypo : Text := "bl <Foo>\n38600001 38800002\nfoo r3"

def callWordsAndTypoExpanded : List Expansion :=
  [⟨labelled 0 [".long 0"], [.branch ⟨.bl, .symbol "Foo", 0⟩]⟩,
    ⟨[".long 0x38600001", ".long 0x38800002"], []⟩, ⟨["foo r3"], []⟩]

theorem callWordsAndTypo_reported :
    (evaluateCode ⟨fun _ => false, []⟩ none callWordsAndTypo).run Assembler.toolchain =
      .error (.assemblyFailed [⟨some 3, "Error: unrecognized opcode: `foo'"⟩]) := by
  have expanded : expand ⟨fun _ => false, []⟩ none (Text.lines callWordsAndTypo) =
      .ok callWordsAndTypoExpanded := by decide +kernel
  have failed : Assembler.toolchain.assemble (Expansion.text callWordsAndTypoExpanded) [] =
      .error (.assemblyFailed [⟨some 6, "Error: unrecognized opcode: `foo'"⟩]) := by decide +kernel
  obtain ⟨-, reported, run, points⟩ := errors_at_lines_of_code (by decide +kernel) expanded failed
  obtain ⟨⟨line, message⟩, _, point, rest, rfl⟩ := List.forall₂_cons_left_iff.mp points
  cases List.forall₂_nil_left_iff.mp rest
  obtain ⟨raw, own, unique⟩ := point.inside 6 rfl (by decide) (by decide)
  have third : Gives none (Text.lines callWordsAndTypo) 3 6 :=
    ⟨["bl <Foo>", "38600001 38800002"], "foo r3", [], callWordsAndTypoExpanded.take 2, ⟨["foo r3"], []⟩,
      by decide +kernel, rfl, by decide +kernel, by decide +kernel, by decide, by decide⟩
  cases (unique 3).mp third
  cases own
  cases point.message
  exact run

end GamePatch.Change
