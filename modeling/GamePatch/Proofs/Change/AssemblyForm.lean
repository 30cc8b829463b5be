import GamePatch.Proofs.Change.Placement
import GamePatch.Proofs.Change.SecondPass
import GamePatch.Proofs.Change.Widths

set_option autoImplicit false

namespace GamePatch.Change

open Assembler (bytesOf Accepts)

structure Cleared (before after : Bytes) (spans : List Span) : Prop where
  length : after.length = before.length
  inside : ∀ s ∈ spans, (after.drop s.offset).take s.width = Bytes.zeros s.width
  outside : ∀ k, (∀ s ∈ spans, k < s.offset ∨ s.stop ≤ k) → after[k]? = before[k]?

theorem cleared_of_spaced {low : Nat} {before : Bytes} {spans : List Span}
    (spaced : Spaced low spans before.length) : Cleared before (clear before spans) spans := by
  induction spans generalizing low before with
  | nil => exact ⟨rfl, by simp, fun _ _ => rfl⟩
  | cons s spans ih =>
    have width : (Bytes.zeros s.width).length = s.width := Bytes.length_zeros _
    have fits : s.offset + (Bytes.zeros s.width).length ≤ before.length := by
      rw [width]
      exact spaced.2.le
    have same := Bytes.length_splice before (Bytes.zeros s.width) s.offset fits
    have later := ih (same.symm ▸ spaced.2)
    obtain ⟨written, around⟩ := splice_stays spaced width later.outside
    exact ⟨later.length.trans same, List.forall_mem_cons.mpr ⟨written, later.inside⟩, around⟩

/-- The places of placeholders lie one behind another. -/
theorem Placed.spaced {offset : Nat} {parts : List Part} {spans : List Span}
    (placed : Placed offset parts spans) :
    Spaced offset spans (offset + (parts.flatMap Part.bytes).length) := by
  induction placed with
  | nil => exact Nat.le_refl _
  | @lines offset ls parts spans rest ih =>
    rw [List.flatMap_cons, List.length_append, ← Nat.add_assoc]
    have none : Spaced offset [] (offset + (bytesOf ls).length) := Nat.le_add_right _ _
    exact none.append ih
  | @hole offset p body parts s spans start width kind rest ih =>
    rw [List.flatMap_cons, List.length_append, ← Nat.add_assoc]
    refine ⟨Nat.le_of_eq start.symm, ?_⟩
    rw [Span.stop, start, width]
    exact ih

/-- A span has the place of a placeholder, and is as wide as the lines that stand for it. -/
theorem Placed.exists_hole {offset : Nat} {parts : List Part} {spans : List Span}
    (placed : Placed offset parts spans) {s : Span} (member : s ∈ spans) :
    ∃ body, Part.hole s.placeholder body ∈ parts ∧ s.width = (bytesOf body).length := by
  induction placed with
  | nil => cases member
  | lines rest ih =>
    obtain ⟨body, inside, width⟩ := ih member
    exact ⟨body, List.mem_cons_of_mem _ inside, width⟩
  | @hole offset p body parts first spans start width kind rest ih =>
    rcases List.mem_cons.mp member with rfl | later
    · exact ⟨body, kind ▸ List.mem_cons_self, width⟩
    · obtain ⟨body, inside, width⟩ := ih later
      exact ⟨body, List.mem_cons_of_mem _ inside, width⟩

/-- Placeholders are found line by line. -/
theorem placedFrom_ordered (ix : Nat) (lines : List Text) :
    (placedFrom ix lines).Pairwise fun l m => l.line ≤ m.line := by
  induction lines generalizing ix with
  | nil => exact .nil
  | cons line lines ih =>
    refine List.pairwise_append.mpr ⟨?_, ih (ix + 1), fun l here m later => ?_⟩
    · exact List.pairwise_map.mpr (List.pairwise_of_forall fun _ _ => Nat.le_refl ix)
    · obtain ⟨p, -, rfl⟩ := List.mem_map.mp here
      exact Nat.le_of_succ_le (line_of_mem_placedFrom later).1

/-- Each span has its place on one line of the code. -/
theorem exists_line_of_placed {options : KnownOptions} {index ix offset : Nat} {lines : List Text}
    {expansions : List Expansion} {spans : List Span}
    (expanded : Expansion.ofLines options index lines = .ok expansions)
    (located : spans.map Span.located = placedFrom ix lines)
    (placed : Placed offset (lines.flatMap (Part.ofLine options)) spans) {s : Span}
    (member : s ∈ spans) :
    ∃ k line start here, s.line = ix + k ∧ lines[k]? = some line ∧ s.text = Line.stripComment line ∧
      s ∈ here ∧ Placed start (Part.ofLine options line) here := by
  induction lines generalizing index ix offset expansions spans with
  | nil =>
    cases placed
    cases member
  | cons line lines ih =>
    obtain ⟨e, _, head, tail, rfl⟩ := Expansion.ofLines_cons_eq_ok_iff.mp expanded
    obtain ⟨here, there, rfl, count, near, far⟩ := placed.exists_split head
    obtain ⟨onLine, behind⟩ := split_located count located
    rcases List.mem_append.mp member with first | later
    · obtain ⟨-, text, line⟩ := span_of_onLine onLine s first
      exact ⟨0, _, offset, here, line, rfl, text, first, near⟩
    · obtain ⟨k, line, start, others, index, found, text, inside, own⟩ := ih tail behind far later
      exact ⟨k + 1, line, start, others, by omega, found, text, inside, own⟩

/-- A line of digits has a word for a symbol, and a special branch is one. -/
theorem width_of_placed {options : KnownOptions} {offset : Nat} {line : Text} {spans : List Span}
    (placed : Placed offset (Part.ofLine options line) spans) (readable : Line.IsReadable line)
    (kind : Line.classify line ≠ .assembly) {s : Span} (member : s ∈ spans)
    (address : s.placeholder.isOptions = false) : s.width = 4 := by
  obtain ⟨body, inside, width⟩ := placed.exists_hole member
  rw [width]
  unfold Part.ofLine at inside
  cases classified : Line.classify line with
  | assembly => exact absurd classified kind
  | blank =>
    rw [classified, List.mem_singleton, Part.ofPlainLine, placeholder?_of_blank classified] at inside
    cases inside
  | overflow => exact absurd classified readable
  | branch branch =>
    rw [classified, List.mem_singleton, Part.ofPlainLine, placeholder?_of_branch classified] at inside
    obtain ⟨-, rfl⟩ := Part.hole.inj inside
    change (bytesOf [".long 0".toList]).length = 4
    decide
  | hex segments =>
    rw [classified] at inside
    simp only [Part.ofSegments] at inside
    split at inside
    case h_2 => cases inside
    case h_1 widths found =>
      obtain ⟨⟨segment, known⟩, part, shape⟩ := List.mem_map.mp inside
      have own := (List.forall₂_iff_zip.mp (placeholderWidths_isWidth found)).2 part
      cases segment with
      | hex digits => cases shape
      | symbol name =>
        obtain ⟨-, rfl⟩ := Part.hole.inj shape
        rw [bytesOf_dataDirectives, Bytes.length_zeros]
        exact own
      | options names =>
        obtain ⟨kept, -⟩ := Part.hole.inj shape
        rw [← kept] at address
        cases address

/-- The code with a text in the place of each placeholder, as the first pass writes it. -/
def provisionalCode (options : KnownOptions) (code : Text) : Text :=
  Text.joinLines ((Part.ofCode options code).flatMap Part.body)

/-- What the small assembler makes of code with a text in the place of each placeholder, whether the
placeholders have labels around them or not. -/
structure IsProvisional (options : KnownOptions) (code : Text) (output : Bytes) : Prop where
  labelled : ∃ expansions labels, Expansion.ofLines options 0 (Text.lines code) = .ok expansions ∧
    Assembler.assemble (Expansion.text expansions) = .ok ⟨output, labels⟩
  plain : ∃ labels, Assembler.assemble (provisionalCode options code) = .ok ⟨output, labels⟩

theorem LaidOut.isProvisional {options : KnownOptions} {code : Text} {i : Intermediate}
    (laidOut : LaidOut options code i) :
    IsProvisional options code ((Part.ofCode options code).flatMap Part.bytes) where
  labelled := by
    obtain ⟨expansions, expanded⟩ := laidOut.expanded
    refine ⟨expansions, Assembler.Item.labels 0 []
      ((Part.source 0 (Part.ofCode options code)).map Assembler.item), expanded, ?_⟩
    rw [Expansion.text, (Expansion.ofLines_eq_parts expanded).1]
    have clean : ∀ line ∈ Part.source 0 (Part.ofCode options code), '\n' ∉ line :=
      newline_not_mem_source (Part.newline_not_mem_ofCode options code)
    refine (Assembler.assemble_joinLines_eq_ok_iff clean).mpr ⟨accepts_source laidOut.accepted, ?_⟩
    exact congrArg (Assembly.mk · _) (bytesOf_source 0 _).symm
  plain := by
    have clean : ∀ line ∈ (Part.ofCode options code).flatMap Part.body, '\n' ∉ line := by
      intro line member
      obtain ⟨part, inside, found⟩ := List.mem_flatMap.mp member
      exact Part.newline_not_mem_ofCode options code part inside line found
    have accepted : Accepts ((Part.ofCode options code).flatMap Part.body) := by
      intro line member
      obtain ⟨part, inside, found⟩ := List.mem_flatMap.mp member
      exact laidOut.accepted part inside line found
    have bytes : bytesOf ((Part.ofCode options code).flatMap Part.body) =
        (Part.ofCode options code).flatMap Part.bytes := List.flatMap_assoc
    refine ⟨Assembler.Item.labels 0 []
      (((Part.ofCode options code).flatMap Part.body).map Assembler.item), ?_⟩
    rw [provisionalCode, Assembler.assemble_joinLines_eq_ok_iff clean, bytes]
    exact ⟨accepted, rfl⟩

/-- Assembly code with zeros at its spans and the assembler's output around them. -/
structure AssemblyForm (options : KnownOptions) (code : Text) (i : Intermediate)
    (bytes output : Bytes) : Prop where
  hex : i.hex = Hex.encode bytes
  lines : i.spans.Pairwise fun s t => s.line ≤ t.line
  inside : ∀ s ∈ i.spans, s.offset ≤ s.stop ∧ s.stop ≤ i.length
  apart : i.spans.Pairwise fun s t => s.stop ≤ t.offset
  zeros : ∀ s ∈ i.spans, (bytes.drop s.offset).take s.width = Bytes.zeros s.width
  widths : ∀ s ∈ i.spans, ∃ line, (Text.lines code)[s.line]? = some line ∧
    s.text = Line.stripComment line ∧
      (Line.classify line ≠ .assembly → s.placeholder.isOptions = false → s.width = 4)
  provisional : IsProvisional options code output
  length : bytes.length = output.length
  rest : ∀ k, (∀ s ∈ i.spans, k < s.offset ∨ s.stop ≤ k) → bytes[k]? = output[k]?

/-- The first pass leaves assembly code that holds no label of its own in this form. -/
theorem evaluateAssembly_form {includes : Includes} {options : KnownOptions} {code : Text}
    {i : Intermediate} (assembly : Code.isAssembly code = .ok true)
    (free : Text.contains "__cs_" code = false)
    (evaluated : (evaluateCode includes options code).run Assembler.toolchain = .ok i) :
    ∃ bytes output, AssemblyForm options code i bytes output := by
  have located := evaluateCode_located (Assembling.yields_of_run evaluated)
  have laidOut := laidOut_of_run assembly free evaluated
  have spaced := laidOut.placed.spaced
  rw [Nat.zero_add] at spaced
  have cleared := cleared_of_spaced spaced
  have blank := clear_of_placed [] laidOut.placed
  rw [List.nil_append, List.nil_append] at blank
  rw [blank] at cleared
  have total : i.length = ((Part.ofCode options code).flatMap Part.bytes).length := by
    rw [← length_flatMap_blank, ← length_of_hex laidOut.hex]
  refine ⟨_, _, laidOut.hex, ?_, fun s member => ?_, spaced.apart, cleared.inside, fun s member => ?_,
    laidOut.isProvisional, cleared.length, cleared.outside⟩
  · have ordered := placedFrom_ordered 0 (Text.lines code)
    rw [← located, List.pairwise_map] at ordered
    exact ordered
  · exact ⟨Nat.le_add_right _ _, total ▸ (spaced.inside member).2⟩
  · obtain ⟨expansions, expanded⟩ := laidOut.expanded
    obtain ⟨k, line, start, here, index, found, text, onLine, own⟩ :=
      exists_line_of_placed expanded located laidOut.placed member
    rw [Nat.zero_add] at index
    have readable := isReadable_of_yields (Assembling.yields_of_run evaluated) line
      (List.mem_of_getElem? found)
    exact ⟨line, index ▸ found, text, fun kind => width_of_placed own readable kind onLine⟩

/-- Assembly with a label of its own, space, values inside instructions, an option and an address
among digits, and a call. -/
def tableLoop : Text :=
  "loop:\nli r4, [[Lives]] # on start\n.space 2\n38[[Lives]]<<Table>> // data\n" ++
    "bl <Table> + 4\nlis r3, <<Table>>@ha\nblr"

def tableLoopEvaluated : Intermediate :=
  { hex := "000000000000380000000000000000000000000000004E800020"
    spans :=
      [⟨0, 4, .options ["Lives"], "li r4, [[Lives]]", 1⟩,
        ⟨7, 3, .options ["Lives"], "38[[Lives]]<<Table>>", 3⟩,
        ⟨10, 4, .symbols ["Table"], "38[[Lives]]<<Table>>", 3⟩,
        ⟨14, 4, .branch ⟨.bl, .symbol "Table", 4⟩, "bl <Table> + 4", 4⟩,
        ⟨18, 4, .symbols ["Table"], "lis r3, <<Table>>@ha", 5⟩]
    isAssembly := true }

theorem tableLoop_form :
    (evaluateCode ⟨fun _ => false, []⟩ none tableLoop).run Assembler.toolchain =
        .ok tableLoopEvaluated ∧
      ∃ bytes output, AssemblyForm none tableLoop tableLoopEvaluated bytes output := by
  have evaluated : (evaluateCode ⟨fun _ => false, []⟩ none tableLoop).run Assembler.toolchain =
      .ok tableLoopEvaluated := by decide +kernel
  exact ⟨evaluated, evaluateAssembly_form (by decide +kernel) (by decide +kernel) evaluated⟩

end GamePatch.Change
