import GamePatch.Proofs.Change.Placeholders
import GamePatch.Proofs.Change.Splice
import GamePatch.Proofs.Change.Widths
import GamePatch.Proofs.Line.Digits

set_option autoImplicit false

namespace GamePatch.Change

/-- What the width of a placeholder in code without assembly can be. -/
def IsHoleWidth (options : KnownOptions) : Placeholder → Nat → Prop
  | .branch _, width => width = 4
  | .symbols _, width => width = 4
  | .options names, width =>
    names ≠ [] ∧ ∀ cs, options = some cs → widestOption cs names = .ok width

namespace Draft

/-- What holds of a draft and of the digits between its placeholders, whatever is added. -/
structure IsInvariant (options : KnownOptions) (P : Text → Draft → Prop) : Prop where
  empty : P [] ⟨[], []⟩
  digits {kept hex : Text} {d : Draft} (holds : P kept d) (more : Hex.IsDigits hex) :
    P (kept ++ hex) { d with digits := d.digits ++ hex }
  placeholder {kept text : Text} {d d' : Draft} {p : Placeholder} {width line : Nat}
    (holds : P kept d) (own : IsHoleWidth options p width)
    (added : d.addPlaceholder p width text line = .ok d') : P kept d'

variable {options : KnownOptions} {P : Text → Draft → Prop} {kept : Text} {d d' : Draft}

theorem IsInvariant.addSegment {text : Text} {line width : Nat} {segment : Line.Segment}
    (invariant : IsInvariant options P) (holds : P kept d) (sound : segment.IsSound)
    (own : IsWidth options segment width)
    (added : d.addSegment text line segment width = .ok d') :
    P (kept ++ Line.Segment.digitsOf [segment]) d' := by
  cases segment with
  | hex hex =>
    cases added
    have whole : Line.Segment.digitsOf [.hex hex] = hex := List.append_nil hex
    rw [whole]
    exact invariant.digits holds sound.1
  | symbol name =>
    have none : Line.Segment.digitsOf [.symbol name] = [] := rfl
    have hole : IsHoleWidth options (.symbols [name]) width := own
    rw [none, List.append_nil]
    exact invariant.placeholder holds hole added
  | options names =>
    have none : Line.Segment.digitsOf [.options names] = [] := rfl
    have hole : IsHoleWidth options (.options names) width := ⟨sound, own⟩
    rw [none, List.append_nil]
    exact invariant.placeholder holds hole added

theorem IsInvariant.addSegments {text : Text} {line : Nat} {parts : List (Line.Segment × Nat)}
    (invariant : IsInvariant options P) (holds : P kept d)
    (sound : ∀ part ∈ parts, part.1.IsSound ∧ IsWidth options part.1 part.2)
    (added : Draft.addSegments text line d parts = .ok d') :
    P (kept ++ Line.Segment.digitsOf (parts.map Prod.fst)) d' := by
  fun_induction Draft.addSegments text line d parts generalizing kept with
  | case1 =>
    cases added
    rwa [List.map_nil, Line.Segment.digitsOf, List.filterMap_nil, List.flatten_nil, List.append_nil]
  | case2 d segment width rest next step ih =>
    rw [List.forall_mem_cons] at sound
    have later := ih (invariant.addSegment holds sound.1.1 sound.1.2 step) sound.2 added
    rwa [List.append_assoc, ← Line.Segment.digitsOf_append] at later
  | case3 => cases added

theorem IsInvariant.addLine {ix : Nat} {line : Text} (invariant : IsInvariant options P)
    (holds : P kept d) (added : d.addLine options ix line = .ok d') :
    P (kept ++ Line.hexDigits line) d' := by
  unfold Draft.addLine at added
  rw [Line.hexDigits]
  cases kind : Line.classify line with
  | blank =>
    rw [kind] at added
    cases added
    rwa [List.append_nil]
  | branch branch =>
    rw [kind] at added
    have four : IsHoleWidth options (.branch branch) 4 := rfl
    rw [List.append_nil]
    exact invariant.placeholder holds four added
  | hex segments =>
    rw [kind] at added
    simp only at added ⊢
    have read := (Line.parse_of_hex kind).2
    split at added
    case h_1 widths found =>
      have own := List.forall₂_iff_zip.mp (placeholderWidths_isWidth found)
      have later := invariant.addSegments holds (fun part member =>
        ⟨Line.Segment.ofLine?_isSound read _ (List.of_mem_zip member).1, own.2 member⟩) added
      rwa [map_fst_zip_widths found, Line.ofLine?_digitsOf read] at later
    case h_2 => cases added
  | assembly | overflow =>
    rw [kind] at added
    cases added

theorem IsInvariant.addLines {ix : Nat} {lines : List Text} (invariant : IsInvariant options P)
    (holds : P kept d) (added : Draft.addLines options d ix lines = .ok d') :
    P (kept ++ lines.flatMap Line.hexDigits) d' := by
  fun_induction Draft.addLines options d ix lines generalizing kept with
  | case1 =>
    cases added
    rwa [List.flatMap_nil, List.append_nil]
  | case2 d ix line rest next step ih =>
    have later := ih (invariant.addLine holds step) added
    rwa [List.append_assoc] at later
  | case3 => cases added

/-- The result of the first pass is a draft with the digits of all lines. -/
theorem IsInvariant.evaluateHex {code : Text} {i : Intermediate}
    (invariant : IsInvariant options P) (evaluated : evaluateHex options code = .ok i) :
    ∃ d, i = ⟨d.digits, d.spans, false⟩ ∧ d.digits.length % 2 = 0 ∧
      P ((Text.lines code).flatMap Line.hexDigits) d := by
  unfold Change.evaluateHex at evaluated
  split at evaluated
  case h_1 => cases evaluated
  case h_2 d added =>
    split at evaluated
    case isTrue => cases evaluated
    case isFalse even =>
      cases evaluated
      exact ⟨d, rfl, not_not.mp even, invariant.addLines invariant.empty added⟩

structure Tidy (d : Draft) : Prop where
  digits : Hex.IsDigits d.digits
  spaced : Spaced 0 d.spans (d.digits.length / 2)

theorem Tidy.addPlaceholder {placeholder : Placeholder} {width line : Nat} {text : Text}
    (tidy : d.Tidy) (added : d.addPlaceholder placeholder width text line = .ok d') : d'.Tidy := by
  unfold Draft.addPlaceholder at added
  split at added
  · cases added
  · cases added
    refine ⟨Hex.isDigits_append.mpr ⟨tidy.digits, Hex.isDigits_replicate_zero _⟩,
      tidy.spaced.append ⟨Nat.le_refl _, ?_⟩⟩
    simp only [Spaced, Span.stop, List.length_append, List.length_replicate]
    omega

theorem Tidy.addDigits {digits : Text} (tidy : d.Tidy) (more : Hex.IsDigits digits) :
    Tidy { d with digits := d.digits ++ digits } := by
  refine ⟨Hex.isDigits_append.mpr ⟨tidy.digits, more⟩, tidy.spaced.mono ?_⟩
  simp only [List.length_append]
  omega

theorem tidy_isInvariant (options : KnownOptions) : IsInvariant options fun _ d => d.Tidy where
  empty := ⟨Hex.isDigits_nil, Nat.le_refl 0⟩
  digits tidy more := tidy.addDigits more
  placeholder tidy _ added := tidy.addPlaceholder added

end Draft

/-- Code without assembly is the text of some bytes with the spans one behind another in them. -/
theorem evaluateHex_eq_encode {options : KnownOptions} {code : Text} {i : Intermediate}
    (evaluated : evaluateHex options code = .ok i) :
    ∃ bytes, i.hex = Hex.encode bytes ∧ Spaced 0 i.spans bytes.length := by
  obtain ⟨d, rfl, even, tidy⟩ := (Draft.tidy_isInvariant options).evaluateHex evaluated
  obtain ⟨bytes, text⟩ := tidy.digits.eq_encode even
  refine ⟨bytes, text, ?_⟩
  have half : d.digits.length / 2 = bytes.length := by
    rw [text, Hex.length_encode]
    omega
  exact half ▸ tidy.spaced

/-- The first pass leaves the text of some bytes, whatever the assembler replies. -/
theorem evaluateCode_eq_encode {includes : Includes} {options : KnownOptions} {code : Text}
    {i : Intermediate} (evaluated : (evaluateCode includes options code).Yields (.ok i)) :
    ∃ bytes, i.hex = Hex.encode bytes := by
  rcases evaluateCode_yields evaluated with ⟨-, digits⟩ | ⟨-, assembly⟩
  · obtain ⟨bytes, text, -⟩ := evaluateHex_eq_encode digits
    exact ⟨bytes, text⟩
  · obtain ⟨_, assembly, spans, _, _, rfl⟩ := evaluateAssembly_yields assembly
    exact ⟨_, rfl⟩

end GamePatch.Change
