import GamePatch.Change.Width
import GamePatch.Proofs.Fallible

set_option autoImplicit false

namespace GamePatch

theorem Configuration.Kind.width_le_four (kind : Configuration.Kind) : kind.width ≤ 4 := by
  cases kind with
  | int w signed range => cases w <;> simp [width, Width.bytes]
  | mask w allowed => cases w <;> simp [width, Width.bytes]
  | float => exact Nat.le_refl 4

namespace Change

/-- What the width of a part of a line of digits can be. Digits have none of their own, and where
no options are known, a placeholder for some is as wide as its line leaves it. -/
def IsWidth (options : KnownOptions) : Line.Segment → Nat → Prop
  | .hex _, width => width = 0
  | .symbol _, width => width = 4
  | .options names, width => ∀ cs, options = some cs → widestOption cs names = .ok width

theorem isWidth_of_known {options : KnownOptions} {names : List Text} {known : Nat}
    (read : knownDigits options (.options names) = .ok (some known)) :
    IsWidth options (.options names) (known / 2) := by
  rintro cs rfl
  obtain ⟨width, found, same⟩ := Fallible.map_eq_ok_iff.mp read
  obtain ⟨widest, measured, rfl⟩ := Fallible.map_eq_ok_iff.mp found
  cases same
  rw [measured, Nat.mul_div_cancel_left _ (by decide)]

theorem isWidth_of_unknown {options : KnownOptions} {names : List Text} (width : Nat)
    (read : knownDigits options (.options names) = .ok none) :
    IsWidth options (.options names) width := by
  rintro cs rfl
  obtain ⟨known, found, same⟩ := Fallible.map_eq_ok_iff.mp read
  obtain ⟨widest, -, rfl⟩ := Fallible.map_eq_ok_iff.mp found
  cases same

theorem fillWidths_isWidth {options : KnownOptions} {segments : List Line.Segment}
    {known : List (Option Nat)}
    (read : List.Forall₂ (fun s k => knownDigits options s = .ok k) segments known) (digits : Nat) :
    List.Forall₂ (IsWidth options) segments (fillWidths digits (segments.zip known)) := by
  induction read generalizing digits with
  | nil => exact .nil
  | @cons segment k segments known here rest ih =>
    cases segment with
    | hex text => exact .cons rfl (ih digits)
    | symbol name =>
      cases here
      exact .cons rfl (ih digits)
    | options names =>
      cases k with
      | none => exact .cons (isWidth_of_unknown _ here) (ih _)
      | some width => exact .cons (isWidth_of_known here) (ih digits)

/-- Each part of a line has a width of its kind. -/
theorem placeholderWidths_isWidth {options : KnownOptions} {segments : List Line.Segment}
    {widths : List Nat} (found : placeholderWidths options segments = .ok widths) :
    List.Forall₂ (IsWidth options) segments widths := by
  obtain ⟨known, read, same⟩ := Fallible.bind_eq_ok_iff.mp found
  rw [← Except.ok.inj same]
  exact fillWidths_isWidth (Fallible.mapM_eq_ok_iff.mp read) _

theorem widestOption_le_four {options : List Configuration} {names : List Text} {width : Nat}
    (found : widestOption options names = .ok width) : width ≤ 4 := by
  induction names generalizing width with
  | nil =>
    cases found
    exact Nat.zero_le 4
  | cons name names ih =>
    rw [widestOption] at found
    split at found
    · cases found
    case h_2 c _ =>
      obtain ⟨widest, rest, rfl⟩ := Fallible.map_eq_ok_iff.mp found
      exact Nat.max_le.mpr ⟨c.kind.width_le_four, ih rest⟩

theorem knownDigits_le_eight {options : KnownOptions} {segment : Line.Segment} {known : Nat}
    (placeholder : ∀ digits, segment ≠ .hex digits)
    (read : knownDigits options segment = .ok (some known)) : known ≤ 8 := by
  cases segment with
  | hex digits => exact absurd rfl (placeholder digits)
  | symbol name =>
    cases read
    exact Nat.le_refl 8
  | options names =>
    obtain ⟨width, found, same⟩ := Fallible.map_eq_ok_iff.mp read
    obtain ⟨widest, rfl, rfl⟩ := Option.map_eq_some_iff.mp same
    cases options with
    | none => cases found
    | some cs =>
      obtain ⟨own, measured, same'⟩ := Fallible.map_eq_ok_iff.mp found
      cases same'
      have := widestOption_le_four measured
      omega

theorem missingWidth_le_four (digits : Nat) : missingWidth digits ≤ 4 := by
  unfold missingWidth
  split <;> omega

/-- No place on a line of digits is wider than a word. -/
theorem width_le_four_of_placeholderWidths {options : KnownOptions} {segments : List Line.Segment}
    {widths : List Nat} (found : placeholderWidths options segments = .ok widths) :
    ∀ width ∈ widths, width ≤ 4 := by
  obtain ⟨known, read, same⟩ := Fallible.bind_eq_ok_iff.mp found
  rw [← Except.ok.inj same]
  generalize known.foldl (fun digits d => digits + d.getD 0) 0 = digits
  have each := Fallible.mapM_eq_ok_iff.mp read
  clear found read same
  induction each generalizing digits with
  | nil => simp [fillWidths]
  | @cons segment k segments known here rest ih =>
    cases segment with
    | hex text => exact List.forall_mem_cons.mpr ⟨Nat.zero_le 4, ih digits⟩
    | symbol name =>
      cases here
      exact List.forall_mem_cons.mpr ⟨Nat.le_refl 4, ih digits⟩
    | options names =>
      cases k with
      | none => exact List.forall_mem_cons.mpr ⟨missingWidth_le_four digits, ih _⟩
      | some known =>
        have small := knownDigits_le_eight (fun _ => Line.Segment.noConfusion) here
        exact List.forall_mem_cons.mpr ⟨by omega, ih digits⟩

end Change

end GamePatch
