import GamePatch.Change.Resolve
import GamePatch.Proofs.Fallible

set_option autoImplicit false

namespace GamePatch

namespace Bytes

/-- A part in the middle is replaced by one of the same length. -/
theorem splice_middle (front old new back : Bytes) (same : new.length = old.length) :
    splice (front ++ old ++ back) front.length new = front ++ new ++ back := by
  have taken : (front ++ old ++ back).take front.length = front := by
    rw [List.append_assoc, List.take_left]
  have dropped : (front ++ old ++ back).drop (front.length + new.length) = back := by
    rw [same, ← List.length_append, List.drop_left]
  rw [splice, taken, dropped]

theorem length_splice (data part : Bytes) (offset : Nat) (fits : offset + part.length ≤ data.length) :
    (splice data offset part).length = data.length := by
  simp only [splice, List.length_append, List.length_take, List.length_drop]
  omega

theorem getElem?_splice_inside (data part : Bytes) (offset k : Nat)
    (fits : offset + part.length ≤ data.length) (inside : k < part.length) :
    (splice data offset part)[offset + k]? = part[k]? := by
  have front : (data.take offset).length = offset := by
    rw [List.length_take]
    omega
  rw [splice, List.append_assoc, List.getElem?_append_right (by omega), front,
    Nat.add_sub_cancel_left, List.getElem?_append_left inside]

theorem getElem?_splice_outside (data part : Bytes) (offset k : Nat)
    (fits : offset + part.length ≤ data.length)
    (outside : k < offset ∨ offset + part.length ≤ k) :
    (splice data offset part)[k]? = data[k]? := by
  have front : (data.take offset).length = offset := by
    rw [List.length_take]
    omega
  rcases outside with before | behind
  · rw [splice, List.append_assoc, List.getElem?_append_left (by omega),
      List.getElem?_take_of_lt before]
  · rw [splice, List.getElem?_append_right (by rw [List.length_append]; omega),
      List.length_append, front, List.getElem?_drop]
    congr 1
    omega

end Bytes

namespace Change

/-- Spans one behind another, none of them before `low` or behind `high`. -/
def Spaced : Nat → List Span → Nat → Prop
  | low, [], high => low ≤ high
  | low, s :: rest, high => low ≤ s.offset ∧ Spaced s.stop rest high

theorem Spaced.le {low high : Nat} {spans : List Span} (spaced : Spaced low spans high) :
    low ≤ high := by
  induction spans generalizing low with
  | nil => exact spaced
  | cons s spans ih => exact Nat.le_trans spaced.1 (Nat.le_trans (Nat.le_add_right _ _) (ih spaced.2))

theorem Spaced.mono {low high high' : Nat} {spans : List Span} (spaced : Spaced low spans high)
    (higher : high ≤ high') : Spaced low spans high' := by
  induction spans generalizing low with
  | nil => exact Nat.le_trans spaced higher
  | cons s spans ih => exact ⟨spaced.1, ih spaced.2⟩

theorem Spaced.append {low mid high : Nat} {front back : List Span}
    (left : Spaced low front mid) (right : Spaced mid back high) :
    Spaced low (front ++ back) high := by
  induction front generalizing low with
  | nil =>
    cases back with
    | nil => exact Nat.le_trans left right
    | cons s back => exact ⟨Nat.le_trans left right.1, right.2⟩
  | cons s front ih => exact ⟨left.1, ih left.2⟩

theorem Spaced.inside {low high : Nat} {spans : List Span} (spaced : Spaced low spans high)
    {s : Span} (member : s ∈ spans) : low ≤ s.offset ∧ s.stop ≤ high := by
  induction spans generalizing low with
  | nil => cases member
  | cons first spans ih =>
    rcases List.mem_cons.mp member with rfl | later
    · exact ⟨spaced.1, spaced.2.le⟩
    · have bounds := ih spaced.2 later
      have behind : first.offset ≤ first.stop := Nat.le_add_right _ _
      exact ⟨Nat.le_trans spaced.1 (Nat.le_trans behind bounds.1), bounds.2⟩

/-- Spans one behind another do not touch each other. -/
theorem Spaced.apart {low high : Nat} {spans : List Span} (spaced : Spaced low spans high) :
    spans.Pairwise fun s t => s.stop ≤ t.offset := by
  induction spans generalizing low with
  | nil => exact List.Pairwise.nil
  | cons s spans ih => exact (ih spaced.2).cons fun t member => (spaced.2.inside member).1

/-- One step of filling: the value has the width of its span, and it is put inside the code. -/
theorem fillSpans_cons_eq_ok_iff {c : Context} {bytes out : Bytes} {s : Span} {rest : List Span} :
    fillSpans c bytes (s :: rest) = .ok out ↔
      ∃ value, c.spanBytes s = .ok value ∧ value.length = s.width ∧ s.stop ≤ bytes.length ∧
        fillSpans c (bytes.splice s.offset value) rest = .ok out := by
  rw [fillSpans]
  cases c.spanBytes s with
  | error e => simp
  | ok value =>
    by_cases fits : value.length = s.width ∧ s.stop ≤ bytes.length
    · simp [fits.1, fits.2, Nat.not_lt.mpr fits.2]
    · have refused : (value.length ≠ s.width || bytes.length < s.stop) = true := by
        simp only [ne_eq, Bool.or_eq_true, decide_eq_true_eq]
        omega
      simp only [refused, ↓reduceIte, reduceCtorEq, Except.ok.injEq, exists_eq_left', false_iff]
      rintro ⟨width, inside, -⟩
      exact fits ⟨width, inside⟩

theorem fillSpans_append {c : Context} {bytes : Bytes} {front back : List Span} :
    fillSpans c bytes (front ++ back) =
      (fillSpans c bytes front >>= fun bytes => fillSpans c bytes back) := by
  induction front generalizing bytes with
  | nil => rfl
  | cons s front ih =>
    rw [List.cons_append, fillSpans, fillSpans]
    cases c.spanBytes s with
    | error e => rfl
    | ok value =>
      simp only
      split
      · rfl
      · exact ih

structure Filled (c : Context) (before after : Bytes) (spans : List Span) : Prop where
  length : after.length = before.length
  outside : ∀ k, (∀ s ∈ spans, k < s.offset ∨ s.stop ≤ k) → after[k]? = before[k]?
  inside : ∀ s ∈ spans, c.spanBytes s = .ok ((after.drop s.offset).take s.width)

/-- A value that is put at the first span stays where it is, if what comes later only touches the
spans behind it. -/
theorem splice_stays {low : Nat} {before after value : Bytes} {s : Span} {spans : List Span}
    (spaced : Spaced low (s :: spans) before.length) (width : value.length = s.width)
    (outside : ∀ k, (∀ t ∈ spans, k < t.offset ∨ t.stop ≤ k) →
      after[k]? = (before.splice s.offset value)[k]?) :
    (after.drop s.offset).take s.width = value ∧
      ∀ k, (∀ t ∈ s :: spans, k < t.offset ∨ t.stop ≤ k) → after[k]? = before[k]? := by
  have fits : s.offset + value.length ≤ before.length := by
    rw [width]
    exact spaced.2.le
  constructor
  · apply List.ext_getElem?
    intro k
    rw [List.getElem?_take, List.getElem?_drop]
    split
    case isTrue below =>
      rw [outside _ fun t member => ?_]
      · exact Bytes.getElem?_splice_inside before value s.offset k fits (width.symm ▸ below)
      · have := (spaced.2.inside member).1
        simp only [Span.stop] at this
        omega
    case isFalse beyond => exact (List.getElem?_eq_none (by omega)).symm
  · intro k apart
    rw [List.forall_mem_cons] at apart
    rw [outside k apart.2]
    exact Bytes.getElem?_splice_outside before value s.offset k fits (width.symm ▸ apart.1)

theorem fillSpans_filled {c : Context} {low : Nat} {before after : Bytes} {spans : List Span}
    (spaced : Spaced low spans before.length) (filled : fillSpans c before spans = .ok after) :
    Filled c before after spans := by
  induction spans generalizing low before with
  | nil =>
    cases filled
    exact ⟨rfl, fun _ _ => rfl, by simp⟩
  | cons s spans ih =>
    obtain ⟨value, found, width, inside, rest⟩ := fillSpans_cons_eq_ok_iff.mp filled
    have same := Bytes.length_splice before value s.offset (width ▸ inside)
    have later := ih (same.symm ▸ spaced.2) rest
    obtain ⟨written, around⟩ := splice_stays spaced width later.outside
    refine ⟨later.length.trans same, around, List.forall_mem_cons.mpr ⟨?_, later.inside⟩⟩
    rw [written, found]

end Change

end GamePatch
