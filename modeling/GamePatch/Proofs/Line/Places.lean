import GamePatch.Proofs.Line.Digits
import GamePatch.Proofs.Text.Variation
import Mathlib.Data.List.Sort

set_option autoImplicit false

namespace GamePatch.Line

open Segment (Marker markers)

def Enclosed.marked (opening closing : Text) (e : Enclosed) : Text := opening ++ e.inner ++ closing

/-- The marked names with the texts before them, and what follows the last one, are the text. -/
theorem Enclosed.all_text {opening : Text} (nonempty : opening ≠ []) (closing s : Text) :
    ((all opening closing s).1.flatMap fun e => e.before ++ e.marked opening closing) ++
      (all opening closing s).2 = s := by
  induction length : s.length using Nat.strong_induction_on generalizing s with
  | _ n ih =>
    cases found : first? opening closing s with
    | none => rw [all_of_none found, List.flatMap_nil, List.nil_append]
    | some first =>
      obtain ⟨e, after⟩ := first
      have shorter := length_after_lt nonempty found
      have rest := ih after.length (length ▸ shorter) after rfl
      rw [all_of_first? nonempty found, List.flatMap_cons, List.append_assoc, rest]
      exact (eq_of_first? found).symm

namespace Segment

/-- The marks and the name of a marker stand at its place. -/
def Marker.IsOn (opening closing : Text) (make : Text → Segment) (text : Text) (m : Marker) : Prop :=
  ∃ e : Enclosed, text.drop m.start = e.marked opening closing ++ text.drop m.stop ∧
    m.stop = m.start + (e.marked opening closing).length ∧ m.segment = make e.name

section

variable {opening closing text : Text} {make : Text → Segment} {m : Marker}
  (on : m.IsOn opening closing make text)

include on

theorem Marker.IsOn.start_lt_stop (nonempty : opening ≠ []) : m.start < m.stop := by
  obtain ⟨e, -, stop, -⟩ := on
  have positive := List.length_pos_iff.mpr nonempty
  rw [Enclosed.marked, List.length_append, List.length_append] at stop
  omega

theorem Marker.IsOn.getElem?_start (nonempty : opening ≠ []) : text[m.start]? = opening.head? := by
  obtain ⟨e, here, -⟩ := on
  rw [← List.head?_drop, here, Enclosed.marked, List.append_assoc, List.append_assoc,
    List.head?_append_of_ne_nil _ nonempty]

end

/-- Markers stand on the line if the texts that they come from do. -/
theorem isOn_of_mem_markers {opening closing text rest : Text} {markLength position : Nat}
    {make : Text → Segment} {found : List Enclosed} {m : Marker}
    (marks : opening.length = markLength ∧ closing.length = markLength)
    (here : (found.flatMap fun e => e.before ++ e.marked opening closing) ++ rest =
      text.drop position)
    (member : m ∈ markers markLength make position found) :
    m.IsOn opening closing make text := by
  induction found generalizing position with
  | nil => cases member
  | cons e found ih =>
    rw [markers] at member
    rw [List.flatMap_cons, List.append_assoc, List.append_assoc] at here
    have size : (e.marked opening closing).length = markLength + e.inner.length + markLength := by
      rw [Enclosed.marked, List.length_append, List.length_append, marks.1, marks.2]
    have start : text.drop (position + e.before.length) = e.marked opening closing ++
        ((found.flatMap fun e => e.before ++ e.marked opening closing) ++ rest) := by
      rw [← List.drop_drop, ← here, List.drop_left]
    have stop : text.drop
        (position + e.before.length + markLength + e.inner.length + markLength) =
          (found.flatMap fun e => e.before ++ e.marked opening closing) ++ rest := by
      have behind := congrArg (List.drop (e.marked opening closing).length) start
      rw [List.drop_drop, List.drop_left, size] at behind
      rw [← behind]
      congr 1
      omega
    rcases List.mem_cons.mp member with rfl | later
    · refine ⟨e, ?_, ?_, rfl⟩
      · rw [start, stop]
      · rw [size]
        simp only
        omega
    · exact ih stop.symm later

/-- Every marker of a line stands on it, as a symbol reference or as a placeholder for options. -/
theorem isOn_of_mem_allMarkers {text : Text} {m : Marker} (member : m ∈ allMarkers text) :
    m.IsOn symbolOpening symbolClosing .symbol text ∨
      m.IsOn optionOpening optionClosing (fun name => .options [name]) text := by
  rcases mem_mergeMarkers.mp member with symbol | option
  · left
    have whole := Enclosed.all_text (by decide : symbolOpening ≠ []) symbolClosing text
    exact isOn_of_mem_markers ⟨rfl, rfl⟩ whole symbol
  · right
    have whole := Enclosed.all_text (by decide : optionOpening ≠ []) optionClosing text
    exact isOn_of_mem_markers ⟨rfl, rfl⟩ whole option

theorem start_lt_stop {text : Text} {m : Marker} (member : m ∈ allMarkers text) :
    m.start < m.stop := by
  rcases isOn_of_mem_allMarkers member with symbol | option
  · exact symbol.start_lt_stop (by decide)
  · exact option.start_lt_stop (by decide)

/-- The first character of a marker is that of a mark. -/
theorem getElem?_start {text : Text} {m : Marker} (member : m ∈ allMarkers text) :
    text[m.start]? = some '<' ∨ text[m.start]? = some '[' := by
  rcases isOn_of_mem_allMarkers member with symbol | option
  · exact Or.inl (symbol.getElem?_start (by decide))
  · exact Or.inr (option.getElem?_start (by decide))

/-- The search for a name goes on behind the last one. -/
theorem le_start_of_mem_markers {markLength position : Nat} {make : Text → Segment}
    {found : List Enclosed} {m : Marker} (member : m ∈ markers markLength make position found) :
    position ≤ m.start := by
  induction found generalizing position with
  | nil => cases member
  | cons e found ih =>
    rw [markers] at member
    rcases List.mem_cons.mp member with rfl | later
    · exact Nat.le_add_right _ _
    · have behind := ih later
      omega

/-- Markers of one kind stand one behind another. -/
theorem markers_apart (markLength position : Nat) (make : Text → Segment) (found : List Enclosed) :
    (markers markLength make position found).Pairwise fun m n => m.stop ≤ n.start := by
  induction found generalizing position with
  | nil => exact List.Pairwise.nil
  | cons e found ih =>
    rw [markers]
    exact List.Pairwise.cons (fun n later => le_start_of_mem_markers later) (ih _)

theorem markers_sorted (markLength position : Nat) (make : Text → Segment) (found : List Enclosed) :
    (markers markLength make position found).Pairwise fun m n => m.start ≤ n.start := by
  have apart := markers_apart markLength position make found
  refine apart.imp_of_mem fun {m n} member _ behind => ?_
  have ordered := start_le_stop_of_mem_markers member
  omega

/-- The markers of a line are in the order of their starts. -/
theorem allMarkers_sorted (line : Text) :
    (allMarkers line).Pairwise fun m n => m.start ≤ n.start := by
  have transitive (a b c : Marker) (left : decide (a.start ≤ b.start) = true)
      (right : decide (b.start ≤ c.start) = true) : decide (a.start ≤ c.start) = true := by
    simp only [decide_eq_true_eq] at left right ⊢
    omega
  have total (a b : Marker) : (decide (a.start ≤ b.start) || decide (b.start ≤ a.start)) = true := by
    simp only [Bool.or_eq_true, decide_eq_true_eq]
    omega
  rw [allMarkers, mergeMarkers_eq_merge]
  have merged := List.pairwise_merge transitive total
    (markers 2 .symbol 0 (Enclosed.all symbolOpening symbolClosing line).1)
    (markers 2 (fun name => .options [name]) 0 (Enclosed.all optionOpening optionClosing line).1)
  simp only [decide_eq_true_eq] at merged
  exact merged (markers_sorted _ _ _ _) (markers_sorted _ _ _ _)

end Segment

end GamePatch.Line
