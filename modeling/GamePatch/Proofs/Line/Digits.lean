import GamePatch.Proofs.Line.Segments
import GamePatch.Proofs.Text.Trimming
import GamePatch.Proofs.Text.Uncovered

set_option autoImplicit false

namespace GamePatch.Line

open Segment (Marker)

def isMarked (found : List Marker) (k : Nat) : Bool :=
  found.any fun m => decide (m.start ≤ k) && decide (k < m.stop)

def outside (line : Text) : Text :=
  Text.uncovered (isMarked (Segment.allMarkers (stripComment line))) 0 (stripComment line)

/-- The digits in a text, in upper case. -/
def digitsIn (s : Text) : Text := Text.upper (s.filter Text.isHexDigit)

/-- The digits that a line of digits adds to the code. -/
def hexDigits (line : Text) : Text :=
  match classify line with
  | .hex _ => digitsIn (outside line)
  | _ => []

theorem digitsIn_append (s t : Text) : digitsIn (s ++ t) = digitsIn s ++ digitsIn t := by
  rw [digitsIn, List.filter_append, Text.upper, List.map_append]
  rfl

theorem digitsIn_eq_nil {s : Text} (none : ∀ c ∈ s, Text.isHexDigit c = false) :
    digitsIn s = [] := by
  rw [digitsIn, List.filter_eq_nil_iff.mpr (by simpa using none)]
  rfl

/-- The digits in a text that has digits and blanks only. -/
theorem digitsIn_eq_upper {s : Text}
    (clean : ∀ c ∈ s, Text.isBlank c = true ∨ Text.isHexDigit c = true) :
    digitsIn s = Text.upper (Text.removeBlanks s) := by
  have kept : s.filter Text.isHexDigit = Text.removeBlanks s := by
    apply List.filter_congr
    intro c member
    cases digit : Text.isHexDigit c with
    | true => rw [Text.isBlank_of_isHexDigit digit]; rfl
    | false =>
      have blank := (clean c member).resolve_right (by simp [digit])
      rw [blank]
      rfl
  rw [digitsIn, kept]

theorem isMarked_of_before {found : List Marker} {k : Nat} (before : ∀ m ∈ found, k < m.start) :
    isMarked found k = false := by
  rw [isMarked, List.any_eq_false]
  intro m member
  have := before m member
  simp only [Bool.and_eq_true, decide_eq_true_eq]
  omega

namespace Segment

def digitsOf (segments : List Segment) : Text := (segments.filterMap Segment.digits).flatten

theorem digitsOf_append (a b : List Segment) : digitsOf (a ++ b) = digitsOf a ++ digitsOf b := by
  rw [digitsOf, List.filterMap_append, List.flatten_append]
  rfl

theorem digits?_digitsOf {s : Text} {segments : List Segment} (read : digits? s = some segments) :
    digitsOf segments = digitsIn s := by
  rw [digitsIn_eq_upper (digits?_chars read)]
  obtain ⟨-, ⟨empty, rfl⟩ | ⟨-, rfl⟩⟩ := digits?_eq_some read
  · rw [empty]
    rfl
  · exact List.append_nil _

/-- Only blanks stand beside the bar between two placeholders that are joined. -/
theorem eq_bar_of_trim {s : Text} {c : Char} (bar : Text.trim s = ['|']) (member : c ∈ s)
    (solid : Text.isBlank c = false) : c = '|' := by
  have inside : 0 < (Text.trim s).count c := by
    rw [Text.count_trim c solid]
    exact List.count_pos_iff.mpr member
  rw [bar, List.count_pos_iff, List.mem_singleton] at inside
  exact inside

theorem digitsIn_of_bar {s : Text} (bar : Text.trim s = ['|']) : digitsIn s = [] := by
  refine digitsIn_eq_nil fun c member => ?_
  rw [← Bool.not_eq_true]
  intro digit
  rw [eq_bar_of_trim bar member (Text.isBlank_of_isHexDigit digit)] at digit
  exact absurd digit (by decide)

theorem joined?_digitsOf {done joined : List Segment} {between : Text} {next : Segment}
    (join : joined? done between next = some joined) : digitsOf joined = digitsOf done := by
  obtain ⟨-, front, names, more, rfl, -, rfl⟩ := joined?_eq_some join
  rw [digitsOf_append, digitsOf_append]
  rfl

/-- Markers that are taken in lie behind the position that the reader has come to. -/
theorem start_le_of_collect {line : Text} {done segments : List Segment} {position : Nat}
    {found : List Marker} (ordered : ∀ m ∈ found, m.start ≤ m.stop)
    (read : collect line done position found = some segments) :
    ∀ m ∈ found, position ≤ m.start := by
  fun_induction collect line done position found with
  | case1 => simp
  | case2 => cases read
  | case3 done position m more inOrder between joined join ih =>
    rw [List.forall_mem_cons] at ordered ⊢
    have later := ih ordered.2 read
    exact ⟨Nat.not_lt.mp inOrder, fun n member => by have := later n member; omega⟩
  | case4 => cases read
  | case5 done position m more inOrder between apart middle found ih =>
    rw [List.forall_mem_cons] at ordered ⊢
    have later := ih ordered.2 read
    exact ⟨Nat.not_lt.mp inOrder, fun n member => by have := later n member; omega⟩

/-- What is not marked is the text up to the next marker and what is not marked behind it. -/
theorem uncovered_cons {line : Text} {position : Nat} {m : Marker} {more : List Marker}
    (inOrder : position ≤ m.start) (ordered : m.start ≤ m.stop)
    (later : ∀ n ∈ more, m.stop ≤ n.start) :
    Text.uncovered (isMarked (m :: more)) position (line.drop position) =
      (line.drop position).take (m.start - position) ++
        Text.uncovered (isMarked more) m.stop (line.drop m.stop) := by
  have front : Text.uncovered (isMarked (m :: more)) position
      ((line.drop position).take (m.start - position)) =
        (line.drop position).take (m.start - position) := by
    refine Text.uncovered_of_free fun k _ before => isMarked_of_before fun n member => ?_
    have short := List.length_take_le (m.start - position) (line.drop position)
    rcases List.mem_cons.mp member with rfl | behind
    · omega
    · have := later n behind
      omega
  have inside : Text.uncovered (isMarked (m :: more)) m.start
      ((line.drop m.start).take (m.stop - m.start)) = [] := by
    refine Text.uncovered_of_full fun k low high => ?_
    have short := List.length_take_le (m.stop - m.start) (line.drop m.start)
    rw [isMarked, List.any_cons, Bool.or_eq_true]
    left
    simp only [Bool.and_eq_true, decide_eq_true_eq]
    omega
  have back : Text.uncovered (isMarked (m :: more)) m.stop (line.drop m.stop) =
      Text.uncovered (isMarked more) m.stop (line.drop m.stop) := by
    refine Text.uncovered_congr fun k low _ => ?_
    rw [isMarked, List.any_cons, decide_eq_false (Nat.not_lt.mpr low), Bool.and_false,
      Bool.false_or]
    rfl
  rw [Text.uncovered_split (m.start - position), front, List.drop_drop,
    Nat.add_sub_cancel' inOrder, Text.uncovered_split (m.stop - m.start) m.start, inside,
    List.drop_drop, Nat.add_sub_cancel' ordered, List.nil_append, back]

/-- The reader keeps each digit that is not marked, and keeps it once. -/
theorem collect_digitsOf {line : Text} {done segments : List Segment} {position : Nat}
    {found : List Marker} (ordered : ∀ m ∈ found, m.start ≤ m.stop)
    (noDigits : ∀ m ∈ found, m.segment.digits = none)
    (read : collect line done position found = some segments) :
    digitsOf segments = digitsOf done ++
      digitsIn (Text.uncovered (isMarked found) position (line.drop position)) := by
  have behind := start_le_of_collect ordered read
  fun_induction collect line done position found with
  | case1 done position =>
    obtain ⟨tail, last, rfl⟩ := Option.map_eq_some_iff.mp read
    have free : Text.uncovered (isMarked []) position (line.drop position) = line.drop position :=
      Text.uncovered_of_free fun _ _ _ => rfl
    rw [digitsOf_append, digits?_digitsOf last, free]
  | case2 => cases read
  | case3 done position m more inOrder between joined join ih =>
    rw [List.forall_mem_cons] at ordered noDigits
    have later := start_le_of_collect ordered.2 read
    rw [ih ordered.2 noDigits.2 read later, joined?_digitsOf join,
      uncovered_cons (Nat.not_lt.mp inOrder) ordered.1 later, digitsIn_append,
      digitsIn_of_bar (joined?_eq_some join).1, List.nil_append]
  | case4 => cases read
  | case5 done position m more inOrder between apart middle found ih =>
    rw [List.forall_mem_cons] at ordered noDigits
    have later := start_le_of_collect ordered.2 read
    have none : digitsOf [m.segment] = [] := by
      rw [digitsOf, List.filterMap_cons_none noDigits.1]
      rfl
    rw [ih ordered.2 noDigits.2 read later, digitsOf_append, digitsOf_append, none, List.append_nil,
      digits?_digitsOf found, uncovered_cons (Nat.not_lt.mp inOrder) ordered.1 later,
      digitsIn_append, List.append_assoc]

theorem start_le_stop_of_mem_markers {markLength position : Nat} {make : Text → Segment}
    {found : List Enclosed} {m : Marker} (member : m ∈ markers markLength make position found) :
    m.start ≤ m.stop := by
  obtain ⟨e, -, -, stop⟩ := exists_of_mem_markers member
  omega

theorem allMarkers_ordered (line : Text) : ∀ m ∈ allMarkers line, m.start ≤ m.stop :=
  fun _ member =>
    (mem_mergeMarkers.mp member).elim start_le_stop_of_mem_markers start_le_stop_of_mem_markers

theorem allMarkers_noDigits (line : Text) : ∀ m ∈ allMarkers line, m.segment.digits = none := by
  intro m member
  rcases mem_mergeMarkers.mp member with symbol | option
  · obtain ⟨e, -, shape, -⟩ := exists_of_mem_markers symbol
    rw [shape]
    rfl
  · obtain ⟨e, -, shape, -⟩ := exists_of_mem_markers option
    rw [shape]
    rfl

end Segment

/-- The parts of a line of digits hold the digits outside its marked names, in their order. -/
theorem ofLine?_digitsOf {line : Text} {segments : List Segment}
    (read : Segment.ofLine? (stripComment line) = some segments) :
    Segment.digitsOf segments = digitsIn (outside line) := by
  unfold Segment.ofLine? at read
  rw [stripComment_stripComment] at read
  exact Segment.collect_digitsOf (Segment.allMarkers_ordered _) (Segment.allMarkers_noDigits _) read

end GamePatch.Line
