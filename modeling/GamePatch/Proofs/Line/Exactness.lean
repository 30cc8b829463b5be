import GamePatch.Proofs.Line.Functions
import GamePatch.Proofs.Line.Written
import Mathlib.Data.List.Chain

set_option autoImplicit false

namespace GamePatch

/-- What is between two places of a text. -/
theorem Text.mem_extract {s : Text} {c : Char} {low high : Nat} :
    c ∈ s.extract low high ↔ ∃ k, low ≤ k ∧ k < high ∧ s[k]? = some c := by
  rw [List.extract_eq_take_drop, List.mem_iff_getElem?]
  constructor
  · rintro ⟨j, here⟩
    rw [List.getElem?_take] at here
    split at here
    · rw [List.getElem?_drop] at here
      exact ⟨low + j, by omega, by omega, here⟩
    · cases here
  · rintro ⟨k, above, below, here⟩
    refine ⟨k - low, ?_⟩
    rw [List.getElem?_take_of_lt (by omega), List.getElem?_drop, Nat.add_sub_cancel' above]
    exact here

namespace Line

open Segment (Marker allMarkers)

/-- Whether a bar at a position joins two places for options. It is all that stands between them, but
for blanks. -/
def isJoint (text : Text) (found : List Marker) (k : Nat) : Bool :=
  text[k]? == some '|' && found.any fun m => found.any fun n =>
    m.segment.isOptions && n.segment.isOptions && decide (m.stop ≤ k) && decide (k < n.start) &&
      Text.trim (text.extract m.stop n.start) == ['|']

theorem isJoint_iff {text : Text} {found : List Marker} {k : Nat} :
    isJoint text found k = true ↔ text[k]? = some '|' ∧ ∃ m ∈ found, ∃ n ∈ found,
      m.segment.isOptions = true ∧ n.segment.isOptions = true ∧ m.stop ≤ k ∧ k < n.start ∧
        Text.trim (text.extract m.stop n.start) = ['|'] := by
  simp only [isJoint, Bool.and_eq_true, beq_iff_eq, List.any_eq_true, decide_eq_true_eq, and_assoc]

/-- Whether a position of a line is taken by a marked name or by a bar between two of them. -/
def isTaken (text : Text) (k : Nat) : Bool :=
  isMarked (allMarkers text) k || isJoint text (allMarkers text) k

/-- What stands on a line outside its marked names and the bars that join them. -/
def unmarked (line : Text) : Text :=
  Text.uncovered (isTaken (stripComment line)) 0 (stripComment line)

/-- No two marked names have a position in common. -/
def AreApart (found : List Marker) : Prop :=
  found.Pairwise fun m n => m.stop ≤ n.start ∨ n.stop ≤ m.start

/-- A bar is no digit, so the digits are the same with the bars and without them. -/
theorem digitsIn_unmarked (line : Text) : digitsIn (unmarked line) = digitsIn (outside line) := by
  unfold digitsIn unmarked outside
  congr 1
  refine Text.filter_uncovered_congr fun k c here digit => ?_
  rw [Nat.zero_add, isTaken]
  cases joint : isJoint (stripComment line) (allMarkers (stripComment line)) k with
  | false => rw [Bool.or_false]
  | true =>
    have bar := (isJoint_iff.mp joint).1
    rw [Option.some.inj (here.symm.trans bar)] at digit
    exact absurd digit (by decide)

namespace Segment

/-! ### Parts side by side -/

/-- Of two parts that stand side by side, one is a placeholder. -/
def AreSeparated (segments : List Segment) : Prop :=
  segments.IsChain fun a b => a.digits = none ∨ b.digits = none

theorem areSeparated_concat {front : List Segment} {segment : Segment}
    (separated : AreSeparated front) (place : segment.digits = none) :
    AreSeparated (front ++ [segment]) := by
  refine separated.append (List.IsChain.singleton _) fun a _ b member => Or.inr ?_
  rw [← Option.some.inj member]
  exact place

/-- Digits may stand behind a placeholder. -/
theorem areSeparated_append_digits {done tail : List Segment} {s : Text}
    (separated : AreSeparated done) (last : ∀ segment ∈ done.getLast?, segment.digits = none)
    (read : digits? s = some tail) : AreSeparated (done ++ tail) := by
  have short : AreSeparated tail := by
    obtain ⟨-, ⟨-, rfl⟩ | ⟨-, rfl⟩⟩ := digits?_eq_some read
    · exact List.IsChain.nil
    · exact List.IsChain.singleton _
  exact separated.append short fun a member _ _ => Or.inl (last a member)

theorem collect_areSeparated {line : Text} {done segments : List Segment} {position : Nat}
    {found : List Marker} (noDigits : ∀ m ∈ found, m.segment.digits = none)
    (separated : AreSeparated done) (last : ∀ segment ∈ done.getLast?, segment.digits = none)
    (read : collect line done position found = some segments) : AreSeparated segments := by
  fun_induction collect line done position found with
  | case1 done position =>
    obtain ⟨tail, behind, rfl⟩ := Option.map_eq_some_iff.mp read
    exact areSeparated_append_digits separated last behind
  | case2 => cases read
  | case3 done position m more inOrder between joined join ih =>
    obtain ⟨-, front, names, others, rfl, -, rfl⟩ := joined?_eq_some join
    refine ih (List.forall_mem_cons.mp noDigits).2 ?_ ?_ read
    · exact areSeparated_concat (List.isChain_append.mp separated).1 rfl
    · rw [List.getLast?_concat]
      rintro segment ⟨⟩
      rfl
  | case4 => cases read
  | case5 done position m more inOrder between alone digits middle ih =>
    rw [List.forall_mem_cons] at noDigits
    refine ih noDigits.2 ?_ ?_ read
    · exact areSeparated_concat (areSeparated_append_digits separated last middle) noDigits.1
    · rw [List.getLast?_concat]
      rintro segment ⟨⟩
      exact noDigits.1

/-! ### Markers that are apart -/

/-- The reader goes from marker to marker. -/
theorem apart_of_collect {line : Text} {done segments : List Segment} {position : Nat}
    {found : List Marker} (ordered : ∀ m ∈ found, m.start ≤ m.stop)
    (read : collect line done position found = some segments) :
    found.Pairwise fun m n => m.stop ≤ n.start := by
  fun_induction collect line done position found with
  | case1 => exact List.Pairwise.nil
  | case2 => cases read
  | case3 done position m more inOrder between joined join ih =>
    have later := (List.forall_mem_cons.mp ordered).2
    exact List.Pairwise.cons (start_le_of_collect later read) (ih later read)
  | case4 => cases read
  | case5 done position m more inOrder between alone digits middle ih =>
    have later := (List.forall_mem_cons.mp ordered).2
    exact List.Pairwise.cons (start_le_of_collect later read) (ih later read)

/-- Markers that are apart stand one behind another, as they are in the order of their starts. -/
theorem areApart_iff {line : Text} :
    AreApart (allMarkers line) ↔ (allMarkers line).Pairwise fun m n => m.stop ≤ n.start := by
  constructor
  · intro apart
    refine (apart.and (allMarkers_sorted line)).imp_of_mem fun {m n} _ member sides => ?_
    have reaches := start_lt_stop member
    omega
  · exact List.Pairwise.imp Or.inl

/-! ### What is left between the markers -/

/-- What stands at a position is taken, a digit or a blank. -/
def IsClear (text : Text) (k : Nat) : Prop :=
  ∀ c, text[k]? = some c → isTaken text k = false →
    Text.isBlank c = true ∨ Text.isHexDigit c = true

/-- The reader has come to a position behind some of the markers, and knows whether the last one
was for options. -/
structure IsBehind (text : Text) (before found : List Marker) (done : List Segment)
    (position : Nat) : Prop where
  whole : allMarkers text = before ++ found
  passed : ∀ m ∈ before, m.stop ≤ position
  ahead : ∀ m ∈ found, position ≤ m.start
  stop : ∀ m, before.getLast? = some m → m.stop = position
  last : (∃ segment, done.getLast? = some segment ∧ segment.isOptions = true) ↔
    ∃ m, before.getLast? = some m ∧ m.segment.isOptions = true

section

variable {text : Text} {before found more : List Marker} {done : List Segment} {position : Nat}
  {m : Marker}

/-- No marker starts between two others that a bar joins. -/
theorem not_start_between {a b : Marker} (bar : Text.trim (text.extract a.stop b.start) = ['|'])
    (member : m ∈ allMarkers text) : m.start < a.stop ∨ b.start ≤ m.start := by
  by_contra inside
  rw [not_or, Nat.not_lt, Nat.not_le] at inside
  have alone {c : Char} (here : text[m.start]? = some c) (solid : Text.isBlank c = false) : c = '|' :=
    eq_bar_of_trim bar (Text.mem_extract.mpr ⟨m.start, inside.1, inside.2, here⟩) solid
  rcases getElem?_start member with here | here
  · exact absurd (alone here (by decide)) (by decide)
  · exact absurd (alone here (by decide)) (by decide)

theorem IsBehind.mem_next (behind : IsBehind text before (m :: more) done position) :
    m ∈ allMarkers text := by
  rw [behind.whole]
  exact List.mem_append_right _ List.mem_cons_self

theorem not_isTaken {k : Nat} (passed : ∀ m ∈ allMarkers text, m.stop ≤ k) :
    isTaken text k = false := by
  rw [isTaken, Bool.or_eq_false_iff]
  constructor
  · rw [isMarked, List.any_eq_false]
    intro m member
    have behind := passed m member
    simp only [Bool.and_eq_true, decide_eq_true_eq]
    omega
  · rw [← Bool.not_eq_true, isJoint_iff]
    rintro ⟨-, -, -, n, member, -, -, -, ahead, -⟩
    have behind := passed n member
    have reaches := start_lt_stop member
    omega

/-- What is behind a position is in front of the next marker, marked or behind it. -/
theorem IsBehind.forall_isClear (behind : IsBehind text before (m :: more) done position) :
    (∀ k, position ≤ k → IsClear text k) ↔
      (∀ k, position ≤ k → k < m.start → IsClear text k) ∧ ∀ k, m.stop ≤ k → IsClear text k := by
  have ahead := behind.ahead m List.mem_cons_self
  have reaches := start_lt_stop behind.mem_next
  constructor
  · intro clear
    exact ⟨fun k low _ => clear k low, fun k beyond => clear k (by omega)⟩
  · rintro ⟨front, back⟩ k low
    by_cases inFront : k < m.start
    · exact front k low inFront
    · by_cases beyond : m.stop ≤ k
      · exact back k beyond
      · intro c _ free
        have marked : isMarked (allMarkers text) k = true := by
          rw [isMarked, List.any_eq_true]
          refine ⟨m, behind.mem_next, ?_⟩
          simp only [Bool.and_eq_true, decide_eq_true_eq]
          omega
        rw [isTaken, marked, Bool.true_or] at free
        cases free

variable (apart : (allMarkers text).Pairwise fun m n => m.stop ≤ n.start)

include apart

/-- The markers that are still to come. -/
theorem IsBehind.le_start (behind : IsBehind text before (m :: more) done position) :
    ∀ n ∈ more, m.stop ≤ n.start := by
  have ordered := behind.whole ▸ apart
  exact (List.pairwise_cons.mp (List.pairwise_append.mp ordered).2.1).1

theorem IsBehind.next {done' : List Segment} (behind : IsBehind text before (m :: more) done position)
    (last : (∃ segment, done'.getLast? = some segment ∧ segment.isOptions = true) ↔
      m.segment.isOptions = true) : IsBehind text (before ++ [m]) more done' m.stop := by
  refine ⟨by simp [behind.whole], ?_, behind.le_start apart, ?_, ?_⟩
  · rw [List.forall_mem_append, List.forall_mem_singleton]
    refine ⟨fun n member => ?_, Nat.le_refl _⟩
    have earlier := behind.passed n member
    have start := behind.ahead m List.mem_cons_self
    have reaches := start_lt_stop behind.mem_next
    omega
  · rw [List.getLast?_concat]
    rintro n ⟨⟩
    rfl
  · rw [List.getLast?_concat, last]
    simp

/-- Nothing is marked in front of the next marker. -/
theorem IsBehind.not_isMarked {k : Nat} (behind : IsBehind text before (m :: more) done position)
    (low : position ≤ k) (high : k < m.start) : isMarked (allMarkers text) k = false := by
  rw [isMarked, List.any_eq_false]
  intro n member
  simp only [Bool.and_eq_true, decide_eq_true_eq]
  have reaches := start_lt_stop behind.mem_next
  rw [behind.whole] at member
  rcases List.mem_append.mp member with old | new
  · have passed := behind.passed n old
    omega
  · rcases List.mem_cons.mp new with rfl | later
    · omega
    · have next := behind.le_start apart n later
      omega

/-- The first one of two markers that are joined behind the position is the last one in front of
it. -/
theorem IsBehind.getLast?_of_bar {a b : Marker}
    (behind : IsBehind text before found done position)
    (bar : Text.trim (text.extract a.stop b.start) = ['|']) (old : a ∈ before)
    (beyond : position < b.start) : before.getLast? = some a := by
  cases last : before.getLast? with
  | none =>
    rw [List.getLast?_eq_none_iff.mp last] at old
    cases old
  | some l =>
    obtain ⟨front, shape⟩ := List.getLast?_eq_some_iff.mp last
    have member : l ∈ allMarkers text := by rw [behind.whole, shape]; simp
    have reaches := start_lt_stop member
    have here := behind.stop l last
    rw [shape] at old
    rcases List.mem_append.mp old with earlier | same
    · have ordered := behind.whole ▸ apart
      rw [shape] at ordered
      have gap := (List.pairwise_append.mp (List.pairwise_append.mp ordered).1).2.2 a earlier l
        List.mem_cons_self
      have outside := not_start_between bar member
      omega
    · rw [List.mem_singleton.mp same]

/-- The second one of two markers that are joined in front of the next marker is the next one. -/
theorem IsBehind.eq_next_of_bar {a b : Marker}
    (behind : IsBehind text before (m :: more) done position)
    (bar : Text.trim (text.extract a.stop b.start) = ['|']) (member : b ∈ allMarkers text)
    (beyond : position < b.start) (front : a.stop < m.start) : b = m := by
  have atMost : b.start ≤ m.start := by
    have outside := not_start_between bar behind.mem_next
    omega
  have reaches := start_lt_stop member
  rw [behind.whole] at member
  rcases List.mem_append.mp member with old | new
  · have passed := behind.passed b old
    omega
  · rcases List.mem_cons.mp new with same | later
    · exact same
    · have next := behind.le_start apart b later
      have reachesNext := start_lt_stop behind.mem_next
      omega

/-- A bar in front of the next marker joins it with the last one. -/
theorem IsBehind.isSome_joined? {k : Nat}
    (behind : IsBehind text before (m :: more) done position) (low : position ≤ k)
    (high : k < m.start) (joint : isJoint text (allMarkers text) k = true) :
    (joined? done (text.extract position m.start) m.segment).isSome = true := by
  obtain ⟨-, a, memberA, b, memberB, optionsA, optionsB, fromA, toB, bar⟩ := isJoint_iff.mp joint
  have isNext : b = m := behind.eq_next_of_bar apart bar memberB (by omega) (by omega)
  have old : a ∈ before := by
    have reaches := start_lt_stop memberA
    rw [behind.whole] at memberA
    refine (List.mem_append.mp memberA).resolve_right fun new => ?_
    rcases List.mem_cons.mp new with rfl | later
    · omega
    · have next := behind.le_start apart a later
      have reachesNext := start_lt_stop behind.mem_next
      omega
  have isLast := behind.getLast?_of_bar apart bar old (by omega)
  rw [isSome_joined?_iff, ← behind.stop a isLast, ← isNext]
  exact ⟨bar, behind.last.mpr ⟨a, isLast, optionsA⟩, optionsB⟩

/-- What stands in front of the next marker is read if it is digits, blanks or a bar that joins. -/
theorem IsBehind.isSome_iff (behind : IsBehind text before (m :: more) done position) :
    (joined? done (text.extract position m.start) m.segment).isSome = true ∨
        (digits? (text.extract position m.start)).isSome = true ↔
      ∀ k, position ≤ k → k < m.start → IsClear text k := by
  constructor
  · rintro (join | digits) k low high c here free
    · obtain ⟨bar, last, next⟩ := isSome_joined?_iff.mp join
      obtain ⟨l, isLast, options⟩ := behind.last.mp last
      refine Or.inl (Bool.of_not_eq_false fun solid => ?_)
      have isBar : c = '|' := eq_bar_of_trim bar (Text.mem_extract.mpr ⟨k, low, high, here⟩) solid
      have place := behind.stop l isLast
      have joint : isJoint text (allMarkers text) k = true := by
        rw [isJoint_iff, here, isBar]
        refine ⟨rfl, l, ?_, m, behind.mem_next, options, next, by omega, high, by rwa [place]⟩
        rw [behind.whole]
        exact List.mem_append_left _ (List.mem_of_getLast? isLast)
      rw [isTaken, joint, Bool.or_true] at free
      cases free
    · exact isSome_digits?_iff.mp digits c (Text.mem_extract.mpr ⟨k, low, high, here⟩)
  · intro clear
    by_contra neither
    rw [not_or] at neither
    refine neither.2 (isSome_digits?_iff.mpr fun c member => ?_)
    obtain ⟨k, low, high, here⟩ := Text.mem_extract.mp member
    refine clear k low high c here ?_
    rw [isTaken, behind.not_isMarked apart low high, Bool.false_or, ← Bool.not_eq_true]
    exact fun joint => neither.1 (behind.isSome_joined? apart low high joint)

/-- The reader comes to the end of a line if all that is left of it is clear. -/
theorem isSome_collect_iff (behind : IsBehind text before found done position) :
    (collect text done position found).isSome = true ↔ ∀ k, position ≤ k → IsClear text k := by
  fun_induction collect text done position found generalizing before
  case case1 done position =>
    have free {k : Nat} (low : position ≤ k) : isTaken text k = false := by
      refine not_isTaken fun m member => ?_
      rw [behind.whole, List.append_nil] at member
      have passed := behind.passed m member
      omega
    rw [Option.isSome_map, isSome_digits?_iff]
    constructor
    · intro clean k low c here _
      refine clean c (List.mem_of_getElem? (i := k - position) ?_)
      rw [List.getElem?_drop, Nat.add_sub_cancel' low]
      exact here
    · intro clear c member
      obtain ⟨j, here⟩ := List.mem_iff_getElem?.mp member
      rw [List.getElem?_drop] at here
      exact clear _ (Nat.le_add_right _ _) c here (free (Nat.le_add_right _ _))
  case case2 done position m more early =>
    exact absurd (behind.ahead m List.mem_cons_self) (Nat.not_le.mpr early)
  case case3 done position m more inOrder between joined join ih =>
    obtain ⟨-, front, names, others, -, shape, rfl⟩ := joined?_eq_some join
    have here := (behind.isSome_iff apart).mp (Or.inl (Option.isSome_of_eq_some join))
    rw [behind.forall_isClear, and_iff_right here]
    refine ih (behind.next apart ?_)
    rw [List.getLast?_concat, shape]
    simp [isOptions]
  case case4 done position m more inOrder between alone unread =>
    have blocked : ¬ ((joined? done between m.segment).isSome = true ∨
        (digits? between).isSome = true) := by simp [alone, unread]
    rw [behind.forall_isClear, ← behind.isSome_iff apart]
    exact iff_of_false Bool.false_ne_true fun clear => blocked clear.1
  case case5 done position m more inOrder between alone digits read ih =>
    have here := (behind.isSome_iff apart).mp (Or.inr (Option.isSome_of_eq_some read))
    rw [behind.forall_isClear, and_iff_right here]
    refine ih (behind.next apart ?_)
    rw [List.getLast?_concat]
    simp

end

/-! ### The parts of a line -/

/-- The parts that a line is split into: digits in upper case, separated by placeholders, which are
the characters outside the marked names, and the names in their order. Written out, they are the
line again, but for blanks and the case of letters. -/
structure AreParts (line : Text) (segments : List Segment) : Prop where
  digits : ∀ text, .hex text ∈ segments → Hex.IsDigits text ∧ text ≠ []
  separated : AreSeparated segments
  whole : digitsOf segments = Text.squeeze (unmarked line)
  symbols : segments.filterMap symbol? = symbolNames line
  options : segments.flatMap optionList = optionNames line
  written : Text.squeeze (writeAll segments) = Text.squeeze (stripComment line)

/-- A line is split if its marked names are apart and only digits and blanks are left outside. -/
theorem isSome_ofLine?_iff {line : Text} : (ofLine? line).isSome = true ↔
    AreApart (allMarkers (stripComment line)) ∧
      ∀ c ∈ unmarked line, Text.isBlank c = true ∨ Text.isHexDigit c = true := by
  have start : IsBehind (stripComment line) [] (allMarkers (stripComment line)) [] 0 :=
    ⟨rfl, by simp, by simp, by simp, by simp⟩
  have left : (∀ k, 0 ≤ k → IsClear (stripComment line) k) ↔
      ∀ c ∈ unmarked line, Text.isBlank c = true ∨ Text.isHexDigit c = true := by
    constructor
    · intro clear c member
      obtain ⟨k, free, here⟩ := Text.mem_uncovered.mp member
      rw [Nat.zero_add] at free
      exact clear k (Nat.zero_le k) c here free
    · intro clean k _ c here free
      exact clean c (Text.mem_uncovered.mpr ⟨k, by rwa [Nat.zero_add], here⟩)
  rw [areApart_iff, ← left]
  constructor
  · intro read
    obtain ⟨segments, found⟩ := Option.isSome_iff_exists.mp read
    have apart := apart_of_collect (allMarkers_ordered _) found
    exact ⟨apart, (isSome_collect_iff apart start).mp read⟩
  · rintro ⟨apart, clear⟩
    exact (isSome_collect_iff apart start).mpr clear

theorem parts_exact (line : Text) :
    (∀ segments, ofLine? line = some segments → AreParts line segments) ∧
      (ofLine? line = none ↔ ¬ AreApart (allMarkers (stripComment line)) ∨
        ∃ c ∈ unmarked line, Text.isBlank c = false ∧ Text.isHexDigit c = false) := by
  constructor
  · intro segments read
    have clean := (isSome_ofLine?_iff.mp (Option.isSome_of_eq_some read)).2
    have stripped : ofLine? (stripComment line) = some segments := by
      rw [← read, ofLine?, ofLine?, stripComment_stripComment]
    refine ⟨?_, ?_, ?_, ofLine?_symbols read, ofLine?_options read, ofLine?_written read⟩
    · intro text member
      exact ofLine?_isSound read _ member
    · exact collect_areSeparated (allMarkers_noDigits _) List.IsChain.nil (by simp) read
    · rw [ofLine?_digitsOf stripped, ← digitsIn_unmarked, digitsIn_eq_upper clean, Text.squeeze]
  · rw [← Option.not_isSome_iff_eq_none, isSome_ofLine?_iff, not_and_or]
    simp

/-- Digits in both cases, two places that a bar joins, and a comment. -/
def mixedLine : Text := " 38 6f[[Lives]] | [[ Speed ]]<<Table>>00c4 # [[Ignored]]"

def mixedParts : List Segment :=
  [.hex "386F", .options ["Lives", "Speed"], .symbol "Table", .hex "00C4"]

theorem mixedLine_areParts :
    ofLine? mixedLine = some mixedParts ∧ AreParts mixedLine mixedParts := by
  have read : ofLine? mixedLine = some mixedParts := by decide +kernel
  exact ⟨read, (parts_exact mixedLine).1 _ read⟩

/-- Two names that overlap, and a bar that joins nothing. -/
example : ofLine? "38<<Table[[Lives>>]]" = none ∧ ofLine? "[[Lives]] | <<Table>>" = none := by
  decide +kernel

end Segment

end Line

end GamePatch
