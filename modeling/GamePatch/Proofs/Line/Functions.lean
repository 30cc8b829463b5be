import GamePatch.Proofs.Fallible
import GamePatch.Proofs.Line.Segments
import GamePatch.Proofs.Overflow
import GamePatch.Proofs.Text.Digits
import Mathlib.Data.List.Basic

set_option autoImplicit false

namespace GamePatch.Text

def IsNumeral (c : Char) : Prop := isHexDigit c = true ∨ c = '-' ∨ c = '+' ∨ c = 'x' ∨ c = 'X'

theorem not_isNumeral_bracket : ¬ IsNumeral '>' := by
  unfold IsNumeral
  decide

theorem readSigned_isNumeral {base : Nat} {s : Text} {n : Int} (read : readSigned base s = some n) :
    ∀ c ∈ s, IsNumeral c := by
  unfold readSigned at read
  split at read
  · obtain ⟨_, lifted, _⟩ := Option.map_eq_some_iff.mp read
    obtain ⟨_, digits, _⟩ := Option.bind_eq_some_iff.mp lifted
    rw [List.forall_mem_cons]
    exact ⟨by simp [IsNumeral], fun c member => Or.inl (readDigits_isHexDigit digits c member)⟩
  · obtain ⟨_, digits, _⟩ := Option.map_eq_some_iff.mp read
    rw [List.forall_mem_cons]
    exact ⟨by simp [IsNumeral], fun c member => Or.inl (readDigits_isHexDigit digits c member)⟩
  · obtain ⟨_, digits, _⟩ := Option.map_eq_some_iff.mp read
    exact fun c member => Or.inl (readDigits_isHexDigit digits c member)

theorem readInt64_isNumeral {base : Nat} {s : Text} {n : Int} (read : readInt64 base s = some n) :
    ∀ c ∈ s, IsNumeral c :=
  readSigned_isNumeral (Option.filter_eq_some_iff.mp read).1

theorem hexMarked?_eq_some {s digits : Text} (marked : hexMarked? s = some digits) :
    ∃ x, (x = 'x' ∨ x = 'X') ∧ s = '0' :: x :: digits := by
  unfold hexMarked? at marked
  split at marked
  · exact ⟨'x', Or.inl rfl, by rw [Option.some.inj marked]⟩
  · exact ⟨'X', Or.inr rfl, by rw [Option.some.inj marked]⟩
  · cases marked

theorem readInteger_isNumeral {s : Text} {n : Int} (read : readInteger s = some n) :
    ∀ c ∈ s, IsNumeral c := by
  unfold readInteger at read
  split at read
  case h_1 digits marked =>
    obtain ⟨x, mark, rfl⟩ := hexMarked?_eq_some marked
    have zero : IsNumeral '0' := Or.inl (by decide)
    have marker : IsNumeral x := by
      rcases mark with rfl | rfl <;> simp [IsNumeral]
    simp only [List.forall_mem_cons]
    exact ⟨zero, marker, readInt64_isNumeral read⟩
  case h_2 => exact readInt64_isNumeral read

theorem count_removeBlanks (c : Char) (solid : isBlank c = false) (s : Text) :
    (removeBlanks s).count c = s.count c :=
  List.count_filter (by simp [solid])

end GamePatch.Text

namespace GamePatch.Line

open Text (IsNumeral)

namespace SpecialBranch

theorem readSigned_count_bracket {s : Text} {n : Int} (read : readSigned s = .ok (some n)) :
    s.count '>' = 0 := by
  rw [← Text.count_removeBlanks '>' (by decide), List.count_eq_zero]
  intro member
  unfold readSigned at read
  split at read
  case h_1 digits shape =>
    obtain ⟨_, inner, _⟩ := Text.readNegated_eq_some_iff.mp read
    rw [shape, List.mem_cons] at member
    exact Text.not_isNumeral_bracket
      (Text.readInteger_isNumeral inner '>' (member.resolve_left (by decide)))
  case h_2 digits shape =>
    rw [shape, List.mem_cons] at member
    exact Text.not_isNumeral_bracket (Text.readInteger_isNumeral (Except.ok.inj read) '>'
      (member.resolve_left (by decide)))
  case h_3 =>
    exact Text.not_isNumeral_bracket
      (Text.readInteger_isNumeral (Except.ok.inj read) '>' member)

theorem readAdjustment_count_bracket {s : Text} {n : Int} (read : readAdjustment s = .ok (some n)) :
    s.count '>' = 0 := by
  rw [← Text.count_trim '>' (by decide)]
  unfold readAdjustment at read
  split at read
  case h_1 shape => rw [shape]; rfl
  case h_2 shape => rw [shape]; exact readSigned_count_bracket read
  case h_3 shape => rw [shape]; exact readSigned_count_bracket read
  case h_4 => cases read

theorem parse?_count_bracket {s : Text} {a : Address} (read : Address.parse? s = some a) :
    s.count '>' = 0 := by
  rw [← Text.count_trim '>' (by decide), List.count_eq_zero]
  intro member
  unfold Address.parse? at read
  simp only at read
  split at read
  · cases read
  obtain ⟨n, number, _⟩ := Option.map_eq_some_iff.mp read
  have digits := (Option.filter_eq_some_iff.mp number).1
  have hexOnly := Text.readDigits_isHexDigit digits
  -- The mark `0x`, underscores and one sign are all that is dropped before the digits.
  have body : '>' ∈ (Text.hexMarked? (Text.trim s)).getD (Text.trim s) := by
    cases marked : Text.hexMarked? (Text.trim s) with
    | none => exact member
    | some rest =>
      obtain ⟨x, mark, shape⟩ := Text.hexMarked?_eq_some marked
      rw [shape] at member
      rcases mark with rfl | rfl <;> simpa using member
  have kept : '>' ∈ ((Text.hexMarked? (Text.trim s)).getD (Text.trim s)).filter (· != '_') :=
    List.mem_filter.mpr ⟨body, by decide⟩
  revert hexOnly kept
  generalize ((Text.hexMarked? (Text.trim s)).getD (Text.trim s)).filter (· != '_') = kept
  intro hexOnly inside
  cases signed : Text.dropLeading? ['+'] kept with
  | none =>
    rw [signed] at hexOnly
    exact absurd (hexOnly '>' inside) (by decide)
  | some rest =>
    rw [signed] at hexOnly
    rw [Text.dropLeading?_eq_some_iff.mp signed] at inside
    have : '>' ∈ rest := by simpa using inside
    exact absurd (hexOnly '>' this) (by decide)

theorem readTarget_count_bracket {s rest : Text} {target : Target}
    (read : readTarget s = some (target, rest)) : s.count '>' ≤ rest.count '>' + 1 := by
  unfold readTarget at read
  split at read
  · cases read
  case h_2 body _ =>
    unfold readSymbol at read
    split at read
    · cases read
    case h_2 name after found =>
      obtain ⟨c, closing, shape, clear⟩ := Text.eq_of_cutWhere found
      have same : rest = after := by
        simp only [Option.ite_none_left_eq_some, Option.some.injEq, Prod.mk.injEq] at read
        exact read.2.2.symm
      have none : name.count '>' = 0 := by
        rw [List.count_eq_zero]
        intro member
        simpa using clear '>' member
      have mark : c = '>' := by simpa using closing
      subst mark same
      rw [shape]
      simp only [List.count_cons, List.count_append, none]
      simp
  case h_3 =>
    unfold readAddress at read
    split at read
    · cases read
    case h_2 a found =>
      simp only [Option.ite_none_right_eq_some, Option.some.injEq, Prod.mk.injEq] at read
      have parts : s.count '>' = _ := congrArg (List.count '>')
        (List.takeWhile_append_dropWhile (p := fun c => !endsAddress c) (l := s)).symm
      rw [parts, List.count_append, parse?_count_bracket found, read.2.2]
      omega

/-- A branch has at most one closing bracket on its line. -/
theorem parse_stripComment_count {line : Text} {branch : SpecialBranch}
    (read : parse line = .ok (some branch)) : (stripComment line).count '>' ≤ 1 := by
  unfold parse at read
  split at read
  · cases read
  case h_2 mnemonic rest found =>
    obtain ⟨c, blank, shape, -⟩ := Text.eq_of_cutWhere found
    split at read
    · cases read
    case h_2 m named =>
      have front : mnemonic.count '>' = 0 := by
        unfold Branch.Mnemonic.ofName? at named
        grind
      split at read
      · cases read
      case h_2 target after opened =>
        obtain ⟨_, outcome, made⟩ := Fallible.map_eq_ok_iff.mp read
        obtain ⟨n, rfl, -⟩ := Option.map_eq_some_iff.mp made
        have back := readTarget_count_bracket opened
        rw [readAdjustment_count_bracket outcome, Text.count_trim '>' (by decide)] at back
        have solid : c ≠ '>' := by
          rintro rfl
          exact absurd blank (by decide)
        rw [shape, List.count_append, front, List.count_cons_of_ne solid]
        omega

end SpecialBranch

theorem Enclosed.all_of_no_closing {opening closing s : Text} (absent : ¬ closing <:+: s) :
    Enclosed.all opening closing s = ([], s) := by
  have none : Enclosed.first? opening closing s = none := by
    unfold Enclosed.first?
    split
    · rfl
    case h_2 before rest found =>
      rw [Option.map_eq_none_iff, Text.cut_eq_none_iff]
      rintro inside
      refine absent (inside.trans ?_)
      rw [Text.eq_of_cut found]
      exact (List.suffix_append _ _).isInfix
  unfold Enclosed.all
  rw [none]

/-- No symbol reference stands on the line of a special branch. -/
theorem symbolNames_of_branch {line : Text} {branch : SpecialBranch}
    (read : SpecialBranch.parse line = .ok (some branch)) : symbolNames line = [] := by
  have absent : ¬ symbolClosing <:+: stripComment line := by
    intro inside
    have twice : 2 ≤ (stripComment line).count '>' := inside.sublist.count_le '>'
    have once := SpecialBranch.parse_stripComment_count read
    omega
  rw [symbolNames, Enclosed.all_of_no_closing absent]
  rfl

namespace Segment

def symbol? : Segment → Option Text
  | .symbol name => some name
  | _ => none

theorem map_segment_markers (markLength position : Nat) (make : Text → Segment)
    (found : List Enclosed) :
    ((markers markLength make position found).map Marker.segment) =
      found.map fun e => make e.name := by
  induction found generalizing position with
  | nil => rfl
  | cons e found ih => simp only [markers, List.map_cons, ih]

theorem filterMap_cons_eq_append {α β : Type} (f : α → Option β) (a : α) (l : List α) :
    (a :: l).filterMap f = (f a).toList ++ l.filterMap f := by
  rw [List.filterMap_cons]
  cases f a <;> rfl

/-- If nothing is read off the markers of one list, merging keeps the order of what is read. -/
theorem flatMap_mergeMarkers {α : Type} {read : Marker → List α} {left right : List Marker}
    (hidden : left.flatMap read = [] ∨ right.flatMap read = []) :
    (mergeMarkers left right).flatMap read = left.flatMap read ++ right.flatMap read := by
  rw [mergeMarkers_eq_merge]
  induction left generalizing right with
  | nil => rw [List.nil_merge, List.flatMap_nil, List.nil_append]
  | cons m left ih =>
    induction right with
    | nil => rw [List.merge_right, List.flatMap_nil, List.append_nil]
    | cons n right ih' =>
      rw [List.cons_merge_cons]
      split
      · have rest : left.flatMap read = [] ∨ (n :: right).flatMap read = [] :=
          hidden.imp_left fun none => (List.append_eq_nil_iff.mp none).2
        rw [List.flatMap_cons, ih rest, ← List.append_assoc, ← List.flatMap_cons]
      · have rest : (m :: left).flatMap read = [] ∨ right.flatMap read = [] :=
          hidden.imp_right fun none => (List.append_eq_nil_iff.mp none).2
        rw [List.flatMap_cons, ih' rest]
        rcases hidden with none | none
        · rw [none, List.nil_append, List.nil_append, List.flatMap_cons]
        · have first : read n = [] := (List.append_eq_nil_iff.mp none).1
          have later : right.flatMap read = [] := (List.append_eq_nil_iff.mp none).2
          rw [none, first, later, List.nil_append]

/-- What is read off the markers of one kind is read off the names on the line. -/
theorem flatMap_markers {α : Type} (read : Segment → List α) (markLength position : Nat) (make : Text → Segment) (found : List Enclosed) :
    ((markers markLength make position found).flatMap fun m => read m.segment) =
      (found.map Enclosed.name).flatMap fun name => read (make name) := by
  have named := map_segment_markers markLength position make found
  rw [← List.flatMap_map Marker.segment read, named, List.flatMap_map, List.flatMap_map]

/-- A reading of the parts of a line that the digits have no share in, and in which options that share
a place stand one behind another. -/
structure IsReading {α : Type} (read : Segment → List α) : Prop where
  hex : ∀ digits, read (.hex digits) = []
  options : ∀ names more, read (.options (names ++ more)) = read (.options names) ++ read (.options more)

section

variable {α : Type} {read : Segment → List α} (reading : IsReading read)

include reading

theorem IsReading.digits? {s : Text} {segments : List Segment}
    (found : Segment.digits? s = some segments) : segments.flatMap read = [] := by
  obtain ⟨-, ⟨-, rfl⟩ | ⟨-, rfl⟩⟩ := digits?_eq_some found
  · rfl
  · rw [List.flatMap_singleton, reading.hex]

theorem IsReading.joined? {done joined : List Segment} {between : Text} {next : Segment}
    (join : Segment.joined? done between next = some joined) :
    joined.flatMap read = done.flatMap read ++ read next := by
  obtain ⟨-, front, names, more, rfl, rfl, rfl⟩ := joined?_eq_some join
  rw [List.flatMap_append, List.flatMap_append, List.flatMap_singleton, List.flatMap_singleton,
    reading.options, List.append_assoc]

theorem IsReading.collect {line : Text} {done segments : List Segment} {position : Nat}
    {found : List Marker} (parts : Segment.collect line done position found = some segments) :
    segments.flatMap read = done.flatMap read ++ found.flatMap fun m => read m.segment := by
  fun_induction Segment.collect line done position found with
  | case1 done position =>
    obtain ⟨tail, last, rfl⟩ := Option.map_eq_some_iff.mp parts
    rw [List.flatMap_append, reading.digits? last, List.flatMap_nil]
  | case2 => cases parts
  | case3 done position m more inOrder between joined join ih =>
    rw [ih parts, reading.joined? join, List.flatMap_cons, List.append_assoc]
  | case4 => cases parts
  | case5 done position m more inOrder between apart digits found ih =>
    rw [ih parts, List.flatMap_append, List.flatMap_append, reading.digits? found, List.append_nil,
      List.flatMap_singleton, List.flatMap_cons, List.append_assoc]

/-- The parts of a line are read like its markers, of which one kind is not seen. -/
theorem IsReading.ofLine? {line : Text} {segments : List Segment}
    (parts : Segment.ofLine? line = some segments)
    (hidden : (∀ name, read (.symbol name) = []) ∨ ∀ name, read (.options [name]) = []) :
    segments.flatMap read =
      (symbolNames line).flatMap (fun name => read (.symbol name)) ++
        (optionNames line).flatMap fun name => read (.options [name]) := by
  rw [reading.collect parts, List.flatMap_nil, List.nil_append, allMarkers, flatMap_mergeMarkers,
    flatMap_markers read, flatMap_markers read, symbolNames, optionNames]
  rw [flatMap_markers read, flatMap_markers read, List.flatMap_eq_nil_iff, List.flatMap_eq_nil_iff]
  exact hidden.imp (fun none name _ => none name) fun none name _ => none name

end

/-- The segments of a line hold its symbol references in their order. -/
theorem ofLine?_symbols {line : Text} {segments : List Segment} (read : ofLine? line = some segments) :
    segments.filterMap symbol? = symbolNames line := by
  have reading : IsReading fun segment => segment.symbol?.toList := ⟨fun _ => rfl, fun _ _ => rfl⟩
  have parts := reading.ofLine? read (Or.inr fun _ => rfl)
  rw [← List.filterMap_eq_flatMap_toList] at parts
  rw [parts]
  simp [symbol?]

def optionList : Segment → List Text
  | .options names => names
  | _ => []

/-- The segments of a line hold its options in their order. -/
theorem ofLine?_options {line : Text} {segments : List Segment} (read : ofLine? line = some segments) :
    segments.flatMap optionList = optionNames line := by
  have reading : IsReading optionList := ⟨fun _ => rfl, fun _ _ => rfl⟩
  rw [reading.ofLine? read (Or.inl fun _ => rfl)]
  simp [optionList]

end Segment

end GamePatch.Line
