import GamePatch.Proofs.Line.Places
import GamePatch.Proofs.Text.Lines

set_option autoImplicit false

namespace GamePatch

namespace Text

/-- A text without its blanks and in upper case. -/
def squeeze (s : Text) : Text := upper (removeBlanks s)

theorem squeeze_append (s t : Text) : squeeze (s ++ t) = squeeze s ++ squeeze t := by
  rw [squeeze, removeBlanks_append, upper, List.map_append]
  rfl

theorem squeeze_trim (s : Text) : squeeze (trim s) = squeeze s := by
  rw [squeeze, removeBlanks_trim, squeeze]

/-- A text up to a place is what is in front of another place, and what is between them. -/
theorem take_append_extract {low high : Nat} (ordered : low ≤ high) (s : Text) :
    s.take low ++ s.extract low high = s.take high := by
  rw [List.extract_eq_take_drop, ← List.take_add, Nat.add_sub_cancel' ordered]

end Text

namespace Line.Segment

open Text (squeeze squeeze_append squeeze_trim)

def write : Segment → Text
  | .hex digits => digits
  | .symbol name => symbolOpening ++ name ++ symbolClosing
  | .options names => Text.join ['|'] (names.map fun name => optionOpening ++ name ++ optionClosing)

def writeAll (segments : List Segment) : Text := segments.flatMap write

theorem writeAll_append (a b : List Segment) : writeAll (a ++ b) = writeAll a ++ writeAll b :=
  List.flatMap_append

theorem writeAll_singleton (segment : Segment) : writeAll [segment] = segment.write :=
  List.flatMap_singleton ..

theorem write_joined {names more : List Text} (some : names ≠ []) (others : more ≠ []) :
    write (.options (names ++ more)) = write (.options names) ++ ['|'] ++ write (.options more) := by
  rw [write, List.map_append, Text.join_append (by simpa using some) (by simpa using others)]
  rfl

theorem squeeze_writeAll_digits? {s : Text} {segments : List Segment}
    (read : digits? s = some segments) : squeeze (writeAll segments) = squeeze s := by
  obtain ⟨allHex, ⟨empty, rfl⟩ | ⟨-, rfl⟩⟩ := digits?_eq_some read
  · rw [squeeze, squeeze, empty]
    rfl
  · have digits := Hex.isDigits_upper allHex
    rw [writeAll_singleton, write, squeeze, digits.removeBlanks, digits.upper]
    rfl

/-- What stands at the place of a marker is what its part is written as. -/
theorem squeeze_write {text : Text} {m : Marker} (member : m ∈ allMarkers text) :
    squeeze m.segment.write = squeeze (text.extract m.start m.stop) := by
  have here {opening closing : Text} {make : Text → Segment}
      (on : m.IsOn opening closing make text) :
      ∃ name, m.segment = make name ∧
        squeeze (text.extract m.start m.stop) = squeeze (opening ++ name ++ closing) := by
    obtain ⟨e, place, stop, shape⟩ := on
    refine ⟨e.name, shape, ?_⟩
    have between : text.extract m.start m.stop = e.marked opening closing := by
      rw [List.extract_eq_take_drop, stop, Nat.add_sub_cancel_left, place, List.take_left]
    rw [between, Enclosed.marked, Enclosed.name]
    simp only [squeeze_append, squeeze_trim]
  rcases isOn_of_mem_allMarkers member with symbol | option
  · obtain ⟨name, shape, same⟩ := here symbol
    rw [same, shape]
    rfl
  · obtain ⟨name, shape, same⟩ := here option
    rw [same, shape, write, List.map_singleton, Text.join, List.intercalate_singleton]

theorem squeeze_take_stop {text : Text} {position : Nat} {m : Marker} (member : m ∈ allMarkers text)
    (ahead : position ≤ m.start) :
    squeeze (text.take m.stop) = squeeze (text.take position) ++
      squeeze (text.extract position m.start) ++ squeeze m.segment.write := by
  rw [squeeze_write member, ← squeeze_append, ← squeeze_append, Text.take_append_extract ahead,
    Text.take_append_extract (Nat.le_of_lt (start_lt_stop member))]

/-- The parts that are done are the text in front of the position. -/
theorem collect_written {text : Text} {done segments : List Segment} {position : Nat}
    {found : List Marker} (marks : ∀ m ∈ found, m ∈ allMarkers text)
    (sound : ∀ segment ∈ done, segment.IsSound)
    (front : squeeze (writeAll done) = squeeze (text.take position))
    (read : collect text done position found = some segments) :
    squeeze (writeAll segments) = squeeze text := by
  fun_induction collect text done position found with
  | case1 done position =>
    obtain ⟨tail, behind, rfl⟩ := Option.map_eq_some_iff.mp read
    rw [writeAll_append, squeeze_append, front, squeeze_writeAll_digits? behind, ← squeeze_append,
      List.take_append_drop]
  | case2 => cases read
  | case3 done position m more inOrder between joined join ih =>
    obtain ⟨bar, others, names, next, rfl, shape, rfl⟩ := joined?_eq_some join
    rw [List.forall_mem_cons] at marks
    rw [List.forall_mem_append, List.forall_mem_singleton] at sound
    have nextSound := allMarkers_isSound m marks.1
    rw [shape] at nextSound
    refine ih marks.2 ?_ ?_ read
    · rw [List.forall_mem_append, List.forall_mem_singleton]
      exact ⟨sound.1, List.append_ne_nil_of_left_ne_nil sound.2 next⟩
    · have gap : squeeze between = squeeze ['|'] := by rw [← squeeze_trim, bar]
      rw [writeAll_append, writeAll_singleton, squeeze_append] at front
      rw [squeeze_take_stop marks.1 (Nat.not_lt.mp inOrder), ← front, gap, shape, writeAll_append,
        writeAll_singleton, write_joined sound.2 nextSound]
      simp only [squeeze_append, List.append_assoc]
  | case4 => cases read
  | case5 done position m more inOrder between alone digits middle ih =>
    rw [List.forall_mem_cons] at marks
    refine ih marks.2 ?_ ?_ read
    · rw [List.forall_mem_append, List.forall_mem_append, List.forall_mem_singleton]
      exact ⟨⟨sound, digits?_isSound middle⟩, allMarkers_isSound m marks.1⟩
    · rw [squeeze_take_stop marks.1 (Nat.not_lt.mp inOrder), ← front, writeAll_append,
        writeAll_append, writeAll_singleton, squeeze_append, squeeze_append,
        squeeze_writeAll_digits? middle]

theorem ofLine?_written {line : Text} {segments : List Segment}
    (read : ofLine? line = some segments) :
    squeeze (writeAll segments) = squeeze (stripComment line) :=
  collect_written (fun _ member => member) (by simp) rfl read

end Line.Segment

end GamePatch
