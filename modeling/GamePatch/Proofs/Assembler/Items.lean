import GamePatch.Assembler
import GamePatch.Proofs.Fallible
import GamePatch.Proofs.Text.Lines
import GamePatch.Proofs.Text.Search
import GamePatch.Proofs.Text.Trimming

set_option autoImplicit false

namespace GamePatch

namespace Labels

@[simp] theorem offset?_insert_self (name : Text) (offset : Nat) (labels : Labels) :
    (labels.insert name offset).offset? name = some offset := by
  induction labels with
  | nil => simp [insert, offset?]
  | cons l labels ih =>
    rw [insert]
    split
    · simp [offset?]
    case isFalse other =>
      rw [offset?, List.find?_cons_of_neg (by simpa using other)]
      exact ih

theorem offset?_insert_of_ne {name other : Text} (differs : other ≠ name) (offset : Nat)
    (labels : Labels) : (labels.insert other offset).offset? name = labels.offset? name := by
  induction labels with
  | nil => simp [insert, offset?, differs]
  | cons l labels ih =>
    rw [insert]
    split
    case isTrue same =>
      rw [offset?, offset?, List.find?_cons_of_neg (by simpa using differs),
        List.find?_cons_of_neg (by simpa [same] using differs)]
    case isFalse =>
      rw [offset?, offset?, List.find?_cons, List.find?_cons]
      split
      · rfl
      · exact ih

end Labels

namespace Assembler

namespace Item

def IsBad : Item → Prop
  | .bad _ => True
  | _ => False

def message? : Item → Option Text
  | .bad message => some message
  | _ => none

theorem errors_singleton (line : Nat) (i : Item) :
    errors line [i] = (i.message?.map fun message => ⟨some line, message⟩).toList := by
  cases i <;> rfl

theorem errors_eq_nil_iff (line : Nat) {items : List Item} :
    errors line items = [] ↔ ∀ i ∈ items, ¬ i.IsBad := by
  induction items generalizing line with
  | nil => simp [errors]
  | cons i items ih => cases i <;> simp [errors, IsBad, ih]

theorem errors_append (line : Nat) (front back : List Item) :
    errors line (front ++ back) = errors line front ++ errors (line + front.length) back := by
  induction front generalizing line with
  | nil => rfl
  | cons i front ih =>
    rw [List.cons_append, List.length_cons, Nat.add_comm front.length, ← Nat.add_assoc]
    cases i with
    | bad message => rw [errors, errors, ih, List.cons_append]
    | nothing => exact ih (line + 1)
    | label name => exact ih (line + 1)
    | data bytes => exact ih (line + 1)

theorem labels_append (offset : Nat) (done : Labels) (front back : List Item) :
    labels offset done (front ++ back) =
      labels (offset + (front.flatMap bytes).length) (labels offset done front) back := by
  induction front generalizing offset done with
  | nil => rfl
  | cons i front ih =>
    rw [List.cons_append, List.flatMap_cons, List.length_append, ← Nat.add_assoc]
    cases i <;> exact ih _ _

theorem labels_of_nothing {items : List Item} (nothing : ∀ i ∈ items, i = .nothing) (offset : Nat)
    (done : Labels) : labels offset done items = done := by
  induction items generalizing offset with
  | nil => rfl
  | cons i items ih =>
    rw [List.forall_mem_cons] at nothing
    rw [nothing.1]
    exact ih nothing.2 _

theorem bytes_filter_nothing (items : List Item) :
    (items.filter (· ≠ .nothing)).flatMap bytes = items.flatMap bytes := by
  induction items with
  | nil => rfl
  | cons i items ih => cases i <;> simpa [bytes] using ih

theorem labels_filter_nothing (offset : Nat) (done : Labels) (items : List Item) :
    labels offset done (items.filter (· ≠ .nothing)) = labels offset done items := by
  induction items generalizing offset done with
  | nil => rfl
  | cons i items ih => cases i <;> simpa [labels, bytes] using ih _ _

/-- Lines that do not define a label leave it where it is. -/
theorem offset?_labels_of_absent {name : Text} {items : List Item}
    (absent : Item.label name ∉ items) (offset : Nat) (done : Labels) :
    (labels offset done items).offset? name = done.offset? name := by
  induction items generalizing offset done with
  | nil => rfl
  | cons i items ih =>
    rw [List.mem_cons, not_or] at absent
    cases i with
    | label other =>
      have differs : other ≠ name := fun same => absent.1 (by rw [same])
      rw [labels, ih absent.2, Labels.offset?_insert_of_ne differs]
    | nothing => rw [labels, ih absent.2]; simp
    | data bytes => rw [labels, ih absent.2]; simp
    | bad message => rw [labels, ih absent.2]; simp

/-- The last line that defines a label says where it is. -/
theorem offset?_labels_of_last {name : Text} {front back : List Item}
    (last : Item.label name ∉ back) (offset : Nat) (done : Labels) :
    (labels offset done (front ++ .label name :: back)).offset? name =
      some (offset + (front.flatMap bytes).length) := by
  rw [labels_append, labels, offset?_labels_of_absent last, Labels.offset?_insert_self]

end Item

def bytesOf (ls : List Text) : Bytes := ls.flatMap fun line => (item line).bytes

@[simp] theorem bytesOf_nil : bytesOf [] = [] := rfl

@[simp] theorem bytesOf_cons (line : Text) (ls : List Text) :
    bytesOf (line :: ls) = (item line).bytes ++ bytesOf ls := rfl

@[simp] theorem bytesOf_append (a b : List Text) : bytesOf (a ++ b) = bytesOf a ++ bytesOf b :=
  List.flatMap_append

def Accepts (ls : List Text) : Prop := ∀ line ∈ ls, ¬ (item line).IsBad

theorem accepts_append {a b : List Text} : Accepts (a ++ b) ↔ Accepts a ∧ Accepts b := by
  simp only [Accepts, List.forall_mem_append]

/-- Only what is left of a line without its comment and the blanks at its ends is read. -/
@[simp] theorem item_stripComment (line : Text) : item (Line.stripComment line) = item line := by
  rw [item, Line.stripComment_stripComment, item]

theorem item_concat_return (line : Text) : item (line ++ ['\r']) = item line := by
  rw [← item_stripComment, Line.stripComment_concat_blank line (by decide), item_stripComment]

theorem assemble_eq_ok_iff {source : Text} {assembly : Assembly} :
    assemble source = .ok assembly ↔
      (∀ i ∈ (Text.lines source).map item, ¬ i.IsBad) ∧
        assembly = ⟨((Text.lines source).map item).flatMap Item.bytes,
          Item.labels 0 [] ((Text.lines source).map item)⟩ := by
  rw [← Item.errors_eq_nil_iff 1]
  unfold assemble
  simp only
  split
  case h_1 none => simp [none, eq_comm]
  case h_2 some =>
    constructor
    · intro impossible
      cases impossible
    · rintro ⟨none, -⟩
      exact absurd none some

/-- Lines joined to a text are read as the same items, but for an empty last line, which is not
among the lines of the text. -/
theorem items_joinLines {ls : List Text} (clean : ∀ line ∈ ls, '\n' ∉ line) :
    ∃ rest, (∀ i ∈ rest, i = .nothing) ∧
      ls.map item = (Text.lines (Text.joinLines ls)).map item ++ rest := by
  rcases Text.map_lines_joinLines item_concat_return clean with whole | short
  · exact ⟨[], by simp, by rw [whole, List.append_nil]⟩
  · exact ⟨[.nothing], by simp, short⟩

/-- The lines of a text of joined lines give the bytes of the lines. -/
theorem bytes_items_joinLines {ls : List Text} (clean : ∀ line ∈ ls, '\n' ∉ line) :
    ((Text.lines (Text.joinLines ls)).map item).flatMap Item.bytes = bytesOf ls := by
  obtain ⟨rest, nothing, items⟩ := items_joinLines clean
  have bytes : bytesOf ls = (ls.map item).flatMap Item.bytes := (List.flatMap_map ..).symm
  have none : rest.flatMap Item.bytes = [] := by
    rw [List.flatMap_eq_nil_iff]
    intro i member
    rw [nothing i member]
    rfl
  rw [bytes, items, List.flatMap_append, none, List.append_nil]

/-- The assembly of lines. -/
theorem assemble_joinLines_eq_ok_iff {ls : List Text} (clean : ∀ line ∈ ls, '\n' ∉ line)
    {assembly : Assembly} :
    assemble (Text.joinLines ls) = .ok assembly ↔
      Accepts ls ∧ assembly = ⟨bytesOf ls, Item.labels 0 [] (ls.map item)⟩ := by
  obtain ⟨rest, nothing, items⟩ := items_joinLines clean
  have accepts : Accepts ls ↔ ∀ i ∈ ls.map item, ¬ i.IsBad := by simp [Accepts]
  have noneBad : ∀ i ∈ rest, ¬ i.IsBad := by
    intro i member
    rw [nothing i member]
    exact id
  have sameLabels : Item.labels 0 [] (ls.map item) =
      Item.labels 0 [] ((Text.lines (Text.joinLines ls)).map item) := by
    rw [items, Item.labels_append, Item.labels_of_nothing nothing]
  rw [assemble_eq_ok_iff, bytes_items_joinLines clean, sameLabels, accepts, items,
    List.forall_mem_append, and_iff_left noneBad]

/-- Joined lines have the errors of the lines. -/
theorem assemble_joinLines_eq_error {ls : List Text} (clean : ∀ line ∈ ls, '\n' ∉ line)
    {e : Toolchain.Error} (failed : assemble (Text.joinLines ls) = .error e) :
    e = .assemblyFailed (Item.errors 1 (ls.map item)) := by
  obtain ⟨rest, nothing, items⟩ := items_joinLines clean
  have none (line : Nat) : Item.errors line rest = [] := by
    rw [Item.errors_eq_nil_iff]
    intro i member
    rw [nothing i member]
    exact id
  rw [items, Item.errors_append, none, List.append_nil]
  unfold assemble at failed
  simp only at failed
  split at failed
  · cases failed
  · exact (Except.error.inj failed).symm

/-- The last lines of a source give the last bytes of its assembly. -/
theorem bytes_of_last_lines {front back : List Text} (some : back ≠ [])
    (clean : ∀ line ∈ back, '\n' ∉ line) {assembly : Assembly}
    (assembled : assemble (Text.joinLines (front ++ back)) = .ok assembly) :
    ∃ above, assembly.bytes = above ++ bytesOf back := by
  obtain ⟨-, rfl⟩ := assemble_eq_ok_iff.mp assembled
  have last := bytes_items_joinLines clean
  by_cases empty : front = []
  · refine ⟨[], ?_⟩
    rw [empty]
    exact last
  · obtain ⟨first, above, split⟩ :=
      Text.lines_behind_newline (Text.joinLines front) (Text.joinLines back)
    refine ⟨((first :: above).map item).flatMap Item.bytes, ?_⟩
    change ((Text.lines (Text.joinLines (front ++ back))).map item).flatMap Item.bytes = _
    rw [Text.joinLines_append empty some, split, List.map_append, List.flatMap_append, last]

/-- What the assembler sees of a text: the items of its lines, but for those with nothing on them. -/
def seen (source : Text) : List Item := ((Text.lines source).map item).filter (· ≠ .nothing)

theorem assemble_eq_ok_iff_seen {source : Text} {assembly : Assembly} :
    assemble source = .ok assembly ↔
      (∀ i ∈ seen source, ¬ i.IsBad) ∧
        assembly = ⟨(seen source).flatMap Item.bytes, Item.labels 0 [] (seen source)⟩ := by
  rw [assemble_eq_ok_iff, seen]
  generalize (Text.lines source).map item = items
  have accepted : (∀ i ∈ items, ¬ i.IsBad) ↔ ∀ i ∈ items.filter (· ≠ .nothing), ¬ i.IsBad := by
    constructor
    · exact fun all i member => all i (List.mem_of_mem_filter member)
    · intro kept i member
      by_cases none : i = .nothing
      · rw [none]
        exact id
      · exact kept i (List.mem_filter.mpr ⟨member, by simpa using none⟩)
  rw [accepted, Item.bytes_filter_nothing, Item.labels_filter_nothing]

/-- Texts of which the assembler sees the same have the same assembly, or none. -/
theorem assemble_congr {s t : Text} (same : seen s = seen t) :
    (assemble s).toOption = (assemble t).toOption := by
  refine Fallible.toOption_congr fun assembly => ?_
  rw [assemble_eq_ok_iff_seen, assemble_eq_ok_iff_seen, same]

theorem seen_append_newline (front back : Text) :
    seen (front ++ '\n' :: back) = seen front ++ seen back := by
  obtain ⟨above, last, empty, split, same⟩ :=
    Text.map_lines_append_newline item_concat_return front back
  have none : (last.map item).filter (· ≠ .nothing) = [] := by
    rcases List.mem_pair.mp empty with rfl | rfl <;> rfl
  rw [seen, split, List.map_append, List.filter_append, same, List.map_append, List.filter_append, none,
    List.append_nil, seen, seen]

theorem seen_joinLines (ls : List Text) : seen (Text.joinLines ls) = ls.flatMap seen := by
  induction ls with
  | nil => rfl
  | cons l ls ih =>
    rw [List.flatMap_cons, ← ih]
    cases ls with
    | nil =>
      have none : seen (Text.joinLines []) = [] := rfl
      rw [Text.joinLines_singleton, none, List.append_nil]
    | cons l' ls => rw [Text.joinLines_cons_cons, seen_append_newline]

theorem seen_line {l : Text} (clean : '\n' ∉ l) : seen l = [item l].filter (· ≠ .nothing) := by
  by_cases empty : l = []
  · rw [empty]
    rfl
  · rw [seen, Text.lines_of_no_newline clean empty, List.map_singleton]

theorem seen_stripComment {l : Text} (clean : '\n' ∉ l) : seen (Line.stripComment l) = seen l := by
  have stripped : '\n' ∉ Line.stripComment l := fun member =>
    clean ((Line.stripComment_isInfix l).subset member)
  rw [seen_line stripped, seen_line clean, item_stripComment]

theorem seen_of_blank {l : Text} (clean : '\n' ∉ l) (blank : Line.stripComment l = []) :
    seen l = [] := by
  rw [← seen_stripComment clean, blank]
  rfl

end Assembler

end GamePatch
