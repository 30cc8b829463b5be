import GamePatch.Json.Fields
import GamePatch.Proofs.Json.Documents

set_option autoImplicit false

namespace GamePatch.Json

/-- The entries of a record, from the names of its fields and the values that there are. -/
def recordEntries : List Text → List (Option Json) → List (Text × Json)
  | name :: names, value :: values =>
    (value.map fun value => (name, value)).toList ++ recordEntries names values
  | _, _ => []

theorem entry?_eq (name : String) (value : Option Json) :
    entry? name value = (value.map fun value => (name.toList, value)).toList := by
  cases value <;> rfl

theorem key_mem_of_mem_recordEntries {names : List Text} {values : List (Option Json)}
    {entry : Text × Json} (member : entry ∈ recordEntries names values) : entry.1 ∈ names := by
  induction names generalizing values with
  | nil => cases member
  | cons name names ih =>
    cases values with
    | nil => cases member
    | cons value values =>
      rw [recordEntries, List.mem_append] at member
      rcases member with own | later
      · obtain ⟨j, -, rfl⟩ := Option.map_eq_some_iff.mp (Option.mem_toList.mp own)
        exact List.mem_cons_self
      · exact List.mem_cons_of_mem _ (ih later)

/-- A field is found behind the entries of other fields. -/
theorem field?_of_apart {front back : List (Text × Json)} {name : Text}
    (before : ∀ e ∈ front, e.1 ≠ name) (behind : ∀ e ∈ back, e.1 ≠ name) (value : Option Json) :
    field? (front ++ ((value.map fun value => (name, value)).toList ++ back)) name = some value := by
  have none : ∀ {entries : List (Text × Json)}, (∀ e ∈ entries, e.1 ≠ name) →
      entries.filter (fun e => e.1 == name) = [] := fun apart =>
    List.filter_eq_nil_iff.mpr fun e member => by simpa using apart e member
  rw [field?, List.filter_append, List.filter_append, none before, none behind, List.nil_append,
    List.append_nil]
  cases value with
  | none => rfl
  | some value => simp

theorem mapM_field? {names : List Text} {values : List (Option Json)} (distinct : names.Nodup)
    (length : values.length = names.length) (front : List (Text × Json))
    (apart : ∀ e ∈ front, e.1 ∉ names) :
    names.mapM (field? (front ++ recordEntries names values)) = some values := by
  induction names generalizing values front with
  | nil =>
    rw [List.length_nil, List.length_eq_zero_iff] at length
    rw [length]
    rfl
  | cons name names ih =>
    obtain ⟨value, values, rfl⟩ := List.exists_cons_of_length_eq_add_one length
    rw [List.length_cons, List.length_cons, Nat.add_right_cancel_iff] at length
    rw [List.nodup_cons] at distinct
    have own : field? (front ++ recordEntries (name :: names) (value :: values)) name = some value :=
      field?_of_apart (fun e member same => apart e member (same ▸ List.mem_cons_self))
        (fun e member same => distinct.1 (same ▸ key_mem_of_mem_recordEntries member)) value
    have others := ih distinct.2 length
      (front ++ (value.map fun value => (name, value)).toList) (by
        intro e member known
        rcases List.mem_append.mp member with before | new
        · exact apart e before (List.mem_cons_of_mem _ known)
        · obtain ⟨j, -, rfl⟩ := Option.map_eq_some_iff.mp (Option.mem_toList.mp new)
          exact distinct.1 known)
    rw [List.append_assoc] at others
    rw [List.mapM_cons, own]
    change (names.mapM (field? (front ++ recordEntries (name :: names) (value :: values)))).bind
      (fun values => some (value :: values)) = _
    rw [recordEntries, others]
    rfl

/-- The values of the fields of a written record. -/
theorem fields?_recordEntries {names : List Text} {values : List (Option Json)}
    (distinct : names.Nodup) (length : values.length = names.length) :
    fields? names (.object (recordEntries names values)) = some values :=
  mapM_field? distinct length [] (by simp)

/-- A record is asked for if each of its fields is. -/
theorem areEntriesAsked_recordEntries {pattern : Pattern} {depth : Nat} {names : List Text}
    {values : List (Option Json)}
    (asked : ∀ field ∈ names.zip values, ∀ value ∈ field.2,
      ∃ inner, pattern.atKey? field.1 = some inner ∧ IsAsked inner depth value) :
    AreEntriesAsked pattern depth (recordEntries names values) := by
  induction names generalizing values with
  | nil => trivial
  | cons name names ih =>
    cases values with
    | nil => trivial
    | cons value values =>
      rw [List.zip_cons_cons, List.forall_mem_cons] at asked
      have others := ih asked.2
      cases value with
      | none => exact others
      | some value => exact ⟨asked.1 value rfl, others⟩

/-- A field of a record is asked for by its own pattern. -/
theorem atKey?_record {fields : List (Text × Pattern)} (distinct : (fields.map Prod.fst).Nodup)
    {field : Text × Pattern} (member : field ∈ fields) :
    (Pattern.record fields).atKey? field.1 = some field.2 := by
  have found : fields.find? (fun other => other.1 == field.1) = some field := by
    induction fields with
    | nil => cases member
    | cons other fields ih =>
      rw [List.map_cons, List.nodup_cons] at distinct
      rcases List.mem_cons.mp member with rfl | later
      · exact List.find?_cons_of_pos (beq_self_eq_true field.1)
      · have apart : other.1 ≠ field.1 := fun same =>
          distinct.1 (same ▸ List.mem_map_of_mem later)
        rw [List.find?_cons_of_neg (by simpa using apart), ih distinct.2 later]
  rw [Pattern.atKey?, found, Option.map_some]

/-- A list is asked for if each item is, where one pattern is that of all items. -/
theorem isAsked_items {α : Type} {pattern item : Pattern} {depth : Nat} {items : List α}
    {write : α → Json} (same : pattern.uncons = (item, pattern)) (deep : 0 < depth)
    (asked : ∀ x ∈ items, IsAsked item (depth - 1) (write x)) :
    IsAsked pattern depth (.list (items.map write)) := by
  refine ⟨deep, ?_⟩
  induction items with
  | nil => trivial
  | cons x items ih =>
    rw [List.forall_mem_cons] at asked
    rw [List.map_cons, AreItemsAsked, same]
    exact ⟨asked.1, ih asked.2⟩

/-! ### Readers and their writers -/

section Readers

variable {α : Type} {read : Json → Option α} {write : α → Json}

theorem mapM_map_of_inverse {items : List α} (inverse : ∀ a ∈ items, read (write a) = some a) :
    (items.map write).mapM read = some items := by
  induction items with
  | nil => rfl
  | cons a items ih =>
    rw [List.forall_mem_cons] at inverse
    rw [List.map_cons, List.mapM_cons, inverse.1, ih inverse.2]
    rfl

theorem asList_map (items : List α) (inverse : ∀ a ∈ items, read (write a) = some a) :
    asList read (.list (items.map write)) = some items :=
  mapM_map_of_inverse inverse

theorem optional_map (read : Json → Option α) (write : α → Json)
    (inverse : ∀ a, read (write a) = some a) (proper : ∀ a, write a ≠ .null)
    (value : Option α) : optional read (value.map write) = some value := by
  cases value with
  | none => rfl
  | some a =>
    rw [Option.map_some, optional, inverse, Option.map_some]
    exact fun null => proper a null

theorem asList_texts (texts : List Text) : asList asText (.list (texts.map .text)) = some texts :=
  asList_map texts fun _ _ => rfl

end Readers

end GamePatch.Json
