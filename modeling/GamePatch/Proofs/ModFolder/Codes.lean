import GamePatch.ModFolder.Document
import GamePatch.Proofs.Json.Records

set_option autoImplicit false

namespace GamePatch

theorem BuildType.ofJson?_name (t : BuildType) : BuildType.ofJson? (.text t.name) = some t := by
  cases t <;> decide

namespace BuildEntry

def values (e : BuildEntry) : List (Option Json) :=
  [some (.text e.type.name), e.address.map .text, e.name.map .text, e.value.map .text,
    e.sourceFile.map fun p => .text p.text, e.sourceFolder.map fun p => .text p.text,
    e.isRecursive.map .bool, e.note.map .text, e.vanilla.map .text]

theorem toJson_eq (e : BuildEntry) : e.toJson = .object (Json.recordEntries fields e.values) := by
  simp [toJson, fields, values, Json.recordEntries, Json.entry?_eq]

theorem fields_nodup : fields.Nodup := by decide

theorem read?_toJson (e : BuildEntry) : read? e.toJson = some e := by
  have written : Json.fields? fields e.toJson = some e.values := by
    rw [toJson_eq]
    exact Json.fields?_recordEntries fields_nodup rfl
  have text (v : Option Text) : Json.optional Json.asText (v.map .text) = some v :=
    Json.optional_map Json.asText .text (fun _ => rfl) (by simp) v
  have path (v : Option Path) : Json.optional asPath (v.map fun p => .text p.text) = some v :=
    Json.optional_map asPath (fun p => .text p.text) (fun _ => rfl) (by simp) v
  have bool (v : Option Bool) : Json.optional Json.asBool (v.map .bool) = some v :=
    Json.optional_map Json.asBool .bool (fun _ => rfl) (by simp) v
  rw [read?, written]
  simp [values, Json.required, BuildType.ofJson?_name, text, path, bool]

/-- Each value of an entry is a leaf. -/
theorem isAsked_of_mem_values {e : BuildEntry} {pattern : Json.Pattern} {depth : Nat} {j : Json}
    (member : some j ∈ e.values) : Json.IsAsked pattern depth j := by
  have leaf : (∃ s, j = .text s) ∨ ∃ b, j = .bool b := by
    simp only [values, List.mem_cons, List.not_mem_nil, or_false, Option.some.injEq,
      eq_comm (a := some j), Option.map_eq_some_iff] at member
    rcases member with h | ⟨_, _, h⟩ | ⟨_, _, h⟩ | ⟨_, _, h⟩ | ⟨_, _, h⟩ | ⟨_, _, h⟩ | ⟨_, _, h⟩ |
      ⟨_, _, h⟩ | ⟨_, _, h⟩
    all_goals simp [← h]
  rcases leaf with ⟨s, rfl⟩ | ⟨b, rfl⟩ <;> trivial

theorem isAsked_toJson (e : BuildEntry) {depth : Nat} (deep : 0 < depth) :
    Json.IsAsked pattern depth e.toJson := by
  rw [toJson_eq]
  refine ⟨deep, Json.areEntriesAsked_recordEntries fun field member value own => ?_⟩
  have inside := List.of_mem_zip member
  have whole : (field.1, Json.Pattern.whole) ∈ fields.map fun name => (name, Json.Pattern.whole) :=
    List.mem_map_of_mem inside.1
  exact ⟨.whole, Json.atKey?_record (by decide) whole, isAsked_of_mem_values (own ▸ inside.2)⟩

end BuildEntry

namespace CodeRecord

def values (c : CodeRecord) : List (Option Json) :=
  [some (.text c.name), unlessEmpty c.authors (.list (c.authors.map .text)),
    unlessEmpty c.description.write c.description.toJson,
    unlessEmpty c.links (.list (c.links.map fun link => .list (link.map .text))),
    some (.text c.revision), unlessEmpty c.options (.object c.options),
    some (.list (c.build.map BuildEntry.toJson))]

theorem toJson_eq (c : CodeRecord) :
    c.toJson = .object (Json.recordEntries (fields.map Prod.fst) c.values) := by
  simp [toJson, fields, values, Json.recordEntries, Json.entry?_eq]

theorem defaulted_unlessEmpty {α β : Type} {read : Json → Option (List β)} {items : List α} {json : Json}
    {back : List β} (inverse : read json = some back) (none : items = [] → back = []) :
    Json.defaulted [] read (unlessEmpty items json) = some back := by
  rw [unlessEmpty]
  split
  case isTrue empty => rw [Json.defaulted, none (List.isEmpty_iff.mp empty)]
  case isFalse => exact inverse

/-- A code without options whose description is a text. -/
structure IsPlain (c : CodeRecord) : Prop where
  options : c.options = []
  description : ∃ s, c.description = .text s

theorem description_read {c : CodeRecord} {s : Text} (text : c.description = .text s) :
    Json.defaulted (.text []) Description.ofJson?
      (unlessEmpty c.description.write c.description.toJson) = some c.description := by
  rw [text]
  cases s <;> rfl

theorem read?_toJson {c : CodeRecord} (plain : c.IsPlain) : read? c.toJson = some c := by
  obtain ⟨options, s, description⟩ := plain
  have written : Json.fields? (fields.map Prod.fst) c.toJson = some c.values := by
    rw [toJson_eq]
    exact Json.fields?_recordEntries (by decide) rfl
  have authors := defaulted_unlessEmpty (Json.asList_texts c.authors) id
  have links := defaulted_unlessEmpty
    (Json.asList_map c.links fun link _ => Json.asList_texts link) id
  have noOptions : Json.defaulted [] Json.asMap (unlessEmpty c.options (.object c.options)) =
      some c.options := by
    rw [options]
    rfl
  have revision (label : Text) : Json.defaulted label Json.asText (some (.text c.revision)) =
      some c.revision := rfl
  have build : Json.defaulted [] (Json.asList BuildEntry.read?)
      (some (.list (c.build.map BuildEntry.toJson))) = some c.build :=
    Json.asList_map c.build fun e _ => BuildEntry.read?_toJson e
  rw [read?, written]
  simp [values, Json.required, Json.asText, authors, description_read description, links, noOptions,
    revision, build]

theorem eq_of_mem_unlessEmpty {α : Type} {items : List α} {json j : Json}
    (member : j ∈ unlessEmpty items json) : j = json := by
  rw [unlessEmpty] at member
  split at member
  case isTrue => cases member
  case isFalse => exact (Option.mem_some_iff.mp member).symm

theorem isAsked_toJson {c : CodeRecord} (plain : c.IsPlain) {depth : Nat} (deep : 3 < depth) :
    Json.IsAsked (.record fields) depth c.toJson := by
  obtain ⟨options, s, description⟩ := plain
  have authors : Json.IsAsked .whole (depth - 1) (.list (c.authors.map .text)) :=
    Json.isAsked_items rfl (by omega) fun _ _ => trivial
  have links : Json.IsAsked .whole (depth - 1)
      (.list (c.links.map fun link => .list (link.map .text))) :=
    Json.isAsked_items rfl (by omega) fun _ _ => Json.isAsked_items rfl (by omega) fun _ _ => trivial
  have build : Json.IsAsked (.list BuildEntry.pattern) (depth - 1)
      (.list (c.build.map BuildEntry.toJson)) :=
    Json.isAsked_items rfl (by omega) fun e _ => BuildEntry.isAsked_toJson e (by omega)
  rw [toJson_eq]
  refine ⟨by omega, Json.areEntriesAsked_recordEntries ?_⟩
  simp only [fields, values, List.map_cons, List.map_nil, List.zip_cons_cons, List.zip_nil_left,
    List.forall_mem_cons, options, description]
  refine ⟨?_, ?_, ?_, ?_, ?_, ?_, ?_, by simp⟩
  · rintro _ ⟨⟩
    exact ⟨.whole, rfl, trivial⟩
  · intro j member
    exact ⟨.whole, rfl, eq_of_mem_unlessEmpty member ▸ authors⟩
  · intro j member
    exact ⟨.whole, rfl, eq_of_mem_unlessEmpty member ▸ trivial⟩
  · intro j member
    exact ⟨.whole, rfl, eq_of_mem_unlessEmpty member ▸ links⟩
  · rintro _ ⟨⟩
    exact ⟨.whole, rfl, trivial⟩
  · rintro _ ⟨⟩
  · rintro _ ⟨⟩
    exact ⟨_, rfl, build⟩

/-- The codes of a document are read back. -/
theorem readDocument?_written {codes : List CodeRecord} (plain : ∀ c ∈ codes, c.IsPlain) :
    readDocument? ((documentToJson codes).pretty 0) = some codes := by
  have asked : Json.IsAsked documentPattern Json.maxDepth (documentToJson codes) := by
    refine ⟨by decide, ⟨_, rfl, Json.isAsked_items rfl (by decide) fun c member => ?_⟩, trivial⟩
    exact isAsked_toJson (plain c member) (by decide)
  have back : Json.asList read? (.list (codes.map toJson)) = some codes :=
    Json.asList_map codes fun c member => read?_toJson (plain c member)
  rw [readDocument?, Json.parseAs?_pretty asked]
  exact back

end CodeRecord

end GamePatch
