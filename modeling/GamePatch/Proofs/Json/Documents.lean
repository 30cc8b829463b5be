import GamePatch.Proofs.Json.Strings

set_option autoImplicit false

namespace GamePatch.Json

mutual

/-- Whether a value without numbers is asked for as a whole and is at most `depth` levels deep. -/
def IsAsked : Pattern → Nat → Json → Prop
  | _, _, .number _ => False
  | pattern, depth, .list items => 0 < depth ∧ AreItemsAsked pattern (depth - 1) items
  | pattern, depth, .object entries => 0 < depth ∧ AreEntriesAsked pattern (depth - 1) entries
  | _, _, _ => True

def AreItemsAsked : Pattern → Nat → List Json → Prop
  | _, _, [] => True
  | pattern, depth, item :: rest =>
    IsAsked pattern.uncons.1 depth item ∧ AreItemsAsked pattern.uncons.2 depth rest

def AreEntriesAsked : Pattern → Nat → List (Text × Json) → Prop
  | _, _, [] => True
  | pattern, depth, (key, value) :: rest =>
    (∃ inner, pattern.atKey? key = some inner ∧ IsAsked inner depth value) ∧
      AreEntriesAsked pattern depth rest

end

mutual

/-- The steps that the reader takes for a value. -/
def size : Json → Nat
  | .list items => 1 + sizeItems items
  | .object entries => 1 + sizeEntries entries
  | _ => 1

def sizeItems : List Json → Nat
  | [] => 0
  | item :: rest => 1 + size item + sizeItems rest

def sizeEntries : List (Text × Json) → Nat
  | [] => 0
  | (_, value) :: rest => 1 + size value + sizeEntries rest

end

theorem join_cons (sep part : Text) {parts : List Text} (more : parts ≠ []) :
    Text.join sep (part :: parts) = part ++ (sep ++ Text.join sep parts) := by
  obtain ⟨next, parts, rfl⟩ := List.exists_cons_of_ne_nil more
  rw [Text.join, List.intercalate_cons_cons, List.append_assoc]
  rfl

theorem join_singleton (sep part : Text) : Text.join sep [part] = part := List.intercalate_singleton

/-! ### Steps of the reader -/

section Steps

variable {pattern : Pattern} {depth : Nat} (steps : Nat)

theorem readValue_blanks {blanks : Text} (blank : ∀ c ∈ blanks, isSpace c = true) (s : Text) :
    readValue pattern depth steps (blanks ++ s) = readValue pattern depth steps s := by
  cases steps with
  | zero => rw [readValue, readValue]
  | succ steps => rw [readValue, readValue, skipSpace_append blank]

theorem readItems_blanks {blanks : Text} (blank : ∀ c ∈ blanks, isSpace c = true) (s : Text) :
    readItems pattern depth steps (blanks ++ s) = readItems pattern depth steps s := by
  cases steps with
  | zero => rfl
  | succ steps => rw [readItems, readItems, readValue_blanks steps blank]

theorem readEntries_blanks {blanks : Text} (blank : ∀ c ∈ blanks, isSpace c = true) (s : Text) :
    readEntries pattern depth steps (blanks ++ s) = readEntries pattern depth steps s := by
  cases steps with
  | zero => rfl
  | succ steps => rw [readEntries, readEntries, skipSpace_append blank]

theorem readValue_null (r : Text) :
    readValue pattern depth (steps + 1) ("null".toList ++ r) = some (.null, r) := rfl

theorem readValue_true (r : Text) :
    readValue pattern depth (steps + 1) ("true".toList ++ r) = some (.bool true, r) := rfl

theorem readValue_false (r : Text) :
    readValue pattern depth (steps + 1) ("false".toList ++ r) = some (.bool false, r) := rfl

theorem readValue_text (s r : Text) :
    readValue pattern depth (steps + 1) (writeText s ++ r) = some (.text s, r) := by
  have step (q : Text) : readValue pattern depth (steps + 1) ('"' :: q) =
      (readString (q.length + 1) q).map fun read => (.text read.1, read.2) := rfl
  rw [writeText_append, step, readString_writeText, Option.map_some]

def readList (pattern : Pattern) (depth steps : Nat) : Text → Option (Json × Text)
  | ']' :: rest => some (.list [], rest)
  | r => (readItems pattern depth steps r).map fun (items, rest) => (.list items, rest)

theorem readValue_list (deep : 0 < depth) (r : Text) :
    readValue pattern depth (steps + 1) ('[' :: r) =
      readList pattern (depth - 1) steps (skipSpace r) := by
  obtain ⟨depth, rfl⟩ := Nat.exists_eq_add_one.mpr deep
  rfl

theorem readValue_noItems (deep : 0 < depth) (r : Text) :
    readValue pattern depth (steps + 1) ('[' :: ']' :: r) = some (.list [], r) :=
  readValue_list steps deep (']' :: r)

theorem readValue_items (deep : 0 < depth) {r s : Text} {c : Char} (start : skipSpace r = c :: s)
    (inner : c ≠ ']') :
    readValue pattern depth (steps + 1) ('[' :: r) =
      (readItems pattern (depth - 1) steps (c :: s)).map fun (items, rest) => (.list items, rest) := by
  rw [readValue_list steps deep, start, readList]
  exact fun _ same => inner (List.cons.inj same).1

def readObject (pattern : Pattern) (depth steps : Nat) : Text → Option (Json × Text)
  | '\x7d' :: rest => some (.object [], rest)
  | r => (readEntries pattern depth steps r).map fun (entries, rest) => (.object entries, rest)

theorem readValue_object (deep : 0 < depth) (r : Text) :
    readValue pattern depth (steps + 1) ('\x7b' :: r) =
      readObject pattern (depth - 1) steps (skipSpace r) := by
  obtain ⟨depth, rfl⟩ := Nat.exists_eq_add_one.mpr deep
  rfl

theorem readValue_noEntries (deep : 0 < depth) (r : Text) :
    readValue pattern depth (steps + 1) ('\x7b' :: '\x7d' :: r) = some (.object [], r) :=
  readValue_object steps deep ('\x7d' :: r)

theorem readValue_entries (deep : 0 < depth) {r s : Text} {c : Char} (start : skipSpace r = c :: s)
    (inner : c ≠ '\x7d') :
    readValue pattern depth (steps + 1) ('\x7b' :: r) =
      (readEntries pattern (depth - 1) steps (c :: s)).map fun (entries, rest) =>
        (.object entries, rest) := by
  rw [readValue_object steps deep, start, readObject]
  exact fun _ same => inner (List.cons.inj same).1

theorem readItems_last {s r rest : Text} {item : Json}
    (value : readValue pattern.uncons.1 depth steps s = some (item, r))
    (next : skipSpace r = ']' :: rest) :
    readItems pattern depth (steps + 1) s = some ([item], rest) := by
  rw [readItems, value]
  simp only [next]

theorem readItems_more {s r r' rest : Text} {item : Json} {items : List Json}
    (value : readValue pattern.uncons.1 depth steps s = some (item, r))
    (next : skipSpace r = ',' :: r')
    (others : readItems pattern.uncons.2 depth steps r' = some (items, rest)) :
    readItems pattern depth (steps + 1) s = some (item :: items, rest) := by
  rw [readItems, value]
  simp only [next, others, Option.map_some]

theorem readEntries_last {s r rest key : Text} {inner : Pattern} {item : Json}
    (asked : pattern.atKey? key = some inner)
    (value : readValue inner depth steps s = some (item, r)) (next : skipSpace r = '\x7d' :: rest) :
    readEntries pattern depth (steps + 1) (writeText key ++ ':' :: s) = some ([(key, item)], rest) := by
  rw [writeText_append, readEntries, skipSpace_cons (by decide)]
  simp only [readString_writeText, skipSpace_cons (c := ':') (by decide), asked, value,
    Option.map_some, next]

theorem readEntries_more {s r r' rest key : Text} {inner : Pattern} {item : Json}
    {entries : List (Text × Json)} (asked : pattern.atKey? key = some inner)
    (value : readValue inner depth steps s = some (item, r)) (next : skipSpace r = ',' :: r')
    (others : readEntries pattern depth steps r' = some (entries, rest)) :
    readEntries pattern depth (steps + 1) (writeText key ++ ':' :: s) =
      some ((key, item) :: entries, rest) := by
  rw [writeText_append, readEntries, skipSpace_cons (by decide)]
  simp only [readString_writeText, skipSpace_cons (c := ':') (by decide), asked, value,
    Option.map_some, next, others, List.singleton_append]

end Steps

/-! ### Written values -/

def margin (indent : Nat) : Text := '\n' :: List.replicate (2 * indent) ' '

theorem isSpace_of_mem_margin {indent : Nat} {c : Char} (member : c ∈ margin indent) :
    isSpace c = true := by
  rcases List.mem_cons.mp member with rfl | blank
  · rfl
  · rw [List.eq_of_mem_replicate blank]
    rfl

theorem block_of_ne_nil (opening closing : Char) (indent : Nat) {parts : List Text}
    (more : parts ≠ []) (rest : Text) :
    block opening closing indent parts ++ rest =
      opening :: (margin (indent + 1) ++ (Text.join (',' :: margin (indent + 1)) parts ++
        (margin indent ++ closing :: rest))) := by
  rw [block, if_neg (by simpa using more)]
  simp [margin]

theorem block_nil (opening closing : Char) (indent : Nat) (rest : Text) :
    block opening closing indent [] ++ rest = opening :: closing :: rest := rfl

theorem prettyItems_ne_nil (indent : Nat) {items : List Json} (some : items ≠ []) :
    prettyItems indent items ≠ [] := by
  obtain ⟨item, items, rfl⟩ := List.exists_cons_of_ne_nil some
  rw [prettyItems]
  exact List.cons_ne_nil _ _

theorem prettyEntries_ne_nil (indent : Nat) {entries : List (Text × Json)} (some : entries ≠ []) :
    prettyEntries indent entries ≠ [] := by
  obtain ⟨⟨key, value⟩, entries, rfl⟩ := List.exists_cons_of_ne_nil some
  rw [prettyEntries]
  exact List.cons_ne_nil _ _

/-- A value starts with a character that is no blank and ends no list. -/
theorem pretty_eq_cons {pattern : Pattern} {depth : Nat} (indent : Nat) {j : Json}
    (asked : IsAsked pattern depth j) (rest : Text) :
    ∃ c s, pretty indent j ++ rest = c :: s ∧ isSpace c = false ∧ c ≠ ']' := by
  cases j with
  | null => exact ⟨'n', _, rfl, rfl, by decide⟩
  | bool b => cases b <;> exact ⟨_, _, rfl, rfl, by decide⟩
  | number n => exact asked.elim
  | text s => exact ⟨'"', _, rfl, rfl, by decide⟩
  | list items =>
    refine ⟨'[', ((pretty indent (.list items)).tail ++ rest), ?_, rfl, by decide⟩
    rw [pretty, block]
    split <;> rfl
  | object entries =>
    refine ⟨'\x7b', ((pretty indent (.object entries)).tail ++ rest), ?_, rfl, by decide⟩
    rw [pretty, block]
    split <;> rfl

theorem length_join_cons (sep part : Text) {parts : List Text} (more : parts ≠ []) :
    (Text.join sep (part :: parts)).length =
      part.length + sep.length + (Text.join sep parts).length := by
  rw [join_cons sep part more, List.length_append, List.length_append, Nat.add_assoc]

theorem length_block (opening closing : Char) (indent : Nat) {parts : List Text} (some : parts ≠ []) :
    (Text.join (',' :: margin (indent + 1)) parts).length + 2 ≤
      (block opening closing indent parts).length := by
  have shape := block_of_ne_nil opening closing indent some []
  rw [List.append_nil] at shape
  rw [shape]
  simp only [List.length_cons, List.length_append]
  omega

mutual

/-- A value has at least as many characters as the reader takes steps for it. -/
theorem size_le_length {pattern : Pattern} {depth : Nat} (indent : Nat) :
    (j : Json) → IsAsked pattern depth j → size j ≤ (pretty indent j).length
  | .null, _ => by simp [size, pretty, compact]
  | .bool true, _ => by simp [size, pretty, compact]
  | .bool false, _ => by simp [size, pretty, compact]
  | .text s, _ => by simp [size, pretty, compact, writeText]
  | .list [], _ => by simp [size, sizeItems, pretty, prettyItems, block]
  | .list (item :: items), ⟨_, asked⟩ => by
    have inner := sizeItems_le_length indent (item :: items) (List.cons_ne_nil _ _) asked
    have outer := length_block '[' ']' indent
      (prettyItems_ne_nil indent (List.cons_ne_nil item items))
    rw [size, pretty]
    omega
  | .object [], _ => by simp [size, sizeEntries, pretty, prettyEntries, block]
  | .object (entry :: entries), ⟨_, asked⟩ => by
    have inner := sizeEntries_le_length indent (entry :: entries) (List.cons_ne_nil _ _) asked
    have outer := length_block '\x7b' '\x7d' indent
      (prettyEntries_ne_nil indent (List.cons_ne_nil entry entries))
    rw [size, pretty]
    omega

theorem sizeItems_le_length {pattern : Pattern} {depth : Nat} (indent : Nat) :
    (items : List Json) → items ≠ [] → AreItemsAsked pattern depth items →
      sizeItems items ≤
        (Text.join (',' :: margin (indent + 1)) (prettyItems indent items)).length + 1
  | [item], _, ⟨asked, _⟩ => by
    have value := size_le_length (indent + 1) item asked
    rw [sizeItems, sizeItems, prettyItems, prettyItems, join_singleton]
    omega
  | item :: next :: items, _, ⟨asked, others⟩ => by
    have value := size_le_length (indent + 1) item asked
    have rest := sizeItems_le_length indent (next :: items) (List.cons_ne_nil _ _) others
    rw [sizeItems, prettyItems,
      length_join_cons _ _ (prettyItems_ne_nil indent (List.cons_ne_nil next items)), List.length_cons]
    omega

theorem sizeEntries_le_length {pattern : Pattern} {depth : Nat} (indent : Nat) :
    (entries : List (Text × Json)) → entries ≠ [] → AreEntriesAsked pattern depth entries →
      sizeEntries entries ≤
        (Text.join (',' :: margin (indent + 1)) (prettyEntries indent entries)).length + 1
  | [(key, item)], _, ⟨⟨_, _, asked⟩, _⟩ => by
    have value := size_le_length (indent + 1) item asked
    rw [sizeEntries, sizeEntries, prettyEntries, prettyEntries, join_singleton, List.length_append]
    omega
  | (key, item) :: next :: entries, _, ⟨⟨_, _, asked⟩, others⟩ => by
    have value := size_le_length (indent + 1) item asked
    have rest := sizeEntries_le_length indent (next :: entries) (List.cons_ne_nil _ _) others
    rw [sizeEntries, prettyEntries,
      length_join_cons _ _ (prettyEntries_ne_nil indent (List.cons_ne_nil next entries)),
      List.length_cons, List.length_append]
    omega

end

/-- The blanks before a part do not matter, nor do those before the closing bracket. -/
theorem skipSpace_margin (indent : Nat) {c : Char} (solid : isSpace c = false) (rest : Text) :
    skipSpace (margin indent ++ c :: rest) = c :: rest := by
  rw [skipSpace_append fun _ => isSpace_of_mem_margin, skipSpace_cons solid]

/-- The text of some items, from its first character on. -/
theorem prettyItems_eq_cons {pattern : Pattern} {depth : Nat} (indent : Nat) {sep : Text}
    {item : Json} {items : List Json} (asked : AreItemsAsked pattern depth (item :: items))
    (rest : Text) :
    ∃ c s, Text.join sep (prettyItems indent (item :: items)) ++ rest = c :: s ∧
      isSpace c = false ∧ c ≠ ']' := by
  rw [prettyItems]
  cases items with
  | nil =>
    rw [prettyItems, join_singleton]
    exact pretty_eq_cons (indent + 1) asked.1 rest
  | cons next items =>
    rw [join_cons _ _ (prettyItems_ne_nil indent (List.cons_ne_nil next items)), List.append_assoc]
    exact pretty_eq_cons (indent + 1) asked.1 _

/-- The gap between a key and its value. -/
theorem isSpace_of_mem_gap : ∀ c ∈ [' '], isSpace c = true :=
  List.forall_mem_singleton.mpr rfl

/-- An entry is its key, a colon and its value. -/
theorem entry_append (key value rest : Text) :
    writeText key ++ ": ".toList ++ value ++ rest = writeText key ++ ':' :: ([' '] ++ (value ++ rest)) := by
  rw [List.append_assoc, List.append_assoc]
  rfl

theorem prettyEntries_eq_cons (indent : Nat) {sep : Text} (entry : Text × Json)
    (entries : List (Text × Json)) (rest : Text) :
    ∃ s, Text.join sep (prettyEntries indent (entry :: entries)) ++ rest = '"' :: s := by
  obtain ⟨key, value⟩ := entry
  rw [prettyEntries]
  cases entries with
  | nil =>
    rw [prettyEntries, join_singleton, entry_append, writeText_append]
    exact ⟨_, rfl⟩
  | cons next entries =>
    rw [join_cons _ _ (prettyEntries_ne_nil indent (List.cons_ne_nil next entries)),
      List.append_assoc, entry_append, writeText_append]
    exact ⟨_, rfl⟩

mutual

/-- A written value is read back. -/
theorem readValue_pretty {pattern : Pattern} {depth : Nat} (indent : Nat) (rest : Text) :
    (j : Json) → IsAsked pattern depth j → (steps : Nat) → size j ≤ steps →
      readValue pattern depth steps (pretty indent j ++ rest) = some (j, rest)
  | .null, _, steps + 1, _ => readValue_null steps rest
  | .bool true, _, steps + 1, _ => readValue_true steps rest
  | .bool false, _, steps + 1, _ => readValue_false steps rest
  | .text s, _, steps + 1, _ => readValue_text steps s rest
  | .list [], ⟨deep, _⟩, steps + 1, _ => by
    rw [pretty, prettyItems, block_nil]
    exact readValue_noItems steps deep rest
  | .list (item :: items), ⟨deep, asked⟩, steps, enough => by
    rw [size] at enough
    obtain ⟨steps, rfl⟩ : ∃ n, steps = n + 1 := ⟨steps - 1, by omega⟩
    have inner := readItems_pretty indent rest (item :: items) (List.cons_ne_nil _ _) asked steps
      (by omega)
    obtain ⟨c, s, start, solid, other⟩ := prettyItems_eq_cons indent asked
      (margin indent ++ ']' :: rest)
    rw [pretty, block_of_ne_nil _ _ _ (prettyItems_ne_nil indent (List.cons_ne_nil _ _))]
    rw [start] at inner ⊢
    rw [readValue_items steps deep (skipSpace_margin _ solid s) other, inner, Option.map_some]
  | .object [], ⟨deep, _⟩, steps + 1, _ => by
    rw [pretty, prettyEntries, block_nil]
    exact readValue_noEntries steps deep rest
  | .object (entry :: entries), ⟨deep, asked⟩, steps, enough => by
    rw [size] at enough
    obtain ⟨steps, rfl⟩ : ∃ n, steps = n + 1 := ⟨steps - 1, by omega⟩
    have inner := readEntries_pretty indent rest (entry :: entries) (List.cons_ne_nil _ _) asked steps
      (by omega)
    obtain ⟨s, start⟩ := prettyEntries_eq_cons indent entry entries
      (margin indent ++ '\x7d' :: rest)
    rw [pretty, block_of_ne_nil _ _ _ (prettyEntries_ne_nil indent (List.cons_ne_nil _ _))]
    rw [start] at inner ⊢
    rw [readValue_entries steps deep (skipSpace_margin _ (by decide) s) (by decide), inner,
      Option.map_some]

/-- The items of a list are read back, up to the bracket behind them. -/
theorem readItems_pretty {pattern : Pattern} {depth : Nat} (indent : Nat) (rest : Text) :
    (items : List Json) → items ≠ [] → AreItemsAsked pattern depth items → (steps : Nat) →
      sizeItems items ≤ steps →
        readItems pattern depth steps
          (Text.join (',' :: margin (indent + 1)) (prettyItems indent items) ++
            (margin indent ++ ']' :: rest)) = some (items, rest)
  | [item], _, ⟨asked, _⟩, steps, enough => by
    rw [sizeItems] at enough
    obtain ⟨steps, rfl⟩ : ∃ n, steps = n + 1 := ⟨steps - 1, by omega⟩
    have value := readValue_pretty (indent + 1) (margin indent ++ ']' :: rest) item asked steps
      (by omega)
    rw [prettyItems, prettyItems, join_singleton]
    exact readItems_last steps value (skipSpace_margin indent (by decide) rest)
  | item :: next :: items, _, ⟨asked, others⟩, steps, enough => by
    rw [sizeItems] at enough
    obtain ⟨steps, rfl⟩ : ∃ n, steps = n + 1 := ⟨steps - 1, by omega⟩
    have more := readItems_pretty indent rest (next :: items) (List.cons_ne_nil _ _) others steps
      (by omega)
    rw [prettyItems, join_cons _ _ (prettyItems_ne_nil indent (List.cons_ne_nil next items)),
      List.append_assoc, List.append_assoc]
    refine readItems_more steps (readValue_pretty (indent + 1) _ item asked steps (by omega))
      (skipSpace_cons (by decide) _) ?_
    exact (readItems_blanks steps (fun _ => isSpace_of_mem_margin) _).trans more

/-- The entries of an object are read back, up to the bracket behind them. -/
theorem readEntries_pretty {pattern : Pattern} {depth : Nat} (indent : Nat) (rest : Text) :
    (entries : List (Text × Json)) → entries ≠ [] → AreEntriesAsked pattern depth entries →
      (steps : Nat) → sizeEntries entries ≤ steps →
        readEntries pattern depth steps
          (Text.join (',' :: margin (indent + 1)) (prettyEntries indent entries) ++
            (margin indent ++ '\x7d' :: rest)) = some (entries, rest)
  | [(key, item)], _, ⟨⟨inner, known, asked⟩, _⟩, steps, enough => by
    rw [sizeEntries] at enough
    obtain ⟨steps, rfl⟩ : ∃ n, steps = n + 1 := ⟨steps - 1, by omega⟩
    have value := readValue_pretty (indent + 1) (margin indent ++ '\x7d' :: rest) item asked steps
      (by omega)
    rw [prettyEntries, prettyEntries, join_singleton, entry_append]
    exact readEntries_last steps known ((readValue_blanks steps isSpace_of_mem_gap _).trans value)
      (skipSpace_margin indent (by decide) rest)
  | (key, item) :: next :: entries, _, ⟨⟨inner, known, asked⟩, others⟩, steps, enough => by
    rw [sizeEntries] at enough
    obtain ⟨steps, rfl⟩ : ∃ n, steps = n + 1 := ⟨steps - 1, by omega⟩
    have more := readEntries_pretty indent rest (next :: entries) (List.cons_ne_nil _ _) others steps
      (by omega)
    rw [prettyEntries, join_cons _ _ (prettyEntries_ne_nil indent (List.cons_ne_nil next entries)),
      List.append_assoc, entry_append, List.append_assoc]
    refine readEntries_more steps known
      ((readValue_blanks steps isSpace_of_mem_gap _).trans
        (readValue_pretty (indent + 1) _ item asked steps (by omega)))
      (skipSpace_cons (by decide) _) ?_
    exact (readEntries_blanks steps (fun _ => isSpace_of_mem_margin) _).trans more

end

/-- A written document is read back. -/
theorem parseAs?_pretty {pattern : Pattern} {j : Json} (asked : IsAsked pattern maxDepth j) :
    parseAs? pattern (pretty 0 j) = some j := by
  have value := readValue_pretty 0 [] j asked ((pretty 0 j).length + 1)
    (Nat.le_succ_of_le (size_le_length 0 j asked))
  rw [List.append_nil] at value
  rw [parseAs?, value]
  rfl

end GamePatch.Json
