import GamePatch.ModFolder.Writer
import GamePatch.Proofs.GameMod.RawOptions
import GamePatch.Proofs.ModFolder.Saving
import GamePatch.Proofs.ModText.Composed
import GamePatch.Proofs.ModText.DeclaredOptions

set_option autoImplicit false

namespace GamePatch

open GamePatch.Configuration (find?)

namespace Configuration

/-- The options with one in the place of the first of its name, or else at the end. -/
def putNamed (o : Configuration) : List Configuration → List Configuration
  | [] => [o]
  | p :: rest => if p.name = o.name then o :: rest else p :: putNamed o rest

/-- The last option of each name, at the place of the first. -/
def lastNamed (options : List Configuration) : List Configuration :=
  options.foldl (fun kept o => putNamed o kept) []

def recordEntry (o : Configuration) : Text × Json := (o.name, o.toRecord.toJson)

section

variable {o : Configuration} {options kept : List Configuration} {name : Text}

theorem find?_putNamed (o : Configuration) (kept : List Configuration) (name : Text) :
    find? (putNamed o kept) name = if o.name = name then some o else find? kept name := by
  induction kept with
  | nil =>
    rw [putNamed, find?, List.find?_singleton]
    by_cases own : o.name = name
    · rw [if_pos own, if_pos (beq_iff_eq.mpr own)]
    · rw [if_neg own, if_neg (by simpa using own)]
      rfl
  | cons p kept ih =>
    rw [putNamed]
    by_cases same : p.name = o.name
    · rw [if_pos same, find?, find?, List.find?_cons, List.find?_cons, same]
      by_cases own : o.name = name
      · rw [if_pos own, beq_iff_eq.mpr own]
      · rw [if_neg own, beq_eq_false_iff_ne.mpr own]
    · rw [if_neg same, find?, find?, List.find?_cons, List.find?_cons]
      by_cases found : p.name = name
      · have other : o.name ≠ name := fun own => same (found.trans own.symm)
        rw [if_neg other, beq_iff_eq.mpr found]
      · rw [beq_eq_false_iff_ne.mpr found]
        exact ih

/-- A look-up finds the last option of a name. -/
theorem find?_lastNamed (options : List Configuration) (name : Text) :
    find? (lastNamed options) name = find? options.reverse name := by
  suffices all : ∀ kept, find? (options.foldl (fun kept o => putNamed o kept) kept) name =
      (find? options.reverse name).or (find? kept name) by
    rw [lastNamed, all]
    exact Option.or_none
  induction options with
  | nil => exact fun kept => rfl
  | cons o options ih =>
    intro kept
    rw [List.foldl_cons, ih, find?_putNamed, List.reverse_cons, find?, find?, find?, List.find?_append,
      List.find?_singleton, Option.or_assoc]
    congr 1
    by_cases own : o.name = name
    · rw [if_pos own, if_pos (beq_iff_eq.mpr own)]
      rfl
    · rw [if_neg own, if_neg (by simpa using own)]
      rfl

theorem mem_putNamed {p : Configuration} (member : p ∈ putNamed o kept) : p = o ∨ p ∈ kept := by
  induction kept with
  | nil => exact Or.inl (List.mem_singleton.mp member)
  | cons q kept ih =>
    rw [putNamed] at member
    split at member
    · rcases List.mem_cons.mp member with own | rest
      · exact Or.inl own
      · exact Or.inr (List.mem_cons_of_mem q rest)
    · rcases List.mem_cons.mp member with first | rest
      · exact Or.inr (first ▸ List.mem_cons_self)
      · exact (ih rest).imp_right (List.mem_cons_of_mem q)

theorem mem_lastNamed {p : Configuration} (member : p ∈ lastNamed options) : p ∈ options := by
  suffices all : ∀ kept, p ∈ options.foldl (fun kept o => putNamed o kept) kept →
      p ∈ options ∨ p ∈ kept from
    (all [] member).resolve_right List.not_mem_nil
  clear member
  induction options with
  | nil => exact fun kept => Or.inr
  | cons o options ih =>
    intro kept member
    rcases ih (putNamed o kept) member with later | before
    · exact Or.inl (List.mem_cons_of_mem o later)
    · rcases mem_putNamed before with own | known
      · exact Or.inl (own ▸ List.mem_cons_self)
      · exact Or.inr known

theorem insertEntry_map (o : Configuration) (kept : List Configuration) :
    Json.insertEntry o.name o.toRecord.toJson (kept.map recordEntry) =
      (putNamed o kept).map recordEntry := by
  induction kept with
  | nil => rfl
  | cons p kept ih =>
    rw [putNamed, List.map_cons, recordEntry, Json.insertEntry, ih]
    split
    · rfl
    · rfl

end

end Configuration

namespace ModFolder

/-- The options in a code are the last of each name. -/
theorem optionRecords_eq (options : List Configuration) :
    optionRecords options = (Configuration.lastNamed options).map Configuration.recordEntry := by
  suffices all : ∀ kept : List Configuration,
      options.foldl (fun entries o => Json.insertEntry o.name o.toRecord.toJson entries)
          (kept.map Configuration.recordEntry) =
        (options.foldl (fun kept o => Configuration.putNamed o kept) kept).map
          Configuration.recordEntry from
    all []
  induction options with
  | nil => exact fun kept => rfl
  | cons o options ih =>
    intro kept
    rw [List.foldl_cons, Configuration.insertEntry_map]
    exact ih (Configuration.putNamed o kept)

/-- Options that are read back from their records are added as they are. -/
theorem addRawOptions_records {options : List Configuration}
    (recordable : ∀ o ∈ options, o.IsRecordable) (m : GameMod) :
    m.addRawOptions (options.map Configuration.recordEntry) = { m with options := m.options ++ options } := by
  induction options generalizing m with
  | nil =>
    rw [List.append_nil]
    rfl
  | cons o options ih =>
    rw [List.forall_mem_cons] at recordable
    have accepted := GameMod.addRawOption_accepted (m := m)
      (Configuration.ofJson_toRecord recordable.1)
    rw [List.map_cons, GameMod.addRawOptions_cons]
    change (m.addRawOption o.name o.toRecord.toJson).addRawOptions _ = _
    rw [accepted, ih recordable.2, List.append_assoc, List.singleton_append]

/-- Each code of a mod has all its options, and a mod with revisions has codes. -/
theorem codes_of_contents (m : GameMod) :
    ((contents m).1 = [] ↔ m.revisions = []) ∧
      ∀ c ∈ (contents m).1, c.options = optionRecords m.options := by
  rw [contents, codesOf_eq]
  constructor
  · rw [List.map_eq_nil_iff]
    cases m.revisions <;> simp [storedOf]
  · intro c member
    obtain ⟨r, -, rfl⟩ := List.mem_map.mp member
    rfl

/-- The options of a text come back from the codes of its folder without an error. A look-up finds the
last option of a name, where one in the mod finds the first. -/
theorem lookUp_reloaded {text : Text} {m : GameMod} (read : ModText.parse text = .ok m)
    (revisions : m.revisions ≠ []) (whole : ∀ o ∈ m.options, o.kind.IsWhole)
    (members : ∀ o ∈ m.options, ∀ member ∈ o.members, member.value.IsReadable) :
    (contents m).1 ≠ [] ∧ ∀ c ∈ (contents m).1, ∀ title,
      ((GameMod.new title).addRawOptions c.options).errors = [] ∧
        ∀ name, find? ((GameMod.new title).addRawOptions c.options).options name =
          find? m.options.reverse name := by
  obtain ⟨empty, options⟩ := codes_of_contents m
  refine ⟨fun none => revisions (empty.mp none), fun c member title => ?_⟩
  have recordable : ∀ o ∈ Configuration.lastNamed m.options, o.IsRecordable := by
    intro o kept
    have inside := Configuration.mem_lastNamed kept
    exact (ModText.isDeclaredOption_of_parse read o inside).isRecordable (whole o inside)
      (members o inside)
  rw [options c member, optionRecords_eq, addRawOptions_records recordable]
  refine ⟨rfl, fun name => ?_⟩
  exact Configuration.find?_lastNamed m.options name

/-! ### An option that is declared twice -/

/-- A text with a range, a member and a mask, and with two options of one name. -/
def repeatedLines : List Text :=
  ["Menus", "Configurations:", "    uint8 Frames = 2; 1-8", "        2: Short",
    "    mask8 Flags = 0x04; (0x0F)", "    uint8 Frames = 3", "<Wait> ALL", "386000[[Frames]]"]

def byteNamed (name : Text) (value : Int) : Configuration :=
  { name := name
    kind := .int .one false none
    default := .int value
    value := .int value
    members := []
    note := none
    hexadecimal := false }

def repeatedMod : GameMod :=
  { GameMod.new "Menus" with
    options :=
      [{ byteNamed "Frames" 2 with
          kind := .int .one false (some (1, 8))
          members := [⟨.int 2, "Short", none⟩] },
        { byteNamed "Flags" 4 with
          kind := .mask .one (some 15)
          hexadecimal := true },
        byteNamed "Frames" 3]
    revisions := [⟨"ALL", [.new .standalone "Wait" "386000[[Frames]]"]⟩]
    sourceText := some (Text.terminated repeatedLines) }

theorem parse_repeatedLines : ModText.parse (Text.terminated repeatedLines) = .ok repeatedMod := by
  have whole : ∀ l ∈ repeatedLines, Text.IsLine l := by
    simp only [Text.IsLine]
    decide
  have title : repeatedLines.dropWhile ModText.isBeforeTitle =
      "Menus".toList :: repeatedLines.tail := by
    decide +kernel
  have top : ModText.readTop (GameMod.new "Menus") [] repeatedLines.tail =
      ({ repeatedMod with revisions := [], sourceText := none }, repeatedLines.drop 6) := by
    decide +kernel
  have changes : ModText.readChanges { repeatedMod with revisions := [], sourceText := none } none
      (repeatedLines.drop 6) = { repeatedMod with sourceText := none } := by
    decide +kernel
  exact ModText.parse_terminated whole title top changes

/-- The mask comes back as it is, and of the two options the second one. -/
theorem repeatedMod_reloaded :
    ModText.parse (Text.terminated repeatedLines) = .ok repeatedMod ∧
      ∃ c ∈ (contents repeatedMod).1,
        ((GameMod.new "Menus").addRawOptions c.options).errors = [] ∧
          find? ((GameMod.new "Menus").addRawOptions c.options).options "Flags" =
            find? repeatedMod.options "Flags" ∧
          find? ((GameMod.new "Menus").addRawOptions c.options).options "Frames" =
            some (byteNamed "Frames" 3) := by
  obtain ⟨some, each⟩ := lookUp_reloaded parse_repeatedLines (by decide) (by decide) (by decide)
  obtain ⟨c, member⟩ := List.exists_mem_of_ne_nil _ some
  obtain ⟨errors, lookUp⟩ := each c member "Menus"
  refine ⟨parse_repeatedLines, c, member, errors, ?_, ?_⟩
  · rw [lookUp]
    decide
  · rw [lookUp]
    decide

/-- A look-up of the name finds the first option in the mod, which does not come back. -/
theorem repeatedOption_changed :
    ModText.parse (Text.terminated repeatedLines) = .ok repeatedMod ∧ repeatedMod.errors = [] ∧
      repeatedMod.revisions ≠ [] ∧ (∀ o ∈ repeatedMod.options, o.kind.IsWhole) ∧
      (∀ o ∈ repeatedMod.options, ∀ member ∈ o.members, member.value.IsReadable) ∧
      ∃ c ∈ (contents repeatedMod).1,
        find? ((GameMod.new "Menus").addRawOptions c.options).options "Frames" ≠
          find? repeatedMod.options "Frames" := by
  refine ⟨parse_repeatedLines, rfl, by decide, by decide, by decide, ?_⟩
  decide +kernel

end ModFolder

end GamePatch
