import GamePatch.ModFolder.Reader
import GamePatch.Proofs.Configuration.Records
import GamePatch.Proofs.GameMod.RawOptions
import GamePatch.Proofs.Json.Documents

set_option autoImplicit false

namespace GamePatch

/-- An option of a mod, or one that an error of the mod mentions. -/
def GameMod.AccountsFor (m : GameMod) (name : Text) : Prop :=
  (∃ c ∈ m.options, c.name = name) ∨ ∃ message ∈ m.errors, name <:+: message

instance (m : GameMod) (name : Text) : Decidable (m.AccountsFor name) :=
  inferInstanceAs (Decidable ((∃ c ∈ m.options, c.name = name) ∨ ∃ message ∈ m.errors, name <:+: message))

namespace ModFolder

/-! ### One code in a mod -/

/-- A mod with further changes. What went wrong with them is recorded. -/
structure IsExtendedBy (m m' : GameMod) (messages : List Text) : Prop where
  name : m'.name = m.name
  options : m'.options = m.options
  errors : ∀ known, known ∈ m'.errors ↔ known ∈ m.errors ∨ known ∈ messages

namespace IsExtendedBy

variable {m m' m'' : GameMod} {messages more : List Text}

theorem refl (m : GameMod) : IsExtendedBy m m [] :=
  ⟨rfl, rfl, fun known => by simp⟩

theorem trans (first : IsExtendedBy m m' messages) (second : IsExtendedBy m' m'' more) :
    IsExtendedBy m m'' (messages ++ more) := by
  refine ⟨second.name.trans first.name, second.options.trans first.options, fun known => ?_⟩
  rw [second.errors, first.errors, List.mem_append, or_assoc]

/-- What each step does, many do. -/
theorem foldl {α : Type} {step : GameMod → α → GameMod} {said : α → List Text}
    (each : ∀ m a, IsExtendedBy m (step m a) (said a)) (items : List α) (m : GameMod) :
    IsExtendedBy m (items.foldl step m) (items.flatMap said) := by
  induction items generalizing m with
  | nil => exact refl m
  | cons a items ih => exact (each m a).trans (ih (step m a))

end IsExtendedBy

section Codes

variable (fs : FileSystem) (folder : Path)

def entryMessages (e : BuildEntry) : List Text :=
  match build fs folder e with
  | .ok _ => []
  | .error error => [error.message]

def codeMessages (c : CodeRecord) : List Text := c.build.flatMap (entryMessages fs folder)

theorem isExtendedBy_addBuilt (e : BuildEntry) (m : GameMod) (b : Built) :
    IsExtendedBy m (addBuilt e m b) [] :=
  ⟨rfl, rfl, fun known => by simp [addBuilt, GameMod.push]⟩

theorem isExtendedBy_addEntry (m : GameMod) (e : BuildEntry) :
    IsExtendedBy m (addEntry fs folder m e) (entryMessages fs folder e) := by
  rw [addEntry, entryMessages]
  cases build fs folder e with
  | ok built =>
    have added := IsExtendedBy.foldl (isExtendedBy_addBuilt e) built m
    rwa [List.flatMap_eq_nil_iff.mpr fun _ _ => rfl] at added
  | error error =>
    refine ⟨rfl, rfl, fun known => ?_⟩
    rw [List.mem_singleton]
    exact GameMod.mem_recordError

theorem isExtendedBy_addChanges (m : GameMod) (c : CodeRecord) :
    IsExtendedBy m (addChanges fs folder m c) (codeMessages fs folder c) := by
  have start : IsExtendedBy m (m.setRevision c.revision) [] := ⟨rfl, rfl, fun known => by
    simp [GameMod.setRevision]⟩
  exact start.trans (IsExtendedBy.foldl (isExtendedBy_addEntry fs folder) c.build _)

/-! ### The mod of a name -/

def codesNamed (codes : List CodeRecord) (name : Text) : List CodeRecord :=
  codes.filter fun c => Text.trim c.name == name

def modNamed? (mods : List GameMod) (name : Text) : Option GameMod :=
  mods.find? fun m => m.name == name

theorem mem_of_modNamed? {mods : List GameMod} {name : Text} {m : GameMod}
    (found : modNamed? mods name = some m) : m ∈ mods ∧ m.name = name := by
  rw [modNamed?] at found
  exact ⟨List.mem_of_find?_eq_some found, by simpa using List.find?_some found⟩

/-- The mod that there is with a code, or a new mod with it. -/
def withCode (m : Option GameMod) (c : CodeRecord) : Option GameMod :=
  some (addChanges fs folder (m.getD (modOf folder c)) c)

variable {codes : List CodeRecord} {mods : List GameMod} {c : CodeRecord} {name : Text}

theorem name_modOf (c : CodeRecord) : (modOf folder c).name = Text.trim c.name := by
  obtain ⟨errors, failed, same⟩ := GameMod.addRawOptions_eq
    { GameMod.new c.name with
      authors := c.authors
      description := c.description.write
      links := c.links.filterMap linkOf? } c.options
  rw [modOf, same]
  rfl

/-- A code is put in the mod of its name, and no other mod is changed. -/
theorem modNamed?_addCode (c : CodeRecord) (mods : List GameMod) (name : Text) :
    modNamed? (addCode fs folder c mods) name =
      if Text.trim c.name = name then withCode fs folder (modNamed? mods name) c
      else modNamed? mods name := by
  have same (m : GameMod) : (addChanges fs folder m c).name = m.name :=
    (isExtendedBy_addChanges fs folder m c).name
  induction mods with
  | nil =>
    rw [addCode, modNamed?, List.find?_singleton, same, name_modOf]
    by_cases asked : Text.trim c.name = name
    · rw [if_pos asked, if_pos (beq_iff_eq.mpr asked)]
      rfl
    · rw [if_neg asked, if_neg (by simpa using asked)]
      rfl
  | cons m mods ih =>
    rw [addCode]
    by_cases own : m.name = Text.trim c.name
    case pos =>
      rw [if_pos own, modNamed?, modNamed?, List.find?_cons, List.find?_cons, same, own]
      by_cases asked : Text.trim c.name = name
      · rw [if_pos asked, beq_iff_eq.mpr asked]
        rfl
      · rw [if_neg asked, beq_eq_false_iff_ne.mpr asked]
    case neg =>
      rw [if_neg own, modNamed?, modNamed?, List.find?_cons, List.find?_cons]
      by_cases asked : m.name = name
      · have other : Text.trim c.name ≠ name := fun found => own (asked.trans found.symm)
        rw [if_neg other, beq_iff_eq.mpr asked]
      · rw [beq_eq_false_iff_ne.mpr asked]
        exact ih

/-- Only the codes of a name are in its mod. -/
theorem modNamed?_addCodes (codes : List CodeRecord) (mods : List GameMod) (name : Text) :
    modNamed? (codes.foldl (fun mods c => addCode fs folder c mods) mods) name =
      (codesNamed codes name).foldl (withCode fs folder) (modNamed? mods name) := by
  induction codes generalizing mods with
  | nil => rfl
  | cons c codes ih =>
    rw [List.foldl_cons, ih, modNamed?_addCode]
    by_cases own : Text.trim c.name = name
    · have here : codesNamed (c :: codes) name = c :: codesNamed codes name :=
        List.filter_cons_of_pos (beq_iff_eq.mpr own)
      rw [if_pos own, here, List.foldl_cons]
    · have apart : codesNamed (c :: codes) name = codesNamed codes name :=
        List.filter_cons_of_neg (by simpa using own)
      rw [if_neg own, apart]

theorem foldl_withCode (m : GameMod) (codes : List CodeRecord) :
    codes.foldl (withCode fs folder) (some m) = some (codes.foldl (addChanges fs folder) m) := by
  induction codes generalizing m with
  | nil => rfl
  | cons c codes ih => exact ih (addChanges fs folder m c)

/-- The first code of a name says what the mod is, and each code of the name adds its changes. -/
theorem modNamed?_modsOf {first : CodeRecord} {rest : List CodeRecord}
    (own : codesNamed codes name = first :: rest) :
    modNamed? (modsOf fs folder codes) name =
      some ((first :: rest).foldl (addChanges fs folder) (modOf folder first)) := by
  rw [modsOf, modNamed?_addCodes, own]
  exact foldl_withCode fs folder _ rest

theorem names_addCode (c : CodeRecord) (mods : List GameMod) :
    (addCode fs folder c mods).map GameMod.name =
      if Text.trim c.name ∈ mods.map GameMod.name then mods.map GameMod.name
      else mods.map GameMod.name ++ [Text.trim c.name] := by
  have same (m : GameMod) : (addChanges fs folder m c).name = m.name :=
    (isExtendedBy_addChanges fs folder m c).name
  induction mods with
  | nil => simp [addCode, same, name_modOf]
  | cons m mods ih =>
    rw [addCode]
    by_cases own : m.name = Text.trim c.name
    case pos => simp [own, same]
    case neg =>
      have other : Text.trim c.name ≠ m.name := fun found => own found.symm
      simp only [if_neg own, List.map_cons, List.mem_cons, ih, or_iff_right other]
      split
      · rfl
      · rfl

/-- No two mods of a folder have one name. -/
theorem nodup_names_modsOf (codes : List CodeRecord) :
    ((modsOf fs folder codes).map GameMod.name).Nodup := by
  have step (c : CodeRecord) (mods : List GameMod) (distinct : (mods.map GameMod.name).Nodup) :
      ((addCode fs folder c mods).map GameMod.name).Nodup := by
    rw [names_addCode]
    split
    case isTrue => exact distinct
    case isFalse absent => exact List.nodup_append.mpr ⟨distinct, by simp, by grind⟩
  suffices all : ∀ mods : List GameMod, (mods.map GameMod.name).Nodup →
      ((codes.foldl (fun mods c => addCode fs folder c mods) mods).map GameMod.name).Nodup from
    all [] List.nodup_nil
  induction codes with
  | nil => exact fun mods distinct => distinct
  | cons c codes ih => exact fun mods distinct => ih (addCode fs folder c mods) (step c mods distinct)

/-! ### What is recorded of codes -/

def modMessages (first : CodeRecord) (rest : List CodeRecord) : List Text :=
  GameMod.refusals first.options ++ (first :: rest).flatMap (codeMessages fs folder)

theorem options_modOf (c : CodeRecord) :
    (modOf folder c).options = GameMod.acceptedOptions c.options :=
  GameMod.options_addRawOptions _ c.options

theorem mem_errors_modOf {known : Text} :
    known ∈ (modOf folder c).errors ↔ known ∈ GameMod.refusals c.options := by
  change known ∈ (GameMod.addRawOptions _ c.options).errors ↔ _
  rw [GameMod.mem_errors_addRawOptions]
  exact or_iff_right List.not_mem_nil

/-- The mod of codes is the mod of the first of them with further changes. -/
theorem isExtendedBy_codes (codes : List CodeRecord) (m : GameMod) :
    IsExtendedBy m (codes.foldl (addChanges fs folder) m) (codes.flatMap (codeMessages fs folder)) :=
  IsExtendedBy.foldl (isExtendedBy_addChanges fs folder) codes m

end Codes

/-! ### The options of a mod -/

section Options

variable {raw : List (Text × Json)} {name : Text}

/-- Whether the program ends at a number of some option of a document. -/
def EndsAtOption (raw : List (Text × Json)) : Prop :=
  ∃ entry ∈ raw, Configuration.ofJson entry.1 entry.2 = .error .overflow

instance : DecidablePred EndsAtOption := fun raw =>
  decidable_of_iff
    (raw.any fun entry =>
      match Configuration.ofJson entry.1 entry.2 with
      | .error e => e == .overflow
      | .ok _ => false)
    (by
      rw [List.any_eq_true]
      refine exists_congr fun entry => and_congr_right fun _ => ?_
      cases Configuration.ofJson entry.1 entry.2 <;> simp)

/-- An option of a document is accepted, or mentioned in the message of its refusal. -/
theorem accepted_or_mentioned (goesOn : ¬ EndsAtOption raw) {entry : Text × Json}
    (member : entry ∈ raw) :
    (∃ c ∈ GameMod.acceptedOptions raw, c.name = entry.1) ∨
      ∃ message ∈ GameMod.refusals raw, entry.1 <:+: message := by
  cases read : Configuration.ofJson entry.1 entry.2 with
  | ok c =>
    apply Or.inl
    refine ⟨c, List.mem_filterMap.mpr ⟨entry, member, ?_⟩, Configuration.name_of_ofJson read⟩
    rw [read]
    rfl
  | error e =>
    apply Or.inr
    have proper : e ≠ .overflow := by
      rintro rfl
      exact goesOn ⟨entry, member, read⟩
    refine ⟨e.message, List.mem_filterMap.mpr ⟨entry, member, ?_⟩,
      (Configuration.mentioned_of_ofJson read).resolve_left proper⟩
    rw [read]

/-- Every accepted option stands in the document. -/
theorem name_mem_of_accepted {c : Configuration} (accepted : c ∈ GameMod.acceptedOptions raw) :
    c.name ∈ raw.map Prod.fst := by
  obtain ⟨entry, member, read⟩ := List.mem_filterMap.mp accepted
  have own := Configuration.name_of_ofJson (Fallible.toOption_eq_some_iff.mp read)
  rw [own]
  exact List.mem_map_of_mem member

variable {fs : FileSystem} {folder : Path}

/-- The mod of codes of one name has the accepted options of the first of them. It accounts for a name
exactly if that is an option of the first code, or mentioned in what is recorded of its options or of the
entries of the codes. -/
theorem accountsFor_codes (first : CodeRecord) (rest : List CodeRecord) {m : GameMod}
    (own : (first :: rest).foldl (addChanges fs folder) (modOf folder first) = m) :
    m.options = GameMod.acceptedOptions first.options ∧
      (¬ EndsAtOption first.options → ∀ name, m.AccountsFor name ↔
        name ∈ first.options.map Prod.fst ∨
          ∃ message ∈ modMessages fs folder first rest, name <:+: message) := by
  have extended := isExtendedBy_codes fs folder (first :: rest) (modOf folder first)
  rw [own] at extended
  have options : m.options = GameMod.acceptedOptions first.options :=
    extended.options.trans (options_modOf folder first)
  have errors (known : Text) : known ∈ m.errors ↔ known ∈ modMessages fs folder first rest := by
    rw [extended.errors, mem_errors_modOf, modMessages, List.mem_append]
  apply And.intro options
  intro goesOn name
  rw [GameMod.AccountsFor, options]
  constructor
  · rintro (⟨o, inside, rfl⟩ | ⟨message, recorded, mentioned⟩)
    · exact Or.inl (name_mem_of_accepted inside)
    · exact Or.inr ⟨message, (errors message).mp recorded, mentioned⟩
  · rintro (declared | ⟨message, recorded, mentioned⟩)
    · obtain ⟨entry, inside, rfl⟩ := List.mem_map.mp declared
      rcases accepted_or_mentioned goesOn inside with accepted | ⟨message, refused, mentioned⟩
      · exact Or.inl accepted
      · have recorded := (errors message).mpr (List.mem_append_left _ refused)
        exact Or.inr ⟨message, recorded, mentioned⟩
    · exact Or.inr ⟨message, (errors message).mpr recorded, mentioned⟩

theorem document_of_read {mods : List GameMod} (accepted : read fs folder = .ok mods) :
    ∃ text codes, fs.readText (documentOf folder) = .ok text ∧
      CodeRecord.readDocument? text = some codes ∧ mods = modsOf fs folder codes := by
  simp only [read] at accepted
  split at accepted
  case h_1 => cases accepted
  case h_2 text readable =>
    split at accepted
    case h_1 => cases accepted
    case h_2 codes document =>
      cases accepted
      exact ⟨text, codes, readable, document, rfl⟩

/-- Each code of a folder is in the one mod of its name, whose options are those of the first code of the
name. An option that the first code does not have is not accounted for, unless something else that was
recorded happens to mention it; all others are, unless the program ends at a number of one. -/
theorem accountsFor_iff {mods : List GameMod} (accepted : read fs folder = .ok mods) :
    ∃ text codes, fs.readText (documentOf folder) = .ok text ∧
      CodeRecord.readDocument? text = some codes ∧ (mods.map GameMod.name).Nodup ∧
      ∀ c ∈ codes, ∃ m ∈ mods, m.name = Text.trim c.name ∧
        ∃ first rest, codesNamed codes m.name = first :: rest ∧
          m.options = GameMod.acceptedOptions first.options ∧
          (¬ EndsAtOption first.options → ∀ name, m.AccountsFor name ↔
            name ∈ first.options.map Prod.fst ∨
              ∃ message ∈ modMessages fs folder first rest, name <:+: message) := by
  obtain ⟨text, codes, readable, document, rfl⟩ := document_of_read accepted
  refine ⟨text, codes, readable, document, nodup_names_modsOf fs folder codes, fun c member => ?_⟩
  have named : c ∈ codesNamed codes (Text.trim c.name) :=
    List.mem_filter.mpr ⟨member, beq_self_eq_true _⟩
  obtain ⟨first, rest, own⟩ := List.exists_cons_of_ne_nil (List.ne_nil_of_mem named)
  obtain ⟨inside, name⟩ := mem_of_modNamed? (modNamed?_modsOf fs folder own)
  rw [← name] at own
  exact ⟨_, inside, name, first, rest, own, accountsFor_codes first rest rfl⟩

end Options

/-! ### Two codes of one mod -/

def byteOption (name : Text) : Text × Json :=
  (name, .object [("type".toList, .text "uint8"), ("value".toList, .text "1"),
    ("default".toList, .text "1")])

def optionCode (label name : Text) : CodeRecord :=
  { name := "Menus"
    authors := []
    description := .text []
    links := []
    revision := label
    options := [byteOption name]
    build := [] }

/-- Two revisions of a mod, with an option each. -/
def optionCodes : List CodeRecord := [optionCode "NTSC 1.01" "Speed", optionCode "NTSC 1.02" "Mode"]

def optionText : Text := (CodeRecord.documentToJson optionCodes).pretty 0

def optionFolder : FileSystem :=
  ⟨[(["mod".toList], .directory),
    (["mod".toList, documentName], .file (Text.encodeUtf8 optionText) 0)], [], fun n => n, 0⟩

theorem readText_optionFolder : optionFolder.readText (documentOf ⟨"mod"⟩) = .ok optionText := by
  decide +kernel

theorem readDocument?_optionText : CodeRecord.readDocument? optionText = some optionCodes := by
  have whole : Json.IsAsked CodeRecord.documentPattern Json.maxDepth
      (CodeRecord.documentToJson optionCodes) := by
    simp [Json.IsAsked, Json.AreItemsAsked, Json.AreEntriesAsked, CodeRecord.documentToJson, optionCodes,
      optionCode, byteOption, CodeRecord.toJson, CodeRecord.unlessEmpty, Description.write, Json.entry?,
      CodeRecord.documentPattern, CodeRecord.fields, Json.Pattern.atKey?, Json.Pattern.uncons,
      Json.maxDepth]
  rw [CodeRecord.readDocument?, optionText, Json.parseAs?_pretty whole]
  rfl

theorem read_optionFolder :
    read optionFolder ⟨"mod"⟩ = .ok (modsOf optionFolder ⟨"mod"⟩ optionCodes) := by
  simp only [read, readText_optionFolder, readDocument?_optionText]

/-- The option of the first code is accounted for. -/
theorem firstOption_accounted :
    ∃ mods, read optionFolder ⟨"mod"⟩ = .ok mods ∧ ∃ m ∈ mods, m.AccountsFor "Speed" := by
  obtain ⟨text, codes, readable, document, -, each⟩ := accountsFor_iff read_optionFolder
  rw [readText_optionFolder] at readable
  cases readable
  rw [readDocument?_optionText] at document
  cases document
  obtain ⟨m, inside, name, first, rest, own, -, accounts⟩ :=
    each (optionCode "NTSC 1.01" "Speed") List.mem_cons_self
  have both : codesNamed optionCodes m.name = optionCodes := by
    rw [name]
    rfl
  obtain ⟨rfl, -⟩ := List.cons.inj (both.symm.trans own)
  have goesOn : ¬ EndsAtOption (optionCode "NTSC 1.01" "Speed").options := by decide +kernel
  exact ⟨_, read_optionFolder, m, inside,
    (accounts goesOn "Speed").mpr (Or.inl List.mem_cons_self)⟩

/-- The option of the second code is not an option of the mod, and no error mentions it. -/
theorem laterOption_lost :
    ∃ mods codes, read optionFolder ⟨"mod"⟩ = .ok mods ∧
      optionFolder.readText (documentOf ⟨"mod"⟩) = .ok optionText ∧
      CodeRecord.readDocument? optionText = some codes ∧
      ∃ c ∈ codes, ∃ entry ∈ c.options, ∀ m ∈ mods, m.name = Text.trim c.name →
        ¬ m.AccountsFor entry.1 := by
  refine ⟨_, optionCodes, read_optionFolder, readText_optionFolder, readDocument?_optionText,
    optionCode "NTSC 1.02" "Mode", by simp [optionCodes], byteOption "Mode", List.mem_cons_self, ?_⟩
  decide +kernel

end ModFolder

end GamePatch
