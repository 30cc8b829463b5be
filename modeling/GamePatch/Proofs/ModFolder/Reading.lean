import GamePatch.Proofs.Hex.RoundTrip
import GamePatch.Proofs.ModFolder.Saving
import GamePatch.Proofs.ModText.Revisions

set_option autoImplicit false

namespace GamePatch

/-- A change that can be told by its entry and its code. -/
structure Change.IsStorable (c : Change) : Prop where
  kind : c.kind ≠ .gecko
  target : Text.trim c.target = c.target
  code : Text.trimEnd c.code = c.code
  vanilla : ∀ digits ∈ c.vanilla, digits ≠ [] ∧ Hex.IsDigits digits

namespace ModFolder

open SourceFile (assembledCode?)

/-! ### One change -/

section Changes

variable {fs : FileSystem} {folder : Path}

def Stored.codeIn (fs : FileSystem) (folder : Path) (s : Stored) : Text :=
  match s.file with
  | none => s.change.code
  | some path => (assembledCode? fs (folder.join path)).getD s.change.code

def Stored.readBack (fs : FileSystem) (folder : Path) (s : Stored) : Change :=
  { s.change with
    code := s.codeIn fs folder
    sourceFile := s.file
    evaluated := none
    finished := none }

structure Stored.IsReadable (fs : FileSystem) (folder : Path) (s : Stored) : Prop where
  storable : s.change.IsStorable
  inline : s.file.isNone = isInline s.change
  source : ∀ path ∈ s.file, ∃ header,
    SourceFile.read fs (folder.join path) = .ok ⟨s.codeIn fs folder, header⟩

theorem vanillaCode?_of_digits {vanilla : Option Text}
    (digits : ∀ v ∈ vanilla, v ≠ [] ∧ Hex.IsDigits v) : GameMod.vanillaCode? vanilla = vanilla := by
  cases vanilla with
  | none => rfl
  | some v =>
    obtain ⟨some, own⟩ := digits v rfl
    rw [GameMod.vanillaCode?, Option.map_some, Hex.normalize_of_isDigits own]
    exact Option.filter_some_pos (by simpa using some)

theorem readSource_eq {kind : ChangeKind} {file : Path} {target code : Text} {header : SourceHeader}
    (source : SourceFile.read fs (folder.join file) = .ok ⟨code, header⟩) :
    readSource fs folder kind file (some target) =
      .ok ⟨{ Change.new kind target code with sourceFile := some file }, header⟩ := by
  rw [readSource, source]
  rfl

theorem kind_of_isInline {c : Change} (kind : c.kind ≠ .gecko) (inline : isInline c = true) :
    c.kind = .overwrite := by
  rw [isInline] at inline
  split at inline
  case h_1 own => exact own
  case h_2 own => exact absurd own kind
  case h_3 => cases inline

/-- The entry of a change stands for the change with the code that is read. -/
theorem Stored.IsReadable.build {s : Stored} (readable : s.IsReadable fs folder) :
    ∃ header, ModFolder.build fs folder s.entry =
      .ok [⟨{ Change.new s.change.kind s.change.target (s.codeIn fs folder) with
        sourceFile := s.file }, header⟩] := by
  obtain ⟨c, file⟩ := s
  obtain ⟨storable, inline, source⟩ := readable
  cases file with
  | none =>
    have own : isInline c = true := inline.symm
    have kind : c.kind = .overwrite := kind_of_isInline storable.kind own
    refine ⟨.empty, ?_⟩
    simp [ModFolder.build, Stored.entry, entryOf, entryType, BuildEntry.new, own, kind, need, ofChange,
      Stored.codeIn, Change.new, bind, Except.bind]
  | some path =>
    have own : isInline c = false := inline.symm
    obtain ⟨header, read⟩ := source path rfl
    refine ⟨header, ?_⟩
    cases kind : c.kind with
    | gecko => exact absurd kind storable.kind
    | overwrite | injection | standalone =>
      simp [ModFolder.build, Stored.entry, entryOf, entryType, BuildEntry.new, own, kind, need,
        readSource_eq read, bind, Except.bind, Except.map]

end Changes

/-! ### One revision after another -/

/-- A mod as far as it has been read. -/
structure HasRead (m : GameMod) (name : Text) (authors : List Text) (revisions : List Revision) :
    Prop where
  name : m.name = name
  authors : m.authors = authors
  errors : m.errors = []
  revisions : m.revisions = revisions

/-- A mod whose last revision is being read. -/
structure IsReading (m : GameMod) (name : Text) (authors : List Text) (front : List Revision)
    (last : Revision) : Prop extends HasRead m name authors (front ++ [last]) where
  current : m.currentRevision = last.label

section Revisions

variable {fs : FileSystem} {folder : Path} {m : GameMod} {name : Text} {authors : List Text}
  {front : List Revision} {r : Revision}

/-- An entry puts its change at the end of the current revision. -/
theorem addEntry_eq (known : m.authors ≠ []) {s : Stored} (readable : s.IsReadable fs folder) :
    ModFolder.addEntry fs folder m s.entry = m.push (s.readBack fs folder) := by
  obtain ⟨header, built⟩ := readable.build
  have change : { Change.new s.change.kind s.change.target (s.codeIn fs folder) with
      sourceFile := s.file
      note := s.change.note
      vanilla := GameMod.vanillaCode? s.change.vanilla } = s.readBack fs folder := by
    rw [vanillaCode?_of_digits readable.storable.vanilla]
    simp [Change.new, Stored.readBack, readable.storable.target]
  rw [ModFolder.addEntry, built]
  change addBuilt s.entry m _ = _
  rw [addBuilt, if_neg (by simpa using known), ← change]
  congr 1
  simp [Stored.entry, entryOf, BuildEntry.new, Change.new]

/-- An entry puts its change at the end of the revision. -/
theorem IsReading.addEntry (reading : IsReading m name authors front r) (known : authors ≠ [])
    (fresh : ∀ q ∈ front, q.label ≠ r.label) {s : Stored} (readable : s.IsReadable fs folder) :
    IsReading (ModFolder.addEntry fs folder m s.entry) name authors front
      { r with changes := r.changes ++ [s.readBack fs folder] } := by
  have there : r ∈ m.revisions := by
    rw [reading.revisions]
    exact List.mem_append_right front List.mem_cons_self
  have pushed : GameMod.mapRevision m.currentRevision
      (fun q => { q with changes := q.changes ++ [s.readBack fs folder] })
      (GameMod.withRevision m.currentRevision m.revisions) =
        front ++ [{ r with changes := r.changes ++ [s.readBack fs folder] }] := by
    rw [reading.current, GameMod.withRevision_of_mem there, reading.revisions,
      GameMod.mapRevision_append fresh r rfl]
  rw [addEntry_eq (reading.authors ▸ known) readable]
  exact ⟨⟨reading.name, reading.authors, reading.errors, pushed⟩, reading.current⟩

/-- The entries of a revision put its changes at its end. -/
theorem IsReading.addEntries (reading : IsReading m name authors front r) (known : authors ≠ [])
    (fresh : ∀ q ∈ front, q.label ≠ r.label) {changes : List Stored}
    (readable : ∀ s ∈ changes, s.IsReadable fs folder) :
    IsReading ((changes.map Stored.entry).foldl (ModFolder.addEntry fs folder) m) name authors front
      { r with changes := r.changes ++ changes.map (Stored.readBack fs folder) } := by
  induction changes generalizing m r with
  | nil => simpa using reading
  | cons s changes ih =>
    rw [List.forall_mem_cons] at readable
    have rest := ih (reading.addEntry known fresh readable.1) fresh readable.2
    rw [List.append_assoc, List.singleton_append] at rest
    exact rest

/-- A code is read as one more revision. -/
theorem HasRead.addChanges {label : Text} {entries : List Stored} (read : HasRead m name authors front)
    (known : authors ≠ []) (fresh : ∀ q ∈ front, q.label ≠ label) (trimmed : Text.trim label = label)
    (readable : ∀ s ∈ entries, s.IsReadable fs folder) (source : GameMod) :
    HasRead (ModFolder.addChanges fs folder m (codeOf source label (entries.map Stored.entry))) name
      authors (front ++ [⟨label, entries.map (Stored.readBack fs folder)⟩]) := by
  have start : IsReading (m.setRevision label) name authors front ⟨label, []⟩ := by
    refine ⟨⟨read.name, read.authors, read.errors, ?_⟩, trimmed⟩
    change GameMod.withRevision (Text.trim label) m.revisions = _
    rw [trimmed, read.revisions, GameMod.withRevision_of_fresh fresh]
  have done := start.addEntries known fresh readable
  rw [List.nil_append] at done
  exact done.toHasRead

def StoredRevision.code (source : GameMod) (r : StoredRevision) : CodeRecord :=
  codeOf source r.label (r.changes.map Stored.entry)

def StoredRevision.readBack (fs : FileSystem) (folder : Path) (r : StoredRevision) : Revision :=
  ⟨r.label, r.changes.map (Stored.readBack fs folder)⟩

/-- Further codes of a mod are further revisions of it. -/
theorem HasRead.addCodes {source : GameMod} (read : HasRead m source.name authors front)
    (known : authors ≠ []) (name : Text.trim source.name = source.name) {stored : List StoredRevision}
    (distinct : ((front.map Revision.label) ++ stored.map StoredRevision.label).Nodup)
    (trimmed : ∀ r ∈ stored, Text.trim r.label = r.label)
    (readable : ∀ r ∈ stored, ∀ s ∈ r.changes, s.IsReadable fs folder) :
    ∃ m', (stored.map (StoredRevision.code source)).foldl (fun mods c => addCode fs folder c mods) [m] =
        [m'] ∧
      HasRead m' source.name authors (front ++ stored.map (StoredRevision.readBack fs folder)) := by
  induction stored generalizing m front with
  | nil =>
    rw [List.map_nil, List.map_nil, List.append_nil]
    exact ⟨m, rfl, read⟩
  | cons r stored ih =>
    rw [List.forall_mem_cons] at trimmed readable
    have fresh : ∀ q ∈ front, q.label ≠ r.label := fun q member same =>
      (List.nodup_append.mp distinct).2.2 q.label (List.mem_map_of_mem member) r.label
        List.mem_cons_self same
    have one := read.addChanges known fresh trimmed.1 readable.1 source
    have added : addCode fs folder (r.code source) [m] =
        [ModFolder.addChanges fs folder m (r.code source)] := by
      rw [addCode, if_pos]
      exact read.name.trans name.symm
    obtain ⟨m', codes, done⟩ := ih one (by simpa using distinct) trimmed.2 readable.2
    refine ⟨m', ?_, ?_⟩
    · rw [List.map_cons, List.foldl_cons, added]
      exact codes
    · rw [List.append_assoc, List.singleton_append] at done
      exact done

/-- The codes of a mod without options are read as one mod. -/
theorem modsOf_eq {source : GameMod} (known : source.authors ≠ []) (options : source.options = [])
    (name : Text.trim source.name = source.name) {stored : List StoredRevision} (some : stored ≠ [])
    (distinct : (stored.map StoredRevision.label).Nodup)
    (trimmed : ∀ r ∈ stored, Text.trim r.label = r.label)
    (readable : ∀ r ∈ stored, ∀ s ∈ r.changes, s.IsReadable fs folder) :
    ∃ m', modsOf fs folder (stored.map (StoredRevision.code source)) = [m'] ∧
      HasRead m' source.name source.authors (stored.map (StoredRevision.readBack fs folder)) := by
  obtain ⟨r, stored, rfl⟩ := List.exists_cons_of_ne_nil some
  rw [List.forall_mem_cons] at trimmed readable
  have noOptions : (r.code source).options = [] := by
    rw [StoredRevision.code, codeOf, options]
    rfl
  have start : HasRead (modOf folder (r.code source)) source.name source.authors [] := by
    rw [modOf, noOptions]
    exact ⟨name, rfl, rfl, rfl⟩
  have one := start.addChanges known (by simp) trimmed.1 readable.1 source
  obtain ⟨m', codes, done⟩ := one.addCodes known name distinct trimmed.2 readable.2
  exact ⟨m', codes, done⟩

end Revisions

end ModFolder

end GamePatch
