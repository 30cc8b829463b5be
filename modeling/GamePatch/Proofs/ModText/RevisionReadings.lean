import GamePatch.Proofs.Hex.Parts
import GamePatch.Proofs.ModText.GeckoReadings

set_option autoImplicit false

namespace GamePatch

namespace ModText

open Header (isOffset isRow isStart)
open Text (isAllBlank trim)

/-- Vanilla code in its canonical form fits a column. -/
theorem isCell_of_vanillaCode? {vanilla : Option Text} (cells : ∀ v ∈ vanilla, IsCell v) :
    ∀ v ∈ GameMod.vanillaCode? vanilla, IsCell v := by
  intro v found
  obtain ⟨known, some⟩ := Option.filter_eq_some_iff.mp found
  obtain ⟨raw, given, rfl⟩ := Option.map_eq_some_iff.mp known
  have cell := cells raw given
  have letters : ∀ x ∈ Hex.normalize raw, Text.isBlank x = false ∧ x ≠ '-' := by
    intro x member
    obtain ⟨y, inside, rfl⟩ := List.mem_map.mp member
    obtain ⟨body, solid⟩ := List.mem_filter.mp inside
    have part : y ∈ trim raw := by
      cases mark : Text.hexMarked? (trim raw) with
      | none =>
        rw [mark] at body
        exact body
      | some rest =>
        rw [mark] at body
        exact (Text.isSuffix_of_hexMarked? mark).subset body
    have noDash : y ≠ '-' := by
      rintro rfl
      exact cell.dashFree ((Text.trim_isInfix raw).subset part)
    have upper {c : Char} (large : 65 ≤ c.toNat ∧ c.toNat ≤ 90) : Text.isBlank c = false ∧ c ≠ '-' := by
      refine ⟨?_, ?_⟩
      · rw [Text.isBlank]
        simp
        omega
      · rintro rfl
        revert large
        decide
    rcases Text.toUpper_cases y with same | large
    · rw [same]
      exact ⟨by simpa using solid, noDash⟩
    · exact upper large
  exact ⟨by simpa using some, Text.trim_eq_self_of_forall _ fun x member => (letters x member).1,
    fun dash => (letters _ dash).2 rfl, fun feed => absurd (letters _ feed).1 (by decide)⟩

structure HasRead (m : GameMod) : Prop where
  distinct : (m.revisions.map Revision.label).Nodup
  trimmed : ∀ r ∈ m.revisions, trim r.label = r.label
  changes : ∀ r ∈ m.revisions, ∀ c ∈ r.changes, IsRead r.label c

variable {m : GameMod}

theorem HasRead.recordError (read : HasRead m) (message : Text) (isAssembly : Bool) :
    HasRead (m.recordError message isAssembly) :=
  ⟨read.distinct, read.trimmed, read.changes⟩

theorem HasRead.setRevision (read : HasRead m) (label : Text) : HasRead (m.setRevision label) := by
  have known : (m.setRevision label).revisions = GameMod.withRevision (trim label) m.revisions := rfl
  by_cases there : ∃ r ∈ m.revisions, r.label = trim label
  · obtain ⟨r, inside, same⟩ := there
    rw [← same, GameMod.withRevision_of_mem inside] at known
    refine ⟨?_, ?_, ?_⟩ <;> rw [known]
    · exact read.distinct
    · exact read.trimmed
    · exact read.changes
  · have fresh : ∀ r ∈ m.revisions, r.label ≠ trim label := fun r inside same =>
      there ⟨r, inside, same⟩
    rw [GameMod.withRevision_of_fresh fresh] at known
    refine ⟨?_, ?_, ?_⟩ <;> rw [known]
    · rw [List.map_append, List.nodup_append]
      refine ⟨read.distinct, by simp, ?_⟩
      intro label' inside label'' single
      obtain ⟨r, before, rfl⟩ := List.mem_map.mp inside
      rw [List.mem_singleton.mp single]
      exact fresh r before
    · rw [List.forall_mem_append, List.forall_mem_singleton]
      exact ⟨read.trimmed, Text.trim_trim label⟩
    · rw [List.forall_mem_append, List.forall_mem_singleton]
      exact ⟨read.changes, by simp⟩

/-- A change that is read goes to the end of the revision that the mod is at. -/
theorem HasRead.push (read : HasRead m) (current : trim m.currentRevision = m.currentRevision)
    {c : Change} (own : IsRead m.currentRevision c) : HasRead (m.push c) := by
  have there := read.setRevision m.currentRevision
  have same : (m.setRevision m.currentRevision).revisions =
      GameMod.withRevision m.currentRevision m.revisions := by
    rw [GameMod.setRevision]
    simp only [current]
  obtain ⟨distinct, trimmed, changes⟩ := there
  rw [same] at distinct trimmed changes
  have known : (m.push c).revisions = GameMod.mapRevision m.currentRevision
      (fun r => { r with changes := r.changes ++ [c] })
      (GameMod.withRevision m.currentRevision m.revisions) := rfl
  refine ⟨?_, fun r member => ?_, fun r member => ?_⟩
  · have keeps (r : Revision) : ({ r with changes := r.changes ++ [c] } : Revision).label = r.label := rfl
    rw [known, GameMod.map_label_mapRevision keeps]
    exact distinct
  · rw [known] at member
    rcases GameMod.mem_mapRevision member with before | ⟨s, inside, -, rfl⟩
    · exact trimmed r before
    · exact trimmed s inside
  · rw [known] at member
    rcases GameMod.mem_mapRevision member with before | ⟨s, inside, label, rfl⟩
    · exact changes r before
    · rw [List.forall_mem_append, List.forall_mem_singleton]
      refine ⟨changes s inside, ?_⟩
      have here : s.label = m.currentRevision := label
      exact here ▸ own

structure HasSameTop (m m' : GameMod) : Prop where
  name : m'.name = m.name
  authors : m'.authors = m.authors
  description : m'.description = m.description
  links : m'.links = m.links
  options : m'.options = m.options

theorem HasSameTop.trans {m' m'' : GameMod} (first : HasSameTop m m') (second : HasSameTop m' m'') :
    HasSameTop m m'' :=
  ⟨second.name.trans first.name, second.authors.trans first.authors,
    second.description.trans first.description, second.links.trans first.links,
    second.options.trans first.options⟩

theorem hasSameTop_recordError (m : GameMod) (message : Text) (isAssembly : Bool) :
    HasSameTop m (m.recordError message isAssembly) := ⟨rfl, rfl, rfl, rfl, rfl⟩

theorem hasSameTop_pushTo (m : GameMod) (label : Text) (c : Change) :
    HasSameTop m (m.pushTo label c) := ⟨rfl, rfl, rfl, rfl, rfl⟩

theorem HasRead.pushTo (read : HasRead m) {label : Text} (trimmed : trim label = label) {c : Change}
    (own : IsRead label c) : HasRead (m.pushTo label c) := by
  have current : (m.setRevision label).currentRevision = label := trimmed
  refine (read.setRevision label).push ?_ ?_
  · rw [current, trimmed]
  · rw [current]
    exact own

/-- Changes that are read go to the end of the revision that the mod is at. -/
theorem HasRead.foldl_push (read : HasRead m) (current : trim m.currentRevision = m.currentRevision)
    {changes : List Change} {note : Option Text}
    (own : ∀ c ∈ changes, IsRead m.currentRevision { c with note := note }) :
    HasRead (changes.foldl (fun m c => m.push { c with note := note }) m) ∧
      HasSameTop m (changes.foldl (fun m c => m.push { c with note := note }) m) := by
  induction changes generalizing m with
  | nil => exact ⟨read, rfl, rfl, rfl, rfl, rfl⟩
  | cons c changes ih =>
    rw [List.forall_mem_cons] at own
    obtain ⟨read', same⟩ := ih (read.push current own.1) current own.2
    have first : HasSameTop m (m.push { c with note := note }) := ⟨rfl, rfl, rfl, rfl, rfl⟩
    exact ⟨read', first.trans same⟩

/-- The changes of a block of Gecko lines are read for their revision, or its error is kept. -/
theorem HasRead.addGecko (read : HasRead m) {revision : Text}
    (known : IsReadHeader (.gecko revision)) {lines : List Text} (clean : ∀ l ∈ lines, '\n' ∉ l)
    (quiet : ∀ l ∈ lines, isStart (trim l) = false) :
    HasRead (record (addChange m (.gecko revision) (bodyText lines))) ∧
      HasSameTop m (record (addChange m (.gecko revision) (bodyText lines))) := by
  obtain ⟨label, trimmed, line⟩ := known
  have start := read.setRevision revision
  have first : HasSameTop m (m.setRevision revision) := ⟨rfl, rfl, rfl, rfl, rfl⟩
  have current : (m.setRevision revision).currentRevision = revision := trimmed
  rw [addChange, addGeckoLines]
  cases split : Code.splitRemark (bodyText lines) with
  | mk note code =>
    simp only
    cases parsed : GeckoRecord.parse code with
    | error e =>
      exact ⟨start.recordError _ _, first.trans (hasSameTop_recordError _ _ _)⟩
    | ok changes =>
      have own := isRead_of_gecko label trimmed line clean quiet split parsed
      rw [← current] at own
      obtain ⟨read', same⟩ := start.foldl_push (by rw [current, trimmed]) own
      exact ⟨read', first.trans same⟩

/-- One change is read from its header and the lines below. -/
theorem HasRead.addChange (read : HasRead m) {header : Header} (known : IsReadHeader header)
    {lines : List Text} (clean : ∀ l ∈ lines, '\n' ∉ l) (quiet : ∀ l ∈ lines, isStart (trim l) = false) :
    HasRead (record (addChange m header (bodyText lines))) ∧
      HasSameTop m (record (ModText.addChange m header (bodyText lines))) := by
  cases header with
  | row revision offset vanilla code =>
    obtain ⟨cells, inline⟩ := known
    have columns (c : Change) (row : c.kind = .overwrite ∨ c.kind = .injection)
        (target : c.target = offset) (own : c.vanilla = GameMod.vanillaCode? vanilla) :
        IsReadPlace revision c := by
      have all : IsReadRow revision c.target c.vanilla := by
        rw [target, own]
        exact ⟨cells.revision, cells.place, cells.isOffset, isCell_of_vanillaCode? cells.vanilla⟩
      rw [IsReadPlace]
      rcases row with kind | kind <;> rw [kind] <;> exact all
    cases code with
    | branch =>
      have own : IsRead revision (GameMod.changeOf .injection offset (bodyText lines) vanilla) :=
        isRead_changeOf cells.place.trimmed clean quiet fun c kind => columns c (Or.inr kind)
      exact ⟨read.pushTo cells.revision.trimmed own, hasSameTop_pushTo m revision _⟩
    | below =>
      have own : IsRead revision (GameMod.changeOf .overwrite offset (bodyText lines) vanilla) :=
        isRead_changeOf cells.place.trimmed clean quiet fun c kind => columns c (Or.inl kind)
      exact ⟨read.pushTo cells.revision.trimmed own, hasSameTop_pushTo m revision _⟩
    | inline t =>
      obtain ⟨some, trimmed, line⟩ := inline t rfl
      have own := isRead_changeOf_inline cells.place.trimmed some trimmed line
        fun c kind => columns c (Or.inl kind)
      have pushed := read.pushTo cells.revision.trimmed own
      have same := hasSameTop_pushTo m revision (GameMod.changeOf .overwrite offset t vanilla)
      rw [ModText.addChange]
      split
      · exact ⟨pushed, same⟩
      · exact ⟨pushed.recordError _ _, same.trans (hasSameTop_recordError _ _ _)⟩
  | standalone name revision =>
    have own : IsRead revision (GameMod.changeOf .standalone name (bodyText lines) none) := by
      refine isRead_changeOf known.trimmed clean quiet fun c kind target vanilla => ?_
      rw [IsReadPlace, kind, target]
      exact ⟨known, vanilla⟩
    exact ⟨read.pushTo known.trimmedLabel own, hasSameTop_pushTo m revision _⟩
  | gecko revision => exact read.addGecko known clean quiet

/-- All the changes are read one after the other. -/
theorem HasRead.readChanges (read : HasRead m) {last : Option Text} (before : ∀ r ∈ last, IsCell r)
    {lines : List Text} (clean : ∀ l ∈ lines, '\n' ∉ l) :
    HasRead (readChanges m last lines) ∧ HasSameTop m (ModText.readChanges m last lines) := by
  fun_induction ModText.readChanges m last lines with
  | case1 m last => exact ⟨read, rfl, rfl, rfl, rfl, rfl⟩
  | case2 m last line rest blank ih =>
    rw [List.forall_mem_cons] at clean
    exact ih read before clean.2
  | case3 m last line rest solid e refused ih =>
    rw [List.forall_mem_cons] at clean
    obtain ⟨read', same⟩ := ih (read.recordError _ _) before clean.2
    exact ⟨read', (hasSameTop_recordError m _ _).trans same⟩
  | case4 m last line rest solid header parsed isBody ih =>
    rw [List.forall_mem_cons] at clean
    have line' : '\n' ∉ trim line := fun feed => clean.1 ((Text.trim_isInfix line).subset feed)
    have known := isReadHeader_of_parse before line' (Text.trim_trim line) parsed
    have quiet : ∀ l ∈ rest.takeWhile isBody, isStart (trim l) = false := fun l member => by
      simpa [isBody] using List.mem_takeWhile_imp member
    obtain ⟨taken, same⟩ := read.addChange known (fun l member =>
      clean.2 l ((List.takeWhile_sublist isBody).subset member)) quiet
    have before' : ∀ r ∈ header.rowRevision?.or last, IsCell r := by
      intro r found
      cases header with
      | row revision offset vanilla code =>
        obtain rfl : revision = r := Option.some.inj found
        exact known.1.revision
      | standalone => exact before r found
      | gecko => exact before r found
    obtain ⟨read', same'⟩ := ih taken before' fun l member =>
      clean.2 l ((List.dropWhile_sublist isBody).subset member)
    exact ⟨read', same.trans same'⟩

end ModText

end GamePatch
