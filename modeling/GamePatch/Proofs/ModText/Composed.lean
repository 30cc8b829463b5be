import GamePatch.Proofs.ModText.Changes

set_option autoImplicit false

namespace GamePatch.ModText

open Header (isStart)

structure IsTitle (name : Text) : Prop where
  nonempty : name ≠ []
  trimmed : Text.trim name = name
  noRemark : name.head? ≠ some '#'
  line : '\n' ∉ name

/-- The lines below the title and above the changes. -/
def aboveChanges (m : GameMod) : List Text := (topLines m).tail.flatMap (Text.splitAt '\n')

theorem flatMap_revisionLines (revisions : List Revision) :
    (revisions.flatMap revisionLines).flatMap (Text.splitAt '\n') =
      entryLines (entriesOf revisions) := by
  rw [entryLines, entriesOf, List.flatMap_assoc, List.flatMap_assoc]
  refine List.flatMap_congr fun r _ => ?_
  rw [revisionLines, List.flatMap_map, List.flatMap_map]

/-- The lines of a mod. -/
theorem lines_compose {m : GameMod} (title : IsTitle m.name)
    (above : ∀ l ∈ aboveChanges m, Text.IsLine l)
    (legible : ∀ e ∈ entriesOf m.revisions, IsLegible e.1 e.2) :
    Text.lines (compose m) = m.name :: (aboveChanges m ++ entryLines (entriesOf m.revisions)) := by
  have pieces : (topLines m ++ m.revisions.flatMap revisionLines).flatMap (Text.splitAt '\n') =
      m.name :: (aboveChanges m ++ entryLines (entriesOf m.revisions)) := by
    have first : topLines m = m.name :: (topLines m).tail := by
      simp [topLines]
    rw [List.flatMap_append, flatMap_revisionLines, first, List.flatMap_cons,
      Text.splitAt_eq_singleton title.line]
    rfl
  have own : Text.IsLine m.name :=
    Text.isLine_of_trimEnd title.line (Text.trim_eq_self_iff.mp title.trimmed).2
  have some : topLines m ++ m.revisions.flatMap revisionLines ≠ [] := by
    simp [topLines]
  rw [compose, Text.lines_joinLines_pieces some, pieces]
  rw [pieces, List.forall_mem_cons, List.forall_mem_append]
  exact ⟨own, above, isLine_entryLines legible⟩

theorem IsTitle.not_before {name : Text} (title : IsTitle name) : isBeforeTitle name = false := by
  have solid := Text.isAllBlank_eq_false_of_trim title.nonempty title.trimmed
  rw [isBeforeTitle, solid, title.trimmed, Bool.false_or, beq_eq_false_iff_ne]
  exact title.noRemark

/-- A text is read in three stages: up to its title, up to its changes, and to its end. -/
theorem parse_terminated {lines rest below : List Text} {title : Text} {top m : GameMod}
    (whole : ∀ l ∈ lines, Text.IsLine l) (first : lines.dropWhile isBeforeTitle = title :: rest)
    (read : readTop (GameMod.new title) [] rest = (top, below))
    (changes : readChanges top none below = m) :
    parse (Text.terminated lines) = .ok { m with sourceText := some (Text.terminated lines) } := by
  rw [parse, Text.lines_terminated whole, first]
  simp only [read, changes]

/-- The text of a mod is read up to its changes, and from there on everything is found again. -/
theorem parse_compose {m top : GameMod} (title : IsTitle m.name)
    (above : ∀ l ∈ aboveChanges m, Text.IsLine l)
    (legible : ∀ e ∈ entriesOf m.revisions, IsLegible e.1 e.2) (listed : IsListed m.revisions)
    (read : ∀ rest, (∀ l ∈ rest.head?, Text.trim l = l ∧ isStart (Text.trim l) = true) →
      readTop (GameMod.new m.name) [] (aboveChanges m ++ rest) = (top, rest))
    (empty : top.revisions = []) :
    ∃ current, parse (compose m) =
      .ok (top.revised (m.revisions.map Revision.asWritten) current (some (compose m))) := by
  have fresh : ∀ r ∈ m.revisions, ∀ s ∈ top.revisions, s.label ≠ r.label := by
    rw [empty]
    intro r _ s member
    cases member
  obtain ⟨current, source, taken⟩ := takeIn_entriesOf listed fresh
  refine ⟨current, ?_⟩
  rw [parse, lines_compose title above legible,
    List.dropWhile_cons_of_neg (by rw [title.not_before]; simp)]
  simp only [read _ (isStart_head_entryLines legible), readChanges_entryLines legible, taken]
  rw [empty, List.nil_append]
  rfl

/-- The lines above the changes end where a change starts. -/
theorem readTop_stop (m : GameMod) (description : List Text) {rest : List Text}
    (stop : ∀ l ∈ rest.head?, isStart (Text.trim l) = true) :
    readTop m description rest = ({ m with description := bodyText description }, rest) := by
  cases rest with
  | nil => rw [readTop]
  | cons l rest =>
    rw [readTop]
    simp only [stop l rfl, if_true]

theorem readTop_tableHeader (m : GameMod) (description rest : List Text) :
    readTop m description (tableHeader :: rest) = readTop m description rest := by
  have trimmed : Text.trim tableHeader = tableHeader := by decide +kernel
  have plain : isStart tableHeader = false := by decide +kernel
  have header : isTableHeader tableHeader = true := by decide +kernel
  have other : tableHeader ≠ "Configurations:" := by decide +kernel
  rw [readTop]
  simp only [trimmed, plain, header, other, Bool.false_eq_true, if_false, if_true]

theorem isLine_tableHeader : Text.IsLine tableHeader :=
  ⟨by decide +kernel, by decide +kernel⟩

end GamePatch.ModText
