import GamePatch.GameMod.Basic

set_option autoImplicit false

namespace GamePatch

/-- A change without what belongs to a directory or to the passes. -/
def Change.asWritten (c : Change) : Change :=
  { c with sourceFile := none, evaluated := none, finished := none }

def Revision.asWritten (r : Revision) : Revision := { r with changes := r.changes.map Change.asWritten }

namespace GameMod

theorem withRevision_of_mem {revisions : List Revision} {r : Revision} (known : r ∈ revisions) :
    withRevision r.label revisions = revisions := by
  have found : revisions.any (fun s => s.label == r.label) = true :=
    List.any_eq_true.mpr ⟨r, known, beq_self_eq_true _⟩
  rw [withRevision, found, if_pos rfl]

theorem withRevision_of_fresh {revisions : List Revision} {label : Text}
    (fresh : ∀ r ∈ revisions, r.label ≠ label) :
    withRevision label revisions = revisions ++ [⟨label, []⟩] := by
  have none : revisions.any (fun r => r.label == label) = false :=
    List.any_eq_false.mpr fun r member => by simpa using fresh r member
  rw [withRevision, none, if_neg (by simp)]

theorem mapRevision_append {front : List Revision} {label : Text} {f : Revision → Revision}
    (fresh : ∀ r ∈ front, r.label ≠ label) (r : Revision) (own : r.label = label) :
    mapRevision label f (front ++ [r]) = front ++ [f r] := by
  induction front with
  | nil => rw [List.nil_append, mapRevision, if_pos own, List.nil_append]
  | cons s front ih =>
    rw [List.forall_mem_cons] at fresh
    rw [List.cons_append, mapRevision, if_neg fresh.1, ih fresh.2, List.cons_append]

/-- Only the revision of the label is another one. -/
theorem mem_mapRevision {label : Text} {f : Revision → Revision} {revisions : List Revision}
    {r : Revision} (member : r ∈ mapRevision label f revisions) :
    r ∈ revisions ∨ ∃ s ∈ revisions, s.label = label ∧ r = f s := by
  induction revisions with
  | nil => exact Or.inl member
  | cons s revisions ih =>
    rw [mapRevision] at member
    split at member
    case isTrue own =>
      rcases List.mem_cons.mp member with rfl | later
      · exact Or.inr ⟨s, List.mem_cons_self, own, rfl⟩
      · exact Or.inl (List.mem_cons_of_mem _ later)
    case isFalse =>
      rcases List.mem_cons.mp member with rfl | later
      · exact Or.inl List.mem_cons_self
      · rcases ih later with before | ⟨q, inside, own, same⟩
        · exact Or.inl (List.mem_cons_of_mem _ before)
        · exact Or.inr ⟨q, List.mem_cons_of_mem _ inside, own, same⟩

theorem map_label_mapRevision {label : Text} {f : Revision → Revision}
    (keeps : ∀ r, (f r).label = r.label) (revisions : List Revision) :
    (mapRevision label f revisions).map Revision.label = revisions.map Revision.label := by
  induction revisions with
  | nil => rfl
  | cons s revisions ih =>
    rw [mapRevision]
    split
    · rw [List.map_cons, keeps, List.map_cons]
    · rw [List.map_cons, ih, List.map_cons]

def revised (m : GameMod) (revisions : List Revision) (current : Text) (source : Option Text) :
    GameMod :=
  { m with revisions := revisions, currentRevision := current, sourceText := source }

theorem revised_self (m : GameMod) : m.revised m.revisions m.currentRevision m.sourceText = m := rfl

@[simp] theorem revised_revised (m : GameMod) (revisions revisions' : List Revision)
    (current current' : Text) (source source' : Option Text) :
    (m.revised revisions current source).revised revisions' current' source' =
      m.revised revisions' current' source' := rfl

@[simp] theorem revisions_revised (m : GameMod) (revisions : List Revision) (current : Text)
    (source : Option Text) : (m.revised revisions current source).revisions = revisions := rfl

def pushTo (m : GameMod) (label : Text) (c : Change) : GameMod := (m.setRevision label).push c

/-- A change goes to the end of the revision that was written last. -/
theorem pushTo_last {m : GameMod} {front : List Revision} {r : Revision}
    (known : m.revisions = front ++ [r]) (fresh : ∀ s ∈ front, s.label ≠ r.label)
    (trimmed : Text.trim r.label = r.label) (c : Change) :
    m.pushTo r.label c =
      m.revised (front ++ [{ r with changes := r.changes ++ [c] }]) r.label none := by
  have there : r ∈ m.revisions := by
    rw [known]
    exact List.mem_append_right front List.mem_cons_self
  rw [pushTo, push, setRevision, revised]
  simp only [trimmed, withRevision_of_mem there]
  rw [known, mapRevision_append fresh r rfl]

/-- A change of a revision that was not there makes it. -/
theorem pushTo_new {m : GameMod} {label : Text} (fresh : ∀ r ∈ m.revisions, r.label ≠ label)
    (trimmed : Text.trim label = label) (c : Change) :
    m.pushTo label c = m.revised (m.revisions ++ [⟨label, [c]⟩]) label none := by
  have there : (⟨label, []⟩ : Revision) ∈ m.revisions ++ [⟨label, []⟩] :=
    List.mem_append_right _ List.mem_cons_self
  have again : withRevision label (m.revisions ++ [⟨label, []⟩]) = m.revisions ++ [⟨label, []⟩] :=
    withRevision_of_mem there
  rw [pushTo, push, setRevision, revised]
  simp only [trimmed, withRevision_of_fresh fresh, again]
  rw [mapRevision_append fresh ⟨label, []⟩ rfl]
  rfl

/-- The changes of a revision that was written last are put at its end. -/
theorem foldl_pushTo_last {m : GameMod} {front : List Revision} {label : Text} {before : List Change}
    (known : m.revisions = front ++ [⟨label, before⟩]) (fresh : ∀ s ∈ front, s.label ≠ label)
    (trimmed : Text.trim label = label) (changes : List Change) :
    ∃ current source, changes.foldl (fun m c => m.pushTo label c) m =
      m.revised (front ++ [⟨label, before ++ changes⟩]) current source := by
  induction changes generalizing m before with
  | nil =>
    refine ⟨m.currentRevision, m.sourceText, ?_⟩
    rw [List.foldl_nil, List.append_nil, ← known, revised_self]
  | cons c changes ih =>
    have step := pushTo_last known fresh trimmed c
    have later : (m.pushTo label c).revisions = front ++ [⟨label, before ++ [c]⟩] := by
      rw [step, revisions_revised]
    obtain ⟨current, source, rest⟩ := ih later
    refine ⟨current, source, ?_⟩
    rw [List.foldl_cons, rest, step, revised_revised, List.append_assoc, List.singleton_append]

end GameMod

namespace ModText

def entriesOf (revisions : List Revision) : List (Text × Change) :=
  revisions.flatMap fun r => r.changes.map fun c => (r.label, c)

theorem forall_entriesOf {P : Text → Change → Prop} {revisions : List Revision} :
    (∀ e ∈ entriesOf revisions, P e.1 e.2) ↔ ∀ r ∈ revisions, ∀ c ∈ r.changes, P r.label c := by
  simp only [entriesOf, List.forall_mem_flatMap, List.forall_mem_map]

/-- Revisions that can be told apart, and each has changes. -/
structure IsListed (revisions : List Revision) : Prop where
  distinct : (revisions.map Revision.label).Nodup
  trimmed : ∀ r ∈ revisions, Text.trim r.label = r.label
  nonempty : ∀ r ∈ revisions, r.changes ≠ []

def takeIn (m : GameMod) (entries : List (Text × Change)) : GameMod :=
  entries.foldl (fun m e => m.pushTo e.1 e.2.asWritten) m

/-- The changes of one more revision are taken in. -/
theorem takeIn_revision {m : GameMod} {r : Revision} (fresh : ∀ s ∈ m.revisions, s.label ≠ r.label)
    (trimmed : Text.trim r.label = r.label) (nonempty : r.changes ≠ []) :
    ∃ current source, takeIn m (r.changes.map fun c => (r.label, c)) =
      m.revised (m.revisions ++ [r.asWritten]) current source := by
  obtain ⟨c, changes, shape⟩ := List.exists_cons_of_ne_nil nonempty
  have step := GameMod.pushTo_new fresh trimmed c.asWritten
  obtain ⟨current, source, rest⟩ := GameMod.foldl_pushTo_last
    (m := m.pushTo r.label c.asWritten) (by rw [step, GameMod.revisions_revised]) fresh trimmed
    (changes.map Change.asWritten)
  refine ⟨current, source, ?_⟩
  rw [List.foldl_map, step, GameMod.revised_revised] at rest
  rw [takeIn, shape, List.map_cons, List.foldl_cons, List.foldl_map, step, rest, Revision.asWritten,
    shape]
  rfl

/-- Changes that are taken in one by one make the revisions that they were written from. -/
theorem takeIn_entriesOf {revisions : List Revision} (listed : IsListed revisions) {m : GameMod}
    (fresh : ∀ r ∈ revisions, ∀ s ∈ m.revisions, s.label ≠ r.label) :
    ∃ current source, takeIn m (entriesOf revisions) =
      m.revised (m.revisions ++ revisions.map Revision.asWritten) current source := by
  induction revisions generalizing m with
  | nil =>
    refine ⟨m.currentRevision, m.sourceText, ?_⟩
    rw [List.map_nil, List.append_nil, GameMod.revised_self]
    rfl
  | cons r revisions ih =>
    obtain ⟨distinct, trimmed, nonempty⟩ := listed
    rw [List.map_cons, List.nodup_cons] at distinct
    rw [List.forall_mem_cons] at trimmed nonempty fresh
    obtain ⟨current, source, first⟩ := takeIn_revision fresh.1 trimmed.1 nonempty.1
    have later : ∀ q ∈ revisions, ∀ s ∈ m.revisions ++ [r.asWritten], s.label ≠ q.label := by
      intro q member s known
      rcases List.mem_append.mp known with before | last
      · exact fresh.2 q member s before
      · rw [List.mem_singleton.mp last]
        exact fun same => distinct.1 (List.mem_map.mpr ⟨q, member, same.symm⟩)
    obtain ⟨current', source', rest⟩ := ih ⟨distinct.2, trimmed.2, nonempty.2⟩
      (m := m.revised (m.revisions ++ [r.asWritten]) current source) later
    refine ⟨current', source', ?_⟩
    rw [GameMod.revised_revised, GameMod.revisions_revised, ← first, takeIn, takeIn,
      ← List.foldl_append] at rest
    rw [takeIn, entriesOf, List.flatMap_cons, List.map_cons, ← List.singleton_append (l := List.map _ _),
      ← List.append_assoc]
    exact rest

end ModText

end GamePatch
