import GamePatch.Configuration.Record
import GamePatch.Proofs.Fallible

set_option autoImplicit false

namespace GamePatch.Configuration

def readMember (name : Text) (base : Kind) (m : MemberRecord) : Except Error Member := do
  let v ← readJson name base m.value
  .ok ⟨v, m.name, m.comment⟩

/-- The steps by which an option is read off a record. -/
structure IsReadFrom (name : Text) (r : Record) (base : Kind) (c : Configuration) : Prop where
  named : c.name = name
  type : ∃ type, r.type = some type ∧ Kind.ofName? type = some base
  value : ∃ json, r.value = some json ∧ readJson name base json = .ok c.value
  default : ∃ json, r.default = some json ∧ readJson name base json = .ok c.default
  members : (r.members.getD []).mapM (readMember name base) = .ok c.members
  kind : restrictBy name r base = .ok c.kind
  note : c.note = r.note
  hexadecimal : c.hexadecimal = (isHexText r.value || isHexText r.default)
  checkedDefault : c.check c.default = .ok ()
  checkedValue : c.check c.value = .ok ()

theorem present_eq_ok_iff {α : Type} {missing : Error} {field : Option α} {a : α} :
    present missing field = .ok a ↔ field = some a := by
  cases field <;> simp [present]

theorem present_eq_error_iff {α : Type} {missing e : Error} {field : Option α} :
    present missing field = .error e ↔ field = none ∧ missing = e := by
  cases field <;> simp [present]

section

variable {name : Text} {r : Record} {c : Configuration} {e : Error}

theorem isReadFrom_of_ofRecord (read : ofRecord name r = .ok c) : ∃ base, IsReadFrom name r base c := by
  obtain ⟨type, hasType, read⟩ := Fallible.bind_eq_ok_iff.mp read
  obtain ⟨base, known, read⟩ := Fallible.bind_eq_ok_iff.mp read
  obtain ⟨valueJson, hasValue, read⟩ := Fallible.bind_eq_ok_iff.mp read
  obtain ⟨value, valueRead, read⟩ := Fallible.bind_eq_ok_iff.mp read
  obtain ⟨defaultJson, hasDefault, read⟩ := Fallible.bind_eq_ok_iff.mp read
  obtain ⟨default, defaultRead, read⟩ := Fallible.bind_eq_ok_iff.mp read
  obtain ⟨members, membersRead, read⟩ := Fallible.bind_eq_ok_iff.mp read
  obtain ⟨kind, restricted, read⟩ := Fallible.bind_eq_ok_iff.mp read
  obtain ⟨_, checkedDefault, read⟩ := Fallible.bind_eq_ok_iff.mp read
  obtain ⟨_, checkedValue, same⟩ := Fallible.bind_eq_ok_iff.mp read
  cases same
  exact ⟨base,
    { named := rfl
      type := ⟨type, present_eq_ok_iff.mp hasType, present_eq_ok_iff.mp known⟩
      value := ⟨valueJson, present_eq_ok_iff.mp hasValue, valueRead⟩
      default := ⟨defaultJson, present_eq_ok_iff.mp hasDefault, defaultRead⟩
      members := membersRead
      kind := restricted
      note := rfl
      hexadecimal := rfl
      checkedDefault := checkedDefault
      checkedValue := checkedValue }⟩

theorem ofRecord_of_isReadFrom {base : Kind} (steps : IsReadFrom name r base c) :
    ofRecord name r = .ok c := by
  obtain ⟨type, hasType, known⟩ := steps.type
  obtain ⟨valueJson, hasValue, valueRead⟩ := steps.value
  obtain ⟨defaultJson, hasDefault, defaultRead⟩ := steps.default
  have same : c =
      { name := name
        kind := c.kind
        default := c.default
        value := c.value
        members := c.members
        note := r.note
        hexadecimal := isHexText r.value || isHexText r.default } := by
    rw [← steps.named, ← steps.note, ← steps.hexadecimal]
  have checkedDefault := steps.checkedDefault
  have checkedValue := steps.checkedValue
  rw [same] at checkedDefault checkedValue
  apply Fallible.bind_eq_ok_iff.mpr ⟨type, present_eq_ok_iff.mpr hasType, ?_⟩
  apply Fallible.bind_eq_ok_iff.mpr ⟨base, present_eq_ok_iff.mpr known, ?_⟩
  apply Fallible.bind_eq_ok_iff.mpr ⟨valueJson, present_eq_ok_iff.mpr hasValue, ?_⟩
  apply Fallible.bind_eq_ok_iff.mpr ⟨c.value, valueRead, ?_⟩
  apply Fallible.bind_eq_ok_iff.mpr ⟨defaultJson, present_eq_ok_iff.mpr hasDefault, ?_⟩
  apply Fallible.bind_eq_ok_iff.mpr ⟨c.default, defaultRead, ?_⟩
  apply Fallible.bind_eq_ok_iff.mpr ⟨c.members, steps.members, ?_⟩
  apply Fallible.bind_eq_ok_iff.mpr ⟨c.kind, steps.kind, ?_⟩
  apply Fallible.bind_eq_ok_iff.mpr ⟨(), checkedDefault, ?_⟩
  apply Fallible.bind_eq_ok_iff.mpr ⟨(), checkedValue, ?_⟩
  exact congrArg Except.ok same.symm

/-- A restriction is looked at behind the values and the members. -/
theorem ofRecord_of_restrictBy_error {base : Kind}
    (type : ∃ type, r.type = some type ∧ Kind.ofName? type = some base)
    (value : ∃ json v, r.value = some json ∧ readJson name base json = .ok v)
    (default : ∃ json v, r.default = some json ∧ readJson name base json = .ok v)
    (members : ∃ ms, (r.members.getD []).mapM (readMember name base) = .ok ms)
    (refused : restrictBy name r base = .error e) : ofRecord name r = .error e := by
  obtain ⟨type, hasType, known⟩ := type
  obtain ⟨valueJson, value, hasValue, valueRead⟩ := value
  obtain ⟨defaultJson, default, hasDefault, defaultRead⟩ := default
  obtain ⟨members, membersRead⟩ := members
  apply Fallible.bind_eq_error_iff.mpr (.inr ⟨type, present_eq_ok_iff.mpr hasType, ?_⟩)
  apply Fallible.bind_eq_error_iff.mpr (.inr ⟨base, present_eq_ok_iff.mpr known, ?_⟩)
  apply Fallible.bind_eq_error_iff.mpr (.inr ⟨valueJson, present_eq_ok_iff.mpr hasValue, ?_⟩)
  apply Fallible.bind_eq_error_iff.mpr (.inr ⟨value, valueRead, ?_⟩)
  apply Fallible.bind_eq_error_iff.mpr (.inr ⟨defaultJson, present_eq_ok_iff.mpr hasDefault, ?_⟩)
  apply Fallible.bind_eq_error_iff.mpr (.inr ⟨default, defaultRead, ?_⟩)
  apply Fallible.bind_eq_error_iff.mpr (.inr ⟨members, membersRead, ?_⟩)
  exact Fallible.bind_eq_error_iff.mpr (.inl refused)

/-- The option, or the text of the declaration, that an error is about. No option is told where the
program ends. -/
def Error.subject? : Error → Option Text
  | .missingType name => name
  | .unrecognizedType name _ => name
  | .missingValue name => name
  | .missingDefault name => name
  | .invalidValue name _ => name
  | .outOfRange name _ _ => name
  | .outsideRange name _ _ _ => name
  | .outsideMask name _ _ => name
  | .invalidDeclaration text => text
  | .illFormed name => name
  | .overflow => none

/-- Every message mentions what it is about. -/
theorem Error.subject_infix_message {e : Error} {about : Text} (told : e.subject? = some about) :
    about <:+: e.message := by
  have within (front name back : Text) : name <:+: front ++ name ++ back := List.infix_append _ _ _
  have further {name text : Text} (mentioned : name <:+: text) (back : Text) :
      name <:+: text ++ back := mentioned.trans (List.prefix_append text back).isInfix
  cases e with
  | overflow => cases told
  | missingType name | missingValue name | missingDefault name | illFormed name =>
    obtain rfl := Option.some.inj told
    exact within _ name _
  | unrecognizedType name | invalidValue name | outsideMask name =>
    obtain rfl := Option.some.inj told
    exact further (within _ name _) _
  | outOfRange name =>
    obtain rfl := Option.some.inj told
    exact further (further (within _ name _) _) _
  | outsideRange name =>
    obtain rfl := Option.some.inj told
    exact further (further (further (within _ name _) _) _) _
  | invalidDeclaration text =>
    obtain rfl := Option.some.inj told
    exact (List.suffix_append _ text).isInfix

/-- An error about an option, or the end of the program. -/
def Error.Concerns (e : Error) (name : Text) : Prop := e = .overflow ∨ e.subject? = some name

theorem concerns_of_readJson {base : Kind} {json : Json} (failed : readJson name base json = .error e) :
    e.Concerns name := by
  unfold readJson required at failed
  split at failed
  · cases failed
    exact Or.inl rfl
  · cases failed
    exact Or.inr rfl
  · cases failed

theorem concerns_of_readJsonInt {base : Kind} {json : Json}
    (failed : readJsonInt name base json = .error e) : e.Concerns name := by
  unfold readJsonInt at failed
  split at failed
  case h_1 other invalid =>
    cases failed
    exact concerns_of_readJson invalid
  case h_2 => cases failed
  case h_3 =>
    cases failed
    exact Or.inr rfl

theorem concerns_of_restrictBy {base : Kind} (failed : restrictBy name r base = .error e) :
    e.Concerns name := by
  unfold restrictBy at failed
  split at failed
  case h_1 =>
    split at failed
    case h_1 => cases failed
    case h_2 =>
      rcases Fallible.bind_eq_error_iff.mp failed with low | ⟨_, -, failed⟩
      · exact concerns_of_readJsonInt low
      rcases Fallible.bind_eq_error_iff.mp failed with high | ⟨_, -, impossible⟩
      · exact concerns_of_readJsonInt high
      · cases impossible
  case h_2 =>
    split at failed
    case h_1 => cases failed
    case h_2 =>
      rcases Fallible.bind_eq_error_iff.mp failed with mask | ⟨_, -, impossible⟩
      · exact concerns_of_readJsonInt mask
      · cases impossible
  case h_3 => cases failed

theorem concerns_of_check {v : Value} (failed : c.check v = .error e) : e.Concerns c.name := by
  unfold check at failed
  split at failed
  · cases failed
    exact Or.inr rfl
  · split at failed
    · split at failed
      · cases failed
        exact Or.inr rfl
      · cases failed
    · split at failed
      · cases failed
        exact Or.inr rfl
      · cases failed
    · cases failed

theorem concerns_of_ofRecord (failed : ofRecord name r = .error e) : e.Concerns name := by
  have absent {α : Type} {missing : Error} {field : Option α} (about : missing.subject? = some name)
      (failed : present missing field = .error e) : e.Concerns name := by
    rw [← (present_eq_error_iff.mp failed).2]
    exact Or.inr about
  rcases Fallible.bind_eq_error_iff.mp failed with type | ⟨type, -, failed⟩
  · exact absent rfl type
  rcases Fallible.bind_eq_error_iff.mp failed with unknown | ⟨base, -, failed⟩
  · exact absent rfl unknown
  rcases Fallible.bind_eq_error_iff.mp failed with value | ⟨_, -, failed⟩
  · exact absent rfl value
  rcases Fallible.bind_eq_error_iff.mp failed with value | ⟨_, -, failed⟩
  · exact concerns_of_readJson value
  rcases Fallible.bind_eq_error_iff.mp failed with default | ⟨_, -, failed⟩
  · exact absent rfl default
  rcases Fallible.bind_eq_error_iff.mp failed with default | ⟨_, -, failed⟩
  · exact concerns_of_readJson default
  rcases Fallible.bind_eq_error_iff.mp failed with members | ⟨_, -, failed⟩
  · obtain ⟨m, -, member⟩ := Fallible.mapM_eq_error members
    rcases Fallible.bind_eq_error_iff.mp member with invalid | ⟨_, -, impossible⟩
    · exact concerns_of_readJson invalid
    · cases impossible
  rcases Fallible.bind_eq_error_iff.mp failed with restriction | ⟨_, -, failed⟩
  · exact concerns_of_restrictBy restriction
  rcases Fallible.bind_eq_error_iff.mp failed with default | ⟨_, -, failed⟩
  · exact concerns_of_check default
  rcases Fallible.bind_eq_error_iff.mp failed with value | ⟨_, -, impossible⟩
  · exact concerns_of_check value
  · cases impossible

end

/-! ### Options in JSON -/

section

variable {name : Text} {json : Json}

theorem name_of_ofJson {c : Configuration} (read : ofJson name json = .ok c) : c.name = name := by
  unfold ofJson at read
  split at read
  · cases read
  · obtain ⟨base, steps⟩ := isReadFrom_of_ofRecord read
    exact steps.named

/-- An option that is refused is mentioned in the message. -/
theorem mentioned_of_ofJson {e : Error} (refused : ofJson name json = .error e) :
    e = .overflow ∨ name <:+: e.message := by
  have about : e.Concerns name := by
    unfold ofJson at refused
    split at refused
    · cases refused
      exact Or.inr rfl
    · exact concerns_of_ofRecord refused
  exact about.imp_right Error.subject_infix_message

end

end GamePatch.Configuration
