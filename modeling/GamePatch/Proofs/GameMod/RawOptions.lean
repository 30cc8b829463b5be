import GamePatch.GameMod.Basic

set_option autoImplicit false

namespace GamePatch.GameMod

theorem mem_recordError {m : GameMod} {message known : Text} {isAssembly : Bool} :
    known ∈ (m.recordError message isAssembly).errors ↔ known ∈ m.errors ∨ known = message := by
  unfold recordError
  split
  case isTrue repeated =>
    have : message ∈ m.errors := by simpa using repeated
    constructor
    · exact Or.inl
    · rintro (before | rfl)
      · exact before
      · exact this
  case isFalse => simp

theorem mem_recordErrors {m : GameMod} {messages : List Text} {known : Text} {isAssembly : Bool} :
    known ∈ (m.recordErrors messages isAssembly).errors ↔ known ∈ m.errors ∨ known ∈ messages := by
  induction messages generalizing m with
  | nil => simp [recordErrors]
  | cons message rest ih =>
    have step : m.recordErrors (message :: rest) isAssembly =
        (m.recordError message isAssembly).recordErrors rest isAssembly := rfl
    rw [step, ih, mem_recordError, List.mem_cons, or_assoc]

def acceptedOptions (raw : List (Text × Json)) : List Configuration :=
  raw.filterMap fun entry => (Configuration.ofJson entry.1 entry.2).toOption

def refusals (raw : List (Text × Json)) : List Text :=
  raw.filterMap fun entry =>
    match Configuration.ofJson entry.1 entry.2 with
    | .ok _ => none
    | .error e => some e.message

variable {m : GameMod} {raw : List (Text × Json)} {name : Text} {json : Json}

theorem addRawOption_accepted {c : Configuration} (accepted : Configuration.ofJson name json = .ok c) :
    m.addRawOption name json = { m with options := m.options ++ [c] } := by
  rw [addRawOption, accepted]

theorem addRawOption_refused {e : Configuration.Error}
    (refused : Configuration.ofJson name json = .error e) :
    m.addRawOption name json = m.recordError e.message false := by
  rw [addRawOption, refused]

theorem addRawOptions_cons (m : GameMod) (entry : Text × Json) (raw : List (Text × Json)) :
    m.addRawOptions (entry :: raw) = (m.addRawOption entry.1 entry.2).addRawOptions raw := rfl

theorem acceptedOptions_cons_accepted {c : Configuration}
    (accepted : Configuration.ofJson name json = .ok c) :
    acceptedOptions ((name, json) :: raw) = c :: acceptedOptions raw := by
  apply List.filterMap_cons_some
  rw [accepted]
  rfl

theorem acceptedOptions_cons_refused {e : Configuration.Error}
    (refused : Configuration.ofJson name json = .error e) :
    acceptedOptions ((name, json) :: raw) = acceptedOptions raw := by
  apply List.filterMap_cons_none
  rw [refused]
  rfl

/-- Only the options and the errors are others. -/
theorem addRawOptions_eq (m : GameMod) (raw : List (Text × Json)) :
    ∃ errors failed, m.addRawOptions raw =
      { m with
        options := m.options ++ acceptedOptions raw
        errors := errors
        hasParsingError := failed } := by
  induction raw generalizing m with
  | nil =>
    refine ⟨m.errors, m.hasParsingError, ?_⟩
    rw [acceptedOptions, List.filterMap_nil, List.append_nil]
    rfl
  | cons entry raw ih =>
    obtain ⟨name, json⟩ := entry
    rw [addRawOptions_cons]
    cases read : Configuration.ofJson name json with
    | ok c =>
      rw [addRawOption_accepted read, acceptedOptions_cons_accepted read]
      obtain ⟨errors, failed, rest⟩ := ih { m with options := m.options ++ [c] }
      refine ⟨errors, failed, ?_⟩
      rw [rest, List.append_assoc, List.singleton_append]
    | error e =>
      rw [addRawOption_refused read, acceptedOptions_cons_refused read]
      obtain ⟨errors, failed, rest⟩ := ih (m.recordError e.message false)
      refine ⟨errors, failed, ?_⟩
      rw [rest, recordError, Bool.or_false]

theorem options_addRawOptions (m : GameMod) (raw : List (Text × Json)) :
    (m.addRawOptions raw).options = m.options ++ acceptedOptions raw := by
  obtain ⟨errors, failed, same⟩ := m.addRawOptions_eq raw
  rw [same]

/-- The errors are those that there were, and the messages of what is refused. -/
theorem mem_errors_addRawOptions {known : Text} :
    known ∈ (m.addRawOptions raw).errors ↔ known ∈ m.errors ∨ known ∈ refusals raw := by
  induction raw generalizing m with
  | nil => simp [addRawOptions, refusals]
  | cons entry raw ih =>
    rw [addRawOptions_cons, ih]
    cases read : Configuration.ofJson entry.1 entry.2 with
    | ok c =>
      have same : refusals (entry :: raw) = refusals raw := List.filterMap_cons_none (by rw [read])
      rw [addRawOption_accepted read, same]
    | error e =>
      have more : refusals (entry :: raw) = e.message :: refusals raw :=
        List.filterMap_cons_some (by rw [read])
      rw [addRawOption_refused read, mem_recordError, more, List.mem_cons, or_assoc]

end GamePatch.GameMod
