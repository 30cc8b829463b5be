import GamePatch.GameMod.Basic
import GamePatch.Proofs.Configuration.Readings
import GamePatch.Proofs.Configuration.Records

set_option autoImplicit false

namespace GamePatch

namespace Configuration

/-- An option that was read off a declaration or out of JSON. Members may have been added to it. -/
inductive IsBuilt : Configuration → Prop where
  | declared (line : Text) {c : Configuration} (read : parse line = .ok c) : IsBuilt c
  | recorded {name : Text} {r : Record} {c : Configuration} (read : ofRecord name r = .ok c) :
    IsBuilt c
  | withMembers {c : Configuration} (built : IsBuilt c) (members : List Member) :
    IsBuilt { c with members := members }

/-- The first value of an option is allowed. -/
theorem IsBuilt.checked {c : Configuration} (built : c.IsBuilt) : c.check c.value = .ok () := by
  induction built with
  | declared line read =>
    have declared := (isDeclared_of_parse read).1
    rw [declared.value]
    exact declared.checked
  | recorded read =>
    obtain ⟨base, steps⟩ := isReadFrom_of_ofRecord read
    exact steps.checkedValue
  | withMembers built members ih => exact ih

/-- An option that differs from another one in its value at most, which is allowed. -/
structure IsSettingOf (c c' : Configuration) : Prop where
  name : c'.name = c.name
  kind : c'.kind = c.kind
  checked : c'.check c'.value = .ok ()

theorem IsBuilt.isSettingOf {c : Configuration} (built : c.IsBuilt) : c.IsSettingOf c :=
  ⟨rfl, rfl, built.checked⟩

theorem IsSettingOf.set {c c' c'' : Configuration} {value : Value} (setting : c.IsSettingOf c')
    (done : c'.set value = .ok c'') : c.IsSettingOf c'' := by
  unfold Configuration.set at done
  split at done
  case h_1 checked =>
    cases done
    exact ⟨setting.name, setting.kind, checked⟩
  case h_2 => cases done

/-- What a change of an option keeps is kept of all options when one of them is changed. -/
theorem forall₂_of_modifyFirst {R : Configuration → Configuration → Prop} {ε : Type} {name : Text}
    {change : Configuration → Except ε Configuration}
    (kept : ∀ c c' c'', R c c' → change c' = .ok c'' → R c c'')
    {first before after : List Configuration} (all : List.Forall₂ R first before)
    (changed : modifyFirst name change before = some (.ok after)) : List.Forall₂ R first after := by
  induction all generalizing after with
  | nil => cases changed
  | @cons c c' first before here rest ih =>
    rw [modifyFirst] at changed
    split at changed
    · obtain ⟨c'', done, rfl⟩ := Fallible.map_eq_ok_iff.mp (Option.some.inj changed)
      exact .cons (kept c c' c'' here done) rest
    · obtain ⟨result, found, same⟩ := Option.map_eq_some_iff.mp changed
      obtain ⟨more, rfl, rfl⟩ := Fallible.map_eq_ok_iff.mp same
      exact .cons here (ih found)

/-- Options with the names of others are found under the same names. -/
theorem find?_of_settings {options options' : List Configuration}
    (settings : List.Forall₂ IsSettingOf options options') {name : Text} {c : Configuration}
    (found : find? options name = some c) :
    ∃ c', find? options' name = some c' ∧ c.IsSettingOf c' := by
  induction settings with
  | nil => cases found
  | @cons first first' options options' here rest ih =>
    rw [find?, List.find?_cons] at found ⊢
    rw [here.name]
    split at found
    · cases found
      exact ⟨first', rfl, here⟩
    · exact ih found

theorem group_of_settings {options options' : List Configuration}
    (settings : List.Forall₂ IsSettingOf options options') {names : List Text}
    {group : List Configuration}
    (found : List.Forall₂ (fun name c => find? options name = some c) names group) :
    ∃ group', List.Forall₂ (fun name c => find? options' name = some c) names group' ∧
      List.Forall₂ IsSettingOf group group' := by
  induction found with
  | nil => exact ⟨[], .nil, .nil⟩
  | cons here rest ih =>
    obtain ⟨c', found, setting⟩ := find?_of_settings settings here
    obtain ⟨group', all, each⟩ := ih
    exact ⟨c' :: group', .cons found all, .cons setting each⟩

end Configuration

namespace GameMod

open GamePatch.Configuration (Value IsSettingOf)

def trySetOption (m : GameMod) (name : Text) (value : Value) : GameMod := (m.setOption name value).2

def trySetOptions (m : GameMod) (attempts : List (Text × Value)) : GameMod :=
  attempts.foldl (fun m attempt => m.trySetOption attempt.1 attempt.2) m

/-- No attempt, accepted or refused, gives an option a value that is not allowed. -/
theorem trySetOption_settings {m : GameMod} {options : List Configuration} (name : Text)
    (value : Value) (settings : List.Forall₂ IsSettingOf options m.options) :
    List.Forall₂ IsSettingOf options (m.trySetOption name value).options := by
  unfold trySetOption setOption
  cases changed : Configuration.modifyFirst name (fun c => c.set value) m.options with
  | none => exact settings
  | some result =>
    cases result with
    | error e => exact settings
    | ok after =>
      exact Configuration.forall₂_of_modifyFirst (fun _ _ _ setting done => setting.set done) settings
        changed

theorem trySetOptions_settings {m : GameMod} {options : List Configuration}
    (attempts : List (Text × Value)) (settings : List.Forall₂ IsSettingOf options m.options) :
    List.Forall₂ IsSettingOf options (m.trySetOptions attempts).options := by
  induction attempts generalizing m with
  | nil => exact settings
  | cons attempt attempts ih => exact ih (trySetOption_settings attempt.1 attempt.2 settings)

/-- Whatever is tried, each option that was read keeps its name and its kind, and its value is
allowed. -/
theorem settings_of_built {m : GameMod} (built : ∀ c ∈ m.options, c.IsBuilt)
    (attempts : List (Text × Value)) :
    List.Forall₂ IsSettingOf m.options (m.trySetOptions attempts).options := by
  apply trySetOptions_settings
  rw [List.forall₂_same]
  exact fun c member => (built c member).isSettingOf

end GameMod

end GamePatch
