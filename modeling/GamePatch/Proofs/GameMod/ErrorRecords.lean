import GamePatch.Proofs.GameMod.SourceText

set_option autoImplicit false

namespace GamePatch

open Assembling (run_bind yields_bind_iff yields_pure_iff)

namespace GameMod

/-! ### Records -/

/-- The mod knows the message and is marked with its kind. -/
structure HasRecorded (m : GameMod) (message : Text) (isAssembly : Bool) : Prop where
  known : message ∈ m.errors
  marked : (if isAssembly then m.hasAssemblyError else m.hasParsingError) = true

def recordAll (m : GameMod) (errors : List (Text × Bool)) : GameMod :=
  errors.foldl (fun m e => m.recordError e.1 e.2) m

theorem recordErrors_eq (m : GameMod) (messages : List Text) (isAssembly : Bool) :
    m.recordErrors messages isAssembly = m.recordAll (messages.map fun message => (message, isAssembly)) := by
  rw [recordAll, List.foldl_map]
  rfl

theorem recordFailures_eq (m : GameMod) (failures : List Failure) :
    m.recordFailures failures = m.recordAll (failures.map fun f =>
      (f.change ++ ": " ++ f.error.message, f.error.isAssemblyError)) := by
  rw [recordAll, List.foldl_map]
  rfl

theorem recordAll_append (m : GameMod) (errors more : List (Text × Bool)) :
    (m.recordAll errors).recordAll more = m.recordAll (errors ++ more) :=
  (List.foldl_append ..).symm

variable {m m' : GameMod}

theorem recordError_of_recorded {message : Text} {isAssembly : Bool}
    (recorded : m.HasRecorded message isAssembly) : m.recordError message isAssembly = m := by
  have known : m.errors.contains message = true := List.contains_iff_mem.mpr recorded.known
  have marked := recorded.marked
  unfold recordError
  rw [if_pos known]
  cases isAssembly with
  | true =>
    have same : m.hasAssemblyError = true := marked
    rw [same, Bool.or_true, Bool.not_true, Bool.or_false, ← same]
  | false =>
    have same : m.hasParsingError = true := marked
    rw [same, Bool.or_false, Bool.not_false, Bool.or_true, ← same]

theorem hasRecorded_recordError (m : GameMod) (message : Text) (isAssembly : Bool) :
    (m.recordError message isAssembly).HasRecorded message isAssembly where
  known := mem_recordError.mpr (Or.inr rfl)
  marked := by cases isAssembly <;> simp [recordError]

theorem HasRecorded.recordError {message : Text} {isAssembly : Bool}
    (recorded : m.HasRecorded message isAssembly) (other : Text) (kind : Bool) :
    (m.recordError other kind).HasRecorded message isAssembly where
  known := mem_recordError.mpr (Or.inl recorded.known)
  marked := by
    have marked := recorded.marked
    cases isAssembly with
    | true =>
      have same : m.hasAssemblyError = true := marked
      simp [GameMod.recordError, same]
    | false =>
      have same : m.hasParsingError = true := marked
      simp [GameMod.recordError, same]

theorem HasRecorded.recordAll {message : Text} {isAssembly : Bool}
    (recorded : m.HasRecorded message isAssembly) (errors : List (Text × Bool)) :
    (m.recordAll errors).HasRecorded message isAssembly := by
  induction errors generalizing m with
  | nil => exact recorded
  | cons e errors ih => exact ih (recorded.recordError e.1 e.2)

theorem hasRecorded_recordAll (m : GameMod) (errors : List (Text × Bool)) :
    ∀ e ∈ errors, (m.recordAll errors).HasRecorded e.1 e.2 := by
  induction errors generalizing m with
  | nil => simp
  | cons e errors ih =>
    rw [List.forall_mem_cons]
    exact ⟨(m.hasRecorded_recordError e.1 e.2).recordAll errors, ih (m.recordError e.1 e.2)⟩

theorem recordAll_of_recorded {errors : List (Text × Bool)}
    (recorded : ∀ e ∈ errors, m.HasRecorded e.1 e.2) : m.recordAll errors = m := by
  induction errors with
  | nil => rfl
  | cons e errors ih =>
    rw [List.forall_mem_cons] at recorded
    rw [recordAll, List.foldl_cons, recordError_of_recorded recorded.1]
    exact ih recorded.2

/-- Errors that have been recorded are not recorded again. -/
theorem recordAll_recordAll (m : GameMod) (errors : List (Text × Bool)) :
    (m.recordAll errors).recordAll errors = m.recordAll errors :=
  recordAll_of_recorded (m.hasRecorded_recordAll errors)

/-- Nothing but the errors and the marks is changed. -/
theorem recordAll_frame (m : GameMod) (errors : List (Text × Bool)) :
    ∃ known parsing assembly, m.recordAll errors =
      { m with errors := known, hasParsingError := parsing, hasAssemblyError := assembly } := by
  induction errors generalizing m with
  | nil => exact ⟨m.errors, m.hasParsingError, m.hasAssemblyError, rfl⟩
  | cons e errors ih =>
    obtain ⟨known, parsing, assembly, same⟩ := ih (m.recordError e.1 e.2)
    exact ⟨known, parsing, assembly, same⟩

/-! ### The first pass, once and twice -/

section

variable {toolchain : Toolchain} {includes : Includes} {known : List Configuration}

/-- The first pass of a change looks at nothing but its code. -/
theorem run_evaluate_change (toolchain : Toolchain) (includes : Includes) (options : Change.KnownOptions)
    (c : Change) : (c.evaluate includes options).run toolchain =
      match (Change.evaluateCode includes options c.code).run toolchain with
      | .error e => (.error e, c)
      | .ok i => (.ok (), { c with evaluated := some i, finished := none }) := by
  rw [Change.evaluate, run_bind]
  cases (Change.evaluateCode includes options c.code).run toolchain <;> rfl

/-- A change that has been through the first pass comes out of it as it is, with the same result. -/
theorem evaluate_change_again {options : Change.KnownOptions} {c after : Change}
    {result : Except Change.EvaluateError Unit}
    (evaluated : (c.evaluate includes options).run toolchain = (result, after)) :
    (after.evaluate includes options).run toolchain = (result, after) := by
  rw [run_evaluate_change] at evaluated ⊢
  cases read : (Change.evaluateCode includes options c.code).run toolchain with
  | error e =>
    rw [read] at evaluated
    cases evaluated
    rw [read]
  | ok i =>
    rw [read] at evaluated
    cases evaluated
    rw [read]

theorem run_evaluateChanges_cons (c : Change) (rest : List Change) :
    (evaluateChanges includes known (c :: rest)).run toolchain =
      match (c.evaluate includes (some known)).run toolchain,
        (evaluateChanges includes known rest).run toolchain with
      | (.ok (), c'), (changes, failures) => (c' :: changes, failures)
      | (.error e, c'), (changes, failures) => (c' :: changes, ⟨c'.describe, e⟩ :: failures) := by
  rw [evaluateChanges, run_bind, run_bind]
  rcases (c.evaluate includes (some known)).run toolchain with ⟨_ | _, c'⟩ <;> rfl

/-- Changes that have been evaluated are evaluated to themselves, and fail for the same reasons. -/
theorem evaluateChanges_again {changes after : List Change} {failures : List Failure}
    (evaluated : (evaluateChanges includes known changes).run toolchain = (after, failures)) :
    (evaluateChanges includes known after).run toolchain = (after, failures) := by
  induction changes generalizing after failures with
  | nil =>
    cases evaluated
    rfl
  | cons c rest ih =>
    rw [run_evaluateChanges_cons] at evaluated
    rcases own : (c.evaluate includes (some known)).run toolchain with ⟨_ | _, c'⟩
    all_goals
      rw [own] at evaluated
      cases evaluated
      rw [run_evaluateChanges_cons, evaluate_change_again own, ih rfl]

theorem run_evaluateRevisions_cons (r : Revision) (rest : List Revision) :
    (evaluateRevisions includes known (r :: rest)).run toolchain =
      (let (changes, failures) := (evaluateChanges includes known r.changes).run toolchain
       let (revisions, more) := (evaluateRevisions includes known rest).run toolchain
       ({ r with changes := changes } :: revisions, failures ++ more)) := by
  rw [evaluateRevisions, run_bind, run_bind]
  rfl

theorem evaluateRevisions_again {revisions after : List Revision} {failures : List Failure}
    (evaluated : (evaluateRevisions includes known revisions).run toolchain = (after, failures)) :
    (evaluateRevisions includes known after).run toolchain = (after, failures) := by
  induction revisions generalizing after failures with
  | nil =>
    cases evaluated
    rfl
  | cons r rest ih =>
    rw [run_evaluateRevisions_cons] at evaluated
    cases evaluated
    rw [run_evaluateRevisions_cons, ih rfl]
    simp only [evaluateChanges_again Prod.mk.eta.symm]

end

theorem run_evaluate (toolchain : Toolchain) (isFile : Path → Bool) (m : GameMod) :
    (m.evaluate isFile).run toolchain =
      (let (revisions, failures) :=
        (evaluateRevisions ⟨isFile, m.includePaths⟩ m.options m.revisions).run toolchain
       { m with revisions := revisions }.recordFailures failures) := by
  rw [evaluate, run_bind]
  rfl

/-- What the first pass makes of a mod stays as it is in the next first pass. -/
theorem evaluate_again (toolchain : Toolchain) (isFile : Path → Bool) (m : GameMod) :
    (((m.evaluate isFile).run toolchain).evaluate isFile).run toolchain =
      (m.evaluate isFile).run toolchain := by
  rw [run_evaluate toolchain isFile m]
  cases passed : (evaluateRevisions ⟨isFile, m.includePaths⟩ m.options m.revisions).run toolchain with
  | mk revisions failures =>
    have again := evaluateRevisions_again passed
    simp only
    rw [recordFailures_eq]
    generalize messages : failures.map (fun f : Failure =>
      (f.change ++ ": " ++ f.error.message, f.error.isAssemblyError)) = errors
    have recorded := ({ m with revisions := revisions }).recordAll_recordAll errors
    obtain ⟨known, parsing, assembly, same⟩ := ({ m with revisions := revisions }).recordAll_frame errors
    rw [same] at recorded ⊢
    rw [run_evaluate]
    simp only [again]
    rw [recordFailures_eq, messages]
    exact recorded

/-! ### The search for conflicts, once and twice -/

section

variable (revision : Text) (image : GameImage) (symbols : SymbolTable)

/-- The errors that a search records which finds some conflicts. -/
def conflictErrors (m : GameMod) (conflicts : List Conflict) : List (Text × Bool) :=
  ((regions image symbols (m.changesFor revision)).2 ++ conflicts.map Conflict.write).map
    fun message => (message, false)

variable {revision image symbols}

theorem recordAll_of_assessConflicts {conflicts : List Conflict}
    (searched : m.assessConflicts revision image symbols = .ok (conflicts, m')) :
    m' = m.recordAll (m.conflictErrors revision image symbols conflicts) := by
  rw [assessConflicts_eq_ok searched, conflictErrors, List.map_append, ← recordAll_append,
    ← recordErrors_eq, ← recordErrors_eq]

variable (revision image symbols)

theorem changesFor_congr (same : m'.revisions = m.revisions) :
    m'.changesFor revision = m.changesFor revision := by
  rw [changesFor, same, changesFor]

/-- The search looks at nothing but the changes. -/
theorem conflicts_congr (same : m'.revisions = m.revisions) :
    (m'.assessConflicts revision image symbols).map Prod.fst =
      (m.assessConflicts revision image symbols).map Prod.fst := by
  unfold assessConflicts
  rw [changesFor_congr revision same]
  rcases regions image symbols (m.changesFor revision) with ⟨found, failures⟩
  dsimp only
  cases Region.overlaps (found.map Prod.fst) <;> rfl

theorem conflictErrors_congr (same : m'.revisions = m.revisions) :
    m'.conflictErrors revision image symbols = m.conflictErrors revision image symbols := by
  funext conflicts
  rw [conflictErrors, changesFor_congr revision same, conflictErrors]

/-- A mod that was searched for conflicts has the same ones in the next search, and stays as it is. -/
theorem assessConflicts_again (m : GameMod) :
    (m.assessConflicts revision image symbols >>= fun found =>
      found.2.assessConflicts revision image symbols) = m.assessConflicts revision image symbols := by
  cases searched : m.assessConflicts revision image symbols with
  | error e => rfl
  | ok found =>
    obtain ⟨conflicts, after⟩ := found
    change after.assessConflicts revision image symbols = _
    have recorded := recordAll_of_assessConflicts searched
    have kept : after.revisions = m.revisions := by
      obtain ⟨known, parsing, assembly, same⟩ :=
        m.recordAll_frame (m.conflictErrors revision image symbols conflicts)
      rw [recorded, same]
    have found := conflicts_congr revision image symbols kept
    rw [searched] at found
    obtain ⟨⟨_, last⟩, again, rfl⟩ := Fallible.map_eq_ok_iff.mp found
    rw [again, recordAll_of_assessConflicts again, conflictErrors_congr revision image symbols kept,
      recorded, recordAll_recordAll]

end

/-! ### Errors and availability -/

/-- Each message is recorded once, and the mod is available as long as there is none. -/
structure HasSoundErrors (m : GameMod) : Prop where
  nodup : m.errors.Nodup
  available_iff : m.isAvailable = true ↔ m.errors = []

theorem hasSoundErrors_new (name : Text) : (new name).HasSoundErrors := ⟨List.nodup_nil, by simp [new, isAvailable]⟩

namespace HasSoundErrors

theorem of_same (sound : m.HasSoundErrors) (errors : m'.errors = m.errors)
    (parsing : m'.hasParsingError = m.hasParsingError)
    (assembly : m'.hasAssemblyError = m.hasAssemblyError) : m'.HasSoundErrors := by
  refine ⟨errors ▸ sound.nodup, ?_⟩
  rw [isAvailable, parsing, assembly, errors]
  exact sound.available_iff

theorem recordError (sound : m.HasSoundErrors) (message : Text) (isAssembly : Bool) :
    (m.recordError message isAssembly).HasSoundErrors where
  nodup := by
    unfold GameMod.recordError
    split
    · exact sound.nodup
    case isFalse fresh =>
      rw [List.contains_iff_mem] at fresh
      refine List.nodup_append.mpr ⟨sound.nodup, by simp, ?_⟩
      rintro known member _ own rfl
      exact fresh (List.mem_singleton.mp own ▸ member)
  available_iff := by
    have some : (m.recordError message isAssembly).errors ≠ [] :=
      List.ne_nil_of_mem (m.hasRecorded_recordError message isAssembly).known
    refine ⟨fun available => ?_, fun none => absurd none some⟩
    cases isAssembly <;> simp [isAvailable, GameMod.recordError] at available

theorem recordAll (sound : m.HasSoundErrors) (errors : List (Text × Bool)) :
    (m.recordAll errors).HasSoundErrors := by
  induction errors generalizing m with
  | nil => exact sound
  | cons e errors ih => exact ih (sound.recordError e.1 e.2)

theorem recordErrors (sound : m.HasSoundErrors) (messages : List Text) (isAssembly : Bool) :
    (m.recordErrors messages isAssembly).HasSoundErrors := by
  rw [recordErrors_eq]
  exact sound.recordAll _

/-- A step that keeps the errors in order does so any number of times. -/
theorem foldl {α : Type} {step : GameMod → α → GameMod}
    (each : ∀ m a, HasSoundErrors m → (step m a).HasSoundErrors) (items : List α)
    (sound : m.HasSoundErrors) : (items.foldl step m).HasSoundErrors := by
  induction items generalizing m with
  | nil => exact sound
  | cons a items ih => exact ih (each m a sound)

theorem push (sound : m.HasSoundErrors) (change : Change) : (m.push change).HasSoundErrors :=
  sound.of_same rfl rfl rfl

theorem addRawOption (sound : m.HasSoundErrors) (name : Text) (raw : Json) :
    (m.addRawOption name raw).HasSoundErrors := by
  unfold GameMod.addRawOption
  split
  · exact sound.of_same rfl rfl rfl
  · exact sound.recordError _ false

theorem addRawOptions (sound : m.HasSoundErrors) (raw : List (Text × Json)) :
    (m.addRawOptions raw).HasSoundErrors :=
  foldl (fun _ entry sound => sound.addRawOption entry.1 entry.2) raw sound

theorem setOption (sound : m.HasSoundErrors) (name : Text) (value : Configuration.Value) :
    (m.setOption name value).2.HasSoundErrors := by
  unfold GameMod.setOption
  split
  · exact sound
  · exact sound
  · exact sound.of_same rfl rfl rfl

theorem evaluate {isFile : Path → Bool} (sound : m.HasSoundErrors)
    (evaluated : (m.evaluate isFile).Yields m') : m'.HasSoundErrors := by
  obtain ⟨⟨revisions, failures⟩, -, kept⟩ := yields_bind_iff.mp evaluated
  cases yields_pure_iff.mp kept
  have start : ({ m with revisions := revisions }).HasSoundErrors := sound.of_same rfl rfl rfl
  rw [recordFailures_eq]
  exact start.recordAll _

theorem finalize {revision : Text} {index : Nat} {installAddress : Address} {symbols : SymbolTable}
    {result : Except Change.ResolveError Change.Finalized} (sound : m.HasSoundErrors)
    (finalized : (m.finalize revision index installAddress symbols).Yields (result, m')) :
    m'.HasSoundErrors := by
  unfold GameMod.finalize at finalized
  split at finalized
  case h_1 =>
    cases yields_pure_iff.mp finalized
    exact sound
  case h_2 c found =>
    obtain ⟨⟨outcome, c'⟩, -, kept⟩ := yields_bind_iff.mp finalized
    have replaced : (m.replaceChange revision index c').HasSoundErrors := sound.of_same rfl rfl rfl
    cases outcome with
    | error e =>
      cases yields_pure_iff.mp kept
      exact replaced.recordError _ true
    | ok f =>
      cases yields_pure_iff.mp kept
      exact replaced

/-- No operation loses a message or a mark. -/
theorem perform {operation : Operation} (sound : m.HasSoundErrors)
    (performed : (operation.perform m).Yields m') : m'.HasSoundErrors := by
  cases operation with
  | setRevision label =>
    cases yields_pure_iff.mp performed
    exact sound.of_same rfl rfl rfl
  | push change =>
    cases yields_pure_iff.mp performed
    exact sound.of_same rfl rfl rfl
  | add kind target code vanilla =>
    cases yields_pure_iff.mp performed
    exact sound.of_same rfl rfl rfl
  | addRawOptions raw =>
    cases yields_pure_iff.mp performed
    exact sound.addRawOptions raw
  | setOption name value =>
    cases yields_pure_iff.mp performed
    exact sound.setOption name value
  | evaluate isFile => exact sound.evaluate performed
  | finalize revision index installAddress symbols =>
    obtain ⟨⟨result, after⟩, finalized, kept⟩ := yields_bind_iff.mp performed
    cases yields_pure_iff.mp kept
    exact sound.finalize finalized
  | assessConflicts revision image symbols =>
    rw [Operation.perform] at performed
    cases searched : m.assessConflicts revision image symbols with
    | error e =>
      rw [searched] at performed
      cases yields_pure_iff.mp performed
      exact sound
    | ok found =>
      rw [searched] at performed
      cases yields_pure_iff.mp performed
      rw [recordAll_of_assessConflicts searched]
      exact sound.recordAll _
  | recordError message isAssembly =>
    cases yields_pure_iff.mp performed
    exact sound.recordError message isAssembly
  | markModified =>
    cases yields_pure_iff.mp performed
    exact sound.of_same rfl rfl rfl

end HasSoundErrors

end GameMod

end GamePatch
