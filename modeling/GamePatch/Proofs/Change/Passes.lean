import GamePatch.GameMod.Evaluate
import GamePatch.Proofs.Change.LastBranch
import GamePatch.Proofs.Change.Sharing

set_option autoImplicit false

namespace GamePatch

namespace Change

/-- What is done with a change between its making and its use. -/
inductive Action where
  | evaluate (includes : Includes) (options : KnownOptions)
  | finalize (context : Context)
  | edit (code : Text)

/-- The outcome of an action on a change, and the change after it. -/
def Action.perform : Action → Change →
    Assembling (Except (EvaluateError ⊕ ResolveError) Unit × Change)
  | .evaluate includes options, c => do
    let (result, after) ← c.evaluate includes options
    pure (result.mapError .inl, after)
  | .finalize context, c => do
    let (result, after) ← c.finalize context
    pure ((result.map fun _ => ()).mapError .inr, after)
  | .edit code, c => pure (.ok (), { c with code := code })

def performAll : List Action → Change → Assembling Change
  | [], c => pure c
  | action :: rest, c => do
    let (_, after) ← action.perform c
    performAll rest after

/-- The results that a change keeps are machine code, and fit each other. -/
structure Fits (c : Change) : Prop where
  evaluated : ∀ i, c.evaluated = some i → ∃ bytes, i.hex = Hex.encode bytes
  finished : ∀ hex, c.finished = some hex →
    ∃ i out, c.evaluated = some i ∧ hex = Hex.encode out ∧ out.length = i.length

/-- The second pass keeps the length of the first, however its code comes about. -/
theorem length_of_complete {context : Context} {i : Intermediate} {code hex : Text} {bytes : Bytes}
    (text : i.hex = Hex.encode bytes)
    (resolved : (resolveCode context i code).Yields (.ok (.complete hex))) :
    ∃ out, hex = Hex.encode out ∧ out.length = i.length := by
  rcases fill_or_assembly_of_ok (outstanding_of_complete resolved) resolved with
    filled | ⟨a, length, same⟩
  · obtain ⟨out, spans, same⟩ := fill_eq_ok text filled
    exact ⟨out, same, (length_fillSpans spans).trans (length_of_hex text).symm⟩
  · cases same
    exact ⟨a.bytes, rfl, length⟩

theorem fits_new (kind : ChangeKind) (target code : Text) : (new kind target code).Fits where
  evaluated i found := by cases found
  finished hex found := by cases found

/-- The first pass keeps its result, or fails and keeps the change as it was. -/
theorem evaluate_cases {includes : Includes} {options : KnownOptions} {c after : Change}
    {result : Except EvaluateError Unit}
    (evaluated : (c.evaluate includes options).Yields (result, after)) :
    ((∃ e, result = .error e) ∧ after = c) ∨
      result = .ok () ∧ ∃ i, (evaluateCode includes options c.code).Yields (.ok i) ∧
        after = { c with evaluated := some i, finished := none } := by
  obtain ⟨read, first, kept⟩ := Assembling.yields_bind_iff.mp evaluated
  cases read with
  | error e =>
    cases Assembling.yields_pure_iff.mp kept
    exact Or.inl ⟨⟨e, rfl⟩, rfl⟩
  | ok i =>
    cases Assembling.yields_pure_iff.mp kept
    exact Or.inr ⟨rfl, i, first, rfl⟩

/-- The second pass keeps finished code, or fails and keeps the change as it was. -/
theorem finalize_cases {context : Context} {c after : Change} {result : Except ResolveError Finalized}
    (finalized : (c.finalize context).Yields (result, after)) :
    ((∃ e, result = .error e) ∧ after = c) ∨
      ∃ f, result = .ok f ∧ (c.resolve context).Yields (.ok f) ∧ after = c.keep f := by
  obtain ⟨read, second, kept⟩ := Assembling.yields_bind_iff.mp finalized
  cases read with
  | error e =>
    cases Assembling.yields_pure_iff.mp kept
    exact Or.inl ⟨⟨e, rfl⟩, rfl⟩
  | ok f =>
    cases Assembling.yields_pure_iff.mp kept
    exact Or.inr ⟨f, rfl, second, rfl⟩

theorem Fits.evaluate {includes : Includes} {options : KnownOptions} {c after : Change}
    {result : Except EvaluateError Unit} (fits : c.Fits)
    (evaluated : (c.evaluate includes options).Yields (result, after)) : after.Fits := by
  rcases evaluate_cases evaluated with ⟨-, rfl⟩ | ⟨-, i, first, rfl⟩
  · exact fits
  · refine ⟨fun i' found => ?_, fun hex found => by cases found⟩
    cases found
    exact evaluateCode_eq_encode first

theorem Fits.finalize {context : Context} {c after : Change} {result : Except ResolveError Finalized}
    (fits : c.Fits) (finalized : (c.finalize context).Yields (result, after)) : after.Fits := by
  rcases finalize_cases finalized with ⟨-, rfl⟩ | ⟨f, -, second, rfl⟩
  · exact fits
  · cases f with
    | pending hex names => exact fits
    | complete hex =>
      refine ⟨fits.evaluated, fun hex' found => ?_⟩
      cases found
      cases kept : c.evaluated with
      | none =>
        rw [Change.resolve, kept] at second
        cases Assembling.yields_done_iff.mp second
      | some i =>
        rw [Change.resolve, kept] at second
        obtain ⟨bytes, text⟩ := fits.evaluated i kept
        obtain ⟨out, same, length⟩ := length_of_complete text second
        exact ⟨i, out, kept, same, length⟩

theorem Fits.perform {action : Action} {c after : Change}
    {outcome : Except (EvaluateError ⊕ ResolveError) Unit} (fits : c.Fits)
    (performed : (action.perform c).Yields (outcome, after)) : after.Fits := by
  cases action with
  | evaluate includes options =>
    obtain ⟨⟨result, changed⟩, evaluated, kept⟩ := Assembling.yields_bind_iff.mp performed
    cases Assembling.yields_pure_iff.mp kept
    exact fits.evaluate evaluated
  | finalize context =>
    obtain ⟨⟨result, changed⟩, finalized, kept⟩ := Assembling.yields_bind_iff.mp performed
    cases Assembling.yields_pure_iff.mp kept
    exact fits.finalize finalized
  | edit code =>
    cases Assembling.yields_pure_iff.mp performed
    exact ⟨fits.evaluated, fits.finished⟩

theorem Action.eq_of_perform_error {action : Action} {c after : Change} {e : EvaluateError ⊕ ResolveError}
    (failed : (action.perform c).Yields (.error e, after)) : after = c := by
  cases action with
  | evaluate includes options =>
    obtain ⟨⟨result, changed⟩, evaluated, kept⟩ := Assembling.yields_bind_iff.mp failed
    obtain ⟨named, rfl⟩ := Prod.mk.inj (Assembling.yields_pure_iff.mp kept)
    rcases evaluate_cases evaluated with ⟨-, same⟩ | ⟨rfl, -⟩
    · exact same
    · cases named
  | finalize context =>
    obtain ⟨⟨result, changed⟩, finalized, kept⟩ := Assembling.yields_bind_iff.mp failed
    obtain ⟨named, rfl⟩ := Prod.mk.inj (Assembling.yields_pure_iff.mp kept)
    rcases finalize_cases finalized with ⟨-, same⟩ | ⟨f, rfl, -⟩
    · exact same
    · cases named
  | edit code => cases Assembling.yields_pure_iff.mp failed

theorem Fits.performAll {actions : List Action} {c after : Change} (fits : c.Fits)
    (performed : (performAll actions c).Yields after) : after.Fits := by
  induction actions generalizing c with
  | nil =>
    cases Assembling.yields_pure_iff.mp performed
    exact fits
  | cons action rest ih =>
    obtain ⟨⟨outcome, between⟩, first, others⟩ := Assembling.yields_bind_iff.mp performed
    exact ih (fits.perform first) others

/-- In every state of a change its results are machine code of one length, and a pass that fails
leaves them as they are. -/
theorem results_fit {kind : ChangeKind} {target code : Text} {actions : List Action} {c : Change}
    (reached : (performAll actions (new kind target code)).Yields c) :
    (∀ i, c.evaluated = some i → Hex.IsDigits i.hex ∧ i.hex.length % 2 = 0) ∧
    (∀ hex, c.finished = some hex →
      ∃ i, c.evaluated = some i ∧ Hex.IsDigits hex ∧ hex.length = i.hex.length ∧
        c.length? = some (hex.length / 2)) ∧
    ∀ action e after, (Action.perform action c).Yields (.error e, after) →
      after.evaluated = c.evaluated ∧ after.finished = c.finished := by
  have fits := (fits_new kind target code).performAll reached
  refine ⟨fun i kept => ?_, fun hex kept => ?_, fun action e after failed => ?_⟩
  · obtain ⟨bytes, text⟩ := fits.evaluated i kept
    rw [text, Hex.length_encode]
    exact ⟨Hex.isDigits_encode bytes, Nat.mul_mod_right 2 _⟩
  · obtain ⟨i, out, first, rfl, length⟩ := fits.finished hex kept
    obtain ⟨bytes, text⟩ := fits.evaluated i first
    have whole : (Hex.encode out).length = i.hex.length := by
      rw [Hex.length_encode, length, length_of_hex text, text, Hex.length_encode]
    refine ⟨i, first, Hex.isDigits_encode out, whole, ?_⟩
    rw [length?, first, whole]
    rfl
  · cases Action.eq_of_perform_error failed
    exact ⟨rfl, rfl⟩

/-- Both passes, and then one over other code, which the assembler refuses. -/
def actionsWithEdit : List Action :=
  [.evaluate ⟨fun _ => false, []⟩ none, .finalize tablePlaced, .edit "li r99, 1",
    .evaluate ⟨fun _ => false, []⟩ none]

/-- The change keeps the results for the code that it had before. -/
def editedChange : Change :=
  { new .injection "0x80002000" "li r99, 1" with
    evaluated := some (handOutLivesEvaluated 1 3)
    finished := some "388000634BFFF0014E800020" }

theorem editedChange_fits :
    (performAll actionsWithEdit (new .injection "0x80002000" handOutLives)).Yields editedChange ∧
      ∃ i, editedChange.evaluated = some i ∧ Hex.IsDigits "388000634BFFF0014E800020".toList ∧
        "388000634BFFF0014E800020".toList.length = i.hex.length ∧
          editedChange.length? = some 12 := by
  have run : (performAll actionsWithEdit (new .injection "0x80002000" handOutLives)).run
      Assembler.toolchain = editedChange := by decide +kernel
  have reached := Assembling.yields_of_run run
  exact ⟨reached, (results_fit reached).2.1 _ rfl⟩

end Change

namespace GameMod

/-- A mod keeps each of its changes as the first pass leaves it. -/
theorem evaluateChanges_performed {includes : Includes} {options : List Configuration}
    {changes after : List Change} {failures : List Failure}
    (evaluated : (evaluateChanges includes options changes).Yields (after, failures)) :
    List.Forall₂ (fun c c' => ∃ result,
      (c.evaluate includes (some options)).Yields (result, c')) changes after := by
  induction changes generalizing after failures with
  | nil =>
    cases Assembling.yields_pure_iff.mp evaluated
    exact .nil
  | cons c rest ih =>
    obtain ⟨⟨result, c'⟩, first, chain⟩ := Assembling.yields_bind_iff.mp evaluated
    obtain ⟨⟨more, others⟩, second, kept⟩ := Assembling.yields_bind_iff.mp chain
    cases result with
    | error e =>
      cases Assembling.yields_pure_iff.mp kept
      exact .cons ⟨_, first⟩ (ih second)
    | ok =>
      cases Assembling.yields_pure_iff.mp kept
      exact .cons ⟨_, first⟩ (ih second)

end GameMod

end GamePatch
