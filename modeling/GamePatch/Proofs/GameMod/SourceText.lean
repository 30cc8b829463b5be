import GamePatch.ModText.Writer
import GamePatch.Proofs.Change.Passes
import GamePatch.Proofs.GameMod.RawOptions
import GamePatch.Proofs.ModText.Blocks
import GamePatch.Proofs.ModText.Composed

set_option autoImplicit false

namespace GamePatch

open Assembling (yields_bind_iff yields_pure_iff)

namespace Change

/-- The passes do not touch what is written of a change. -/
theorem asWritten_of_evaluate {includes : Includes} {options : KnownOptions} {c after : Change}
    {result : Except EvaluateError Unit}
    (evaluated : (c.evaluate includes options).Yields (result, after)) :
    after.asWritten = c.asWritten := by
  rcases evaluate_cases evaluated with ⟨-, rfl⟩ | ⟨-, i, -, rfl⟩ <;> rfl

theorem asWritten_of_finalize {context : Context} {c after : Change}
    {result : Except ResolveError Finalized}
    (finalized : (c.finalize context).Yields (result, after)) : after.asWritten = c.asWritten := by
  rcases finalize_cases finalized with ⟨-, rfl⟩ | ⟨f, -, -, rfl⟩
  · rfl
  · cases f <;> rfl

end Change

namespace GameMod

inductive Operation where
  | setRevision (label : Text)
  | push (change : Change)
  /-- A change of any kind is made of its code. -/
  | add (kind : ChangeKind) (target code : Text) (vanilla : Option Text)
  | addRawOptions (raw : List (Text × Json))
  | setOption (name : Text) (value : Configuration.Value)
  | evaluate (isFile : Path → Bool)
  | finalize (revision : Text) (index : Nat) (installAddress : Address) (symbols : SymbolTable)
  | assessConflicts (revision : Text) (image : GameImage) (symbols : SymbolTable)
  | recordError (message : Text) (isAssembly : Bool)
  | markModified

/-- The mod after an operation. One at which the program ends leaves the mod as it was. -/
def Operation.perform : Operation → GameMod → Assembling GameMod
  | .setRevision label, m => pure (m.setRevision label)
  | .push change, m => pure (m.push change)
  | .add kind target code vanilla, m => pure (m.add kind target code vanilla)
  | .addRawOptions raw, m => pure (m.addRawOptions raw)
  | .setOption name value, m => pure (m.setOption name value).2
  | .evaluate isFile, m => m.evaluate isFile
  | .finalize revision index installAddress symbols, m => do
    let (_, after) ← m.finalize revision index installAddress symbols
    pure after
  | .assessConflicts revision image symbols, m =>
    match m.assessConflicts revision image symbols with
    | .ok (_, after) => pure after
    | .error _ => pure m
  | .recordError message isAssembly, m => pure (m.recordError message isAssembly)
  | .markModified, m => pure m.markModified

/-- The options that an operation reads from JSON. -/
def Operation.accepted : Operation → List Configuration
  | .addRawOptions raw => acceptedOptions raw
  | _ => []

def performAll : List Operation → GameMod → Assembling GameMod
  | [], m => pure m
  | operation :: rest, m => do
    let after ← operation.perform m
    performAll rest after

/-- A mod of which everything is written like another one, with some options more. -/
structure Extends (m : GameMod) (options : List Configuration) (m' : GameMod) : Prop where
  name : m'.name = m.name
  authors : m'.authors = m.authors
  description : m'.description = m.description
  links : m'.links = m.links
  revisions : m'.revisions.map Revision.asWritten = m.revisions.map Revision.asWritten
  options : m'.options = m.options ++ options
  sourceText : m'.sourceText = m.sourceText

variable {m m' m'' : GameMod} {options options' : List Configuration}

theorem Extends.refl (m : GameMod) : m.Extends [] m :=
  ⟨rfl, rfl, rfl, rfl, rfl, (List.append_nil _).symm, rfl⟩

theorem Extends.trans (first : m.Extends options m') (second : m'.Extends options' m'') :
    m.Extends (options ++ options') m'' where
  name := second.name.trans first.name
  authors := second.authors.trans first.authors
  description := second.description.trans first.description
  links := second.links.trans first.links
  revisions := second.revisions.trans first.revisions
  options := by rw [second.options, first.options, List.append_assoc]
  sourceText := second.sourceText.trans first.sourceText

theorem extends_recordError (m : GameMod) (message : Text) (isAssembly : Bool) :
    m.Extends [] (m.recordError message isAssembly) :=
  ⟨rfl, rfl, rfl, rfl, rfl, (List.append_nil _).symm, rfl⟩

theorem extends_recordErrors (m : GameMod) (messages : List Text) (isAssembly : Bool) :
    m.Extends [] (m.recordErrors messages isAssembly) := by
  induction messages generalizing m with
  | nil => exact Extends.refl m
  | cons message rest ih => exact (m.extends_recordError message isAssembly).trans (ih _)

theorem extends_recordFailures (m : GameMod) (failures : List Failure) :
    m.Extends [] (m.recordFailures failures) := by
  induction failures generalizing m with
  | nil => exact Extends.refl m
  | cons failure rest ih => exact (m.extends_recordError _ _).trans (ih _)

theorem extends_addRawOptions (m : GameMod) (raw : List (Text × Json)) :
    m.Extends (acceptedOptions raw) (m.addRawOptions raw) := by
  obtain ⟨errors, failed, same⟩ := m.addRawOptions_eq raw
  rw [same]
  exact ⟨rfl, rfl, rfl, rfl, rfl, rfl, rfl⟩

/-! ### The passes -/

theorem asWritten_evaluateChanges {includes : Includes} {known : List Configuration}
    {changes after : List Change} {failures : List Failure}
    (evaluated : (evaluateChanges includes known changes).Yields (after, failures)) :
    after.map Change.asWritten = changes.map Change.asWritten := by
  have each := evaluateChanges_performed evaluated
  clear evaluated
  induction each with
  | nil => rfl
  | cons first rest ih =>
    obtain ⟨result, passed⟩ := first
    rw [List.map_cons, List.map_cons, Change.asWritten_of_evaluate passed, ih]

theorem asWritten_evaluateRevisions {includes : Includes} {known : List Configuration}
    {revisions after : List Revision} {failures : List Failure}
    (evaluated : (evaluateRevisions includes known revisions).Yields (after, failures)) :
    after.map Revision.asWritten = revisions.map Revision.asWritten := by
  induction revisions generalizing after failures with
  | nil =>
    cases yields_pure_iff.mp evaluated
    rfl
  | cons r rest ih =>
    obtain ⟨⟨changes, own⟩, first, chain⟩ := yields_bind_iff.mp evaluated
    obtain ⟨⟨others, more⟩, second, kept⟩ := yields_bind_iff.mp chain
    cases yields_pure_iff.mp kept
    have same : changes.map Change.asWritten = r.changes.map Change.asWritten :=
      asWritten_evaluateChanges first
    rw [List.map_cons, List.map_cons, ih second, Revision.asWritten, same]
    rfl

theorem extends_evaluate {isFile : Path → Bool} (evaluated : (m.evaluate isFile).Yields m') :
    m.Extends [] m' := by
  obtain ⟨⟨revisions, failures⟩, passed, kept⟩ := yields_bind_iff.mp evaluated
  cases yields_pure_iff.mp kept
  have start : m.Extends [] { m with revisions := revisions } :=
    ⟨rfl, rfl, rfl, rfl, asWritten_evaluateRevisions passed, (List.append_nil _).symm, rfl⟩
  exact start.trans (extends_recordFailures _ failures)

/-- A change in the place of one that is written alike. -/
theorem asWritten_mapRevision {revision : Text} {index : Nat} {c c' : Change}
    {revisions : List Revision}
    (found : (revisions.find? fun r => r.label == revision).bind (fun r => r.changes[index]?) = some c)
    (same : c'.asWritten = c.asWritten) :
    (mapRevision revision (fun r => { r with changes := r.changes.set index c' }) revisions).map
        Revision.asWritten = revisions.map Revision.asWritten := by
  induction revisions with
  | nil => rfl
  | cons r rest ih =>
    rw [mapRevision]
    by_cases own : r.label = revision
    · rw [List.find?_cons_of_pos (by simpa using own), Option.bind_some] at found
      have kept : (r.changes.set index c').map Change.asWritten = r.changes.map Change.asWritten := by
        have place : (r.changes.map Change.asWritten)[index]? = some c.asWritten := by
          rw [List.getElem?_map, found, Option.map_some]
        obtain ⟨inside, there⟩ := List.getElem?_eq_some_iff.mp place
        rw [List.map_set, same, ← there, List.set_getElem_self]
      rw [if_pos own, List.map_cons, List.map_cons, Revision.asWritten, kept]
      rfl
    · rw [List.find?_cons_of_neg (by simpa using own)] at found
      rw [if_neg own, List.map_cons, List.map_cons, ih found]

theorem extends_finalize {revision : Text} {index : Nat} {installAddress : Address}
    {symbols : SymbolTable} {result : Except Change.ResolveError Change.Finalized}
    (finalized : (m.finalize revision index installAddress symbols).Yields (result, m')) :
    m.Extends [] m' := by
  unfold finalize at finalized
  split at finalized
  case h_1 =>
    cases yields_pure_iff.mp finalized
    exact Extends.refl m
  case h_2 c found =>
    obtain ⟨⟨outcome, c'⟩, passed, kept⟩ := yields_bind_iff.mp finalized
    have same := Change.asWritten_of_finalize passed
    have replaced : m.Extends [] (m.replaceChange revision index c') :=
      ⟨rfl, rfl, rfl, rfl, asWritten_mapRevision found same, (List.append_nil _).symm, rfl⟩
    cases outcome with
    | error e =>
      cases yields_pure_iff.mp kept
      exact replaced.trans (extends_recordError _ _ _)
    | ok f =>
      cases yields_pure_iff.mp kept
      exact replaced

/-- What is found is recorded, and nothing else. -/
theorem assessConflicts_eq_ok {revision : Text} {image : GameImage} {symbols : SymbolTable}
    {conflicts : List Conflict}
    (searched : m.assessConflicts revision image symbols = .ok (conflicts, m')) :
    m' = (m.recordErrors (regions image symbols (m.changesFor revision)).2 false).recordErrors
      (conflicts.map Conflict.write) false := by
  obtain ⟨overlaps, -, kept⟩ := Fallible.bind_eq_ok_iff.mp searched
  cases kept
  rfl

theorem extends_assessConflicts {revision : Text} {image : GameImage} {symbols : SymbolTable}
    {conflicts : List Conflict}
    (searched : m.assessConflicts revision image symbols = .ok (conflicts, m')) : m.Extends [] m' := by
  rw [assessConflicts_eq_ok searched]
  exact (m.extends_recordErrors _ false).trans (extends_recordErrors _ _ false)

/-! ### Operations -/

/-- An operation drops the text, or nothing that is written changes but for the options that are read
from JSON. -/
theorem extends_perform {operation : Operation} (performed : (operation.perform m).Yields m') :
    m'.sourceText = none ∨ m.Extends operation.accepted m' := by
  cases operation with
  | setRevision label =>
    cases yields_pure_iff.mp performed
    exact Or.inl rfl
  | push change =>
    cases yields_pure_iff.mp performed
    exact Or.inl rfl
  | add kind target code vanilla =>
    cases yields_pure_iff.mp performed
    exact Or.inl rfl
  | addRawOptions raw =>
    cases yields_pure_iff.mp performed
    exact Or.inr (m.extends_addRawOptions raw)
  | setOption name value =>
    cases yields_pure_iff.mp performed
    unfold setOption
    split
    · exact Or.inr (Extends.refl m)
    · exact Or.inr (Extends.refl m)
    · exact Or.inl rfl
  | evaluate isFile => exact Or.inr (extends_evaluate performed)
  | finalize revision index installAddress symbols =>
    obtain ⟨⟨result, after⟩, finalized, kept⟩ := yields_bind_iff.mp performed
    cases yields_pure_iff.mp kept
    exact Or.inr (extends_finalize finalized)
  | assessConflicts revision image symbols =>
    rw [Operation.perform] at performed
    cases searched : m.assessConflicts revision image symbols with
    | error e =>
      rw [searched] at performed
      cases yields_pure_iff.mp performed
      exact Or.inr (Extends.refl m)
    | ok found =>
      rw [searched] at performed
      cases yields_pure_iff.mp performed
      exact Or.inr (extends_assessConflicts searched)
  | recordError message isAssembly =>
    cases yields_pure_iff.mp performed
    exact Or.inr (m.extends_recordError message isAssembly)
  | markModified =>
    cases yields_pure_iff.mp performed
    exact Or.inl rfl

/-- A text that was dropped does not come back. -/
theorem extends_performAll {operations : List Operation}
    (performed : (performAll operations m).Yields m') :
    m'.sourceText = none ∨ m.Extends (operations.flatMap Operation.accepted) m' := by
  induction operations generalizing m with
  | nil =>
    cases yields_pure_iff.mp performed
    exact Or.inr (Extends.refl _)
  | cons operation rest ih =>
    obtain ⟨between, first, others⟩ := yields_bind_iff.mp performed
    rw [List.flatMap_cons]
    rcases ih others with dropped | later
    · exact Or.inl dropped
    · rcases extends_perform first with dropped | step
      · exact Or.inl (later.sourceText.trans dropped)
      · exact Or.inr (step.trans later)

/-- A mod that was read from a text and, whatever was done with it, still has a text, is written as what it
was read from. Reading this again gives all that is written of the mod, and its options as well if and only
if no option of a JSON document was accepted. -/
theorem agrees_with_text_iff {text t : Text} {operations : List Operation}
    (read : ModText.parse text = .ok m) (reached : (performAll operations m).Yields m')
    (kept : m'.sourceText = some t) :
    ModText.write m' = t ∧ ∃ p, ModText.parse t = .ok p ∧
      p.Extends (operations.flatMap Operation.accepted) m' ∧
      (m'.options = p.options ∧
          m'.revisions.map Revision.asWritten = p.revisions.map Revision.asWritten ↔
        ∀ operation ∈ operations, operation.accepted = []) := by
  have extended : m.Extends (operations.flatMap Operation.accepted) m' := by
    rcases extends_performAll reached with dropped | extended
    · rw [kept] at dropped
      cases dropped
    · exact extended
  have own : some t = some text := by
    rw [← kept, extended.sourceText]
    exact ModText.sourceText_of_parse read
  cases own
  have written : ModText.write m' = text := by
    rw [ModText.write, kept, Option.getD_some]
  refine ⟨written, m, read, extended, ?_⟩
  rw [extended.options, List.append_right_eq_self, List.flatMap_eq_nil_iff]
  exact and_iff_left extended.revisions

def waitLines : List Text :=
  ["Menus", "Configurations:", "    uint8 Frames = 2", "<Wait> ALL", "386000[[Frames]]"]

def waitMod : GameMod :=
  { GameMod.new "Menus" with
    options :=
      [{ name := "Frames"
         kind := .int .one false none
         default := .int 2
         value := .int 2
         members := []
         note := none
         hexadecimal := false }]
    revisions := [⟨"ALL", [.new .standalone "Wait" "386000[[Frames]]"]⟩]
    sourceText := some (Text.terminated waitLines) }

theorem parse_waitLines : ModText.parse (Text.terminated waitLines) = .ok waitMod := by
  have whole : ∀ l ∈ waitLines, Text.IsLine l := by
    simp only [Text.IsLine]
    decide
  have title : waitLines.dropWhile ModText.isBeforeTitle = "Menus".toList :: waitLines.tail := by
    decide +kernel
  have top : ModText.readTop (GameMod.new "Menus") [] waitLines.tail =
      ({ waitMod with revisions := [], sourceText := none }, waitLines.drop 3) := by
    decide +kernel
  have changes : ModText.readChanges { waitMod with revisions := [], sourceText := none } none
      (waitLines.drop 3) = { waitMod with sourceText := none } := by
    decide +kernel
  exact ModText.parse_terminated whole title top changes

/-- A value that does not fit, an option without a type, and the first pass. -/
def refusedOperations : List Operation :=
  [.setOption "Frames" (.int 300), .addRawOptions [("Speed", .object [])],
    .evaluate fun _ => false]

def evaluatedWaitMod : GameMod :=
  { waitMod with
    revisions :=
      [⟨"ALL", [{ Change.new .standalone "Wait" "386000[[Frames]]" with
        evaluated := some
          { hex := "38600000"
            spans := [⟨3, 1, .options ["Frames"], "386000[[Frames]]", 0⟩]
            isAssembly := false } }]⟩]
    errors := ["Configuration option 'Speed' is missing a type"]
    hasParsingError := true }

theorem evaluatedWaitMod_agrees :
    ModText.parse (Text.terminated waitLines) = .ok waitMod ∧
      (performAll refusedOperations waitMod).Yields evaluatedWaitMod ∧
      evaluatedWaitMod.sourceText = some (Text.terminated waitLines) ∧
      ModText.write evaluatedWaitMod = Text.terminated waitLines ∧
      ∃ p, ModText.parse (Text.terminated waitLines) = .ok p ∧
        evaluatedWaitMod.options = p.options := by
  have run : (performAll refusedOperations waitMod).run Assembler.toolchain = evaluatedWaitMod := by
    decide +kernel
  have reached := Assembling.yields_of_run run
  obtain ⟨written, p, read, -, agree⟩ := agrees_with_text_iff parse_waitLines reached rfl
  have refused : ∀ operation ∈ refusedOperations, operation.accepted = [] := by decide +kernel
  exact ⟨parse_waitLines, reached, rfl, written, p, read, (agree.mpr refused).1⟩

def bareLines : List Text := ["Menus"]

def bareMod : GameMod := { GameMod.new "Menus" with sourceText := some (Text.terminated bareLines) }

theorem parse_bareLines : ModText.parse (Text.terminated bareLines) = .ok bareMod := by
  have whole : ∀ l ∈ bareLines, Text.IsLine l := by
    simp only [Text.IsLine]
    decide
  have title : bareLines.dropWhile ModText.isBeforeTitle = ["Menus".toList] := by decide +kernel
  have top : ModText.readTop (GameMod.new "Menus") [] [] = (GameMod.new "Menus", []) := by decide +kernel
  exact ModText.parse_terminated whole title top (by rw [ModText.readChanges])

def framesJson : Json :=
  .object [("type".toList, .text "uint8"), ("value".toList, .int 2), ("default".toList, .int 2)]

/-- The text stays where an option is added, and says nothing of it. -/
theorem addedOption_not_in_text :
    ModText.parse (Text.terminated bareLines) = .ok bareMod ∧
      ∃ m', (performAll [.addRawOptions [("Frames", framesJson)]] bareMod).Yields m' ∧
        m'.sourceText = some (Text.terminated bareLines) ∧
        ModText.write m' = Text.terminated bareLines ∧ m'.options ≠ bareMod.options := by
  refine ⟨parse_bareLines, bareMod.addRawOptions [("Frames", framesJson)], yields_pure_iff.mpr rfl, ?_⟩
  decide +kernel

end GameMod

end GamePatch
