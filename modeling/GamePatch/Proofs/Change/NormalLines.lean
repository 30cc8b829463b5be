import GamePatch.Proofs.Assembler.Items
import GamePatch.Proofs.Change.Placeholders
import GamePatch.Proofs.Text.LineBreaks
import GamePatch.SymbolTable

set_option autoImplicit false

namespace GamePatch

namespace Code

/-- The lines that say something, without their comments and the blanks at their ends. -/
def normalLines (lines : List Text) : List Text :=
  (lines.map Line.stripComment).filter fun line => !line.isEmpty

theorem normalLines_of_blank {line : Text} (rest : List Text) (blank : Line.stripComment line = []) :
    normalLines (line :: rest) = normalLines rest := by
  simp [normalLines, blank]

theorem normalLines_of_solid {line : Text} (rest : List Text) (solid : Line.stripComment line ≠ []) :
    normalLines (line :: rest) = Line.stripComment line :: normalLines rest := by
  simp [normalLines, solid]

/-- The normal form of code has its normal lines, and they can be told from it. -/
theorem normalLines_eq {a b : Text} (same : normalize a = normalize b) :
    normalLines (Text.lines a) = normalLines (Text.lines b) := by
  have nonempty (code : Text) : ∀ l ∈ normalLines (Text.lines code), l ≠ [] := by
    intro l member
    simpa using List.of_mem_filter member
  have clean (code : Text) : ∀ l ∈ normalLines (Text.lines code), '\n' ∉ l := by
    intro l member feed
    obtain ⟨line, inside, rfl⟩ := List.mem_map.mp (List.mem_of_mem_filter member)
    exact Text.newline_not_mem_of_mem_lines inside ((Line.stripComment_isInfix line).subset feed)
  exact Text.joinLines_injective (nonempty a) (nonempty b) (clean a) (clean b) same

/-- A reader to whom neither comments nor blank lines mean anything reads the normal lines. -/
theorem flatMap_normalLines {α : Type} (read : Text → List α)
    (blind : ∀ line, read (Line.stripComment line) = read line) (none : read [] = [])
    (lines : List Text) : (normalLines lines).flatMap read = lines.flatMap read := by
  induction lines with
  | nil => rfl
  | cons line rest ih =>
    by_cases blank : Line.stripComment line = []
    · rw [normalLines_of_blank rest blank, List.flatMap_cons, ih, ← blind line, blank, none,
        List.nil_append]
    · rw [normalLines_of_solid rest blank, List.flatMap_cons, List.flatMap_cons, ih, blind]

/-- What such a reader makes of code is the same for code with the same normal form. -/
theorem flatMap_lines_congr {α : Type} {a b : Text} (same : normalize a = normalize b)
    (read : Text → List α) (blind : ∀ line, read (Line.stripComment line) = read line)
    (none : read [] = []) : (Text.lines a).flatMap read = (Text.lines b).flatMap read := by
  rw [← flatMap_normalLines read blind none, normalLines_eq same, flatMap_normalLines read blind none]

/-- The parts between line feeds have the normal lines of the text. -/
theorem normalLines_lines (code : Text) :
    normalLines (Text.lines code) = normalLines (Text.splitAt '\n' code) := by
  have clean : ∀ l ∈ Text.splitAt '\n' code, '\n' ∉ l := fun l member => (Text.mem_splitAt member).2
  have blind (l : Text) : Line.stripComment (l ++ ['\r']) = Line.stripComment l :=
    Line.stripComment_concat_blank l (by decide)
  have nothing : [Line.stripComment []].filter (fun line => !line.isEmpty) = [] := rfl
  have read := Text.map_lines_joinLines blind clean
  rw [Text.joinLines_splitAt] at read
  rw [normalLines, normalLines]
  rcases read with whole | short
  · rw [whole]
  · rw [short, List.filter_append, nothing, List.append_nil]

theorem normalLines_lines_cons_blank {c : Char} (blank : Text.isBlank c = true) (code : Text) :
    normalLines (Text.lines (c :: code)) = normalLines (Text.lines code) := by
  rw [normalLines_lines, normalLines_lines]
  by_cases feed : c = '\n'
  · subst feed
    rw [← List.nil_append ('\n' :: code), Text.splitAt_append_mark]
    exact normalLines_of_blank _ rfl
  · have clear : ∀ d ∈ [c], d ≠ '\n' := List.forall_mem_singleton.mpr feed
    obtain ⟨l, ls, parts⟩ := List.exists_cons_of_ne_nil (Text.splitAt_ne_nil '\n' code)
    rw [← List.singleton_append, Text.splitAt_append_of_clear clear, parts, List.modifyHead_cons,
      normalLines, normalLines, List.map_cons, List.map_cons, List.singleton_append,
      Line.stripComment_cons_blank blank]

theorem normalLines_lines_concat_blank {c : Char} (blank : Text.isBlank c = true) (code : Text) :
    normalLines (Text.lines (code ++ [c])) = normalLines (Text.lines code) := by
  rw [normalLines_lines, normalLines_lines]
  by_cases feed : c = '\n'
  · subst feed
    have nothing : normalLines (Text.splitAt '\n' []) = [] := rfl
    rw [Text.splitAt_append_mark, normalLines, List.map_append, List.filter_append]
    exact (congrArg _ nothing).trans (List.append_nil _)
  · obtain ⟨front, last, parts, longer⟩ := Text.splitAt_concat feed code
    rw [parts, longer, normalLines, normalLines, List.map_append, List.map_append,
      List.map_singleton, List.map_singleton, Line.stripComment_concat_blank last blank]

/-- Blanks around code say nothing. -/
theorem normalLines_lines_trim (code : Text) :
    normalLines (Text.lines (Text.trim code)) = normalLines (Text.lines code) := by
  have start (s : Text) : normalLines (Text.lines (Text.trimStart s)) = normalLines (Text.lines s) := by
    induction s with
    | nil => rfl
    | cons c s ih =>
      by_cases blank : Text.isBlank c = true
      · rw [Text.trimStart, List.dropWhile_cons_of_pos blank, normalLines_lines_cons_blank blank]
        exact ih
      · rw [Text.trimStart, List.dropWhile_cons_of_neg blank]
  have last (s : Text) : normalLines (Text.lines (Text.trimEnd s)) = normalLines (Text.lines s) := by
    induction s using List.reverseRecOn with
    | nil => rfl
    | append_singleton s c ih =>
      by_cases blank : Text.isBlank c = true
      · rw [Text.trimEnd, Text.dropEndWhile_eq, List.rdropWhile_concat_pos _ _ _ blank,
          normalLines_lines_concat_blank blank]
        exact ih
      · rw [Text.trimEnd, Text.dropEndWhile_eq, List.rdropWhile_concat_neg _ _ _ blank]
  rw [Text.trim, last, start]

theorem functions_stripComment (line : Text) :
    Line.functions (Line.stripComment line) = Line.functions line := by
  rw [Line.functions, Line.parse_stripComment, Line.symbolNames_stripComment, Line.functions]

theorem functions_of_blank {line : Text} (blank : Line.stripComment line = []) :
    Line.functions line = .ok [] := by
  have kind := Line.classify_eq_blank_iff.mpr blank
  rw [Line.functions, Line.parse_of_blank kind, Line.symbolNames_of_blank kind]

/-- The functions of the lines are those of the normal lines. -/
theorem mapM_functions_normalLines (lines : List Text) :
    (lines.mapM Line.functions).map List.flatten =
      ((normalLines lines).mapM Line.functions).map List.flatten := by
  induction lines with
  | nil => rfl
  | cons line rest ih =>
    by_cases blank : Line.stripComment line = []
    · rw [normalLines_of_blank rest blank, ← ih, List.mapM_cons, functions_of_blank blank]
      cases rest.mapM Line.functions <;> rfl
    · rw [normalLines_of_solid rest blank, List.mapM_cons, List.mapM_cons, functions_stripComment]
      cases Line.functions line with
      | error e => rfl
      | ok names =>
        rcases Fallible.map_eq_map_iff.mp ih with ⟨e, left, right⟩ | ⟨a, b, left, right, agree⟩
        · rw [left, right]
        · rw [left, right]
          exact congrArg (fun more => Except.ok (names ++ more)) agree

theorem referencedFunctions_congr {a b : Text} (same : normalize a = normalize b) :
    referencedFunctions a = referencedFunctions b := by
  have read (code : Text) : referencedFunctions code =
      (((Text.lines code).mapM Line.functions).map List.flatten).map Text.dedup := by
    rw [referencedFunctions]
    cases (Text.lines code).mapM Line.functions <;> rfl
  rw [read, read, mapM_functions_normalLines, normalLines_eq same, ← mapM_functions_normalLines]

theorem anyAssembly_normalLines (lines : List Text) :
    Line.anyAssembly (lines.map Line.classify) =
      Line.anyAssembly ((normalLines lines).map Line.classify) := by
  induction lines with
  | nil => rfl
  | cons line rest ih =>
    by_cases blank : Line.stripComment line = []
    · rw [normalLines_of_blank rest blank, ← ih, List.map_cons, Line.classify_eq_blank_iff.mpr blank]
      rfl
    · rw [normalLines_of_solid rest blank, List.map_cons, List.map_cons, Line.classify_stripComment]
      cases Line.classify line with
      | assembly | overflow => rfl
      | blank | branch | hex => exact ih

theorem isAssembly_congr {a b : Text} (same : normalize a = normalize b) :
    isAssembly a = isAssembly b := by
  rw [isAssembly, isAssembly, anyAssembly_normalLines, normalLines_eq same, ← anyAssembly_normalLines]

end Code

namespace Change

open Code (normalLines normalLines_of_blank normalLines_of_solid)

def Span.unnumbered (s : Span) : Span := { s with line := 0 }

def Intermediate.unnumbered (i : Intermediate) : Intermediate :=
  { i with spans := i.spans.map Span.unnumbered }

namespace Draft

def unnumbered (d : Draft) : Draft := { d with spans := d.spans.map Span.unnumbered }

variable {d d' : Draft}

theorem unnumbered_eq_iff : d.unnumbered = d'.unnumbered ↔
    d.digits = d'.digits ∧ d.spans.map Span.unnumbered = d'.spans.map Span.unnumbered := by
  rw [unnumbered, unnumbered, Draft.mk.injEq]

theorem addPlaceholder_unnumbered (same : d.unnumbered = d'.unnumbered) (p : Placeholder)
    (width : Nat) (text : Text) (line line' : Nat) :
    (d.addPlaceholder p width text line).map unnumbered =
      (d'.addPlaceholder p width text line').map unnumbered := by
  obtain ⟨digits, spans⟩ := unnumbered_eq_iff.mp same
  rw [addPlaceholder, addPlaceholder, digits]
  split
  · rfl
  · simp [Except.map, unnumbered, spans, Span.unnumbered]

theorem addSegment_unnumbered (same : d.unnumbered = d'.unnumbered) (text : Text) (line line' : Nat)
    (segment : Line.Segment) (width : Nat) :
    (d.addSegment text line segment width).map unnumbered =
      (d'.addSegment text line' segment width).map unnumbered := by
  cases segment with
  | hex digits =>
    obtain ⟨before, spans⟩ := unnumbered_eq_iff.mp same
    simp [addSegment, Except.map, unnumbered, before, spans]
  | symbol name => exact addPlaceholder_unnumbered same _ _ _ _ _
  | options names => exact addPlaceholder_unnumbered same _ _ _ _ _

theorem addSegments_unnumbered (same : d.unnumbered = d'.unnumbered) (text : Text) (line line' : Nat)
    (parts : List (Line.Segment × Nat)) :
    (addSegments text line d parts).map unnumbered =
      (addSegments text line' d' parts).map unnumbered := by
  induction parts generalizing d d' with
  | nil => exact congrArg Except.ok same
  | cons part rest ih =>
    obtain ⟨segment, width⟩ := part
    have step := addSegment_unnumbered same text line line' segment width
    rw [addSegments, addSegments]
    rcases Fallible.map_eq_map_iff.mp step with ⟨e, left, right⟩ | ⟨a, b, left, right, agree⟩
    · rw [left, right]
    · rw [left, right]
      exact ih agree

theorem addLine_unnumbered (options : KnownOptions) (same : d.unnumbered = d'.unnumbered)
    (ix ix' : Nat) (line : Text) :
    (d.addLine options ix line).map unnumbered =
      (d'.addLine options ix' (Line.stripComment line)).map unnumbered := by
  rw [addLine, addLine, Line.classify_stripComment, Line.stripComment_stripComment]
  cases Line.classify line with
  | blank => exact congrArg Except.ok same
  | branch branch => exact addPlaceholder_unnumbered same _ _ _ _ _
  | hex segments =>
    dsimp only
    cases placeholderWidths options segments with
    | error e => rfl
    | ok widths => exact addSegments_unnumbered same _ _ _ _
  | assembly | overflow => rfl

theorem addLines_unnumbered (options : KnownOptions) (same : d.unnumbered = d'.unnumbered)
    (ix ix' : Nat) (lines : List Text) :
    (addLines options d ix lines).map unnumbered =
      (addLines options d' ix' (normalLines lines)).map unnumbered := by
  induction lines generalizing d d' ix ix' with
  | nil => exact congrArg Except.ok same
  | cons line rest ih =>
    by_cases blank : Line.stripComment line = []
    · have step : d.addLine options ix line = .ok d := by
        rw [addLine, Line.classify_eq_blank_iff.mpr blank]
      rw [normalLines_of_blank rest blank, addLines, step]
      exact ih same _ _
    · have step := addLine_unnumbered options same ix ix' line
      rw [normalLines_of_solid rest blank, addLines, addLines]
      rcases Fallible.map_eq_map_iff.mp step with ⟨e, left, right⟩ | ⟨a, b, left, right, agree⟩
      · rw [left, right]
      · rw [left, right]
        exact ih agree _ _

end Draft

theorem evaluateHex_unnumbered (options : KnownOptions) {a b : Text}
    (same : Code.normalize a = Code.normalize b) :
    (evaluateHex options a).map Intermediate.unnumbered =
      (evaluateHex options b).map Intermediate.unnumbered := by
  have read (code : Text) :=
    Draft.addLines_unnumbered options (d := ⟨[], []⟩) rfl 0 0 (Text.lines code)
  have step := (read a).trans ((Code.normalLines_eq same) ▸ (read b).symm)
  rw [evaluateHex, evaluateHex]
  rcases Fallible.map_eq_map_iff.mp step with ⟨e, left, right⟩ | ⟨d, d', left, right, agree⟩
  · rw [left, right]
  · obtain ⟨digits, spans⟩ := Draft.unnumbered_eq_iff.mp agree
    rw [left, right]
    dsimp only
    rw [digits]
    split
    · rfl
    · simp [Except.map, Intermediate.unnumbered, spans]

namespace Expansion

variable {options : KnownOptions}

def view (e : Expansion) : List Assembler.Item × List Placeholder :=
  (e.source.flatMap Assembler.seen, e.found)

theorem ofPlainLine_view (index : Nat) {line : Text} (clean : '\n' ∉ line) :
    (ofPlainLine options index line).map view =
      (ofPlainLine options index (Line.stripComment line)).map view := by
  rw [ofPlainLine, ofPlainLine, Line.stripComment_stripComment]
  split
  · simp [Except.map, view, Assembler.seen_stripComment clean]
  · rfl
  · rfl

theorem ofLine_view (index : Nat) {line : Text} (clean : '\n' ∉ line) :
    (ofLine options index line).map view =
      (ofLine options index (Line.stripComment line)).map view := by
  rw [ofLine, ofLine, Line.classify_stripComment, Line.stripComment_stripComment]
  split
  · rfl
  · rfl
  · exact ofPlainLine_view index clean

theorem ofLine_of_blank (index : Nat) {line : Text} (blank : Line.stripComment line = []) :
    ofLine options index line = .ok ⟨[line], []⟩ := by
  have kind := Line.classify_eq_blank_iff.mpr blank
  rw [ofLine, kind]
  simp only [ofPlainLine, placeholder?_of_blank kind]

theorem seen_text_cons (e : Expansion) (rest : List Expansion) :
    Assembler.seen (text (e :: rest)) = e.view.1 ++ Assembler.seen (text rest) := by
  rw [text, Assembler.seen_joinLines, List.flatMap_cons, List.flatMap_append, text,
    Assembler.seen_joinLines, view]

theorem ofLines_seen (options : KnownOptions) (index : Nat) {lines : List Text}
    (clean : ∀ line ∈ lines, '\n' ∉ line) :
    (ofLines options index lines).map (fun es => Assembler.seen (text es)) =
      (ofLines options index (normalLines lines)).map (fun es => Assembler.seen (text es)) := by
  induction lines generalizing index with
  | nil => rfl
  | cons line rest ih =>
    rw [List.forall_mem_cons] at clean
    -- A blank line stays in the source, so the two texts differ, but not in what is seen of them.
    by_cases blank : Line.stripComment line = []
    · have nothing : (⟨[line], []⟩ : Expansion).view = ([], []) := by
        simp [view, Assembler.seen_of_blank clean.1 blank]
      rw [normalLines_of_blank rest blank, ofLines, ofLine_of_blank index blank, ← ih index clean.2]
      change Except.map _ (ofLines options index rest >>= _) = _
      cases ofLines options index rest with
      | error e => rfl
      | ok es =>
        refine congrArg Except.ok ?_
        change Assembler.seen (text (_ :: es)) = Assembler.seen (text es)
        rw [seen_text_cons, nothing, List.nil_append]
    · rw [normalLines_of_solid rest blank, ofLines, ofLines]
      refine Fallible.map_bind_congr (ofLine_view index clean.1) fun e e' agree => ?_
      have count : e.found.length = e'.found.length := congrArg (fun v => v.2.length) agree
      rw [← count]
      refine Fallible.map_bind_congr (ih (index + e.found.length) clean.2) fun es es' agree' => ?_
      refine congrArg Except.ok ?_
      change Assembler.seen (text (_ :: es)) = Assembler.seen (text (_ :: es'))
      rw [seen_text_cons, seen_text_cons, agree, agree']

def Located.unnumbered (l : Located) : Located := { l with line := 0 }

end Expansion

theorem placedFrom_unnumbered (ix : Nat) (lines : List Text) :
    (placedFrom ix lines).map Expansion.Located.unnumbered =
      lines.flatMap fun line => (placeholdersOf line).map fun p => ⟨p, Line.stripComment line, 0⟩ := by
  induction lines generalizing ix with
  | nil => rfl
  | cons line rest ih =>
    rw [placedFrom, List.map_append, ih, List.map_map, List.flatMap_cons]
    rfl

theorem placeholdersOf_stripComment (line : Text) :
    placeholdersOf (Line.stripComment line) = placeholdersOf line := by
  rw [placeholdersOf, Line.classify_stripComment, Line.stripComment_stripComment, placeholdersOf]

theorem placeholdersOf_of_blank {line : Text} (blank : Line.stripComment line = []) :
    placeholdersOf line = [] := by
  rw [placeholdersOf, Line.classify_eq_blank_iff.mpr blank]

theorem placedFrom_congr {a b : Text} (same : Code.normalize a = Code.normalize b) :
    (placedFrom 0 (Text.lines a)).map Expansion.Located.unnumbered =
      (placedFrom 0 (Text.lines b)).map Expansion.Located.unnumbered := by
  rw [placedFrom_unnumbered, placedFrom_unnumbered]
  refine Code.flatMap_lines_congr same _ (fun line => ?_) ?_
  · rw [placeholdersOf_stripComment, Line.stripComment_stripComment]
  · rw [placeholdersOf_of_blank rfl, List.map_nil]

theorem spanOf_unnumbered (assembly : Assembly) (index : Nat) (l : Expansion.Located) :
    spanOf assembly index l.unnumbered = (spanOf assembly index l).map Span.unnumbered := by
  unfold spanOf
  split
  · split
    · rfl
    · rfl
  · rfl

theorem spansOf_unnumbered (assembly : Assembly) (index : Nat) (found : List Expansion.Located) :
    spansOf assembly index (found.map Expansion.Located.unnumbered) =
      (spansOf assembly index found).map (List.map Span.unnumbered) := by
  induction found generalizing index with
  | nil => rfl
  | cons l rest ih =>
    rw [List.map_cons, spansOf, spansOf, spanOf_unnumbered, ih]
    cases spanOf assembly index l with
    | error e => rfl
    | ok span =>
      cases spansOf assembly (index + 1) rest with
      | error e => rfl
      | ok spans => rfl

theorem clear_unnumbered (bytes : Bytes) (spans : List Span) :
    clear bytes (spans.map Span.unnumbered) = clear bytes spans := by
  rw [clear, List.foldl_map, clear]
  rfl

/-- The first pass takes from a reply its assembly, and the places of the placeholders. -/
theorem ofReply_unnumbered (lines : List Text) (expansions : List Expansion) (reply : Toolchain.Reply) :
    (ofReply lines expansions reply).toOption.map Intermediate.unnumbered =
      reply.toOption.bind fun assembly =>
        (spansOf assembly 0
          ((Expansion.located 0 lines expansions).map Expansion.Located.unnumbered)).toOption.map
            fun spans => ⟨Hex.encode (clear assembly.bytes spans), spans, true⟩ := by
  unfold ofReply
  split
  · rfl
  · rfl
  case h_3 assembly =>
    change _ = Option.map _ _
    rw [spansOf_unnumbered]
    cases spansOf assembly 0 (Expansion.located 0 lines expansions) with
    | error e => rfl
    | ok spans =>
      simp [Except.toOption, Except.map, Intermediate.unnumbered, clear_unnumbered]

theorem missing?_congr (includes : Includes) {a b : Text} (same : Code.normalize a = Code.normalize b) :
    includes.missing? (Text.lines a) = includes.missing? (Text.lines b) := by
  rw [Includes.missing?, Includes.missing?, List.filterMap_eq_flatMap_toList,
    List.filterMap_eq_flatMap_toList]
  have files := Code.flatMap_lines_congr same (fun line => (Includes.fileOf? line).toList)
    (fun line => by rw [Includes.fileOf?, Line.stripComment_stripComment, Includes.fileOf?]) rfl
  rw [files]

theorem expand_seen (includes : Includes) (options : KnownOptions) {a b : Text}
    (same : Code.normalize a = Code.normalize b) :
    (expand includes options (Text.lines a)).map (fun es => Assembler.seen (Expansion.text es)) =
      (expand includes options (Text.lines b)).map (fun es => Assembler.seen (Expansion.text es)) := by
  have clean (code : Text) : ∀ line ∈ Text.lines code, '\n' ∉ line :=
    fun _ => Text.newline_not_mem_of_mem_lines
  have read (code : Text) := Expansion.ofLines_seen options 0 (clean code)
  rw [expand, expand, missing?_congr includes same]
  split
  · rfl
  · rw [read, Code.normalLines_eq same, read]

/-- With the small assembler, code comes to the same bytes and the same spans as code with the same
normal form, or to none. -/
theorem evaluateAssembly_unnumbered (includes : Includes) (options : KnownOptions) {a b : Text}
    (same : Code.normalize a = Code.normalize b) :
    ((evaluateAssembly includes options a).run Assembler.toolchain).toOption.map
        Intermediate.unnumbered =
      ((evaluateAssembly includes options b).run Assembler.toolchain).toOption.map
        Intermediate.unnumbered := by
  rw [evaluateAssembly, evaluateAssembly]
  rcases Fallible.map_eq_map_iff.mp (expand_seen includes options same) with
    ⟨e, left, right⟩ | ⟨es, es', left, right, agree⟩
  · rw [left, right]
  · rw [left, right]
    simp only [Assembling.run]
    rw [ofReply_unnumbered, ofReply_unnumbered, Expansion.located_ofLines (expand_eq_ok left),
      Expansion.located_ofLines (expand_eq_ok right), placedFrom_congr same]
    exact congrArg (Option.bind · _) (Assembler.assemble_congr agree)

/-- The first pass over code comes to the same code and the same spans as that over code with the same
normal form, the numbers of the lines apart, or to nothing. -/
theorem evaluateCode_unnumbered (includes : Includes) (options : KnownOptions) {toolchain : Toolchain}
    {a b : Text} (same : Code.normalize a = Code.normalize b)
    (small : Code.isAssembly a = .ok true → toolchain = Assembler.toolchain) :
    ((evaluateCode includes options a).run toolchain).toOption.map Intermediate.unnumbered =
      ((evaluateCode includes options b).run toolchain).toOption.map Intermediate.unnumbered := by
  rw [evaluateCode, evaluateCode, ← Code.isAssembly_congr same]
  split
  case h_1 => rfl
  case h_2 assembly =>
    rw [small assembly]
    exact evaluateAssembly_unnumbered includes options same
  case h_3 =>
    simp only [Assembling.run]
    rcases Fallible.map_eq_map_iff.mp (evaluateHex_unnumbered options same) with
      ⟨e, left, right⟩ | ⟨i, j, left, right, agree⟩
    · rw [left, right]
    · rw [left, right]
      exact congrArg some agree

end Change

end GamePatch
