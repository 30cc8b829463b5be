import GamePatch.Change.Evaluate
import GamePatch.Proofs.Assembling
import GamePatch.Proofs.Fallible
import GamePatch.Proofs.Line.Functions

set_option autoImplicit false

namespace GamePatch

namespace Line

theorem stripComment_of_blank {line : Text} (kind : classify line = .blank) :
    stripComment line = [] := by
  unfold classify at kind
  grind

theorem parse_of_branch {line : Text} {branch : SpecialBranch}
    (kind : classify line = .branch branch) :
    SpecialBranch.parse (stripComment line) = .ok (some branch) := by
  unfold classify at kind
  grind

theorem parse_of_hex {line : Text} {segments : List Segment}
    (kind : classify line = .hex segments) :
    SpecialBranch.parse (stripComment line) = .ok none ∧
      Segment.ofLine? (stripComment line) = some segments := by
  unfold classify at kind
  grind

theorem parse_of_assembly {line : Text} (kind : classify line = .assembly) :
    SpecialBranch.parse (stripComment line) = .ok none := by
  unfold classify at kind
  grind

theorem parse_of_blank {line : Text} (kind : classify line = .blank) :
    SpecialBranch.parse line = .ok none := by
  rw [SpecialBranch.parse, stripComment_of_blank kind]
  rfl

theorem symbolNames_of_blank {line : Text} (kind : classify line = .blank) :
    symbolNames line = [] := by
  rw [symbolNames, stripComment_of_blank kind, Enclosed.all_of_no_closing (by simp [symbolClosing])]
  rfl

theorem optionNames_of_blank {line : Text} (kind : classify line = .blank) :
    optionNames line = [] := by
  rw [optionNames, stripComment_of_blank kind, Enclosed.all_of_no_closing (by simp [optionClosing])]
  rfl

@[simp] theorem symbolNames_stripComment (line : Text) :
    symbolNames (stripComment line) = symbolNames line := by
  rw [symbolNames, stripComment_stripComment, symbolNames]

@[simp] theorem optionNames_stripComment (line : Text) :
    optionNames (stripComment line) = optionNames line := by
  rw [optionNames, stripComment_stripComment, optionNames]

@[simp] theorem parse_stripComment (line : Text) :
    SpecialBranch.parse (stripComment line) = SpecialBranch.parse line := by
  rw [SpecialBranch.parse, stripComment_stripComment, SpecialBranch.parse]

@[simp] theorem classify_stripComment (line : Text) : classify (stripComment line) = classify line := by
  rw [classify, stripComment_stripComment, classify]

theorem classify_eq_blank_iff {line : Text} : classify line = .blank ↔ stripComment line = [] := by
  refine ⟨stripComment_of_blank, fun empty => ?_⟩
  rw [← classify_stripComment, empty]
  rfl

/-- A line without a distance at which the program ends. -/
def IsReadable (line : Text) : Prop := classify line ≠ .overflow

section

variable {kinds : List Kind}

theorem anyAssembly_of_readable (readable : Kind.overflow ∉ kinds) :
    anyAssembly kinds = .ok (decide (Kind.assembly ∈ kinds)) := by
  induction kinds with
  | nil => rfl
  | cons kind kinds ih =>
    rw [List.mem_cons, not_or] at readable
    cases kind with
    | overflow => exact absurd rfl readable.1
    | assembly => simp [anyAssembly]
    | blank | branch | hex => simp [anyAssembly, ih readable.2]

theorem assembly_mem_of_anyAssembly (found : anyAssembly kinds = .ok true) : Kind.assembly ∈ kinds := by
  induction kinds with
  | nil => cases found
  | cons kind kinds ih =>
    cases kind with
    | overflow => cases found
    | assembly => exact List.mem_cons_self
    | blank | branch | hex => exact List.mem_cons_of_mem _ (ih found)

theorem anyAssembly_eq_false_iff :
    anyAssembly kinds = .ok false ↔ Kind.overflow ∉ kinds ∧ Kind.assembly ∉ kinds := by
  constructor
  · intro none
    induction kinds with
    | nil => simp
    | cons kind kinds ih =>
      cases kind with
      | overflow => cases none
      | assembly => cases none
      | blank | branch | hex => simpa using ih none
  · rintro ⟨readable, none⟩
    rw [anyAssembly_of_readable readable, decide_eq_false none]

end

end Line

namespace Change

def placeholdersOf (line : Text) : List Placeholder :=
  match Line.classify line with
  | .blank => []
  | .branch branch => [.branch branch]
  | .hex segments => segments.filterMap Placeholder.ofSegment?
  | .assembly => (Expansion.placeholder? (Line.stripComment line)).toList
  | .overflow => []

def placedFrom : Nat → List Text → List Expansion.Located
  | _, [] => []
  | ix, line :: rest =>
    (placeholdersOf line).map (fun p => ⟨p, Line.stripComment line, ix⟩) ++ placedFrom (ix + 1) rest

def Span.located (s : Span) : Expansion.Located := ⟨s.placeholder, s.text, s.line⟩

theorem segments_functions (segments : List Line.Segment) :
    (segments.filterMap Placeholder.ofSegment?).flatMap Placeholder.functions =
      segments.filterMap Line.Segment.symbol? := by
  induction segments with
  | nil => rfl
  | cons segment segments ih =>
    cases segment with
    | hex digits =>
      rw [List.filterMap_cons_none (by rfl), List.filterMap_cons_none (by rfl), ih]
    | symbol name =>
      rw [List.filterMap_cons_some (by rfl), List.filterMap_cons_some (by rfl), List.flatMap_cons,
        ih]
      rfl
    | options names =>
      rw [List.filterMap_cons_some (by rfl), List.filterMap_cons_none (by rfl), List.flatMap_cons,
        ih]
      rfl

theorem placeholder?_of_blank {line : Text} (kind : Line.classify line = .blank) :
    Expansion.placeholder? (Line.stripComment line) = none := by
  rw [Expansion.placeholder?, Line.parse_stripComment, Line.parse_of_blank kind]
  simp [Line.containsSymbol, Line.containsOption, Line.symbolNames_of_blank kind,
    Line.optionNames_of_blank kind]

theorem placeholder?_of_branch {line : Text} {branch : Line.SpecialBranch}
    (kind : Line.classify line = .branch branch) :
    Expansion.placeholder? (Line.stripComment line) = some (.branch branch) := by
  rw [Expansion.placeholder?, Line.parse_of_branch kind]

/-- The placeholders of a line name the functions that the line refers to. -/
theorem functions_eq {line : Text} (readable : Line.IsReadable line) :
    Line.functions line = .ok ((placeholdersOf line).flatMap Placeholder.functions) := by
  unfold placeholdersOf
  split
  case h_1 kind =>
    rw [Line.functions, Line.parse_of_blank kind, Line.symbolNames_of_blank kind]
    rfl
  case h_2 branch kind =>
    have read : Line.SpecialBranch.parse line = .ok (some branch) := by
      simpa using Line.parse_of_branch kind
    obtain ⟨mnemonic, target, adjustment⟩ := branch
    rw [Line.functions, read, Line.symbolNames_of_branch read]
    cases target <;> rfl
  case h_3 segments kind =>
    obtain ⟨noBranch, read⟩ := Line.parse_of_hex kind
    rw [Line.parse_stripComment] at noBranch
    rw [segments_functions, Line.Segment.ofLine?_symbols read, Line.functions, noBranch,
      Line.symbolNames_stripComment]
  case h_4 kind =>
    have noBranch := Line.parse_of_assembly kind
    rw [Line.parse_stripComment] at noBranch
    rw [Line.functions, Expansion.placeholder?, Line.parse_stripComment, noBranch]
    simp only [Line.containsSymbol, Line.symbolNames_stripComment]
    cases names : Line.symbolNames line with
    | nil => split <;> simp [Placeholder.functions, Placeholder.isOptions] at *
    | cons name more => simp [Placeholder.functions, Placeholder.isOptions, Placeholder.names]
  case h_5 kind => exact absurd kind readable

theorem placedFrom_placeholders (ix : Nat) (lines : List Text) :
    (placedFrom ix lines).map Expansion.Located.placeholder = lines.flatMap placeholdersOf := by
  induction lines generalizing ix with
  | nil => rfl
  | cons line lines ih =>
    rw [placedFrom, List.map_append, ih, List.map_map, List.flatMap_cons]
    exact congrArg (· ++ _) (List.map_id' _)

theorem mapM_functions_eq {lines : List Text} (readable : ∀ line ∈ lines, Line.IsReadable line) :
    lines.mapM Line.functions =
      .ok (lines.map fun line => (placeholdersOf line).flatMap Placeholder.functions) := by
  rw [Fallible.mapM_eq_ok_iff, List.forall₂_map_right_iff, List.forall₂_same]
  exact fun line member => functions_eq (readable line member)

/-- The functions that a code refers to are those of its placeholders. -/
theorem referencedFunctions_eq {code : Text}
    (readable : ∀ line ∈ Text.lines code, Line.IsReadable line) (ix : Nat) :
    Code.referencedFunctions code = .ok (Text.dedup ((placedFrom ix (Text.lines code)).flatMap
      fun l => l.placeholder.functions)) := by
  rw [Code.referencedFunctions, mapM_functions_eq readable, Except.map, ← List.flatMap_def,
    ← List.flatMap_assoc, ← placedFrom_placeholders ix, List.flatMap_map]

theorem placedFrom_append (ix : Nat) (front back : List Text) :
    placedFrom ix (front ++ back) = placedFrom ix front ++ placedFrom (ix + front.length) back := by
  induction front generalizing ix with
  | nil => rfl
  | cons line front ih =>
    rw [List.cons_append, placedFrom, placedFrom, ih, List.append_assoc, List.length_cons,
      Nat.add_assoc, Nat.add_comm 1]

theorem placeholdersOf_eq_nil {ix : Nat} {lines : List Text} (none : placedFrom ix lines = []) :
    ∀ line ∈ lines, placeholdersOf line = [] := by
  induction lines generalizing ix with
  | nil => simp
  | cons line lines ih =>
    rw [placedFrom, List.append_eq_nil_iff, List.map_eq_nil_iff] at none
    rw [List.forall_mem_cons]
    exact ⟨none.1, ih none.2⟩

theorem getElem?_of_mem_placedFrom {ix : Nat} {lines : List Text} {l : Expansion.Located}
    (member : l ∈ placedFrom ix lines) :
    ∃ k line, l.line = ix + k ∧ lines[k]? = some line ∧ l.text = Line.stripComment line ∧
      l.placeholder ∈ placeholdersOf line := by
  induction lines generalizing ix with
  | nil => cases member
  | cons line lines ih =>
    rw [placedFrom, List.mem_append] at member
    rcases member with here | later
    · obtain ⟨p, found, rfl⟩ := List.mem_map.mp here
      exact ⟨0, line, rfl, rfl, rfl, found⟩
    · obtain ⟨k, line', index, onLine, text, found⟩ := ih later
      exact ⟨k + 1, line', by omega, onLine, text, found⟩

theorem line_of_mem_placedFrom {ix : Nat} {lines : List Text} {l : Expansion.Located}
    (member : l ∈ placedFrom ix lines) :
    ix ≤ l.line ∧ ∃ line ∈ lines, l.text = Line.stripComment line ∧
      l.placeholder ∈ placeholdersOf line := by
  obtain ⟨k, line, index, onLine, text, found⟩ := getElem?_of_mem_placedFrom member
  exact ⟨by omega, line, List.mem_of_getElem? onLine, text, found⟩

theorem line_lt_of_mem_placedFrom {ix : Nat} {lines : List Text} {l : Expansion.Located}
    (member : l ∈ placedFrom ix lines) : l.line < ix + lines.length := by
  obtain ⟨k, line, index, onLine, -, -⟩ := getElem?_of_mem_placedFrom member
  obtain ⟨bound, -⟩ := List.getElem?_eq_some_iff.mp onLine
  omega

theorem fillWidths_length (digits : Nat) (parts : List (Line.Segment × Option Nat)) :
    (fillWidths digits parts).length = parts.length := by
  fun_induction fillWidths digits parts with
  | case1 => rfl
  | case2 digits _ _ rest ih => rw [List.length_cons, ih, List.length_cons]
  | case3 digits _ known rest _ ih => rw [List.length_cons, ih, List.length_cons]
  | case4 digits _ rest _ ih => rw [List.length_cons, ih, List.length_cons]

/-- Each part of a line has a width. -/
theorem placeholderWidths_length {options : KnownOptions} {segments : List Line.Segment}
    {widths : List Nat} (found : placeholderWidths options segments = .ok widths) :
    widths.length = segments.length := by
  obtain ⟨known, read, same⟩ := Fallible.bind_eq_ok_iff.mp found
  have length := (Fallible.mapM_eq_ok_iff.mp read).length_eq
  rw [← Except.ok.inj same, fillWidths_length, List.length_zip, ← length, Nat.min_self]

theorem map_fst_zip_widths {options : KnownOptions} {segments : List Line.Segment}
    {widths : List Nat} (found : placeholderWidths options segments = .ok widths) :
    (segments.zip widths).map Prod.fst = segments :=
  List.map_fst_zip (by rw [placeholderWidths_length found])

namespace Draft

theorem addPlaceholder_located {d d' : Draft} {placeholder : Placeholder} {width line : Nat}
    {text : Text} (added : d.addPlaceholder placeholder width text line = .ok d') :
    d'.spans.map Span.located = d.spans.map Span.located ++ [⟨placeholder, text, line⟩] := by
  unfold addPlaceholder at added
  split at added
  · cases added
  · cases added
    rw [List.map_append]
    rfl

theorem addSegment_located {d d' : Draft} {text : Text} {line width : Nat}
    {segment : Line.Segment} (added : d.addSegment text line segment width = .ok d') :
    d'.spans.map Span.located = d.spans.map Span.located ++
      (Placeholder.ofSegment? segment).toList.map fun p => ⟨p, text, line⟩ := by
  cases segment with
  | hex digits =>
    cases added
    exact (List.append_nil _).symm
  | symbol name => exact addPlaceholder_located added
  | options names => exact addPlaceholder_located added

theorem addSegments_located {d d' : Draft} {text : Text} {line : Nat}
    {parts : List (Line.Segment × Nat)} (added : addSegments text line d parts = .ok d') :
    d'.spans.map Span.located = d.spans.map Span.located ++
      ((parts.map Prod.fst).filterMap Placeholder.ofSegment?).map fun p => ⟨p, text, line⟩ := by
  fun_induction addSegments text line d parts with
  | case1 d =>
    cases added
    exact (List.append_nil _).symm
  | case2 d segment width rest next step ih =>
    rw [ih added, addSegment_located step, List.map_cons, List.append_assoc, ← List.map_append]
    cases shown : Placeholder.ofSegment? segment with
    | none => rw [List.filterMap_cons_none shown]; rfl
    | some p => rw [List.filterMap_cons_some shown]; rfl
  | case3 => cases added

theorem addLine_located {options : KnownOptions} {d d' : Draft} {ix : Nat} {line : Text}
    (added : d.addLine options ix line = .ok d') :
    d'.spans.map Span.located = d.spans.map Span.located ++
      (placeholdersOf line).map fun p => ⟨p, Line.stripComment line, ix⟩ := by
  unfold addLine at added
  unfold placeholdersOf
  cases kind : Line.classify line with
  | blank =>
    rw [kind] at added
    cases added
    exact (List.append_nil _).symm
  | branch branch =>
    rw [kind] at added
    exact addPlaceholder_located added
  | hex segments =>
    rw [kind] at added
    simp only at added
    split at added
    case h_1 widths found =>
      rw [addSegments_located added, map_fst_zip_widths found]
    case h_2 => cases added
  | assembly | overflow =>
    rw [kind] at added
    cases added

theorem addLines_located {options : KnownOptions} {d d' : Draft} {ix : Nat} {lines : List Text}
    (added : addLines options d ix lines = .ok d') :
    d'.spans.map Span.located = d.spans.map Span.located ++ placedFrom ix lines := by
  fun_induction addLines options d ix lines with
  | case1 =>
    cases added
    exact (List.append_nil _).symm
  | case2 d ix line rest next step ih =>
    rw [ih added, addLine_located step, List.append_assoc]
    rfl
  | case3 => cases added

end Draft

theorem evaluateHex_located {options : KnownOptions} {code : Text} {i : Intermediate}
    (evaluated : evaluateHex options code = .ok i) :
    i.spans.map Span.located = placedFrom 0 (Text.lines code) := by
  unfold evaluateHex at evaluated
  split at evaluated
  · cases evaluated
  case h_2 d added =>
    split at evaluated
    · cases evaluated
    · cases evaluated
      exact Draft.addLines_located added

namespace Expansion

theorem ofSegment_found {text : Text} {index width : Nat} {segment : Line.Segment} {e : Expansion}
    (expanded : ofSegment text index segment width = .ok e) :
    e.found = (Placeholder.ofSegment? segment).toList := by
  unfold ofSegment at expanded
  split at expanded
  · split at expanded
    · cases expanded; rfl
    · cases expanded
  · cases expanded; rfl
  · cases expanded; rfl

/-- The first part of a line is expanded, and then the parts behind it, with the numbers that it leaves. -/
theorem ofSegments_cons_eq_ok_iff {text : Text} {index : Nat} {part : Line.Segment × Nat}
    {parts : List (Line.Segment × Nat)} {e : Expansion} :
    ofSegments text index (part :: parts) = .ok e ↔
      ∃ first more, ofSegment text index part.1 part.2 = .ok first ∧
        ofSegments text (index + first.found.length) parts = .ok more ∧ first.append more = e :=
  Fallible.bind_bind_eq_ok_iff

/-- The first line of a code is expanded, and then the lines below it, with the numbers that it leaves. -/
theorem ofLines_cons_eq_ok_iff {options : KnownOptions} {index : Nat} {line : Text}
    {lines : List Text} {expansions : List Expansion} :
    ofLines options index (line :: lines) = .ok expansions ↔
      ∃ first more, ofLine options index line = .ok first ∧
        ofLines options (index + first.found.length) lines = .ok more ∧ first :: more = expansions :=
  Fallible.bind_bind_eq_ok_iff

/-- Each line of a code that is expanded is expanded with some numbers. -/
theorem exists_ofLine {options : KnownOptions} {index : Nat} {lines : List Text}
    {expansions : List Expansion} (expanded : ofLines options index lines = .ok expansions) :
    ∀ line ∈ lines, ∃ index e, ofLine options index line = .ok e := by
  induction lines generalizing index expansions with
  | nil => simp
  | cons line lines ih =>
    obtain ⟨e, more, head, tail, -⟩ := ofLines_cons_eq_ok_iff.mp expanded
    rw [List.forall_mem_cons]
    exact ⟨⟨index, e, head⟩, ih tail⟩

theorem ofSegments_found {text : Text} {index : Nat} {parts : List (Line.Segment × Nat)}
    {e : Expansion} (expanded : ofSegments text index parts = .ok e) :
    e.found = (parts.map Prod.fst).filterMap Placeholder.ofSegment? := by
  induction parts generalizing index e with
  | nil => cases expanded; rfl
  | cons part parts ih =>
    obtain ⟨first, more, head, tail, rfl⟩ := ofSegments_cons_eq_ok_iff.mp expanded
    rw [append, ofSegment_found head, ih tail, List.map_cons]
    cases shown : Placeholder.ofSegment? part.1 with
    | none => rw [List.filterMap_cons_none shown]; rfl
    | some p => rw [List.filterMap_cons_some shown]; rfl

theorem ofPlainLine_found {options : KnownOptions} {index : Nat} {line : Text} {e : Expansion}
    (expanded : ofPlainLine options index line = .ok e) :
    e.found = (placeholder? (Line.stripComment line)).toList := by
  unfold ofPlainLine at expanded
  simp only at expanded
  split at expanded
  case h_1 none => cases expanded; rw [none]; rfl
  case h_2 names some =>
    obtain ⟨_, -, rfl⟩ := Fallible.map_eq_ok_iff.mp expanded
    rw [some]
    rfl
  case h_3 p _ some => cases expanded; rw [some]; rfl

theorem ofLine_found {options : KnownOptions} {index : Nat} {line : Text} {e : Expansion}
    (expanded : ofLine options index line = .ok e) : e.found = placeholdersOf line := by
  unfold ofLine at expanded
  unfold placeholdersOf
  cases kind : Line.classify line with
  | blank =>
    rw [kind] at expanded
    rw [ofPlainLine_found expanded, placeholder?_of_blank kind]
    rfl
  | branch branch =>
    rw [kind] at expanded
    rw [ofPlainLine_found expanded, placeholder?_of_branch kind]
    rfl
  | hex segments =>
    rw [kind] at expanded
    obtain ⟨widths, found, parts⟩ := Fallible.bind_eq_ok_iff.mp expanded
    rw [ofSegments_found parts, map_fst_zip_widths found]
  | assembly =>
    rw [kind] at expanded
    exact ofPlainLine_found expanded
  | overflow =>
    rw [kind] at expanded
    cases expanded

theorem isReadable_of_ofLine {options : KnownOptions} {index : Nat} {line : Text} {e : Expansion}
    (expanded : ofLine options index line = .ok e) : Line.IsReadable line := by
  intro kind
  rw [ofLine, kind] at expanded
  cases expanded

theorem located_ofLines {options : KnownOptions} {index ix : Nat} {lines : List Text}
    {expansions : List Expansion} (expanded : ofLines options index lines = .ok expansions) :
    located ix lines expansions = placedFrom ix lines := by
  induction lines generalizing index ix expansions with
  | nil => cases expanded; rfl
  | cons line lines ih =>
    obtain ⟨first, more, head, tail, rfl⟩ := ofLines_cons_eq_ok_iff.mp expanded
    rw [located, ofLine_found head, ih tail]
    rfl

end Expansion

theorem spanOf_located {assembly : Assembly} {index : Nat} {found : Expansion.Located} {s : Span}
    (read : spanOf assembly index found = .ok s) : s.located = found := by
  unfold spanOf at read
  split at read
  · split at read
    · cases read
    · cases read; rfl
  · cases read

theorem spansOf_located {assembly : Assembly} {index : Nat} {found : List Expansion.Located}
    {spans : List Span} (read : spansOf assembly index found = .ok spans) :
    spans.map Span.located = found := by
  induction found generalizing index spans with
  | nil => cases read; rfl
  | cons first found ih =>
    obtain ⟨s, more, head, tail, rfl⟩ := Fallible.bind_bind_eq_ok_iff.mp read
    rw [List.map_cons, spanOf_located head, ih tail]

/-- What a successful reply leads to. -/
theorem ofReply_eq_ok_iff {lines : List Text} {expansions : List Expansion}
    {reply : Toolchain.Reply} {i : Intermediate} :
    ofReply lines expansions reply = .ok i ↔
      ∃ assembly spans, reply = .ok assembly ∧
        spansOf assembly 0 (Expansion.located 0 lines expansions) = .ok spans ∧
        i = ⟨Hex.encode (clear assembly.bytes spans), spans, true⟩ := by
  unfold ofReply
  split
  · simp
  · simp
  case h_3 assembly =>
    cases read : spansOf assembly 0 (Expansion.located 0 lines expansions) with
    | error e => simp [read]
    | ok spans => simp [read, eq_comm]

theorem expand_eq_ok {includes : Includes} {options : KnownOptions} {lines : List Text}
    {expansions : List Expansion} (expanded : expand includes options lines = .ok expansions) :
    Expansion.ofLines options 0 lines = .ok expansions := by
  unfold expand at expanded
  split at expanded
  · cases expanded
  · exact expanded

/-- A first pass over assembly that succeeds has got the spans from an assembly of the expanded
lines. -/
theorem evaluateAssembly_yields {includes : Includes} {options : KnownOptions} {code : Text}
    {i : Intermediate} (evaluated : (evaluateAssembly includes options code).Yields (.ok i)) :
    ∃ expansions assembly spans,
      Expansion.ofLines options 0 (Text.lines code) = .ok expansions ∧
        spansOf assembly 0 (placedFrom 0 (Text.lines code)) = .ok spans ∧
        i = ⟨Hex.encode (clear assembly.bytes spans), spans, true⟩ := by
  unfold evaluateAssembly at evaluated
  simp only at evaluated
  split at evaluated
  case h_1 => cases Assembling.yields_done_iff.mp evaluated
  case h_2 expansions expanded =>
    obtain ⟨reply, next⟩ := Assembling.yields_ask_iff.mp evaluated
    obtain ⟨assembly, spans, -, read, rfl⟩ :=
      ofReply_eq_ok_iff.mp (Assembling.yields_done_iff.mp next).symm
    have ofLines := expand_eq_ok expanded
    rw [Expansion.located_ofLines ofLines] at read
    exact ⟨expansions, assembly, spans, ofLines, read, rfl⟩

theorem isReadable_of_isAssembly {code : Text} (none : Code.isAssembly code = .ok false) :
    ∀ line ∈ Text.lines code, Line.IsReadable line := by
  intro line member kind
  exact (Line.anyAssembly_eq_false_iff.mp none).1 (kind ▸ List.mem_map_of_mem member)

/-- A first pass that succeeds is that over digits, or that over assembly. -/
theorem evaluateCode_yields {includes : Includes} {options : KnownOptions} {code : Text}
    {i : Intermediate} (evaluated : (evaluateCode includes options code).Yields (.ok i)) :
    Code.isAssembly code = .ok false ∧ evaluateHex options code = .ok i ∨
      Code.isAssembly code = .ok true ∧
        (evaluateAssembly includes options code).Yields (.ok i) := by
  unfold evaluateCode at evaluated
  split at evaluated
  case h_1 => cases Assembling.yields_done_iff.mp evaluated
  case h_2 assembly => exact Or.inr ⟨assembly, evaluated⟩
  case h_3 digits => exact Or.inl ⟨digits, (Assembling.yields_done_iff.mp evaluated).symm⟩

/-- The spans of the first pass are the placeholders of the code's lines. -/
theorem evaluateCode_located {includes : Includes} {options : KnownOptions} {code : Text}
    {i : Intermediate} (evaluated : (evaluateCode includes options code).Yields (.ok i)) :
    i.spans.map Span.located = placedFrom 0 (Text.lines code) := by
  rcases evaluateCode_yields evaluated with ⟨-, digits⟩ | ⟨-, assembly⟩
  · exact evaluateHex_located digits
  · obtain ⟨_, _, spans, _, read, rfl⟩ := evaluateAssembly_yields assembly
    exact spansOf_located read

/-- The program ends at no line of a code whose first pass succeeds. -/
theorem isReadable_of_yields {includes : Includes} {options : KnownOptions} {code : Text}
    {i : Intermediate} (evaluated : (evaluateCode includes options code).Yields (.ok i)) :
    ∀ line ∈ Text.lines code, Line.IsReadable line := by
  rcases evaluateCode_yields evaluated with ⟨none, -⟩ | ⟨-, assembly⟩
  · exact isReadable_of_isAssembly none
  · obtain ⟨_, _, _, expanded, -⟩ := evaluateAssembly_yields assembly
    intro line member
    obtain ⟨_, _, own⟩ := Expansion.exists_ofLine expanded line member
    exact Expansion.isReadable_of_ofLine own

end Change

end GamePatch
