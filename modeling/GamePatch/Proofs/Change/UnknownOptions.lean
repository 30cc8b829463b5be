import GamePatch.Proofs.Change.HexInvariants
import GamePatch.Proofs.Change.LastBranch
import GamePatch.Proofs.Configuration.Values

set_option autoImplicit false

namespace GamePatch

namespace Line

theorem replaceEnclosed_of_nothing {ε : Type} {opening closing line : Text}
    {replace : Text → Except ε Text} (nothing : (Enclosed.all opening closing line).1 = []) :
    replaceEnclosed opening closing replace line = .ok line := by
  have rest : (Enclosed.all opening closing line).2 = line := by
    rw [Enclosed.all] at nothing ⊢
    split at nothing
    case h_1 => rfl
    case h_2 e after found =>
      simp only
      split at nothing
      · cases nothing
      case isFalse shorter => rw [if_neg shorter]
  have whole : Enclosed.all opening closing line = ([], line) := Prod.ext nothing rest
  rw [replaceEnclosed, whole]
  rfl

end Line

namespace Change

def KnowsAll (options : List Configuration) (names : List Text) : Prop :=
  ∀ name ∈ names, ∃ o, Configuration.find? options name = some o

theorem knowsAll_of_forall₂ {options : List Configuration} {names : List Text}
    {group : List Configuration}
    (found : List.Forall₂ (fun name o => Configuration.find? options name = some o) names group) :
    KnowsAll options names := by
  intro name member
  obtain ⟨o, -, known⟩ := exists_right_of_forall₂ found member
  exact ⟨o, known⟩

theorem knowsAll_of_widestOption {options : List Configuration} {names : List Text} {width : Nat}
    (found : widestOption options names = .ok width) : KnowsAll options names := by
  obtain ⟨group, all, -⟩ := widestOption_group found
  exact knowsAll_of_forall₂ all

def Placeholder.IsKnown (options : List Configuration) (p : Placeholder) : Prop :=
  ∀ names, p = .options names → names ≠ [] ∧ KnowsAll options names

/-- What a line stands for that is left to the assembler and is no branch. -/
theorem Expansion.placeholder?_cases {text : Text} {p : Placeholder}
    (found : placeholder? text = some p) (noBranch : p.isBranch = false) :
    (Line.containsSymbol text = true ∧ p = .symbols (Line.symbolNames text)) ∨
      (Line.containsSymbol text = false ∧ p = .options (Line.optionNames text) ∧
        Line.optionNames text ≠ []) := by
  unfold placeholder? at found
  split at found
  · cases found
    cases noBranch
  · split at found
    case isTrue symbol =>
      cases found
      exact Or.inl ⟨symbol, rfl⟩
    case isFalse noSymbol =>
      split at found
      case isTrue option =>
        cases found
        exact Or.inr ⟨Bool.not_eq_true _ ▸ noSymbol, rfl, by simpa [Line.containsOption] using option⟩
      case isFalse => cases found

section

variable {options : List Configuration}

theorem Expansion.ofLine_known {index : Nat} {line : Text} {e : Expansion}
    (expanded : ofLine (some options) index line = .ok e) :
    ∀ p ∈ placeholdersOf line, p.IsKnown options := by
  rintro p found names rfl
  unfold ofLine at expanded
  unfold placeholdersOf at found
  cases kind : Line.classify line with
  | blank =>
    rw [kind] at found
    cases found
  | branch branch =>
    rw [kind] at found
    cases List.mem_singleton.mp found
  | hex segments =>
    rw [kind] at expanded found
    obtain ⟨segment, member, shape⟩ := List.mem_filterMap.mp found
    cases segment with
    | hex digits => cases shape
    | symbol name => cases shape
    | options names' =>
      cases shape
      obtain ⟨widths, measured, -⟩ := Fallible.bind_eq_ok_iff.mp expanded
      obtain ⟨width, -, own⟩ := exists_right_of_forall₂ (placeholderWidths_isWidth measured) member
      exact ⟨Line.Segment.ofLine?_isSound (Line.parse_of_hex kind).2 _ member,
        knowsAll_of_widestOption (own options rfl)⟩
  | assembly =>
    rw [kind] at expanded found
    have shape := Option.mem_toList.mp found
    simp only [ofPlainLine, Option.mem_def.mp shape] at expanded
    obtain ⟨width, measured, -⟩ := Fallible.map_eq_ok_iff.mp expanded
    obtain ⟨widest, all, -⟩ := Fallible.map_eq_ok_iff.mp measured
    refine ⟨?_, knowsAll_of_widestOption all⟩
    rcases placeholder?_cases shape rfl with ⟨-, other⟩ | ⟨-, same, nonempty⟩
    · cases other
    · cases same
      exact nonempty
  | overflow =>
    rw [kind] at found
    cases found

theorem Expansion.ofLines_known {index : Nat} {lines : List Text} {expansions : List Expansion}
    (expanded : ofLines (some options) index lines = .ok expansions) :
    ∀ line ∈ lines, ∀ p ∈ placeholdersOf line, p.IsKnown options := by
  intro line member
  obtain ⟨_, e, here⟩ := exists_ofLine expanded line member
  exact ofLine_known here

/-- The first pass has looked up the options of all its spans. -/
theorem evaluateCode_known {includes : Includes} {code : Text} {i : Intermediate}
    (evaluated : (evaluateCode includes (some options) code).Yields (.ok i)) :
    ∀ s ∈ i.spans, s.placeholder.IsKnown options := by
  intro s member
  have located := evaluateCode_located evaluated
  rcases evaluateCode_yields evaluated with ⟨-, digits⟩ | ⟨-, assembled⟩
  case inr =>
    obtain ⟨expansions, _, _, expanded, -⟩ := evaluateAssembly_yields assembled
    have inside : s.located ∈ placedFrom 0 (Text.lines code) := located ▸ List.mem_map_of_mem member
    obtain ⟨-, line, onLine, -, found⟩ := line_of_mem_placedFrom inside
    exact Expansion.ofLines_known expanded line onLine s.placeholder found
  case inl =>
    have own := isSpanWidth_of_evaluateHex digits s member
    intro names shape
    rw [shape] at own
    obtain ⟨group, found, widest⟩ := own
    refine ⟨?_, knowsAll_of_forall₂ found⟩
    rintro rfl
    cases found
    cases widest

end

namespace Context

variable {c : Context}

theorem branchWord_ne_notFound {branch : Line.SpecialBranch} {offset : Nat} {name : Text} :
    c.branchWord branch offset ≠ .error (.optionNotFound name) := by
  intro failed
  rcases branchWord_error_cases failed with ⟨name', -, missing⟩ | branch
  · cases (addressOf_error_iff.mp missing).2
  · exact branch.elim

theorem optionBytes_ne_notFound {names : List Text} (nonempty : names ≠ [])
    (known : KnowsAll c.options names) {width : Nat} {name : Text} :
    c.optionBytes names width ≠ .error (.optionNotFound name) := by
  intro failed
  rcases optionBytes_error_cases failed with ⟨name', member, missing⟩ | ⟨none, -⟩ | other
  · obtain ⟨o, present⟩ := known name' member
    rw [(option_error_iff.mp missing).1] at present
    cases present
  · exact nonempty none
  · cases other

theorem spanBytes_ne_notFound {s : Span} (known : s.placeholder.IsKnown c.options) {name : Text} :
    c.spanBytes s ≠ .error (.optionNotFound name) := by
  intro failed
  unfold spanBytes at failed
  split at failed
  case h_1 => exact branchWord_ne_notFound (Fallible.map_eq_error_iff.mp failed)
  case h_2 names _ =>
    obtain ⟨name', -, missing⟩ := symbolBytes_error failed
    cases (addressOf_error_iff.mp missing).2
  case h_3 names shape =>
    obtain ⟨nonempty, all⟩ := known names shape
    exact optionBytes_ne_notFound nonempty all failed

end Context

/-- Every line of a second source has been written. -/
theorem resolvedLines_of_resolvedSource {c : Context} {i : Intermediate} {ix k : Nat}
    {lines source : List Text} {line : Text} (written : resolvedSource c i ix lines = .ok source)
    (onLine : lines[k]? = some line) : ∃ ls, resolvedLines c i (ix + k) line = .ok ls := by
  induction lines generalizing ix k source with
  | nil => cases onLine
  | cons first lines ih =>
    obtain ⟨ls, more, head, tail, -⟩ := resolvedSource_cons_eq_ok_iff.mp written
    cases k with
    | zero =>
      cases onLine
      exact ⟨ls, head⟩
    | succ k =>
      obtain ⟨ls', later⟩ := ih tail onLine
      exact ⟨ls', by rwa [Nat.add_comm k 1, ← Nat.add_assoc]⟩

/-- An option of an instruction that the first pass does not look up: a symbol stands on the line, and
once it is replaced, so does the option, which is not known. -/
structure PassedOver (c : Context) (line name : Text) : Prop where
  kind : Line.classify line = .assembly
  symbol : Line.containsSymbol line = true
  named : ∃ text, Line.replaceEnclosed Line.symbolOpening Line.symbolClosing c.symbolText
      (Line.stripComment line) = .ok text ∧
    name ∈ (Line.Enclosed.all Line.optionOpening Line.optionClosing text).1.map Line.Enclosed.name
  unknown : Configuration.find? c.options name = none

/-- A line with values fails for want of an option only if an option that is not known stands on it. -/
theorem substitute_notFound {c : Context} {line name : Text}
    (failed : substitute c.symbolText c.optionText line = .error (.optionNotFound name)) :
    ∃ text, Line.replaceEnclosed Line.symbolOpening Line.symbolClosing c.symbolText line = .ok text ∧
      name ∈ (Line.Enclosed.all Line.optionOpening Line.optionClosing text).1.map Line.Enclosed.name ∧
      Configuration.find? c.options name = none := by
  rcases substitute_error_cases failed with ⟨x, -, missing⟩ | ⟨text, replaced, x, member, missing⟩
  · cases (Context.addressOf_error_iff.mp missing).2
  · obtain ⟨unknown, same⟩ := Context.option_error_iff.mp missing
    cases same
    exact ⟨text, replaced, member, unknown⟩

theorem resolvedLine_notFound {c : Context} {s : Span} {name : Text}
    (failed : resolvedLine c s = .error (.optionNotFound name)) :
    s.placeholder.isBranch = false ∧
      substitute c.symbolText c.optionText s.text = .error (.optionNotFound name) := by
  unfold resolvedLine at failed
  split at failed
  case h_1 => exact absurd (Fallible.map_eq_error_iff.mp failed) Context.branchWord_ne_notFound
  case h_2 noBranch =>
    refine ⟨?_, failed⟩
    cases shape : s.placeholder with
    | branch branch => exact absurd shape (noBranch branch)
    | symbols names => rfl
    | options names => rfl

/-- Only a line that is left to the assembler has a span beside digits and branches. -/
theorem kind_of_plain_placeholder {line : Text} {p : Placeholder} (found : p ∈ placeholdersOf line)
    (notHex : ∀ segments, Line.classify line ≠ .hex segments) (noBranch : p.isBranch = false) :
    Line.classify line = .assembly ∧
      Expansion.placeholder? (Line.stripComment line) = some p := by
  unfold placeholdersOf at found
  split at found
  case h_1 => cases found
  case h_2 branch _ =>
    obtain rfl := List.mem_singleton.mp found
    cases noBranch
  case h_3 segments kind => exact absurd kind (notHex segments)
  case h_4 kind => exact ⟨kind, Option.mem_toList.mp found⟩
  case h_5 => cases found

section

variable {c : Context} {i : Intermediate} {ix : Nat} {line : Text}
  (onLine : (spansOnLine i ix).map Span.located =
    (placeholdersOf line).map fun p => ⟨p, Line.stripComment line, ix⟩)

include onLine

/-- A line of which all spans are known fails for want of an option only if one is passed over. -/
theorem resolvedLines_notFound {name : Text} (readable : Line.IsReadable line)
    (known : ∀ s ∈ spansOnLine i ix, s.placeholder.IsKnown c.options)
    (failed : resolvedLines c i ix line = .error (.optionNotFound name)) : PassedOver c line name := by
  rcases resolvedLines_error_cases readable failed with ⟨segments, kind, stopped⟩ | ⟨notHex, s, member, stopped⟩
  · rcases segmentDirectives_error_cases stopped with ⟨s, member, missing⟩ | unready
    · exact absurd missing (Context.spanBytes_ne_notFound (known s member))
    · exact unready.elim
  obtain ⟨found, text, -⟩ := span_of_onLine onLine s member
  obtain ⟨noBranch, missing⟩ := resolvedLine_notFound stopped
  rw [text] at missing
  obtain ⟨out, replaced, named, unknown⟩ := substitute_notFound missing
  obtain ⟨kind, shape⟩ := kind_of_plain_placeholder found notHex noBranch
  rcases Expansion.placeholder?_cases shape noBranch with ⟨symbol, -⟩ | ⟨noSymbol, options, -⟩
  · refine ⟨kind, ?_, ⟨out, replaced, named⟩, unknown⟩
    rwa [Line.containsSymbol, Line.symbolNames_stripComment] at symbol
  · -- Without a symbol the names are those that the first pass has looked up.
    have nothing : (Line.Enclosed.all Line.symbolOpening Line.symbolClosing
        (Line.stripComment line)).1 = [] := by
      rwa [Line.containsSymbol, Line.symbolNames_stripComment, Bool.not_eq_false',
        List.isEmpty_iff, Line.symbolNames, List.map_eq_nil_iff] at noSymbol
    rw [Line.replaceEnclosed_of_nothing nothing] at replaced
    cases replaced
    obtain ⟨o, present⟩ := (known s member _ options).2 name (by
      rw [Line.optionNames_stripComment]
      exact named)
    rw [unknown] at present
    cases present

end

theorem replaceIn_eq_ok {ε : Type} {replace : Text → Except ε Text} {found : List Line.Enclosed}
    {out : Text} (replaced : Line.Enclosed.replaceIn replace found = .ok out) :
    ∀ x ∈ found, ∃ text, replace x.name = .ok text := by
  induction found generalizing out with
  | nil => simp
  | cons x found ih =>
    obtain ⟨text, rest, head, tail, -⟩ := Fallible.bind_bind_eq_ok_iff.mp replaced
    rw [List.forall_mem_cons]
    exact ⟨⟨text, head⟩, ih tail⟩

/-- A line with an option that is passed over cannot be written with values. -/
theorem PassedOver.not_substitute {c : Context} {line name out : Text} (passed : PassedOver c line name) :
    substitute c.symbolText c.optionText (Line.stripComment line) ≠ .ok out := by
  intro written
  obtain ⟨text, replaced, named⟩ := passed.named
  rw [substitute, replaced] at written
  obtain ⟨x, member, rfl⟩ := List.mem_map.mp named
  obtain ⟨_, all, -⟩ := Fallible.map_eq_ok_iff.mp written
  obtain ⟨value, found⟩ := replaceIn_eq_ok all x member
  obtain ⟨o, known, -⟩ := Fallible.map_eq_ok_iff.mp found
  have unknown := passed.unknown
  rw [Context.option_eq_ok known] at unknown
  cases unknown

theorem PassedOver.placeholders {c : Context} {line name : Text} (passed : PassedOver c line name) :
    placeholdersOf line = [.symbols (Line.symbolNames line)] := by
  have noBranch := Line.parse_of_assembly passed.kind
  have symbol : Line.containsSymbol (Line.stripComment line) = true := by
    rw [Line.containsSymbol, Line.symbolNames_stripComment]
    exact passed.symbol
  rw [placeholdersOf, passed.kind]
  simp only [Expansion.placeholder?, noBranch, symbol, ↓reduceIte, Line.symbolNames_stripComment]
  rfl

section

variable {i : Intermediate} {lines : List Text} {k : Nat} {line : Text}
  (located : i.spans.map Span.located = placedFrom 0 lines) (here : lines[k]? = some line)

include located here

theorem exists_onLine_of_located {p : Placeholder} (found : p ∈ placeholdersOf line) :
    ∃ s ∈ spansOnLine i k, s.placeholder = p := by
  rw [← placeholders_of_onLine (onLine_of_located located here)] at found
  exact List.mem_map.mp found

theorem PassedOver.not_resolvedLines {c : Context} {name : Text} (passed : PassedOver c line name)
    {ls : List Text} : resolvedLines c i k line ≠ .ok ls := by
  intro written
  obtain ⟨s, member, -⟩ :=
    exists_onLine_of_located located here (passed.placeholders ▸ List.mem_cons_self)
  have readable : Line.IsReadable line := by simp [Line.IsReadable, passed.kind]
  have notHex : ∀ segments, Line.classify line ≠ .hex segments := by simp [passed.kind]
  cases spans : spansOnLine i k with
  | nil =>
    rw [spans] at member
    cases member
  | cons first more =>
    obtain ⟨found, text, -⟩ :=
      span_of_onLine (onLine_of_located located here) first (spans ▸ List.mem_cons_self)
    rw [passed.placeholders, List.mem_singleton] at found
    rw [resolvedLines_of_span readable notHex spans, resolvedLine, found] at written
    obtain ⟨out, substituted, -⟩ := Fallible.map_eq_ok_iff.mp written
    rw [text] at substituted
    exact passed.not_substitute substituted

end

/-- Code with an option that is passed over is assembled a second time. -/
theorem PassedOver.needsReassembly {includes : Includes} {options : KnownOptions} {c : Context}
    {code line name : Text} {i : Intermediate} (passed : PassedOver c line name)
    (evaluated : (evaluateCode includes options code).Yields (.ok i)) {k : Nat}
    (here : (Text.lines code)[k]? = some line) :
    needsReassembly i (Text.lines code) = .ok true := by
  obtain ⟨s, member, shape⟩ := exists_onLine_of_located (evaluateCode_located evaluated) here
    (passed.placeholders ▸ List.mem_cons_self)
  obtain ⟨member, index⟩ := List.mem_filter.mp member
  have readable := isReadable_of_yields evaluated
  rcases evaluateCode_yields evaluated with ⟨plain, -⟩ | ⟨-, assembled⟩
  · have none := (Line.anyAssembly_eq_false_iff.mp plain).2
    exact absurd (passed.kind ▸ List.mem_map_of_mem (List.mem_of_getElem? here)) none
  · obtain ⟨_, _, spans, -, -, rfl⟩ := evaluateAssembly_yields assembled
    refine needsReassembly_of_span readable rfl member ?_ ?_ passed.kind
    · rw [shape]
      rfl
    · rw [beq_iff_eq.mp index, here]

/-- The options that the second pass cannot find are passed over by the first one, which finds all
others that the second pass looks for; and code with an option that is passed over is never
complete. -/
theorem unknown_options_passed_over {includes : Includes} {c : Context} {code : Text}
    {i : Intermediate} (evaluated : (evaluateCode includes (some c.options) code).Yields (.ok i)) :
    (∀ name, (resolveCode c i code).Yields (.error (.optionNotFound name)) →
      ∃ line ∈ Text.lines code, PassedOver c line name) ∧
    ∀ line ∈ Text.lines code, ∀ name, PassedOver c line name →
      ∀ hex, ¬ (resolveCode c i code).Yields (.ok (.complete hex)) := by
  have located := evaluateCode_located evaluated
  have known := evaluateCode_known evaluated
  constructor
  · intro name failed
    by_cases settled : c.outstanding i = []
    case neg =>
      rw [resolveCode_of_outstanding code settled] at failed
      cases Assembling.yields_done_iff.mp failed
    rcases needsReassembly_cases i (isReadable_of_yields evaluated) with again | spliced
    case inr =>
      -- No line is left to the assembler with a value on it, so every name has been looked up.
      rw [resolveCode_of_spliced settled spliced] at failed
      have filling := (Assembling.yields_done_iff.mp failed).symm
      obtain ⟨bytes, text⟩ := evaluateCode_eq_encode evaluated
      rw [fill, text, Hex.decode_encode] at filling
      obtain ⟨s, member, missing | other⟩ :=
        fillSpans_error_cases (Fallible.map_eq_error_iff.mp filling)
      · exact absurd missing (Context.spanBytes_ne_notFound (known s member))
      · cases other
    rcases yields_of_reassembled settled again failed with
      ⟨e, stopped, same⟩ | ⟨source, reply, -, answer⟩
    · cases same
      obtain ⟨k, line, here, missing⟩ := resolvedSource_error_cases stopped
      rw [Nat.zero_add] at missing
      refine ⟨line, List.mem_of_getElem? here, ?_⟩
      exact resolvedLines_notFound (onLine_of_located located here)
        (isReadable_of_yields evaluated line (List.mem_of_getElem? here))
        (fun s member => known s (List.mem_filter.mp member).1) missing
    · rcases ofSecondReply_cases i reply with ⟨_, -, same⟩ | ⟨_, -, -, same⟩ | ⟨_, -, -, same⟩
      all_goals cases answer.trans same
  · intro line onLine name passed hex complete
    have settled := outstanding_of_complete complete
    obtain ⟨k, here⟩ := List.mem_iff_getElem?.mp onLine
    have again := passed.needsReassembly evaluated here
    rcases yields_of_reassembled settled again complete with ⟨e, -, same⟩ | ⟨source, _, written, -⟩
    · cases same
    · obtain ⟨ls, impossible⟩ := resolvedLines_of_resolvedSource written here
      rw [Nat.zero_add] at impossible
      exact passed.not_resolvedLines located here impossible

/-- Data of which one part is an address and another one an option. -/
def besideAddress : Text := ".long <<Table>>|[[Missing]]"

def besideAddressEvaluated : Intermediate :=
  { hex := "00000000"
    spans := [⟨0, 4, .symbols ["Table"], ".long <<Table>>|[[Missing]]", 0⟩]
    isAssembly := true }

/-- The first pass accepts code with the name of an option that there is not, and the second one fails
for want of that option. -/
theorem besideAddress_missing_late :
    (evaluateCode ⟨fun _ => false, []⟩ (some tablePlaced.options) besideAddress).run
        Assembler.toolchain = .ok besideAddressEvaluated ∧
      (resolveCode tablePlaced besideAddressEvaluated besideAddress).run Assembler.toolchain =
        .error (.optionNotFound "Missing") := by
  decide +kernel

theorem besideAddress_never_complete :
    PassedOver tablePlaced besideAddress "Missing" ∧
      ∀ hex, ¬ (resolveCode tablePlaced besideAddressEvaluated besideAddress).Yields
        (.ok (.complete hex)) := by
  have first : (evaluateCode ⟨fun _ => false, []⟩ (some tablePlaced.options) besideAddress).run
      Assembler.toolchain = .ok besideAddressEvaluated := by decide +kernel
  have lines : Text.lines besideAddress = [besideAddress] := by decide +kernel
  have passed : PassedOver tablePlaced besideAddress "Missing" :=
    ⟨by decide +kernel, by decide +kernel,
      ⟨".long 0x80001000|[[Missing]]", by decide +kernel, by decide +kernel⟩, by decide +kernel⟩
  refine ⟨passed, ?_⟩
  apply (unknown_options_passed_over (Assembling.yields_of_run first)).2
    besideAddress _ "Missing" passed
  rw [lines]
  exact List.mem_cons_self

end Change

end GamePatch
