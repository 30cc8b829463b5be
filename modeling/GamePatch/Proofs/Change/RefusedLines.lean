import GamePatch.Proofs.Change.Pending
import GamePatch.Proofs.Change.Reassembly
import GamePatch.Proofs.Change.Sharing
import GamePatch.Proofs.Change.UnknownOptions
import GamePatch.Proofs.Hex.Parts

set_option autoImplicit false

namespace GamePatch

namespace Line

theorem segments_ne_nil {line : Text} {segments : List Segment}
    (kind : classify line = .hex segments) : segments ≠ [] := by
  have read := (parse_of_hex kind).2
  rw [Segment.ofLine?, stripComment_stripComment] at read
  refine Segment.collect_ne_nil read (Or.inr (Or.inr fun none => ?_))
  have blank : Text.isAllBlank (stripComment line) = true := by
    rw [Text.isAllBlank_iff]
    intro c member
    by_contra solid
    exact List.filter_eq_nil_iff.mp none c member (by simpa using solid)
  have empty : stripComment line = [] := by
    have trimmed : Text.trim (stripComment line) = stripComment line := Text.trim_trim _
    rw [← trimmed, Text.trim_eq_nil_iff]
    exact blank
  rw [classify_eq_blank_iff.mpr empty] at kind
  cases kind

end Line

namespace Change

open Assembler (Item item Accepts)

/-! ### Errors that the assembler has not made -/

def ResolveError.IsRefusal : ResolveError → Prop
  | .toolchain (.assemblyFailed _) => True
  | _ => False

section

variable {c : Context} {e : ResolveError}

theorem ResolveError.IsForValue.not_isRefusal {names : List Text} (own : e.IsForValue c names) :
    ¬ e.IsRefusal := by
  cases e with
  | toolchain error =>
    cases error with
    | branch _ => exact id
    | _ => exact own.elim
  | _ => exact id

theorem ResolveError.IsUnready.not_isRefusal (unready : e.IsUnready) : ¬ e.IsRefusal := by
  cases e with
  | toolchain error => exact unready.elim
  | _ => exact id

theorem not_isRefusal_of_resolvedSource {i : Intermediate} {ix : Nat} {lines : List Text}
    (failed : resolvedSource c i ix lines = .error e) : ¬ e.IsRefusal := by
  obtain ⟨k, line, -, stopped⟩ := resolvedSource_error_cases failed
  by_cases readable : Line.IsReadable line
  case neg =>
    rw [resolvedLines_of_overflow (not_not.mp readable)] at stopped
    cases stopped
    exact id
  rcases resolvedLines_error_cases readable stopped with ⟨segments, -, digits⟩ | ⟨-, s, -, missing⟩
  · rcases segmentDirectives_error_cases digits with ⟨s, -, missing⟩ | unready
    · exact (Context.isForValue_of_spanBytes missing).not_isRefusal
    · exact unready.not_isRefusal
  · exact (isForValue_of_resolvedLine missing).not_isRefusal

theorem not_isRefusal_of_fill {i : Intermediate} (failed : fill c i = .error e) : ¬ e.IsRefusal := by
  unfold fill at failed
  split at failed
  · cases failed
    exact id
  · exact (isForValue_of_fillSpans (Fallible.map_eq_error_iff.mp failed)).not_isRefusal

end

/-- Where the assembler refuses code in the second pass, it was asked for the code with all values. -/
theorem sourceWith_of_refused {toolchain : Toolchain} {c : Context} {i : Intermediate} {code : Text}
    {ds : List Diagnostic} (located : i.spans.map Span.located = placedFrom 0 (Text.lines code))
    (failed : (resolveCode c i code).run toolchain = .error (.toolchain (.assemblyFailed ds))) :
    ∃ source, sourceWith c i.spans (Text.lines code) = .ok source ∧
      toolchain.assemble (Text.joinLines source) c.includePaths = .error (.assemblyFailed ds) := by
  have sources : resolvedSource c i 0 (Text.lines code) = sourceWith c i.spans (Text.lines code) :=
    resolvedSource_eq_sourceWith (Remaining.all located)
  by_cases settled : c.outstanding i = []
  case neg =>
    rw [resolveCode_of_outstanding code settled] at failed
    cases failed
  cases again : needsReassembly i (Text.lines code) with
  | error e =>
    rw [resolveCode_of_ends settled again] at failed
    cases failed
  | ok assembled =>
    cases assembled with
    | false =>
      rw [resolveCode_of_spliced settled again] at failed
      exact absurd trivial (not_isRefusal_of_fill failed)
    | true =>
      rcases resolveCode_of_reassembled settled again with ⟨e, written, pass⟩ | ⟨source, written, pass⟩
      · rw [pass] at failed
        cases Except.error.inj failed
        exact absurd trivial (not_isRefusal_of_resolvedSource written)
      · rw [pass] at failed
        refine ⟨source, sources.symm.trans written, ?_⟩
        change ofSecondReply i (toolchain.assemble (Text.joinLines source) c.includePaths) = _ at failed
        rcases ofSecondReply_cases i (toolchain.assemble (Text.joinLines source) c.includePaths) with
          ⟨e, reply, same⟩ | ⟨a, -, -, same⟩ | ⟨a, -, -, same⟩
        · cases failed.symm.trans same
          exact reply
        · cases failed.symm.trans same
        · cases failed.symm.trans same

/-! ### Lines of the second source -/

/-- The number of directives for a part of a line of digits: one for each word that the digits begin, and
one for a value. -/
def directiveCount : Line.Segment → Nat
  | .hex digits => (digits.length + 7) / 8
  | _ => 1

def lineCount (line : Text) : Nat :=
  match Line.classify line with
  | .hex segments => (segments.map directiveCount).sum
  | _ => 1

/-- The message with which the assembler refuses a line with values in it, if it does. -/
def Context.refusal? (c : Context) (line : Text) : Option Text :=
  match Line.classify line, substitute c.symbolText c.optionText (Line.stripComment line) with
  | .assembly, .ok out => (item out).message?
  | _, _ => none

/-- The errors for lines of code with values in them, of which the first has the number `number` in the
second source. -/
def Context.refusals (c : Context) : Nat → List Text → List Diagnostic
  | _, [] => []
  | number, line :: rest =>
    ((c.refusal? line).map fun message => ⟨some number, message⟩).toList ++
      refusals c (number + lineCount line) rest

theorem directiveCount_pos {segment : Line.Segment} (sound : segment.IsSound) :
    1 ≤ directiveCount segment := by
  cases segment with
  | hex digits =>
    have := List.length_pos_iff.mpr sound.2
    rw [directiveCount]
    omega
  | symbol name => exact Nat.le_refl 1
  | options names => exact Nat.le_refl 1

/-- No line of code is left out of the second source. -/
theorem lineCount_pos (line : Text) : 1 ≤ lineCount line := by
  unfold lineCount
  split
  case h_1 segments kind =>
    have sound := Line.Segment.ofLine?_isSound (Line.parse_of_hex kind).2
    obtain ⟨segment, rest, rfl⟩ := List.exists_cons_of_ne_nil (Line.segments_ne_nil kind)
    have first := directiveCount_pos (sound segment List.mem_cons_self)
    rw [List.map_cons, List.sum_cons]
    omega
  · exact Nat.le_refl 1

/-- A value of one to four bytes is written on one line. -/
theorem length_dataDirectives_of_value {value : Bytes} (some : 1 ≤ value.length)
    (short : value.length ≤ 4) : (dataDirectives value).length = 1 := by
  rw [length_dataDirectives]
  omega

/-- The digits on a line and the values between them are written on as many lines as they have
directives, and none of them is refused. -/
theorem length_segmentDirectives {c : Context} {options : KnownOptions} {offset : Nat}
    {segments : List Line.Segment} {widths : List Nat} {spans : List Span} {ls : List Text}
    (kinds : List.Forall₂ (IsWidth options) segments widths) (small : ∀ width ∈ widths, width ≤ 4)
    (sound : ∀ segment ∈ segments, segment.IsSound)
    (placed : Placed offset ((segments.zip widths).map Part.ofSegment) spans)
    (resolved : segmentDirectives c spans segments = .ok ls) :
    ls.length = (segments.map directiveCount).sum ∧ Accepts ls := by
  induction kinds generalizing offset spans ls with
  | nil =>
    cases resolved
    exact ⟨rfl, by simp [Accepts]⟩
  | @cons segment width segments widths kind rest ih =>
    rw [List.forall_mem_cons] at small sound
    rw [List.zip_cons_cons, List.map_cons] at placed
    rw [List.map_cons, List.sum_cons]
    cases segment with
    | hex digits =>
      cases placed with
      | lines placed =>
        obtain ⟨bytes, more, decoded, tail, rfl⟩ := segmentDirectives_hex_eq_ok resolved
        obtain ⟨length, accepted⟩ := ih small.2 sound.2 placed tail
        have own := Hex.decode_eq_ok_iff.mp decoded
        rw [Hex.normalize_of_isDigits sound.1.1] at own
        have count : (dataDirectives bytes).length = directiveCount (.hex digits) := by
          rw [length_dataDirectives, directiveCount, own, Hex.length_encode]
          omega
        rw [List.length_append, count, length]
        exact ⟨rfl, Assembler.accepts_append.mpr ⟨accepts_dataDirectives bytes, accepted⟩⟩
    | symbol name =>
      cases placed with
      | hole start size shape placed =>
        obtain ⟨value, more, found, tail, rfl⟩ :=
          segmentDirectives_cons_eq_ok (fun _ => Line.Segment.noConfusion) resolved
        obtain ⟨length, accepted⟩ := ih small.2 sound.2 placed tail
        rw [Context.spanBytes, shape] at found
        obtain ⟨a, -, rfl⟩ := Context.symbolBytes_singleton found
        have four := Bytes.length_ofWord a
        rw [List.length_append, length_dataDirectives_of_value (by omega) (by omega), length]
        exact ⟨rfl, Assembler.accepts_append.mpr ⟨accepts_dataDirectives _, accepted⟩⟩
    | options names =>
      cases placed with
      | hole start size shape placed =>
        obtain ⟨value, more, found, tail, rfl⟩ :=
          segmentDirectives_cons_eq_ok (fun _ => Line.Segment.noConfusion) resolved
        obtain ⟨length, accepted⟩ := ih small.2 sound.2 placed tail
        rw [Context.spanBytes, shape] at found
        obtain ⟨own, some⟩ := Context.length_of_optionBytes found
        rw [bytesOf_dataDirectives, Bytes.length_zeros] at size
        have short := small.1
        rw [List.length_append, length_dataDirectives_of_value (by omega) (by omega), length]
        exact ⟨rfl, Assembler.accepts_append.mpr ⟨accepts_dataDirectives _, accepted⟩⟩

/-- The line of a branch with its word in it is accepted. -/
theorem accepts_branchLine (word : UInt32) : ¬ (item (".long 0x" ++ Hex.encodeWord word)).IsBad := by
  have directive : ".long 0x" ++ Hex.encodeWord word ∈ dataDirectives (Bytes.ofWord word) := by
    rw [dataDirectives_ofWord]
    exact List.mem_cons_self
  exact accepts_dataDirectives _ _ directive

theorem refusal?_of_not_assembly {c : Context} {line : Text} (other : Line.classify line ≠ .assembly) :
    c.refusal? line = none := by
  unfold Context.refusal?
  split
  case h_1 kind _ => exact absurd kind other
  case h_2 => rfl

theorem substitute_of_nothing {ε : Type} {symbol option : Text → Except ε Text} {line : Text}
    (none : Expansion.placeholder? (Line.stripComment line) = none) :
    substitute symbol option (Line.stripComment line) = .ok (Line.stripComment line) := by
  unfold Expansion.placeholder? at none
  split at none
  · cases none
  · split at none
    · cases none
    case isFalse noSymbol =>
      split at none
      · cases none
      case isFalse noOption =>
        have symbols : (Line.Enclosed.all Line.symbolOpening Line.symbolClosing
            (Line.stripComment line)).1 = [] := by
          simpa [Line.containsSymbol, Line.symbolNames] using noSymbol
        have options : (Line.Enclosed.all Line.optionOpening Line.optionClosing
            (Line.stripComment line)).1 = [] := by
          simpa [Line.containsOption, Line.optionNames] using noOption
        unfold substitute
        rw [Line.replaceEnclosed_of_nothing symbols]
        exact Line.replaceEnclosed_of_nothing options

theorem isBranch_of_assembly {line : Text} {p : Placeholder} (kind : Line.classify line = .assembly)
    (found : Expansion.placeholder? (Line.stripComment line) = some p) : p.isBranch = false := by
  rw [Expansion.placeholder?, Line.parse_of_assembly kind] at found
  simp only at found
  split at found
  · cases found
    rfl
  · split at found
    · cases found
      rfl
    · cases found

/-- A line of assembly is written on one line, whose error is that of the line. -/
theorem errors_linesWith_of_assembly {c : Context} {ix : Nat} {line : Text} {spans : List Span}
    {ls : List Text} (kind : Line.classify line = .assembly)
    (onLine : spans.map Span.located =
      (placeholdersOf line).map fun p => ⟨p, Line.stripComment line, ix⟩)
    (resolved : linesWith c line spans = .ok ls) (number : Nat) :
    ls.length = 1 ∧
      Item.errors number (ls.map item) =
        ((c.refusal? line).map fun message => ⟨some number, message⟩).toList := by
  have readable : Line.IsReadable line := by simp [Line.IsReadable, kind]
  have notHex : ∀ segments, Line.classify line ≠ .hex segments := by simp [kind]
  have placeholders := placeholders_of_onLine onLine
  rw [placeholdersOf, kind] at placeholders
  unfold Context.refusal?
  rw [kind]
  cases found : Expansion.placeholder? (Line.stripComment line) with
  | none =>
    rw [found] at placeholders
    cases List.map_eq_nil_iff.mp placeholders
    rw [linesWith_nil readable notHex] at resolved
    cases resolved
    rw [substitute_of_nothing found]
    simp only [Assembler.item_stripComment]
    exact ⟨rfl, Item.errors_singleton number (item line)⟩
  | some p =>
    rw [found] at placeholders
    obtain ⟨s, rfl⟩ := List.length_eq_one_iff.mp (by simpa using congrArg List.length placeholders)
    have own : s.placeholder = p := (List.cons.inj placeholders).1
    have noBranch : s.placeholder.isBranch = false := own ▸ isBranch_of_assembly kind found
    rw [linesWith_cons readable notHex] at resolved
    obtain ⟨out, written, rfl⟩ := Fallible.map_eq_ok_iff.mp resolved
    rw [resolvedLine_of_not_isBranch noBranch,
      (span_of_onLine onLine s List.mem_cons_self).2.1] at written
    rw [written]
    exact ⟨rfl, Item.errors_singleton number (item out)⟩

/-- A line of code is written on its number of lines, and they have no errors but that of the line. -/
theorem errors_linesWith {options : KnownOptions} {c : Context} {index ix offset : Nat} {line : Text}
    {e : Expansion} {spans : List Span} {ls : List Text}
    (expanded : Expansion.ofLine options index line = .ok e)
    (onLine : spans.map Span.located =
      (placeholdersOf line).map fun p => ⟨p, Line.stripComment line, ix⟩)
    (placed : Placed offset (Part.ofLine options line) spans)
    (resolved : linesWith c line spans = .ok ls) (number : Nat) :
    ls.length = lineCount line ∧
      Item.errors number (ls.map item) =
        ((c.refusal? line).map fun message => ⟨some number, message⟩).toList := by
  have placeholders := placeholders_of_onLine onLine
  have readable := Expansion.isReadable_of_ofLine expanded
  have noErrors {ls : List Text} (accepted : Accepts ls) (other : Line.classify line ≠ .assembly) :
      Item.errors number (ls.map item) =
        ((c.refusal? line).map fun message => ⟨some number, message⟩).toList := by
    rw [refusal?_of_not_assembly other]
    exact (Item.errors_eq_nil_iff number).mpr (List.forall_mem_map.mpr accepted)
  unfold placeholdersOf at placeholders
  unfold lineCount
  cases kind : Line.classify line with
  | hex segments =>
    rw [Expansion.ofLine, kind] at expanded
    obtain ⟨widths, found, -⟩ := Fallible.bind_eq_ok_iff.mp expanded
    simp only [Part.ofLine, kind, Part.ofSegments, found] at placed
    unfold linesWith at resolved
    rw [kind] at resolved
    obtain ⟨length, accepted⟩ := length_segmentDirectives (placeholderWidths_isWidth found)
      (width_le_four_of_placeholderWidths found) (Line.Segment.ofLine?_isSound (Line.parse_of_hex kind).2)
      placed resolved
    exact ⟨length, noErrors accepted (by simp [kind])⟩
  | blank =>
    rw [kind] at placeholders
    cases List.map_eq_nil_iff.mp placeholders
    rw [linesWith_nil readable (by simp [kind])] at resolved
    cases resolved
    refine ⟨rfl, noErrors ?_ (by simp [kind])⟩
    intro l member
    rw [List.mem_singleton.mp member, ← Assembler.item_stripComment, Line.stripComment_of_blank kind]
    exact id
  | branch branch =>
    rw [kind] at placeholders
    obtain ⟨s, rfl⟩ := List.length_eq_one_iff.mp (by simpa using congrArg List.length placeholders)
    rw [linesWith_cons readable (by simp [kind])] at resolved
    obtain ⟨out, written, rfl⟩ := Fallible.map_eq_ok_iff.mp resolved
    refine ⟨rfl, noErrors ?_ (by simp [kind])⟩
    rw [resolvedLine, (List.cons.inj placeholders).1] at written
    obtain ⟨word, -, rfl⟩ := Fallible.map_eq_ok_iff.mp written
    exact List.forall_mem_singleton.mpr (accepts_branchLine word)
  | assembly => exact errors_linesWith_of_assembly kind onLine resolved number
  | overflow => exact absurd kind readable

/-- The errors of the second source are those of the lines of code that the assembler refuses. -/
theorem errors_sourceWith {options : KnownOptions} {c : Context} {index ix offset : Nat}
    {lines : List Text} {expansions : List Expansion} {spans : List Span} {source : List Text}
    (expanded : Expansion.ofLines options index lines = .ok expansions)
    (located : spans.map Span.located = placedFrom ix lines)
    (placed : Placed offset (lines.flatMap (Part.ofLine options)) spans)
    (resolved : sourceWith c spans lines = .ok source) (number : Nat) :
    Item.errors number (source.map item) = c.refusals number lines := by
  induction lines generalizing index ix offset expansions spans source number with
  | nil =>
    cases resolved
    rfl
  | cons line lines ih =>
    obtain ⟨e, _, head, tail, rfl⟩ := Expansion.ofLines_cons_eq_ok_iff.mp expanded
    obtain ⟨ls, more, first, rest, rfl⟩ := Fallible.bind_bind_eq_ok_iff.mp resolved
    obtain ⟨here, there, rfl, count, near, far⟩ := placed.exists_split head
    obtain ⟨onLine, behind⟩ := split_located count located
    rw [← count, List.take_left] at first
    rw [← count, List.drop_left] at rest
    obtain ⟨length, own⟩ := errors_linesWith head onLine near first number
    rw [List.map_append, Item.errors_append, own, List.length_map, length, ih tail behind far rest,
      Context.refusals]

/-- The errors point at lines of the second source, which are counted by the lines of code above them. -/
theorem Context.mem_refusals {c : Context} {number : Nat} {lines : List Text} {d : Diagnostic} :
    d ∈ c.refusals number lines ↔
      ∃ above line below message, lines = above ++ line :: below ∧ c.refusal? line = some message ∧
        d = ⟨some (number + (above.map lineCount).sum), message⟩ := by
  induction lines generalizing number with
  | nil => simp [refusals]
  | cons first rest ih =>
    rw [refusals, List.mem_append, ih, Option.mem_toList, Option.map_eq_some_iff]
    constructor
    · rintro (⟨message, own, rfl⟩ | ⟨above, line, below, message, rfl, own, rfl⟩)
      · exact ⟨[], first, rest, message, rfl, own, rfl⟩
      · refine ⟨first :: above, line, below, message, rfl, own, ?_⟩
        rw [List.map_cons, List.sum_cons, Nat.add_assoc]
    · rintro ⟨above, line, below, message, split, own, rfl⟩
      cases above with
      | nil =>
        cases split
        exact Or.inl ⟨message, own, rfl⟩
      | cons top above =>
        cases split
        refine Or.inr ⟨above, line, below, message, rfl, own, ?_⟩
        rw [List.map_cons, List.sum_cons, Nat.add_assoc]

theorem length_le_sum_lineCount (lines : List Text) : lines.length ≤ (lines.map lineCount).sum := by
  induction lines with
  | nil => exact Nat.le_refl 0
  | cons line lines ih =>
    have first := lineCount_pos line
    rw [List.length_cons, List.map_cons, List.sum_cons]
    omega

theorem sum_lineCount_eq_length_iff {lines : List Text} :
    (lines.map lineCount).sum = lines.length ↔ ∀ line ∈ lines, lineCount line = 1 := by
  induction lines with
  | nil => simp
  | cons line lines ih =>
    have first := lineCount_pos line
    have rest := length_le_sum_lineCount lines
    rw [List.length_cons, List.map_cons, List.sum_cons, List.forall_mem_cons, ← ih]
    omega

/-- The error has the number of a line of code that the assembler refuses with the values in it. -/
def Context.PointsAtRefused (c : Context) (lines : List Text) (d : Diagnostic) : Prop :=
  ∃ above line below, lines = above ++ line :: below ∧ d.line = some (above.length + 1) ∧
    (c.refusal? line).isSome

/-- All errors point at refused lines exactly if each line above a refused one is written on one line. -/
theorem Context.pointsAtRefused_iff (c : Context) (lines : List Text) :
    (∀ d ∈ c.refusals 1 lines, c.PointsAtRefused lines d) ↔
      ∀ above line below, lines = above ++ line :: below → (c.refusal? line).isSome →
        ∀ other ∈ above, lineCount other = 1 := by
  constructor
  · intro points above line below split refused
    -- The error of the line points at no line above it. If it points at one below it, the same is known
    -- of that line, which has fewer lines below it.
    induction rest : below.length using Nat.strongRecOn generalizing above line below with
    | ind n ih =>
      obtain ⟨message, own⟩ := Option.isSome_iff_exists.mp refused
      obtain ⟨above', line', below', split', number, refused'⟩ :=
        points _ (mem_refusals.mpr ⟨above, line, below, message, split, own, rfl⟩)
      have count : 1 + (above.map lineCount).sum = above'.length + 1 := Option.some.inj number
      have short := length_le_sum_lineCount above
      rcases Nat.lt_or_ge above.length above'.length with further | here
      · have total := congrArg List.length (split.symm.trans split')
        simp only [List.length_append, List.length_cons] at total
        have all := ih below'.length (by omega) above' line' below' split' refused' rfl
        have part : above <+: above' :=
          List.prefix_of_prefix_length_le ⟨_, split.symm⟩ ⟨_, split'.symm⟩ further.le
        exact fun other member => all other (part.subset member)
      · exact sum_lineCount_eq_length_iff.mp (by omega)
  · intro single d member
    obtain ⟨above, line, below, message, split, own, rfl⟩ := mem_refusals.mp member
    have refused : (c.refusal? line).isSome := by rw [own]; rfl
    refine ⟨above, line, below, split, ?_, refused⟩
    rw [sum_lineCount_eq_length_iff.mpr (single above line below split refused), Nat.add_comm]

/-- The second assembly fails with an error for each line that is refused with the values in it, at the
line of the second source that it is written on. These are lines of the code exactly if no line above a
refused one is written on several lines. -/
theorem second_errors_at_lines_iff {includes : Includes} {options : KnownOptions} {code : Text}
    {i : Intermediate} {c : Context} {ds : List Diagnostic}
    (free : Text.contains "__cs_" code = false) (assembly : Code.isAssembly code = .ok true)
    (evaluated : (evaluateCode includes options code).run Assembler.toolchain = .ok i)
    (failed : (resolveCode c i code).run Assembler.toolchain =
      .error (.toolchain (.assemblyFailed ds))) :
    ds = c.refusals 1 (Text.lines code) ∧
      ((∀ d ∈ ds, c.PointsAtRefused (Text.lines code) d) ↔
        ∀ above line below, Text.lines code = above ++ line :: below → (c.refusal? line).isSome →
          ∀ other ∈ above, lineCount other = 1) := by
  have located := evaluateCode_located (Assembling.yields_of_run evaluated)
  obtain ⟨⟨expansions, expanded⟩, placed, -, -⟩ := laidOut_of_run assembly free evaluated
  obtain ⟨source, written, refused⟩ := sourceWith_of_refused located failed
  have clean : ∀ line ∈ source, '\n' ∉ line :=
    newline_not_mem_secondSource located
      ((resolvedSource_eq_sourceWith (Remaining.all located)).trans written)
  have errors : ds = c.refusals 1 (Text.lines code) := by
    cases Assembler.assemble_joinLines_eq_error clean refused
    exact errors_sourceWith expanded located placed written 1
  exact ⟨errors, errors ▸ c.pointsAtRefused_iff (Text.lines code)⟩

def wordAndRegister : Text := "38600001\nli r[[Reg]], 1"

def wordsAndRegister : Text := "38600001 38800002\nli r[[Reg]], 1"

def registerOptions : List Configuration :=
  [⟨"Reg", .int .one false none, .int 40, .int 40, [], none, false⟩]

def registerPlaced : Context := ⟨0x80001000, [], registerOptions, []⟩

/-- The code after its first pass, with as many zeros behind its words. -/
def registerEvaluated (words : Text) : Intermediate :=
  { hex := words ++ "00000000"
    spans := [⟨words.length / 2, 4, .options ["Reg"], "li r[[Reg]], 1", 1⟩]
    isAssembly := true }

theorem wordAndRegister_points :
    registerPlaced.PointsAtRefused (Text.lines wordAndRegister)
      ⟨some 2, "Error: bad operands: `li r40, 1'"⟩ := by
  have evaluated : (evaluateCode ⟨fun _ => false, []⟩ (some registerOptions) wordAndRegister).run
      Assembler.toolchain = .ok (registerEvaluated "38600001") := by decide +kernel
  have failed : (resolveCode registerPlaced (registerEvaluated "38600001") wordAndRegister).run
      Assembler.toolchain = .error (.toolchain (.assemblyFailed
        [⟨some 2, "Error: bad operands: `li r40, 1'"⟩])) := by decide +kernel
  have single : ∀ line ∈ Text.lines wordAndRegister, lineCount line = 1 := by decide +kernel
  have points :=
    (second_errors_at_lines_iff (by decide +kernel) (by decide +kernel) evaluated failed).2.mpr
  refine points ?_ _ List.mem_cons_self
  intro above line below split _ other member
  exact single other (split ▸ List.mem_append_left _ member)

/-- The error for the second line of the code has the number of a third one. -/
theorem wordsAndRegister_points_below : Text.contains "__cs_" wordsAndRegister = false ∧
    Code.isAssembly wordsAndRegister = .ok true ∧ ∃ i ds,
      (evaluateCode ⟨fun _ => false, []⟩ (some registerOptions) wordsAndRegister).run
        Assembler.toolchain = .ok i ∧
      (resolveCode registerPlaced i wordsAndRegister).run Assembler.toolchain =
        .error (.toolchain (.assemblyFailed ds)) ∧
      ¬ ∀ d ∈ ds, registerPlaced.PointsAtRefused (Text.lines wordsAndRegister) d := by
  refine ⟨by decide +kernel, by decide +kernel, registerEvaluated "3860000138800002",
    [⟨some 3, "Error: bad operands: `li r40, 1'"⟩], by decide +kernel, by decide +kernel, ?_⟩
  intro points
  obtain ⟨above, line, below, split, number, -⟩ := points _ List.mem_cons_self
  have two : (Text.lines wordsAndRegister).length = 2 := by decide +kernel
  rw [split, List.length_append, List.length_cons] at two
  have third : 3 = above.length + 1 := Option.some.inj number
  omega

end Change

end GamePatch
