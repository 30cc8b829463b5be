import GamePatch.Proofs.Change.HexCode
import GamePatch.Proofs.Change.SecondPass

set_option autoImplicit false

namespace GamePatch

namespace Line

def hasOptions (line : Text) : Bool :=
  match classify line with
  | .hex segments => segments.any Segment.isOptions
  | _ => false

theorem length_hexDigits {line : Text} {segments : List Segment}
    (kind : classify line = .hex segments) :
    (hexDigits line).length = (Segment.digitsOf segments).length := by
  rw [hexDigits, kind, ofLine?_digitsOf (parse_of_hex kind).2]

end Line

namespace Change

/-! ### The widths on a line -/

/-- A placeholder fills the last word but for half a byte. -/
theorem missingWidth_fills (digits : Nat) :
    (digits + 2 * missingWidth digits + digits % 2) % 8 = 0 := by
  unfold missingWidth
  split <;> omega

theorem missingWidth_pos {digits : Nat} (even : digits % 2 = 0) : 1 ≤ missingWidth digits := by
  unfold missingWidth
  split <;> omega

/-- Digits and addresses leave the count of what is missing as it is, and take whole words at most. -/
theorem fillWidths_plain {segment : Line.Segment} {known : Option Nat}
    (read : knownDigits none segment = .ok known) (plain : segment.isOptions = false) (digits : Nat)
    (rest : List (Line.Segment × Option Nat)) :
    ∃ width, fillWidths digits ((segment, known) :: rest) = width :: fillWidths digits rest ∧
      2 * width % 8 = 0 := by
  cases segment with
  | hex text => exact ⟨0, by rw [fillWidths], rfl⟩
  | symbol name =>
    cases read
    exact ⟨4, rfl, rfl⟩
  | options names => cases plain

theorem fillWidths_unknown {segment : Line.Segment} {known : Option Nat}
    (read : knownDigits none segment = .ok known) (unknown : segment.isOptions = true) (digits : Nat)
    (rest : List (Line.Segment × Option Nat)) :
    fillWidths digits ((segment, known) :: rest) =
      missingWidth digits :: fillWidths (digits + 2 * missingWidth digits) rest := by
  cases segment with
  | hex text => cases unknown
  | symbol name => cases unknown
  | options names =>
    cases read
    rfl

section

variable {segments : List Line.Segment} {known : List (Option Nat)}
  (read : List.Forall₂ (fun s k => knownDigits none s = .ok k) segments known)

include read

/-- Addresses are whole words, so what counts is the digits. -/
theorem foldl_known_mod (start : Nat) :
    known.foldl (fun digits d => digits + d.getD 0) start % 8 =
      (start + (Line.Segment.digitsOf segments).length) % 8 := by
  induction read generalizing start with
  | nil => rfl
  | @cons segment k segments known here rest ih =>
    rw [List.foldl_cons, ih, ← List.singleton_append, Line.Segment.digitsOf_append,
      List.length_append]
    cases segment with
    | hex digits =>
      cases here
      have own : Line.Segment.digitsOf [.hex digits] = digits := List.append_nil digits
      rw [own, Option.getD_some, Nat.add_assoc]
    | symbol name =>
      cases here
      have none : Line.Segment.digitsOf [.symbol name] = [] := rfl
      rw [none, Option.getD_some, List.length_nil]
      omega
    | options names =>
      cases here
      change (start + 0 + _) % 8 = (start + (0 + _)) % 8
      omega

/-- The first placeholder makes a line full, wherever it stands, and each one on a full line is a word
of its own. -/
theorem fillWidths_fills (digits : Nat)
    (filled : segments.any Line.Segment.isOptions = true ∨ (digits + digits % 2) % 8 = 0) :
    (digits + 2 * (fillWidths digits (segments.zip known)).sum + digits % 2) % 8 = 0 := by
  induction read generalizing digits with
  | nil => exact filled.resolve_left Bool.false_ne_true
  | @cons segment k segments known here rest ih =>
    cases kind : segment.isOptions with
    | false =>
      rw [List.any_cons, kind, Bool.false_or] at filled
      obtain ⟨width, cons, words⟩ := fillWidths_plain here kind digits (segments.zip known)
      have later := ih digits filled
      rw [List.zip_cons_cons, cons, List.sum_cons]
      omega
    | true =>
      have fills := missingWidth_fills digits
      have later := ih (digits + 2 * missingWidth digits) (Or.inr (by omega))
      rw [List.zip_cons_cons, fillWidths_unknown here kind, List.sum_cons]
      omega

/-- Whole bytes leave a byte at least for each placeholder, and whole bytes for the next one. -/
theorem fillWidths_pos {digits : Nat} (even : digits % 2 = 0) :
    ∀ part ∈ segments.zip (fillWidths digits (segments.zip known)),
      part.1.isOptions = true → 1 ≤ part.2 := by
  induction read generalizing digits with
  | nil => simp
  | @cons segment k segments known here rest ih =>
    cases kind : segment.isOptions with
    | false =>
      obtain ⟨width, cons, -⟩ := fillWidths_plain here kind digits (segments.zip known)
      rw [List.zip_cons_cons, cons, List.zip_cons_cons, List.forall_mem_cons]
      refine ⟨fun isOptions => ?_, ih even⟩
      rw [kind] at isOptions
      cases isOptions
    | true =>
      rw [List.zip_cons_cons, fillWidths_unknown here kind, List.zip_cons_cons,
        List.forall_mem_cons]
      exact ⟨fun _ => missingWidth_pos even, ih (by omega)⟩

end

section

variable {segments : List Line.Segment} {widths : List Nat}
  (found : placeholderWidths none segments = .ok widths)

include found

theorem placeholderWidths_fills (some : segments.any Line.Segment.isOptions = true) :
    ((Line.Segment.digitsOf segments).length + 2 * widths.sum +
      (Line.Segment.digitsOf segments).length % 2) % 8 = 0 := by
  obtain ⟨known, read, same⟩ := Fallible.bind_eq_ok_iff.mp found
  have each := Fallible.mapM_eq_ok_iff.mp read
  have total := foldl_known_mod each 0
  have fills := fillWidths_fills each (known.foldl (fun digits d => digits + d.getD 0) 0)
    (Or.inl some)
  have widths := Except.ok.inj same
  rw [widths] at fills
  omega

theorem placeholderWidths_pos (even : (Line.Segment.digitsOf segments).length % 2 = 0) :
    ∀ part ∈ segments.zip widths, part.1.isOptions = true → 1 ≤ part.2 := by
  obtain ⟨known, read, same⟩ := Fallible.bind_eq_ok_iff.mp found
  have each := Fallible.mapM_eq_ok_iff.mp read
  have total := foldl_known_mod each 0
  rw [← Except.ok.inj same]
  exact fillWidths_pos each (by omega)

end

/-! ### The spans on a line -/

/-- What stands for a part of a line in the code, with its width, if it is a placeholder. -/
def measured? (part : Line.Segment × Nat) : Option (Placeholder × Nat) :=
  (Placeholder.ofSegment? part.1).map fun p => (p, part.2)

def Span.measured (s : Span) : Placeholder × Nat := (s.placeholder, s.width)

/-- Digits have no width of their own. -/
theorem sum_measured {segments : List Line.Segment} {widths : List Nat}
    (found : placeholderWidths none segments = .ok widths) :
    (((segments.zip widths).filterMap measured?).map Prod.snd).sum = widths.sum := by
  have own := placeholderWidths_isWidth found
  clear found
  induction own with
  | nil => rfl
  | @cons segment width segments widths here rest ih =>
    cases segment with
    | hex digits =>
      obtain rfl : width = 0 := here
      rw [List.zip_cons_cons, List.filterMap_cons_none (by rfl), ih, List.sum_cons, Nat.zero_add]
    | symbol name =>
      rw [List.zip_cons_cons, List.filterMap_cons_some (by rfl), List.map_cons, List.sum_cons, ih,
        List.sum_cons]
    | options names =>
      rw [List.zip_cons_cons, List.filterMap_cons_some (by rfl), List.map_cons, List.sum_cons, ih,
        List.sum_cons]

namespace Draft

variable {options : KnownOptions} {d d' : Draft}

theorem addPlaceholder_measured {p : Placeholder} {width line : Nat} {text : Text}
    (added : d.addPlaceholder p width text line = .ok d') :
    ∃ here, d'.spans = d.spans ++ here ∧ here.map Span.measured = [(p, width)] := by
  unfold addPlaceholder at added
  split at added
  · cases added
  · cases added
    exact ⟨_, rfl, rfl⟩

theorem addSegment_measured {text : Text} {line width : Nat} {segment : Line.Segment}
    (added : d.addSegment text line segment width = .ok d') :
    ∃ here, d'.spans = d.spans ++ here ∧
      here.map Span.measured = (measured? (segment, width)).toList := by
  cases segment with
  | hex digits =>
    cases added
    exact ⟨[], (List.append_nil _).symm, rfl⟩
  | symbol name => exact addPlaceholder_measured added
  | options names => exact addPlaceholder_measured added

theorem addSegments_measured {text : Text} {line : Nat} {parts : List (Line.Segment × Nat)}
    (added : addSegments text line d parts = .ok d') :
    ∃ here, d'.spans = d.spans ++ here ∧ here.map Span.measured = parts.filterMap measured? := by
  fun_induction addSegments text line d parts with
  | case1 d =>
    cases added
    exact ⟨[], (List.append_nil _).symm, rfl⟩
  | case2 d segment width rest next step ih =>
    obtain ⟨first, split, own⟩ := addSegment_measured step
    obtain ⟨more, split', others⟩ := ih added
    refine ⟨first ++ more, ?_, ?_⟩
    · rw [split', split, List.append_assoc]
    · rw [List.map_append, own, others]
      exact (Line.Segment.filterMap_cons_eq_append measured? _ rest).symm
  | case3 => cases added

/-- A line of digits adds its placeholders with their widths. -/
theorem addLine_measured {ix : Nat} {line : Text} {segments : List Line.Segment}
    (kind : Line.classify line = .hex segments) (added : d.addLine options ix line = .ok d') :
    ∃ widths here, placeholderWidths options segments = .ok widths ∧ d'.spans = d.spans ++ here ∧
      here.map Span.measured = (segments.zip widths).filterMap measured? := by
  unfold addLine at added
  rw [kind] at added
  simp only at added
  split at added
  case h_1 widths found =>
    obtain ⟨here, split, own⟩ := addSegments_measured added
    exact ⟨widths, here, found, split, own⟩
  case h_2 => cases added

theorem addLine_isPrefix {ix : Nat} {line : Text} (added : d.addLine options ix line = .ok d') :
    d.spans <+: d'.spans := by
  cases kind : Line.classify line with
  | hex segments =>
    obtain ⟨-, here, -, split, -⟩ := addLine_measured kind added
    exact ⟨here, split.symm⟩
  | blank =>
    rw [addLine, kind] at added
    cases added
    exact List.prefix_rfl
  | branch branch =>
    rw [addLine, kind] at added
    obtain ⟨here, split, -⟩ := addPlaceholder_measured added
    exact ⟨here, split.symm⟩
  | assembly | overflow =>
    rw [addLine, kind] at added
    cases added

theorem addLines_isPrefix {ix : Nat} {lines : List Text}
    (added : addLines options d ix lines = .ok d') : d.spans <+: d'.spans := by
  fun_induction addLines options d ix lines with
  | case1 =>
    cases added
    exact List.prefix_rfl
  | case2 d ix line rest next step ih => exact (addLine_isPrefix step).trans (ih added)
  | case3 => cases added

theorem addLines_append {ix : Nat} {front back : List Text}
    (added : addLines options d ix (front ++ back) = .ok d') :
    ∃ mid, addLines options d ix front = .ok mid ∧
      addLines options mid (ix + front.length) back = .ok d' := by
  induction front generalizing d ix with
  | nil => exact ⟨d, rfl, added⟩
  | cons line front ih =>
    rw [List.cons_append, addLines] at added
    split at added
    case h_1 next step =>
      obtain ⟨mid, above, below⟩ := ih added
      refine ⟨mid, ?_, ?_⟩
      · rw [addLines, step]
        exact above
      · rwa [List.length_cons, Nat.add_comm front.length, ← Nat.add_assoc]
    case h_2 => cases added

end Draft

/-- The spans on a line of digits are those that the line has added to the code above it. -/
theorem addLine_of_evaluateHex {options : KnownOptions} {code : Text} {i : Intermediate} {ix : Nat}
    {line : Text} (evaluated : evaluateHex options code = .ok i)
    (here : (Text.lines code)[ix]? = some line) :
    ∃ d d' : Draft, d.addLine options ix line = .ok d' ∧ d'.spans = d.spans ++ spansOnLine i ix := by
  unfold evaluateHex at evaluated
  split at evaluated
  · cases evaluated
  case h_2 last added =>
    split at evaluated
    · cases evaluated
    · cases evaluated
      obtain ⟨above, below, lines, rfl⟩ := split_of_getElem? here
      rw [lines] at added
      obtain ⟨d, front, back⟩ := Draft.addLines_append added
      rw [Nat.zero_add, Draft.addLines] at back
      split at back
      case h_2 => cases back
      case h_1 d' step =>
        obtain ⟨spans, split⟩ := Draft.addLine_isPrefix step
        obtain ⟨there, split'⟩ := Draft.addLines_isPrefix back
        refine ⟨d, d', step, ?_⟩
        rw [← split, List.append_cancel_left_eq]
        symm
        have whole : d'.spans ++ there = d.spans ++ (spans ++ there) := by
          rw [← split, List.append_assoc]
        apply spansOnLine_of_split (split'.symm.trans whole)
        · intro s member
          have located := Draft.addLines_located front
          have inside : s.located ∈ placedFrom 0 above := by
            rw [List.map_nil, List.nil_append] at located
            exact located ▸ List.mem_map_of_mem member
          have bound := line_lt_of_mem_placedFrom inside
          rwa [Nat.zero_add] at bound
        · have located := Draft.addLine_located step
          rw [← split, List.map_append, List.append_cancel_left_eq] at located
          exact fun s member => (span_of_onLine located s member).2.2
        · have located := Draft.addLines_located back
          rw [← split', List.map_append, List.append_cancel_left_eq] at located
          exact line_of_located located

/-! ### Whole words -/

/-- The digits that a line of the code comes to with its placeholders. -/
def filledDigits (i : Intermediate) (ix : Nat) (line : Text) : Nat :=
  (Line.hexDigits line).length + 2 * ((spansOnLine i ix).map Span.width).sum

/-- Each placeholder for options has a byte, and the lines with such placeholders are whole words. -/
structure FillsWords (code : Text) (i : Intermediate) : Prop where
  wide : ∀ s ∈ i.spans, s.placeholder.isOptions = true → 1 ≤ s.width
  whole : ∀ ix line, (Text.lines code)[ix]? = some line → Line.hasOptions line = true →
    filledDigits i ix line % 8 = 0

section

variable {code : Text} {i : Intermediate} (evaluated : evaluateHex none code = .ok i)

include evaluated

theorem spansOnLine_measured {ix : Nat} {line : Text} {segments : List Line.Segment}
    (here : (Text.lines code)[ix]? = some line) (kind : Line.classify line = .hex segments) :
    ∃ widths, placeholderWidths none segments = .ok widths ∧
      (spansOnLine i ix).map Span.measured = (segments.zip widths).filterMap measured? := by
  obtain ⟨d, d', added, split⟩ := addLine_of_evaluateHex evaluated here
  obtain ⟨widths, own, found, split', places⟩ := Draft.addLine_measured kind added
  rw [split, List.append_cancel_left_eq] at split'
  exact ⟨widths, found, split' ▸ places⟩

/-- A line with placeholders for options is filled but for half a byte. -/
theorem filledDigits_mod {ix : Nat} {line : Text} (here : (Text.lines code)[ix]? = some line)
    (some : Line.hasOptions line = true) :
    (filledDigits i ix line + (Line.hexDigits line).length % 2) % 8 = 0 := by
  unfold Line.hasOptions at some
  split at some
  case h_2 => cases some
  case h_1 segments kind =>
    obtain ⟨widths, found, places⟩ := spansOnLine_measured evaluated here kind
    have sum : ((spansOnLine i ix).map Span.width).sum = widths.sum := by
      rw [← sum_measured found, ← places, List.map_map]
      rfl
    rw [filledDigits, sum, Line.length_hexDigits kind]
    exact placeholderWidths_fills found some

/-- A placeholder for options has a byte if its line has whole bytes. -/
theorem one_le_width {s : Span} (member : s ∈ i.spans) (isOptions : s.placeholder.isOptions = true)
    (even : ∀ line ∈ Text.lines code, Line.hasOptions line = true →
      (Line.hexDigits line).length % 2 = 0) : 1 ≤ s.width := by
  have located := evaluateHex_located evaluated
  have inside : s.located ∈ placedFrom 0 (Text.lines code) :=
    located ▸ List.mem_map_of_mem member
  obtain ⟨ix, line, index, here, -, placed⟩ := getElem?_of_mem_placedFrom inside
  have onLine : s ∈ spansOnLine i ix := by
    rw [spansOnLine, List.mem_filter, beq_iff_eq]
    exact ⟨member, index.trans (Nat.zero_add ix)⟩
  change s.placeholder ∈ placeholdersOf line at placed
  unfold placeholdersOf at placed
  cases kind : Line.classify line with
  | blank =>
    rw [kind] at placed
    cases placed
  | branch branch =>
    rw [kind, List.mem_singleton] at placed
    rw [placed] at isOptions
    cases isOptions
  | assembly | overflow =>
    obtain ⟨d, d', added, -⟩ := addLine_of_evaluateHex evaluated here
    rw [Draft.addLine, kind] at added
    cases added
  | hex segments =>
    obtain ⟨widths, found, places⟩ := spansOnLine_measured evaluated here kind
    have measured : s.measured ∈ (segments.zip widths).filterMap measured? :=
      places ▸ List.mem_map_of_mem onLine
    obtain ⟨⟨segment, width⟩, part, shown⟩ := List.mem_filterMap.mp measured
    obtain ⟨p, own, same⟩ := Option.map_eq_some_iff.mp shown
    obtain ⟨rfl, rfl⟩ := Prod.mk.inj same
    have options : segment.isOptions = true := by
      cases segment with
      | options names => rfl
      | hex digits => cases own
      | symbol name =>
        rw [← Option.some.inj own] at isOptions
        cases isOptions
    have has : Line.hasOptions line = true := by
      rw [Line.hasOptions, kind]
      exact List.any_eq_true.mpr ⟨segment, (List.of_mem_zip part).1, options⟩
    have digits := even line (List.mem_of_getElem? here) has
    rw [Line.length_hexDigits kind] at digits
    exact placeholderWidths_pos found digits _ part options

/-- Without known options, a line with placeholders for some is filled up to whole words but for half a
byte; and the code is filled as it should be exactly if none of these lines has an odd number of
digits. -/
theorem fillsWords_iff :
    (∀ ix line, (Text.lines code)[ix]? = some line → Line.hasOptions line = true →
        (filledDigits i ix line + (Line.hexDigits line).length % 2) % 8 = 0) ∧
      (FillsWords code i ↔ ∀ line ∈ Text.lines code, Line.hasOptions line = true →
        (Line.hexDigits line).length % 2 = 0) := by
  have filled : ∀ ix line, (Text.lines code)[ix]? = some line → Line.hasOptions line = true →
      (filledDigits i ix line + (Line.hexDigits line).length % 2) % 8 = 0 :=
    fun ix line here some => filledDigits_mod evaluated here some
  refine ⟨filled, ?_, ?_⟩
  · intro fills line member some
    obtain ⟨ix, here⟩ := List.getElem?_of_mem member
    have whole := fills.whole ix line here some
    have nearly := filled ix line here some
    omega
  · intro even
    constructor
    · intro s member isOptions
      exact one_le_width evaluated member isOptions even
    · intro ix line here some
      have nearly := filled ix line here some
      have bytes := even line (List.mem_of_getElem? here) some
      omega

end

/-- Two placeholders on a line of whole bytes, behind a line that is a word already. -/
def twoPlaces : Text := "<<Table>> [[Lives]]\n38[[Lives]] [[Speed]]"

def twoPlacesEvaluated : Intermediate :=
  { hex := "00000000000000003800000000000000"
    spans :=
      [⟨0, 4, .symbols ["Table"], "<<Table>> [[Lives]]", 0⟩,
        ⟨4, 4, .options ["Lives"], "<<Table>> [[Lives]]", 0⟩,
        ⟨9, 3, .options ["Lives"], "38[[Lives]] [[Speed]]", 1⟩,
        ⟨12, 4, .options ["Speed"], "38[[Lives]] [[Speed]]", 1⟩]
    isAssembly := false }

theorem twoPlaces_fillsWords :
    evaluateHex none twoPlaces = .ok twoPlacesEvaluated ∧
      FillsWords twoPlaces twoPlacesEvaluated := by
  have evaluated : evaluateHex none twoPlaces = .ok twoPlacesEvaluated := by decide +kernel
  exact ⟨evaluated, (fillsWords_iff evaluated).2.mpr (by decide +kernel)⟩

/-- A word that is broken behind its first digit, with a placeholder behind the other seven. -/
def brokenWord : Text := "3\n8600000[[Lives]]"

def brokenWordEvaluated : Intermediate :=
  { hex := "38600000"
    spans := [⟨4, 0, .options ["Lives"], "8600000[[Lives]]", 1⟩]
    isAssembly := false }

/-- The code is accepted, but its placeholder has no byte and its line is no whole word. -/
theorem brokenWord_not_fillsWords :
    evaluateHex none brokenWord = .ok brokenWordEvaluated ∧
      ¬ FillsWords brokenWord brokenWordEvaluated := by
  refine ⟨by decide +kernel, fun fills => ?_⟩
  have wide := fills.wide _ List.mem_cons_self rfl
  exact absurd wide (by decide)

end Change

end GamePatch
