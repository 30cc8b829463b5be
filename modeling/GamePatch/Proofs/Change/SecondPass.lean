import GamePatch.Change.Resolve
import GamePatch.Proofs.Change.Placeholders
import GamePatch.Proofs.Hex.RoundTrip

set_option autoImplicit false

namespace GamePatch.Change

/-- The spans on a line are those between the spans before it and the spans behind it. -/
theorem spansOnLine_of_split {i : Intermediate} {before here there : List Span} {ix : Nat}
    (split : i.spans = before ++ (here ++ there)) (earlier : ∀ s ∈ before, s.line < ix)
    (onLine : ∀ s ∈ here, s.line = ix) (later : ∀ s ∈ there, ix < s.line) :
    spansOnLine i ix = here := by
  have none : before.filter (fun s => s.line == ix) = [] := by
    rw [List.filter_eq_nil_iff]
    intro s member
    have := earlier s member
    simp only [beq_iff_eq]
    omega
  have all : here.filter (fun s => s.line == ix) = here := by
    rw [List.filter_eq_self]
    intro s member
    simpa using onLine s member
  have none' : there.filter (fun s => s.line == ix) = [] := by
    rw [List.filter_eq_nil_iff]
    intro s member
    have := later s member
    simp only [beq_iff_eq]
    omega
  rw [spansOnLine, split, List.filter_append, List.filter_append, none, all, none', List.nil_append,
    List.append_nil]

theorem line_of_located {spans : List Span} {ix : Nat} {lines : List Text}
    (located : spans.map Span.located = placedFrom ix lines) : ∀ s ∈ spans, ix ≤ s.line := by
  intro s member
  have inside : s.located ∈ placedFrom ix lines := located ▸ List.mem_map_of_mem member
  exact (line_of_mem_placedFrom inside).1

/-- The spans of some lines are those of the first line, as many as it has placeholders, and those
of the lines behind it. -/
theorem split_located {here there : List Span} {ix : Nat} {line : Text} {lines : List Text}
    (count : here.length = (placeholdersOf line).length)
    (located : (here ++ there).map Span.located = placedFrom ix (line :: lines)) :
    here.map Span.located = (placeholdersOf line).map (fun p => ⟨p, Line.stripComment line, ix⟩) ∧
      there.map Span.located = placedFrom (ix + 1) lines := by
  rw [placedFrom, List.map_append] at located
  exact List.append_inj located (by rw [List.length_map, List.length_map, count])

section

variable {spans : List Span} {line : Text} {ix : Nat}
  (onLine : spans.map Span.located =
    (placeholdersOf line).map fun p => ⟨p, Line.stripComment line, ix⟩)

include onLine

/-- A span on a line stands for one of its placeholders, and has its text and its index. -/
theorem span_of_onLine : ∀ s ∈ spans,
    s.placeholder ∈ placeholdersOf line ∧ s.text = Line.stripComment line ∧ s.line = ix := by
  intro s member
  have inside : s.located ∈ spans.map Span.located := List.mem_map_of_mem member
  rw [onLine] at inside
  obtain ⟨p, found, same⟩ := List.mem_map.mp inside
  have placeholder : p = s.placeholder := congrArg Expansion.Located.placeholder same
  rw [placeholder] at found
  exact ⟨found, (congrArg Expansion.Located.text same).symm,
    (congrArg Expansion.Located.line same).symm⟩

theorem placeholders_of_onLine : spans.map Span.placeholder = placeholdersOf line := by
  have placeholders := congrArg (List.map Expansion.Located.placeholder) onLine
  simpa [Function.comp_def, Span.located] using placeholders

end

/-- What is left of the spans when the second pass comes to the line `ix`: those of the lines from there on,
behind the spans of the lines above. -/
structure Remaining (i : Intermediate) (ix : Nat) (lines : List Text) (before spans : List Span) :
    Prop where
  split : i.spans = before ++ spans
  earlier : ∀ s ∈ before, s.line < ix
  located : spans.map Span.located = placedFrom ix lines

namespace Remaining

variable {i : Intermediate} {ix : Nat} {line : Text} {lines : List Text}
  {before here there spans : List Span}

theorem all (located : i.spans.map Span.located = placedFrom 0 lines) :
    Remaining i 0 lines [] i.spans where
  split := rfl
  earlier := by simp
  located := located

/-- As many spans as the first line has placeholders are those on it, and the others are left for the lines
below. -/
theorem step (left : Remaining i ix (line :: lines) before (here ++ there))
    (count : here.length = (placeholdersOf line).length) :
    spansOnLine i ix = here ∧
      here.map Span.located = (placeholdersOf line).map (fun p => ⟨p, Line.stripComment line, ix⟩) ∧
      Remaining i (ix + 1) lines (before ++ here) there := by
  obtain ⟨onLine, below⟩ := split_located count left.located
  have lineOf : ∀ s ∈ here, s.line = ix := fun s member => (span_of_onLine onLine s member).2.2
  refine ⟨spansOnLine_of_split left.split left.earlier lineOf (line_of_located below), onLine, ?_, ?_, below⟩
  · rw [left.split, List.append_assoc]
  · rw [List.forall_mem_append]
    exact ⟨fun s member => Nat.lt_succ_of_lt (left.earlier s member),
      fun s member => Nat.lt_succ_of_le (lineOf s member).le⟩

theorem exists_split (left : Remaining i ix (line :: lines) before spans) :
    ∃ here there, spans = here ++ there ∧ here.length = (placeholdersOf line).length := by
  obtain ⟨here, there, rfl, onLine, -⟩ := List.map_eq_append_iff.mp left.located
  exact ⟨here, there, rfl, by rw [← placeholders_of_onLine onLine, List.length_map]⟩

/-- The spans on a line stand for the placeholders of the line. -/
theorem onLine (left : Remaining i ix (line :: lines) before spans) :
    (spansOnLine i ix).map Span.located =
      (placeholdersOf line).map fun p => ⟨p, Line.stripComment line, ix⟩ := by
  obtain ⟨here, there, rfl, count⟩ := left.exists_split
  obtain ⟨own, onLine, -⟩ := left.step count
  rw [own, onLine]

end Remaining

theorem split_of_getElem? {α : Type} {l : List α} {k : Nat} {a : α} (found : l[k]? = some a) :
    ∃ above below, l = above ++ a :: below ∧ above.length = k := by
  obtain ⟨bound, same⟩ := List.getElem?_eq_some_iff.mp found
  refine ⟨l.take k, l.drop (k + 1), ?_, ?_⟩
  · rw [← same, ← List.drop_eq_getElem_cons, List.take_append_drop]
  · rw [List.length_take]
    omega

/-- The spans on a line are those of its placeholders. -/
theorem onLine_of_located {i : Intermediate} {lines : List Text} {k : Nat} {line : Text}
    (located : i.spans.map Span.located = placedFrom 0 lines) (here : lines[k]? = some line) :
    (spansOnLine i k).map Span.located =
      (placeholdersOf line).map fun p => ⟨p, Line.stripComment line, k⟩ := by
  obtain ⟨above, below, rfl, rfl⟩ := split_of_getElem? here
  rw [placedFrom_append, Nat.zero_add] at located
  obtain ⟨front, back, split, fromAbove, fromLine⟩ := List.map_eq_append_iff.mp located
  have earlier : ∀ s ∈ front, s.line < above.length := by
    intro s member
    have inside : s.located ∈ placedFrom 0 above := fromAbove ▸ List.mem_map_of_mem member
    have bound := line_lt_of_mem_placedFrom inside
    rwa [Nat.zero_add] at bound
  exact Remaining.onLine ⟨split, earlier, fromLine⟩

section

variable (c : Context) {p : Line.Segment} (notHex : ∀ digits, p ≠ .hex digits)

include notHex

theorem segmentDirectives_of_no_span (rest : List Line.Segment) :
    segmentDirectives c [] (p :: rest) = .error .notEvaluated := by
  cases p with
  | hex digits => exact absurd rfl (notHex digits)
  | symbol name => rfl
  | options names => rfl

theorem segmentDirectives_of_span (s : Span) (spans : List Span) (rest : List Line.Segment) :
    segmentDirectives c (s :: spans) (p :: rest) =
      c.spanBytes s >>= fun bytes => segmentDirectives c spans rest >>= fun more =>
        .ok (dataDirectives bytes ++ more) := by
  cases p with
  | hex digits => exact absurd rfl (notHex digits)
  | symbol name => rfl
  | options names => rfl

end

theorem segmentDirectives_cons_eq_ok {c : Context} {s : Span} {spans : List Span}
    {segment : Line.Segment} {rest : List Line.Segment} {ls : List Text}
    (notHex : ∀ digits, segment ≠ .hex digits)
    (resolved : segmentDirectives c (s :: spans) (segment :: rest) = .ok ls) :
    ∃ value more, c.spanBytes s = .ok value ∧ segmentDirectives c spans rest = .ok more ∧
      ls = dataDirectives value ++ more := by
  rw [segmentDirectives_of_span c notHex] at resolved
  obtain ⟨value, more, found, tail, rfl⟩ := Fallible.bind_bind_eq_ok_iff.mp resolved
  exact ⟨value, more, found, tail, rfl⟩

/-- The lines for the first line of a code stand above those for the lines below it. -/
theorem resolvedSource_cons_eq_ok_iff {c : Context} {i : Intermediate} {ix : Nat} {line : Text}
    {lines source : List Text} :
    resolvedSource c i ix (line :: lines) = .ok source ↔
      ∃ first more, resolvedLines c i ix line = .ok first ∧
        resolvedSource c i (ix + 1) lines = .ok more ∧ first ++ more = source :=
  Fallible.bind_bind_eq_ok_iff

theorem segmentDirectives_hex_eq_ok {c : Context} {spans : List Span} {digits : Text}
    {rest : List Line.Segment} {ls : List Text}
    (resolved : segmentDirectives c spans (.hex digits :: rest) = .ok ls) :
    ∃ bytes more, Hex.decode digits = .ok bytes ∧ segmentDirectives c spans rest = .ok more ∧
      ls = dataDirectives bytes ++ more := by
  rw [segmentDirectives] at resolved
  split at resolved
  · cases resolved
  case h_2 bytes decoded =>
    obtain ⟨more, tail, same⟩ := Fallible.bind_eq_ok_iff.mp resolved
    exact ⟨bytes, more, decoded, tail, (Except.ok.inj same).symm⟩

/-- Values from spans with the same bytes give the same lines. -/
theorem segmentDirectives_congr {c c' : Context} {spans spans' : List Span}
    (all : List.Forall₂ (fun s t => c.spanBytes s = c'.spanBytes t) spans spans')
    (segments : List Line.Segment) :
    segmentDirectives c spans segments = segmentDirectives c' spans' segments := by
  induction segments generalizing spans spans' with
  | nil => rfl
  | cons segment segments ih =>
    by_cases hex : ∃ digits, segment = .hex digits
    · obtain ⟨digits, rfl⟩ := hex
      rw [segmentDirectives, segmentDirectives, ih all]
    · have notHex : ∀ digits, segment ≠ .hex digits := fun digits same => hex ⟨digits, same⟩
      cases all with
      | nil => rw [segmentDirectives_of_no_span c notHex, segmentDirectives_of_no_span c' notHex]
      | cons here rest =>
        rw [segmentDirectives_of_span c notHex, segmentDirectives_of_span c' notHex, here, ih rest]

/-- Spans with the same bytes at the same places are filled alike. -/
theorem fillSpans_congr {c c' : Context} {spans spans' : List Span}
    (all : List.Forall₂ (fun s t => (s.offset = t.offset ∧ s.width = t.width ∧ s.text = t.text) ∧
      c.spanBytes s = c'.spanBytes t) spans spans') (bytes : Bytes) :
    fillSpans c bytes spans = fillSpans c' bytes spans' := by
  induction all generalizing bytes with
  | nil => rfl
  | @cons s t spans spans' here rest ih =>
    obtain ⟨⟨offset, width, text⟩, value⟩ := here
    have stop : s.stop = t.stop := by rw [Span.stop, Span.stop, offset, width]
    rw [fillSpans, fillSpans, value, stop, offset, width, text]
    cases c'.spanBytes t with
    | error e => rfl
    | ok value =>
      simp only
      rw [ih]

theorem resolvedLine_of_not_isBranch {c : Context} {s : Span} (noBranch : s.placeholder.isBranch = false) :
    resolvedLine c s = substitute c.symbolText c.optionText s.text := by
  unfold resolvedLine
  split
  case h_1 branch shape =>
    rw [shape] at noBranch
    cases noBranch
  case h_2 => rfl

theorem resolvedLines_of_hex {c : Context} {i : Intermediate} {ix : Nat} {line : Text}
    {segments : List Line.Segment} (kind : Line.classify line = .hex segments) :
    resolvedLines c i ix line = segmentDirectives c (spansOnLine i ix) segments := by
  rw [resolvedLines, kind]

theorem resolvedLines_of_no_span {c : Context} {i : Intermediate} {ix : Nat} {line : Text}
    (readable : Line.IsReadable line) (notHex : ∀ segments, Line.classify line ≠ .hex segments)
    (none : spansOnLine i ix = []) : resolvedLines c i ix line = .ok [line] := by
  rw [resolvedLines, none]
  cases kind : Line.classify line with
  | hex segments => exact absurd kind (notHex segments)
  | blank => rfl
  | branch branch => rfl
  | assembly => rfl
  | overflow => exact absurd kind readable

theorem resolvedLines_of_span {c : Context} {i : Intermediate} {ix : Nat} {line : Text} {s : Span}
    {more : List Span} (readable : Line.IsReadable line)
    (notHex : ∀ segments, Line.classify line ≠ .hex segments) (some : spansOnLine i ix = s :: more) :
    resolvedLines c i ix line = (resolvedLine c s).map fun line => [line] := by
  rw [resolvedLines, some]
  cases kind : Line.classify line with
  | hex segments => exact absurd kind (notHex segments)
  | blank => rfl
  | branch branch => rfl
  | assembly => rfl
  | overflow => exact absurd kind readable

theorem resolvedLines_of_overflow {line : Text} (kind : Line.classify line = .overflow) (c : Context)
    (i : Intermediate) (ix : Nat) :
    resolvedLines c i ix line = .error (.toolchain (.branch .overflow)) := by
  rw [resolvedLines, kind]

theorem fill_eq_ok {c : Context} {i : Intermediate} {bytes : Bytes} {hex : Text}
    (text : i.hex = Hex.encode bytes) (filled : fill c i = .ok (.complete hex)) :
    ∃ after, fillSpans c bytes i.spans = .ok after ∧ hex = Hex.encode after := by
  rw [fill, text, Hex.decode_encode] at filled
  obtain ⟨after, spans, same⟩ := Fallible.map_eq_ok_iff.mp filled
  exact ⟨after, spans, (Finalized.complete.inj same).symm⟩

/-- What the assembler's reply to the second source comes to. -/
theorem ofSecondReply_cases (i : Intermediate) (reply : Toolchain.Reply) :
    (∃ e, reply = .error e ∧ ofSecondReply i reply = .error (.toolchain e)) ∨
      (∃ a, reply = .ok a ∧ a.bytes.length ≠ i.length ∧
        ofSecondReply i reply = .error (.lengthMismatch i.length a.bytes.length)) ∨
      ∃ a, reply = .ok a ∧ a.bytes.length = i.length ∧
        ofSecondReply i reply = .ok (.complete (Hex.encode a.bytes)) := by
  cases reply with
  | error e => exact Or.inl ⟨e, rfl, rfl⟩
  | ok a =>
    right
    by_cases length : a.bytes.length = i.length
    · exact Or.inr ⟨a, rfl, length, by simp [ofSecondReply, length]⟩
    · exact Or.inl ⟨a, rfl, length, by simp [ofSecondReply, length]⟩

theorem resolveCode_of_outstanding {c : Context} {i : Intermediate} (code : Text)
    (some : c.outstanding i ≠ []) :
    resolveCode c i code = .done (.ok (.pending i.hex (c.outstanding i))) := by
  simp [resolveCode, some]

/-- The second pass of code in which no value stands inside an instruction. -/
theorem resolveCode_of_spliced {c : Context} {i : Intermediate} {code : Text}
    (settled : c.outstanding i = []) (spliced : needsReassembly i (Text.lines code) = .ok false) :
    resolveCode c i code = .done (fill c i) := by
  simp [resolveCode, settled, spliced]

/-- The second pass of code at which the program ends. -/
theorem resolveCode_of_ends {c : Context} {i : Intermediate} {code : Text} {e : Overflow}
    (settled : c.outstanding i = []) (ends : needsReassembly i (Text.lines code) = .error e) :
    resolveCode c i code = .done (.error (.toolchain (.branch .overflow))) := by
  simp [resolveCode, settled, ends]

/-- The second pass of code that is assembled again. -/
theorem resolveCode_of_reassembled {c : Context} {i : Intermediate} {code : Text}
    (settled : c.outstanding i = []) (again : needsReassembly i (Text.lines code) = .ok true) :
    (∃ e, resolvedSource c i 0 (Text.lines code) = .error e ∧
        resolveCode c i code = .done (.error e)) ∨
      ∃ source, resolvedSource c i 0 (Text.lines code) = .ok source ∧
        resolveCode c i code =
          .ask (Text.joinLines source) c.includePaths fun reply => .done (ofSecondReply i reply) := by
  cases written : resolvedSource c i 0 (Text.lines code) with
  | error e => exact Or.inl ⟨e, rfl, by simp [resolveCode, settled, again, written]⟩
  | ok source => exact Or.inr ⟨source, rfl, by simp [resolveCode, settled, again, written]⟩

theorem evaluateHex_isAssembly {options : KnownOptions} {code : Text} {i : Intermediate}
    (evaluated : evaluateHex options code = .ok i) : i.isAssembly = false := by
  unfold evaluateHex at evaluated
  split at evaluated
  · cases evaluated
  · split at evaluated
    · cases evaluated
    · cases evaluated
      rfl

/-- Code that is assembled a second time is assembly. -/
theorem isAssembly_of_needsReassembly {toolchain : Toolchain} {includes : Includes}
    {options : KnownOptions} {code : Text} {i : Intermediate}
    (evaluated : (evaluateCode includes options code).run toolchain = .ok i)
    (again : needsReassembly i (Text.lines code) = .ok true) : Code.isAssembly code = .ok true := by
  rcases evaluateCode_yields (Assembling.yields_of_run evaluated) with ⟨-, digits⟩ | ⟨assembly, -⟩
  · rw [needsReassembly, evaluateHex_isAssembly digits] at again
    cases again
  · exact assembly

/-- Code is assembled again for a value inside an instruction only. -/
theorem exists_span_of_needsReassembly {i : Intermediate} {lines : List Text}
    (again : needsReassembly i lines = .ok true) :
    i.isAssembly = true ∧ ∃ s ∈ i.spans, s.placeholder.isBranch = false ∧
      ∃ line, lines[s.line]? = some line ∧ Line.classify line = .assembly := by
  unfold needsReassembly at again
  split at again
  case isFalse => cases again
  case isTrue assembly =>
    obtain ⟨s, inside, found⟩ := List.mem_filterMap.mp (Line.assembly_mem_of_anyAssembly again)
    obtain ⟨member, noBranch⟩ := List.mem_filter.mp inside
    obtain ⟨line, onLine, kind⟩ := Option.map_eq_some_iff.mp found
    exact ⟨assembly, s, member, by simpa using noBranch, line, onLine, kind⟩

/-- With the program at no end, it is known whether the code is assembled again. -/
theorem needsReassembly_cases {lines : List Text} (i : Intermediate)
    (readable : ∀ line ∈ lines, Line.IsReadable line) :
    needsReassembly i lines = .ok true ∨ needsReassembly i lines = .ok false := by
  unfold needsReassembly
  split
  · rw [Line.anyAssembly_of_readable, Except.ok.injEq, Except.ok.injEq]
    · exact Bool.eq_false_or_eq_true _
    · intro member
      obtain ⟨s, -, found⟩ := List.mem_filterMap.mp member
      obtain ⟨line, here, kind⟩ := Option.map_eq_some_iff.mp found
      exact readable line (List.mem_of_getElem? here) kind
  · exact Or.inr rfl

/-- A value inside an instruction has the code assembled again. -/
theorem needsReassembly_of_span {i : Intermediate} {lines : List Text} {s : Span} {line : Text}
    (readable : ∀ line ∈ lines, Line.IsReadable line) (assembly : i.isAssembly = true)
    (member : s ∈ i.spans) (noBranch : s.placeholder.isBranch = false)
    (onLine : lines[s.line]? = some line) (kind : Line.classify line = .assembly) :
    needsReassembly i lines = .ok true := by
  refine (needsReassembly_cases i readable).resolve_right fun none => ?_
  rw [needsReassembly, if_pos assembly] at none
  refine (Line.anyAssembly_eq_false_iff.mp none).2 (List.mem_filterMap.mpr ⟨s, ?_, ?_⟩)
  · exact List.mem_filter.mpr ⟨member, by simpa using noBranch⟩
  · rw [onLine, Option.map_some, kind]

theorem outstanding_of_complete {c : Context} {i : Intermediate} {code hex : Text}
    (resolved : (resolveCode c i code).Yields (.ok (.complete hex))) : c.outstanding i = [] := by
  by_contra some
  rw [resolveCode_of_outstanding code some] at resolved
  cases Assembling.yields_done_iff.mp resolved

/-- The program has not ended at code that is complete. -/
theorem needsReassembly_of_complete {toolchain : Toolchain} {c : Context} {i : Intermediate}
    {code hex : Text} (resolved : (resolveCode c i code).run toolchain = .ok (.complete hex)) :
    needsReassembly i (Text.lines code) = .ok true ∨ needsReassembly i (Text.lines code) = .ok false := by
  have settled := outstanding_of_complete (Assembling.yields_of_run resolved)
  cases again : needsReassembly i (Text.lines code) with
  | error e =>
    rw [resolveCode_of_ends settled again] at resolved
    cases resolved
  | ok assembled => cases assembled <;> simp

/-- Code that is not assembled again is finished by filling its gaps. -/
theorem fill_of_complete {toolchain : Toolchain} {c : Context} {i : Intermediate} {code hex : Text}
    (spliced : needsReassembly i (Text.lines code) = .ok false)
    (resolved : (resolveCode c i code).run toolchain = .ok (.complete hex)) :
    fill c i = .ok (.complete hex) := by
  have settled := outstanding_of_complete (Assembling.yields_of_run resolved)
  rwa [resolveCode_of_spliced settled spliced] at resolved

/-- What a second pass that assembles the code again comes to: the second source cannot be written, or the
result is made of the reply to it. -/
theorem yields_of_reassembled {c : Context} {i : Intermediate} {code : Text}
    {result : Except ResolveError Finalized} (settled : c.outstanding i = [])
    (again : needsReassembly i (Text.lines code) = .ok true)
    (resolved : (resolveCode c i code).Yields result) :
    (∃ e, resolvedSource c i 0 (Text.lines code) = .error e ∧ result = .error e) ∨
      ∃ source reply, resolvedSource c i 0 (Text.lines code) = .ok source ∧
        result = ofSecondReply i reply := by
  rcases resolveCode_of_reassembled settled again with ⟨e, written, pass⟩ | ⟨source, written, pass⟩
  · rw [pass] at resolved
    exact Or.inl ⟨e, written, Assembling.yields_done_iff.mp resolved⟩
  · rw [pass] at resolved
    obtain ⟨reply, next⟩ := Assembling.yields_ask_iff.mp resolved
    exact Or.inr ⟨source, reply, written, Assembling.yields_done_iff.mp next⟩

/-- A second pass with an address for each function either fills the gaps or takes over an assembly that
is as long as the first one. -/
theorem fill_or_assembly_of_ok {c : Context} {i : Intermediate} {code : Text} {f : Finalized}
    (settled : c.outstanding i = []) (resolved : (resolveCode c i code).Yields (.ok f)) :
    fill c i = .ok f ∨
      ∃ a : Assembly, a.bytes.length = i.length ∧ f = .complete (Hex.encode a.bytes) := by
  rcases again : needsReassembly i (Text.lines code) with e | _ | _
  · simp [resolveCode, settled, again] at resolved
  · left
    rw [resolveCode_of_spliced settled again] at resolved
    exact (Assembling.yields_done_iff.mp resolved).symm
  · right
    rcases yields_of_reassembled settled again resolved with ⟨e, -, impossible⟩ | ⟨_, reply, -, answer⟩
    · cases impossible
    · rcases ofSecondReply_cases i reply with ⟨_, -, same⟩ | ⟨_, -, -, same⟩ | ⟨a, -, length, same⟩
      · cases answer.trans same
      · cases answer.trans same
      · cases answer.trans same
        exact ⟨a, length, rfl⟩

theorem resolveCode_not_pending {c : Context} {i : Intermediate} {code hex : Text}
    {outstanding : List Text} (none : c.outstanding i = []) :
    ¬ (resolveCode c i code).Yields (.ok (.pending hex outstanding)) := by
  intro resolved
  rcases fill_or_assembly_of_ok none resolved with filled | ⟨_, -, impossible⟩
  · unfold fill at filled
    split at filled
    · cases filled
    · obtain ⟨bytes, -, impossible⟩ := Fallible.map_eq_ok_iff.mp filled
      cases impossible
  · cases impossible

end GamePatch.Change
