import GamePatch.Proofs.Change.HexResolution
import GamePatch.Proofs.Change.Placement

set_option autoImplicit false

namespace GamePatch.Change

open Assembler (item bytesOf Accepts)

structure Stands (ls : List Text) (bytes : Bytes) : Prop where
  bytes : bytesOf ls = bytes
  accepts : Accepts ls
  clean : ∀ line ∈ ls, '\n' ∉ line

namespace Stands

theorem nil : Stands [] [] := ⟨rfl, by simp [Accepts], by simp⟩

theorem append {a b : List Text} {left right : Bytes} (first : Stands a left)
    (second : Stands b right) : Stands (a ++ b) (left ++ right) where
  bytes := by rw [Assembler.bytesOf_append, first.bytes, second.bytes]
  accepts := Assembler.accepts_append.mpr ⟨first.accepts, second.accepts⟩
  clean := List.forall_mem_append.mpr ⟨first.clean, second.clean⟩

theorem dataDirectives (bytes : Bytes) : Stands (Change.dataDirectives bytes) bytes where
  bytes := bytesOf_dataDirectives bytes
  accepts := accepts_dataDirectives bytes
  clean := fun _ member => (isTame_of_mem_dataDirectives member).1

theorem assemble {ls : List Text} {bytes : Bytes} (stands : Stands ls bytes) :
    ∃ assembly, Assembler.assemble (Text.joinLines ls) = .ok assembly ∧ assembly.bytes = bytes :=
  ⟨_, (Assembler.assemble_joinLines_eq_ok_iff stands.clean).mpr ⟨stands.accepts, rfl⟩, stands.bytes⟩

end Stands

/-- A word as the assembler gets it. -/
theorem dataDirectives_ofWord (word : UInt32) :
    dataDirectives (Bytes.ofWord word) = [".long 0x" ++ Hex.encodeWord word] := by
  have length := Bytes.length_ofWord word
  have whole : chunks 4 (Bytes.ofWord word) = [Bytes.ofWord word] := by
    refine chunks_eq_singleton (fun empty => ?_) (Nat.le_of_eq length)
    rw [empty] at length
    cases length
  rw [dataDirectives_eq, whole, List.map_singleton, dataLine, if_pos length]
  rfl

theorem segmentDirectives_of_filling {c : Context} {segments : List Line.Segment}
    {widths : List Nat} {spans : List Span} {bytes : Bytes} (lengths : widths.length = segments.length)
    (decode : ∀ digits, .hex digits ∈ segments → ∃ bytes, Hex.decode digits = .ok bytes)
    (filling : Filling c ((segments.zip widths).map Part.ofSegment) spans bytes) :
    ∃ ls, segmentDirectives c spans segments = .ok ls ∧ Stands ls bytes := by
  induction segments generalizing widths spans bytes with
  | nil =>
    cases filling
    exact ⟨[], rfl, .nil⟩
  | cons segment segments ih =>
    obtain ⟨width, widths, rfl⟩ := List.exists_cons_of_length_eq_add_one lengths
    have lengths' : widths.length = segments.length := Nat.succ.inj lengths
    have decode' : ∀ digits, .hex digits ∈ segments → ∃ bytes, Hex.decode digits = .ok bytes :=
      fun digits member => decode digits (List.mem_cons_of_mem _ member)
    have placed {s : Span} {spans : List Span} {value bytes : Bytes}
        (notHex : ∀ digits, segment ≠ .hex digits) (found : c.spanBytes s = .ok value)
        (rest : Filling c ((segments.zip widths).map Part.ofSegment) spans bytes) :
        ∃ ls, segmentDirectives c (s :: spans) (segment :: segments) = .ok ls ∧
          Stands ls (value ++ bytes) := by
      obtain ⟨ls, more, stands⟩ := ih lengths' decode' rest
      refine ⟨dataDirectives value ++ ls, ?_, (Stands.dataDirectives value).append stands⟩
      rw [segmentDirectives_of_span c notHex, found, more]
      rfl
    rw [List.zip_cons_cons, List.map_cons] at filling
    cases segment with
    | hex digits =>
      cases filling with
      | lines rest =>
        obtain ⟨ls, more, stands⟩ := ih lengths' decode' rest
        obtain ⟨own, decoded⟩ := decode digits List.mem_cons_self
        have same : Part.decoded digits = own := by rw [Part.decoded, decoded]
        refine ⟨dataDirectives own ++ ls, ?_, ?_⟩
        · rw [segmentDirectives, decoded, more]
          rfl
        · rw [same, bytesOf_dataDirectives]
          exact (Stands.dataDirectives own).append stands
    | symbol name =>
      cases filling with
      | hole found rest => exact placed (fun _ => Line.Segment.noConfusion) found rest
    | options names =>
      cases filling with
      | hole found rest => exact placed (fun _ => Line.Segment.noConfusion) found rest

def Unmarked (line : Text) : Prop :=
  Line.classify line = .assembly → Expansion.placeholder? (Line.stripComment line) = none

theorem unmarked_of_no_names {line : Text} (names : Line.classify line = .assembly →
    Line.containsSymbol line = false ∧ Line.containsOption line = false) : Unmarked line := by
  intro kind
  obtain ⟨noSymbol, noOption⟩ := names kind
  rw [Line.containsSymbol, ← Line.symbolNames_stripComment] at noSymbol
  rw [Line.containsOption, ← Line.optionNames_stripComment] at noOption
  rw [Expansion.placeholder?, Line.parse_of_assembly kind, Line.containsSymbol, Line.containsOption,
    noSymbol, noOption]
  rfl

/-- A line without a placeholder stands for itself. -/
theorem resolvedLines_of_plain {c : Context} {i : Intermediate} {ix : Nat} {line : Text}
    {bytes : Bytes} (readable : Line.IsReadable line)
    (notHex : ∀ segments, Line.classify line ≠ .hex segments)
    (none : Expansion.placeholder? (Line.stripComment line) = none) (tame : IsTame line)
    (accepted : Accepts (Part.ofPlainLine line).body)
    (filling : Filling c [Part.ofPlainLine line] (spansOnLine i ix) bytes) :
    ∃ ls, resolvedLines c i ix line = .ok ls ∧ Stands ls bytes := by
  rw [Part.ofPlainLine, none] at filling accepted
  generalize onLine : spansOnLine i ix = spans at filling
  cases filling with
  | lines rest =>
    cases rest with
    | nil =>
      refine ⟨[line], resolvedLines_of_no_span readable notHex onLine, ?_⟩
      rw [List.append_nil]
      refine ⟨rfl, accepted, ?_⟩
      rw [List.forall_mem_singleton]
      exact tame.1

/-- A branch stands for its word. -/
theorem resolvedLines_of_branch {c : Context} {i : Intermediate} {ix : Nat} {line : Text}
    {branch : Line.SpecialBranch} {bytes : Bytes} (kind : Line.classify line = .branch branch)
    (placeholders : (spansOnLine i ix).map Span.placeholder = [.branch branch])
    (filling : Filling c [Part.ofPlainLine line] (spansOnLine i ix) bytes) :
    ∃ ls, resolvedLines c i ix line = .ok ls ∧ Stands ls bytes := by
  have readable : Line.IsReadable line := by simp [Line.IsReadable, kind]
  have notHex : ∀ segments, Line.classify line ≠ .hex segments := by simp [kind]
  rw [Part.ofPlainLine, placeholder?_of_branch kind] at filling
  generalize onLine : spansOnLine i ix = spans at filling placeholders
  cases filling with
  | @hole _ _ _ s _ value _ found rest =>
    cases rest with
    | nil =>
      have shape : s.placeholder = .branch branch := (List.cons.inj placeholders).1
      rw [Context.spanBytes, shape] at found
      obtain ⟨word, encoded, rfl⟩ := Fallible.map_eq_ok_iff.mp found
      refine ⟨[".long 0x" ++ Hex.encodeWord word], ?_, ?_⟩
      · rw [resolvedLines_of_span readable notHex onLine, resolvedLine, shape]
        simp only [encoded, Except.map]
      · rw [List.append_nil, ← dataDirectives_ofWord]
        exact Stands.dataDirectives _

/-- The values of a line, in the gaps of its parts or in its text, come to the same bytes. -/
theorem resolvedLines_of_filling {options : KnownOptions} {c : Context} {i : Intermediate}
    {index ix : Nat} {line : Text} {e : Expansion} {bytes : Bytes}
    (expanded : Expansion.ofLine options index line = .ok e)
    (placeholders : (spansOnLine i ix).map Span.placeholder = placeholdersOf line)
    (unmarked : Unmarked line) (tame : IsTame line)
    (accepted : ∀ part ∈ Part.ofLine options line, Accepts part.body)
    (filling : Filling c (Part.ofLine options line) (spansOnLine i ix) bytes) :
    ∃ ls, resolvedLines c i ix line = .ok ls ∧ Stands ls bytes := by
  have readable := Expansion.isReadable_of_ofLine expanded
  unfold Part.ofLine at filling accepted
  cases kind : Line.classify line with
  | hex segments =>
    rw [kind] at filling
    rw [Expansion.ofLine, kind] at expanded
    obtain ⟨widths, found, parts⟩ := Fallible.bind_eq_ok_iff.mp expanded
    simp only [Part.ofSegments, found] at filling
    have decode := Expansion.ofSegments_decode parts
    rw [map_fst_zip_widths found] at decode
    rw [resolvedLines_of_hex kind]
    exact segmentDirectives_of_filling (placeholderWidths_length found) decode filling
  | branch branch =>
    rw [kind] at filling
    rw [placeholdersOf, kind] at placeholders
    exact resolvedLines_of_branch kind placeholders filling
  | blank =>
    rw [kind] at filling accepted
    exact resolvedLines_of_plain readable (by simp [kind]) (placeholder?_of_blank kind) tame
      (accepted _ List.mem_cons_self) filling
  | assembly =>
    rw [kind] at filling accepted
    exact resolvedLines_of_plain readable (by simp [kind]) (unmarked kind) tame
      (accepted _ List.mem_cons_self) filling
  | overflow => exact absurd kind readable

theorem Filling.length_eq {c : Context} {parts : List Part} {spans : List Span} {bytes : Bytes}
    (filling : Filling c parts spans bytes) : spans.length = (parts.filterMap Part.hole?).length := by
  induction filling with
  | nil => rfl
  | lines rest ih => exact ih
  | hole found rest ih => exact congrArg (· + 1) ih

/-- The values of all spans, in the gaps of the code's parts or in its text, come to the same
bytes. -/
theorem resolvedSource_of_filling {options : KnownOptions} {c : Context} {i : Intermediate}
    {index ix : Nat} {lines : List Text} {expansions : List Expansion} {before spans : List Span}
    {bytes : Bytes} (expanded : Expansion.ofLines options index lines = .ok expansions)
    (left : Remaining i ix lines before spans)
    (unmarked : ∀ line ∈ lines, Unmarked line) (tame : ∀ line ∈ lines, IsTame line)
    (accepted : ∀ part ∈ lines.flatMap (Part.ofLine options), Accepts part.body)
    (filling : Filling c (lines.flatMap (Part.ofLine options)) spans bytes) :
    ∃ source, resolvedSource c i ix lines = .ok source ∧ Stands source bytes := by
  induction lines generalizing index ix expansions before spans bytes with
  | nil =>
    cases filling
    exact ⟨[], rfl, .nil⟩
  | cons line lines ih =>
    rw [List.forall_mem_cons] at unmarked tame
    rw [List.flatMap_cons, List.forall_mem_append] at accepted
    obtain ⟨first, more, head, tail, rfl⟩ := Expansion.ofLines_cons_eq_ok_iff.mp expanded
    rw [List.flatMap_cons] at filling
    obtain ⟨here, there, front, back, rfl, rfl, near, far⟩ := filling.append
    have count : here.length = (placeholdersOf line).length := by
      rw [near.length_eq, Expansion.placeholdersOf_eq_holes head]
    obtain ⟨between, onLine, next⟩ := left.step count
    have placeholders := placeholders_of_onLine onLine
    rw [← between] at near placeholders
    obtain ⟨ls, resolved, stands⟩ :=
      resolvedLines_of_filling head placeholders unmarked.1 tame.1 accepted.1 near
    obtain ⟨source, rest, stands'⟩ := ih tail next unmarked.2 tame.2 accepted.2 far
    exact ⟨ls ++ source, resolvedSource_cons_eq_ok_iff.mpr ⟨ls, source, resolved, rest, rfl⟩,
      stands.append stands'⟩

/-- Code in which no value stands inside an instruction is not assembled a second time. -/
theorem needsReassembly_of_unmarked {includes : Includes} {options : KnownOptions} {code : Text}
    {i : Intermediate} (unmarked : ∀ line ∈ Text.lines code, Unmarked line)
    (evaluated : (evaluateCode includes options code).Yields (.ok i)) :
    needsReassembly i (Text.lines code) = .ok false := by
  refine (needsReassembly_cases i (isReadable_of_yields evaluated)).resolve_left fun again => ?_
  obtain ⟨-, s, member, -, line, onLine, kind⟩ := exists_span_of_needsReassembly again
  have placed : s.located ∈ placedFrom 0 (Text.lines code) :=
    evaluateCode_located evaluated ▸ List.mem_map_of_mem member
  obtain ⟨k, line', index, onLine', -, found⟩ := getElem?_of_mem_placedFrom placed
  obtain rfl : s.line = k := index.trans (Nat.zero_add k)
  obtain rfl : line = line' := Option.some.inj (onLine.symm.trans onLine')
  have none := unmarked line (List.mem_of_getElem? onLine) kind
  rw [placeholdersOf, kind] at found
  simp [none] at found

/-- Where no value stands inside an instruction, the second pass asks no tool, and its code is what
the small assembler would have made of the source with all values in it. -/
theorem complete_eq_reassembled {includes : Includes} {options : KnownOptions} {code hex : Text}
    {i : Intermediate} {c : Context} (assembly : Code.isAssembly code = .ok true)
    (free : Text.contains "__cs_" code = false)
    (names : ∀ line ∈ Text.lines code, Line.classify line = .assembly →
      Line.containsSymbol line = false ∧ Line.containsOption line = false)
    (evaluated : (evaluateCode includes options code).run Assembler.toolchain = .ok i)
    (resolved : (resolveCode c i code).run Assembler.toolchain = .ok (.complete hex)) :
    (resolveCode c i code).AsksNothing ∧
      ∃ source assembled, resolvedSource c i 0 (Text.lines code) = .ok source ∧
        Assembler.assemble (Text.joinLines source) = .ok assembled ∧
          hex = Hex.encode assembled.bytes := by
  have yields := Assembling.yields_of_run evaluated
  have unmarked : ∀ line ∈ Text.lines code, Unmarked line :=
    fun line member => unmarked_of_no_names (names line member)
  have spliced := needsReassembly_of_unmarked unmarked yields
  have second := resolveCode_of_spliced
    (outstanding_of_complete (Assembling.yields_of_run resolved)) spliced
  obtain ⟨⟨expansions, expanded⟩, placed, text, accepted⟩ := laidOut_of_run assembly free evaluated
  obtain ⟨after, filled, rfl⟩ := fill_eq_ok text (fill_of_complete spliced resolved)
  obtain ⟨bytes, rfl, filling⟩ := filling_of_fillSpans [] placed filled
  have tame : ∀ line ∈ Text.lines code, IsTame line :=
    fun line member => isTame_of_mem_lines (reserved_absent free) member
  obtain ⟨source, rebuilt, stands⟩ := resolvedSource_of_filling expanded
    (Remaining.all (evaluateCode_located yields)) unmarked tame accepted filling
  obtain ⟨assembled, made, same⟩ := stands.assemble
  exact ⟨by rw [second]; trivial, source, assembled, rebuilt, made, by rw [same]⟩

/-- Assembly with an option among digits and a call, and a comment. -/
def patchLives : Text := "li r4, 1 # one life\n3860[[Lives]]AB\nbl <Table> + 4\nblr"

def patchLivesEvaluated : Intermediate :=
  { hex := "38800001386000AB000000004E800020"
    spans :=
      [⟨6, 1, .options ["Lives"], "3860[[Lives]]AB", 1⟩,
        ⟨8, 4, .branch ⟨.bl, .symbol "Table", 4⟩, "bl <Table> + 4", 2⟩]
    isAssembly := true }

theorem patchLives_reassembled :
    ∃ source assembled,
      resolvedSource tablePlaced patchLivesEvaluated 0 (Text.lines patchLives) = .ok source ∧
        Assembler.assemble (Text.joinLines source) = .ok assembled ∧
          "38800001386063AB4BFFEFFD4E800020" = Hex.encode assembled.bytes := by
  have first : (evaluateCode ⟨fun _ => false, []⟩ none patchLives).run Assembler.toolchain =
      .ok patchLivesEvaluated := by decide +kernel
  have second : (resolveCode tablePlaced patchLivesEvaluated patchLives).run Assembler.toolchain =
      .ok (.complete "38800001386063AB4BFFEFFD4E800020") := by decide +kernel
  exact (complete_eq_reassembled (by decide +kernel) (by decide +kernel) (by decide +kernel) first
    second).2

end GamePatch.Change
