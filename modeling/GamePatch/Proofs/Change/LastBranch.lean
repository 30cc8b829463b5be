import GamePatch.Proofs.Change.Splicing

set_option autoImplicit false

namespace GamePatch.Change

open Assembler (item bytesOf Accepts)

/-- The spans end in a branch that the code ends with. -/
structure EndsIn (i : Intermediate) (s : Span) (branch : Line.SpecialBranch) : Prop where
  last : i.spans.getLast? = some s
  stop : s.stop = i.length
  shape : s.placeholder = .branch branch

def EndsInWord (c : Context) (branch : Line.SpecialBranch) (offset : Nat) (code : Bytes) : Prop :=
  ∃ front word, c.branchWord branch offset = .ok word ∧ code = front ++ Bytes.ofWord word ∧
    front.length = offset

theorem length_fillSpans {c : Context} {bytes out : Bytes} {spans : List Span}
    (filled : fillSpans c bytes spans = .ok out) : out.length = bytes.length := by
  induction spans generalizing bytes with
  | nil => cases filled; rfl
  | cons s spans ih =>
    obtain ⟨value, -, width, inside, rest⟩ := fillSpans_cons_eq_ok_iff.mp filled
    rw [ih rest, Bytes.length_splice _ _ _ (by rw [width]; exact inside)]

/-- Filling a last span at the end of the code leaves its value there, behind what was filled before. -/
theorem fillSpans_concat_branch {c : Context} {bytes out : Bytes} {front : List Span} {s : Span}
    {branch : Line.SpecialBranch} (stop : s.stop = bytes.length) (shape : s.placeholder = .branch branch)
    (filled : fillSpans c bytes (front ++ [s]) = .ok out) :
    ∃ mid word, fillSpans c bytes front = .ok mid ∧ c.branchWord branch s.offset = .ok word ∧
      out = mid.take s.offset ++ Bytes.ofWord word ∧ (mid.take s.offset).length = s.offset := by
  rw [fillSpans_append] at filled
  obtain ⟨mid, first, final⟩ := Fallible.bind_eq_ok_iff.mp filled
  obtain ⟨value, found, width, inside, done⟩ := fillSpans_cons_eq_ok_iff.mp final
  cases done
  have same := length_fillSpans first
  rw [Context.spanBytes, shape] at found
  obtain ⟨word, encoded, rfl⟩ := Fallible.map_eq_ok_iff.mp found
  have behind : mid.drop (s.offset + (Bytes.ofWord word).length) = [] := by
    rw [width]
    exact List.drop_eq_nil_of_le (by rw [same, ← stop]; exact Nat.le_refl _)
  refine ⟨mid, word, first, encoded, by rw [Bytes.splice, behind, List.append_nil], ?_⟩
  rw [List.length_take, Nat.min_eq_left]
  exact Nat.le_trans (Nat.le_add_right _ _) inside

theorem fillSpans_last {c : Context} {bytes out : Bytes} {spans : List Span} {s : Span}
    {branch : Line.SpecialBranch} (last : spans.getLast? = some s) (stop : s.stop = bytes.length)
    (shape : s.placeholder = .branch branch) (filled : fillSpans c bytes spans = .ok out) :
    EndsInWord c branch s.offset out := by
  obtain ⟨front, rfl⟩ := List.getLast?_eq_some_iff.mp last
  obtain ⟨mid, word, -, encoded, whole, length⟩ := fillSpans_concat_branch stop shape filled
  exact ⟨mid.take s.offset, word, encoded, whole, length⟩

theorem fill_endsIn {c : Context} {i : Intermediate} {s : Span} {branch : Line.SpecialBranch}
    {bytes : Bytes} {hex : Text} (ends : EndsIn i s branch) (text : i.hex = Hex.encode bytes)
    (filled : fill c i = .ok (.complete hex)) :
    ∃ code, hex = Hex.encode code ∧ EndsInWord c branch s.offset code := by
  obtain ⟨after, spans, same⟩ := fill_eq_ok text filled
  exact ⟨after, same, fillSpans_last ends.last (ends.stop.trans (length_of_hex text)) ends.shape spans⟩

/-- The line of the last span, with nothing to fill below it. -/
theorem split_at_last {spans : List Span} {lines : List Text} {s : Span}
    (located : spans.map Span.located = placedFrom 0 lines) (last : spans.getLast? = some s) :
    ∃ above line below, lines = above ++ line :: below ∧ s.line = above.length ∧
      s.placeholder ∈ placeholdersOf line ∧ placedFrom (above.length + 1) below = [] := by
  have inside : s.located ∈ placedFrom 0 lines :=
    located ▸ List.mem_map_of_mem (List.mem_of_getLast? last)
  obtain ⟨k, line, index, onLine, -, found⟩ := getElem?_of_mem_placedFrom inside
  obtain ⟨above, below, rfl, rfl⟩ := split_of_getElem? onLine
  have here : s.line = above.length := index.trans (Nat.zero_add _)
  refine ⟨above, line, below, rfl, here, found, ?_⟩
  by_contra some
  have final : (placedFrom 0 (above ++ line :: below)).getLast? = (placedFrom (above.length + 1)
      below).getLast? := by
    rw [placedFrom_append, Nat.zero_add, placedFrom, List.getLast?_append_of_ne_nil _ (by simp [some]),
      List.getLast?_append_of_ne_nil _ some]
  rw [← located, List.getLast?_map, last] at final
  have below := (line_of_mem_placedFrom (List.mem_of_getLast? final.symm)).1
  change above.length + 1 ≤ s.line at below
  omega

theorem Expansion.ofLines_below {options : KnownOptions} {index : Nat} {above below : List Text}
    {line : Text} {expansions : List Expansion}
    (expanded : ofLines options index (above ++ line :: below) = .ok expansions) :
    ∃ index' more, ofLines options index' below = .ok more := by
  induction above generalizing index expansions with
  | nil =>
    obtain ⟨_, more, -, tail, -⟩ := ofLines_cons_eq_ok_iff.mp expanded
    exact ⟨_, more, tail⟩
  | cons first above ih =>
    obtain ⟨_, more, -, tail, -⟩ := ofLines_cons_eq_ok_iff.mp expanded
    exact ih tail

theorem resolvedSource_append {c : Context} {i : Intermediate} {ix : Nat} {front back : List Text}
    {source : List Text} (resolved : resolvedSource c i ix (front ++ back) = .ok source) :
    ∃ above below, resolvedSource c i ix front = .ok above ∧
      resolvedSource c i (ix + front.length) back = .ok below ∧ source = above ++ below := by
  induction front generalizing ix source with
  | nil => exact ⟨[], source, rfl, resolved, rfl⟩
  | cons line front ih =>
    obtain ⟨first, more, head, tail, rfl⟩ := resolvedSource_cons_eq_ok_iff.mp resolved
    obtain ⟨above, below, begin, rest, rfl⟩ := ih tail
    refine ⟨first ++ above, below, ?_, ?_, ?_⟩
    · exact resolvedSource_cons_eq_ok_iff.mpr ⟨first, above, head, begin, rfl⟩
    · rw [List.length_cons, Nat.add_comm front.length 1, ← Nat.add_assoc]
      exact rest
    · rw [List.append_assoc]

/-- Parts without placeholders are filled by nothing. -/
theorem filling_of_no_holes {c : Context} {parts : List Part}
    (none : parts.filterMap Part.hole? = []) : Filling c parts [] (parts.flatMap Part.bytes) := by
  induction parts with
  | nil => exact .nil
  | cons part parts ih =>
    cases part with
    | lines ls => exact .lines (ih none)
    | hole p body => cases none

theorem kind_of_branch_placeholder {line : Text} {branch : Line.SpecialBranch}
    (found : Placeholder.branch branch ∈ placeholdersOf line) : Line.classify line = .branch branch := by
  unfold placeholdersOf at found
  split at found
  case h_1 => cases found
  case h_2 other kind =>
    rw [kind, (Placeholder.branch.inj (List.mem_singleton.mp found))]
  case h_3 segments _ =>
    obtain ⟨segment, -, shape⟩ := List.mem_filterMap.mp found
    cases segment <;> cases shape
  case h_4 kind =>
    rw [Expansion.placeholder?, Line.parse_of_assembly kind] at found
    simp only at found
    split at found
    · cases List.mem_singleton.mp found
    · split at found
      · cases List.mem_singleton.mp found
      · cases found
  case h_5 => cases found

theorem unmarked_of_no_placeholder {line : Text} (none : placeholdersOf line = []) : Unmarked line := by
  intro kind
  rw [placeholdersOf, kind] at none
  exact Option.toList_eq_nil_iff.mp none

theorem ofLine_of_branch {options : KnownOptions} {line : Text} {branch : Line.SpecialBranch}
    (kind : Line.classify line = .branch branch) :
    Part.ofLine options line = [.hole (.branch branch) [".long 0"]] := by
  rw [Part.ofLine, kind]
  simp only [Part.ofPlainLine, placeholder?_of_branch kind]
  rfl

/-- A branch is assembled as its word. -/
theorem resolvedLines_branch_eq_ok {c : Context} {i : Intermediate} {ix : Nat} {line : Text}
    {s : Span} {branch : Line.SpecialBranch} {ls : List Text}
    (kind : Line.classify line = .branch branch) (onLine : spansOnLine i ix = [s])
    (shape : s.placeholder = .branch branch) (resolved : resolvedLines c i ix line = .ok ls) :
    ∃ word, c.branchWord branch s.offset = .ok word ∧ ls = dataDirectives (Bytes.ofWord word) := by
  rw [resolvedLines_of_span (by simp [Line.IsReadable, kind]) (by simp [kind]) onLine] at resolved
  obtain ⟨text, written, rfl⟩ := Fallible.map_eq_ok_iff.mp resolved
  rw [resolvedLine, shape] at written
  obtain ⟨word, encoded, rfl⟩ := Fallible.map_eq_ok_iff.mp written
  exact ⟨word, encoded, (dataDirectives_ofWord word).symm⟩

/-- Assembly code around the line of its last branch: no span is below it, and no bytes. -/
structure Around (options : KnownOptions) (i : Intermediate) (s : Span)
    (branch : Line.SpecialBranch) (above : List Text) (line : Text) (below : List Text) : Prop where
  kind : Line.classify line = .branch branch
  onLine : spansOnLine i above.length = [s]
  earlier : ∀ s ∈ i.spans, s.line < above.length + 1
  noPlaceholder : placedFrom (above.length + 1) below = []
  noHole : (below.flatMap (Part.ofLine options)).filterMap Part.hole? = []
  noBytes : (below.flatMap (Part.ofLine options)).flatMap Part.bytes = []
  width : s.stop = s.offset + 4

/-- Behind the last placeholder of placed parts, its span is the last one. -/
theorem Placed.last_hole {offset : Nat} {front back : List Part} {p : Placeholder}
    {body : List Text} {spans : List Span} {s : Span}
    (placed : Placed offset (front ++ .hole p body :: back) spans)
    (noHole : back.filterMap Part.hole? = []) (last : spans.getLast? = some s) :
    ∃ here, spans = here ++ [s] ∧ s.offset = offset + (front.flatMap Part.bytes).length ∧
      s.width = (bytesOf body).length := by
  obtain ⟨here, there, split, -, rest⟩ := placed.append
  cases rest with
  | @hole _ _ _ _ s' later start width kind behind =>
    have nothing : later = [] := by
      have holes := behind.placeholders
      rwa [noHole, List.map_eq_nil_iff] at holes
    subst nothing
    obtain rfl : s' = s := by
      rwa [split, List.getLast?_concat, Option.some_inj] at last
    exact ⟨here, split, start, width⟩

theorem around_last {options : KnownOptions} {code : Text} {i : Intermediate} {s : Span}
    {branch : Line.SpecialBranch} (laid : LaidOut options code i)
    (located : i.spans.map Span.located = placedFrom 0 (Text.lines code)) (ends : EndsIn i s branch) :
    ∃ above line below, Text.lines code = above ++ line :: below ∧
      Around options i s branch above line below := by
  obtain ⟨⟨expansions, expanded⟩, placed, text, -⟩ := laid
  obtain ⟨above, line, below, lines, index, found, none⟩ := split_at_last located ends.last
  rw [ends.shape] at found
  have kind := kind_of_branch_placeholder found
  rw [lines] at located expanded
  have parts : Part.ofCode options code = above.flatMap (Part.ofLine options) ++
      .hole (.branch branch) [".long 0"] :: below.flatMap (Part.ofLine options) := by
    rw [Part.ofCode, lines, List.flatMap_append, List.flatMap_cons, ofLine_of_branch kind]
    rfl
  have noHole : (below.flatMap (Part.ofLine options)).filterMap Part.hole? = [] := by
    obtain ⟨index', more, rest⟩ := Expansion.ofLines_below expanded
    rw [← (Expansion.ofLines_eq_parts rest).2]
    exact List.flatMap_eq_nil_iff.mpr (placeholdersOf_eq_nil none)
  rw [parts] at placed text
  obtain ⟨here, split, start, width⟩ := placed.last_hole noHole ends.last
  have four : (bytesOf [".long 0".toList]).length = 4 := by decide +kernel
  rw [four] at width
  have stop : s.stop = s.offset + 4 := by rw [Span.stop, width]
  -- The code ends where its last span does, so that nothing of it is left for the lines below.
  have noBytes : (below.flatMap (Part.ofLine options)).flatMap Part.bytes = [] := by
    have total := length_of_hex text
    rw [length_flatMap_blank, List.flatMap_append, List.flatMap_cons, List.length_append,
      List.length_append, Part.bytes, Part.body, four, ← ends.stop, stop, start] at total
    apply List.length_eq_zero_iff.mp
    omega
  have aboveSpans : here.map Span.located = placedFrom 0 above := by
    rw [split, List.map_append, placedFrom_append, placedFrom, Nat.zero_add, none, List.append_nil,
      placeholdersOf, kind] at located
    exact List.append_inj_left' located rfl
  have earlier : ∀ s ∈ here, s.line < above.length := by
    intro s member
    have inside : s.located ∈ placedFrom 0 above := aboveSpans ▸ List.mem_map_of_mem member
    have bound := line_lt_of_mem_placedFrom inside
    rwa [Nat.zero_add] at bound
  refine ⟨above, line, below, lines, kind, ?_, ?_, none, noHole, noBytes, stop⟩
  · have noneBelow : i.spans = here ++ ([s] ++ []) := split
    apply spansOnLine_of_split noneBelow earlier
    · rw [List.forall_mem_singleton]
      exact index
    · simp
  · rw [split, List.forall_mem_append, List.forall_mem_singleton]
    exact ⟨fun s member => Nat.lt_succ_of_lt (earlier s member), by omega⟩

/-- The lines below the last branch are assembled to nothing a second time. -/
theorem Around.below_stands {options : KnownOptions} {c : Context} {i : Intermediate} {s : Span}
    {branch : Line.SpecialBranch} {above below bottom : List Text} {line : Text} {index : Nat}
    {expansions : List Expansion} (around : Around options i s branch above line below)
    (expanded : Expansion.ofLines options index below = .ok expansions)
    (tame : ∀ line ∈ below, IsTame line)
    (accepted : ∀ part ∈ below.flatMap (Part.ofLine options), Accepts part.body)
    (resolved : resolvedSource c i (above.length + 1) below = .ok bottom) : Stands bottom [] := by
  have unmarked : ∀ line ∈ below, Unmarked line := by
    intro line member
    apply unmarked_of_no_placeholder
    exact placeholdersOf_eq_nil around.noPlaceholder line member
  have filling : Filling c (below.flatMap (Part.ofLine options)) [] [] := by
    have own := filling_of_no_holes (c := c) around.noHole
    rwa [around.noBytes] at own
  have left : Remaining i (above.length + 1) below i.spans [] :=
    ⟨(List.append_nil _).symm, around.earlier, around.noPlaceholder.symm⟩
  obtain ⟨source, again, stands⟩ :=
    resolvedSource_of_filling expanded left unmarked tame accepted filling
  obtain rfl : source = bottom := Except.ok.inj (again.symm.trans resolved)
  exact stands

/-- The second source around the last branch: what the lines above it come to, its word, and lines that
are assembled to nothing. -/
theorem Around.resolvedSource_eq_ok {options : KnownOptions} {c : Context} {i : Intermediate} {s : Span}
    {branch : Line.SpecialBranch} {code : Text} {above below source : List Text} {line : Text}
    (around : Around options i s branch above line below) (shape : s.placeholder = .branch branch)
    (lines : Text.lines code = above ++ line :: below) (laid : LaidOut options code i)
    (free : ¬ reserved <:+: code) (resolved : resolvedSource c i 0 (Text.lines code) = .ok source) :
    ∃ top word rest, resolvedSource c i 0 above = .ok top ∧ c.branchWord branch s.offset = .ok word ∧
      source = top ++ rest ∧ rest ≠ [] ∧ Stands rest (Bytes.ofWord word) := by
  obtain ⟨⟨expansions, expanded⟩, -, -, accepted⟩ := laid
  have tame : ∀ line ∈ Text.lines code, IsTame line :=
    fun line member => isTame_of_mem_lines free member
  rw [lines] at resolved expanded tame
  rw [Part.ofCode, lines, List.flatMap_append, List.flatMap_cons, List.forall_mem_append,
    List.forall_mem_append] at accepted
  rw [List.forall_mem_append, List.forall_mem_cons] at tame
  obtain ⟨top, rest, aboveLines, fromBranch, rfl⟩ := resolvedSource_append resolved
  obtain ⟨here, bottom, branchLines, belowLines, rfl⟩ := resolvedSource_cons_eq_ok_iff.mp fromBranch
  rw [Nat.zero_add] at branchLines belowLines
  obtain ⟨word, encoded, rfl⟩ :=
    resolvedLines_branch_eq_ok around.kind around.onLine shape branchLines
  obtain ⟨index', more, expandedBelow⟩ := Expansion.ofLines_below expanded
  have stands := around.below_stands expandedBelow tame.2.2 accepted.2.2 belowLines
  have ending := (Stands.dataDirectives (Bytes.ofWord word)).append stands
  rw [List.append_nil] at ending
  exact ⟨top, word, _, aboveLines, encoded, rfl, by simp [dataDirectives_ofWord], ending⟩

/-- With the small assembler, the second assembly ends in the branch that the first one left a gap
for: the lines below it have nothing to fill and give no bytes. -/
theorem reassembled_endsIn {includes : Includes} {options : KnownOptions} {code : Text}
    {i : Intermediate} {c : Context} {s : Span} {branch : Line.SpecialBranch} {source : List Text}
    {assembled : Assembly} (assembly : Code.isAssembly code = .ok true)
    (free : Text.contains reserved code = false)
    (evaluated : (evaluateCode includes options code).run Assembler.toolchain = .ok i)
    (ends : EndsIn i s branch)
    (resolved : resolvedSource c i 0 (Text.lines code) = .ok source)
    (made : Assembler.assemble (Text.joinLines source) = .ok assembled)
    (length : assembled.bytes.length = i.length) :
    EndsInWord c branch s.offset assembled.bytes := by
  have located := evaluateCode_located (Assembling.yields_of_run evaluated)
  have laid := laidOut_of_run assembly free evaluated
  obtain ⟨above, line, below, lines, around⟩ := around_last laid located ends
  obtain ⟨top, word, rest, -, encoded, rfl, some, ending⟩ :=
    around.resolvedSource_eq_ok ends.shape lines laid (reserved_absent free) resolved
  obtain ⟨front, whole⟩ := Assembler.bytes_of_last_lines some ending.clean made
  rw [ending.bytes] at whole
  refine ⟨front, word, encoded, whole, ?_⟩
  rw [whole, List.length_append, Bytes.length_ofWord, ← ends.stop, around.width] at length
  omega

/-- What a second pass that assembles the code again has done. -/
theorem reassembled_eq_ok {toolchain : Toolchain} {c : Context} {i : Intermediate} {code hex : Text}
    (again : needsReassembly i (Text.lines code) = .ok true)
    (resolved : (resolveCode c i code).run toolchain = .ok (.complete hex)) :
    ∃ source assembled, resolvedSource c i 0 (Text.lines code) = .ok source ∧
      toolchain.assemble (Text.joinLines source) c.includePaths = .ok assembled ∧
        assembled.bytes.length = i.length ∧ hex = Hex.encode assembled.bytes := by
  have settled := outstanding_of_complete (Assembling.yields_of_run resolved)
  rcases resolveCode_of_reassembled settled again with ⟨e, -, pass⟩ | ⟨source, made, pass⟩
  · rw [pass] at resolved
    cases resolved
  · rw [pass] at resolved
    change ofSecondReply i (toolchain.assemble (Text.joinLines source) c.includePaths) = _ at resolved
    rcases ofSecondReply_cases i (toolchain.assemble (Text.joinLines source) c.includePaths) with
      ⟨e, -, same⟩ | ⟨a, -, -, same⟩ | ⟨a, answer, length, same⟩
    · cases resolved.symm.trans same
    · cases resolved.symm.trans same
    · cases resolved.symm.trans same
      exact ⟨source, a, made, answer, length, rfl⟩

/-- Finished code ends in the word of the branch that its spans end in. Where the code is assembled
a second time this takes an assembler that treats lines one by one. -/
theorem complete_endsIn {toolchain : Toolchain} {includes : Includes} {options : KnownOptions}
    {code hex : Text} {i : Intermediate} {c : Context} {s : Span} {branch : Line.SpecialBranch}
    (evaluated : (evaluateCode includes options code).run toolchain = .ok i)
    (assembler : needsReassembly i (Text.lines code) = .ok true →
      toolchain = Assembler.toolchain ∧ Text.contains reserved code = false)
    (ends : EndsIn i s branch)
    (resolved : (resolveCode c i code).run toolchain = .ok (.complete hex)) :
    ∃ bytes, hex = Hex.encode bytes ∧ EndsInWord c branch s.offset bytes := by
  rcases needsReassembly_cases i (isReadable_of_yields (Assembling.yields_of_run evaluated)) with
    again | spliced
  · obtain ⟨rfl, absent⟩ := assembler again
    obtain ⟨source, assembled, made, answer, length, rfl⟩ := reassembled_eq_ok again resolved
    exact ⟨assembled.bytes, rfl, reassembled_endsIn (isAssembly_of_needsReassembly evaluated again)
      absent evaluated ends made answer length⟩
  · obtain ⟨bytes, text⟩ := evaluateCode_eq_encode (Assembling.yields_of_run evaluated)
    exact fill_endsIn ends text (fill_of_complete spliced resolved)

end GamePatch.Change
