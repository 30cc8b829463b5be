import GamePatch.Proofs.Change.Reassembly
import GamePatch.Proofs.Gecko.Return

set_option autoImplicit false

namespace GamePatch

namespace Change

def Context.moved (c : Context) (site : Address) : Context := { c with installAddress := site }

section

variable (c : Context) (site : Address)

@[simp] theorem outstanding_moved (i : Intermediate) :
    (c.moved site).outstanding i = c.outstanding i := rfl

/-- What is no branch does not look at the place of the code. -/
theorem spanBytes_moved {s : Span} (noBranch : s.placeholder.isBranch = false) :
    (c.moved site).spanBytes s = c.spanBytes s := by
  unfold Context.spanBytes
  cases shape : s.placeholder with
  | branch branch =>
    rw [shape] at noBranch
    cases noBranch
  | symbols names => rfl
  | options names => rfl

theorem resolvedLine_moved {s : Span} (noBranch : s.placeholder.isBranch = false) :
    resolvedLine (c.moved site) s = resolvedLine c s := by
  rw [resolvedLine_of_not_isBranch noBranch, resolvedLine_of_not_isBranch noBranch]
  rfl

theorem fillSpans_moved {spans : List Span} (none : ∀ s ∈ spans, s.placeholder.isBranch = false)
    (bytes : Bytes) : fillSpans (c.moved site) bytes spans = fillSpans c bytes spans := by
  apply fillSpans_congr
  rw [List.forall₂_same]
  intro s member
  exact ⟨⟨rfl, rfl, rfl⟩, spanBytes_moved c site (none s member)⟩

theorem segmentDirectives_moved {spans : List Span}
    (none : ∀ s ∈ spans, s.placeholder.isBranch = false) (segments : List Line.Segment) :
    segmentDirectives (c.moved site) spans segments = segmentDirectives c spans segments := by
  apply segmentDirectives_congr
  rw [List.forall₂_same]
  intro s member
  exact spanBytes_moved c site (none s member)

theorem resolvedLines_moved {i : Intermediate} {ix : Nat}
    (none : ∀ s ∈ spansOnLine i ix, s.placeholder.isBranch = false) (line : Text) :
    resolvedLines (c.moved site) i ix line = resolvedLines c i ix line := by
  unfold resolvedLines
  split
  · exact segmentDirectives_moved c site none _
  · rfl
  · rfl
  case h_4 s more spans _ _ =>
    rw [spans] at none
    rw [resolvedLine_moved c site (none s List.mem_cons_self)]

/-- Lines above the first branch come to the same second source. -/
theorem resolvedSource_moved {i : Intermediate} {ix : Nat} {lines : List Text}
    (none : ∀ s ∈ i.spans, s.line < ix + lines.length → s.placeholder.isBranch = false) :
    resolvedSource (c.moved site) i ix lines = resolvedSource c i ix lines := by
  induction lines generalizing ix with
  | nil => rfl
  | cons line lines ih =>
    rw [List.length_cons] at none
    have here : ∀ s ∈ spansOnLine i ix, s.placeholder.isBranch = false := by
      intro s member
      obtain ⟨member, index⟩ := List.mem_filter.mp member
      have onLine : s.line = ix := beq_iff_eq.mp index
      exact none s member (by omega)
    rw [resolvedSource, resolvedSource, resolvedLines_moved c site here,
      ih fun s member before => none s member (by omega)]

/-- Code without a branch comes to the same in every place. -/
theorem resolveCode_moved {i : Intermediate} (none : ∀ s ∈ i.spans, s.placeholder.isBranch = false)
    (code : Text) : resolveCode (c.moved site) i code = resolveCode c i code := by
  have source : resolvedSource (c.moved site) i 0 (Text.lines code) =
      resolvedSource c i 0 (Text.lines code) :=
    resolvedSource_moved c site fun s member _ => none s member
  have filled : fill (c.moved site) i = fill c i := by
    unfold fill
    simp only [fillSpans_moved c site none]
  rw [resolveCode, resolveCode, outstanding_moved, source, filled]
  rfl

end

/-- The spans of code that may be exported: no branch but the one at the end that goes back. -/
theorem spans_of_few {i : Intermediate}
    (few : i.addressSpans.length ≤ if i.endsWithReturn then 1 else 0) :
    (i.endsWithReturn = false ∧ ∀ s ∈ i.spans, s.placeholder.isBranch = false) ∨
      (i.endsWithReturn = true ∧ ∃ front s branch, i.spans = front ++ [s] ∧ EndsIn i s branch ∧
        ∀ s ∈ front, s.placeholder.isBranch = false) := by
  have noBranch {spans : List Span} (none : spans.filter (fun s => !s.placeholder.isOptions) = []) :
      ∀ s ∈ spans, s.placeholder.isBranch = false := by
    intro s member
    have options := List.filter_eq_nil_iff.mp none s member
    cases shape : s.placeholder <;> simp [shape, Placeholder.isOptions, Placeholder.isBranch] at *
  cases returns : i.endsWithReturn with
  | false =>
    rw [returns] at few
    exact Or.inl ⟨rfl, noBranch (List.length_eq_zero_iff.mp (Nat.le_zero.mp few))⟩
  | true =>
    right
    refine ⟨rfl, ?_⟩
    rw [returns] at few
    unfold Intermediate.endsWithReturn at returns
    split at returns
    case h_2 => cases returns
    case h_1 s last =>
      rw [Bool.and_eq_true, beq_iff_eq] at returns
      obtain ⟨stop, back⟩ := returns
      obtain ⟨front, split⟩ := List.getLast?_eq_some_iff.mp last
      cases shape : s.placeholder with
      | symbols names =>
        rw [shape] at back
        cases back
      | options names =>
        rw [shape] at back
        cases back
      | branch branch =>
        refine ⟨front, s, branch, split, ⟨last, stop, shape⟩, noBranch ?_⟩
        have own : [s].filter (fun s => !s.placeholder.isOptions) = [s] := by
          simp [shape, Placeholder.isOptions]
        rw [Intermediate.addressSpans, split, List.filter_append, own, List.length_append] at few
        apply List.length_eq_zero_iff.mp
        simpa using few

/-- Values that are filled in, in two places of code with no branch but the one at its end. -/
theorem filled_but_last_word {c : Context} {site : Address} {bytes : Bytes} {hex hex' : Text}
    {i : Intermediate} {front : List Span} {s : Span} {branch : Line.SpecialBranch}
    (text : i.hex = Hex.encode bytes) (split : i.spans = front ++ [s]) (ends : EndsIn i s branch)
    (none : ∀ s ∈ front, s.placeholder.isBranch = false)
    (filled : fill c i = .ok (.complete hex)) (filled' : fill (c.moved site) i = .ok (.complete hex')) :
    ∃ (base : Bytes) (word word' : UInt32), hex = Hex.encode (base ++ Bytes.ofWord word) ∧
      hex' = Hex.encode (base ++ Bytes.ofWord word') := by
  have stop : s.stop = bytes.length := ends.stop.trans (length_of_hex text)
  obtain ⟨out, spans, rfl⟩ := fill_eq_ok text filled
  obtain ⟨out', spans', rfl⟩ := fill_eq_ok text filled'
  rw [split] at spans spans'
  obtain ⟨mid, word, first, -, rfl, -⟩ := fillSpans_concat_branch stop ends.shape spans
  obtain ⟨mid', word', first', -, rfl, -⟩ := fillSpans_concat_branch stop ends.shape spans'
  rw [fillSpans_moved c site none] at first'
  have same : mid = mid' := Except.ok.inj (first.symm.trans first')
  exact ⟨_, word, word', rfl, by rw [same]⟩

/-- Code that is assembled again, cut at its last branch: the lines above it are a source of their own,
and the lines below it have no bytes. -/
theorem reassembled_above {options : KnownOptions} {c : Context} {code hex : Text} {i : Intermediate}
    {s : Span} {branch : Line.SpecialBranch} {above below : List Text} {line : Text}
    (laid : LaidOut options code i) (free : ¬ reserved <:+: code)
    (located : i.spans.map Span.located = placedFrom 0 (Text.lines code)) (ends : EndsIn i s branch)
    (lines : Text.lines code = above ++ line :: below)
    (around : Around options i s branch above line below)
    (again : needsReassembly i (Text.lines code) = .ok true)
    (complete : (resolveCode c i code).run Assembler.toolchain = .ok (.complete hex)) :
    ∃ top word, resolvedSource c i 0 above = .ok top ∧
      hex = Hex.encode (Assembler.bytesOf top ++ Bytes.ofWord word) := by
  obtain ⟨source, assembled, written, made, -, rfl⟩ := reassembled_eq_ok again complete
  have clean := newline_not_mem_secondSource located written
  obtain ⟨-, rfl⟩ := (Assembler.assemble_joinLines_eq_ok_iff clean).mp made
  obtain ⟨top, word, rest, aboveLines, -, rfl, -, ending⟩ :=
    around.resolvedSource_eq_ok ends.shape lines laid free written
  refine ⟨top, word, aboveLines, ?_⟩
  rw [Assembler.bytesOf_append, ending.bytes]

/-- Code with no branch but the one at its end comes to the same in two places, but for the word of that
branch. -/
theorem complete_but_last_word {includes : Includes} {options : KnownOptions} {c : Context}
    {site : Address} {code hex hex' : Text} {i : Intermediate} {front : List Span} {s : Span}
    {branch : Line.SpecialBranch} (free : Text.contains reserved code = false)
    (evaluated : (evaluateCode includes options code).run Assembler.toolchain = .ok i)
    (split : i.spans = front ++ [s]) (ends : EndsIn i s branch)
    (none : ∀ s ∈ front, s.placeholder.isBranch = false)
    (complete : (resolveCode c i code).run Assembler.toolchain = .ok (.complete hex))
    (complete' : (resolveCode (c.moved site) i code).run Assembler.toolchain = .ok (.complete hex')) :
    ∃ (base : Bytes) (word word' : UInt32), hex = Hex.encode (base ++ Bytes.ofWord word) ∧
      hex' = Hex.encode (base ++ Bytes.ofWord word') := by
  have yields := Assembling.yields_of_run evaluated
  rcases needsReassembly_cases i (isReadable_of_yields yields) with again | spliced
  case inr =>
    obtain ⟨bytes, text⟩ := evaluateCode_eq_encode yields
    exact filled_but_last_word text split ends none (fill_of_complete spliced complete)
      (fill_of_complete spliced complete')
  have located := evaluateCode_located yields
  have noMark : ¬ reserved <:+: code := reserved_absent free
  have laid := laidOut_of_run (isAssembly_of_needsReassembly evaluated again) free evaluated
  obtain ⟨above, line, below, lines, around⟩ := around_last laid located ends
  obtain ⟨top, word, aboveLines, rfl⟩ :=
    reassembled_above laid noMark located ends lines around again complete
  obtain ⟨top', word', aboveLines', rfl⟩ :=
    reassembled_above laid noMark located ends lines around again complete'
  -- All spans above the last line with a branch are of those in front.
  have earlier : ∀ t ∈ i.spans, t.line < 0 + above.length → t.placeholder.isBranch = false := by
    intro t member before
    rw [split, List.mem_append, List.mem_singleton] at member
    rcases member with inFront | rfl
    · exact none t inFront
    · have own : t ∈ spansOnLine i above.length := around.onLine ▸ List.mem_cons_self
      have index : t.line = above.length := beq_iff_eq.mp (List.mem_filter.mp own).2
      omega
  rw [resolvedSource_moved c site earlier] at aboveLines'
  have same : top = top' := Except.ok.inj (aboveLines.symm.trans aboveLines')
  exact ⟨_, word, word', rfl, by rw [same]⟩

/-- Code that may be exported comes to the same in two places, but for the branch at its end that goes
back. -/
theorem complete_independent {includes : Includes} {options : KnownOptions} {c : Context}
    {site : Address} {code hex hex' : Text} {i : Intermediate}
    (free : Text.contains reserved code = false)
    (evaluated : (evaluateCode includes options code).run Assembler.toolchain = .ok i)
    (few : i.addressSpans.length ≤ if i.endsWithReturn then 1 else 0)
    (complete : (resolveCode c i code).run Assembler.toolchain = .ok (.complete hex))
    (complete' : (resolveCode (c.moved site) i code).run Assembler.toolchain = .ok (.complete hex')) :
    (i.endsWithReturn = false → hex = hex') ∧
      (i.endsWithReturn = true → ∃ (base : Bytes) (word word' : UInt32),
        hex = Hex.encode (base ++ Bytes.ofWord word) ∧
          hex' = Hex.encode (base ++ Bytes.ofWord word')) := by
  rcases spans_of_few few with ⟨returns, none⟩ | ⟨returns, front, s, branch, split, ends, none⟩
  · rw [resolveCode_moved c site none, complete] at complete'
    have same : hex = hex' := Finalized.complete.inj (Except.ok.inj complete')
    exact ⟨fun _ => same, fun impossible => absurd impossible (by simp [returns])⟩
  · have words := complete_but_last_word free evaluated split ends none complete complete'
    exact ⟨fun impossible => absurd impossible (by simp [returns]), fun _ => words⟩

end Change

namespace GameMod

/-- An injection is exported if its place can be found and nothing else in it depends on the place. -/
theorem locate_of_injectionRecord {toolchain : Toolchain} {m : GameMod} {image : GameImage}
    {symbols : SymbolTable} {c : Change} {i : Change.Intermediate} {record : GeckoRecord}
    (evaluated : c.evaluated = some i)
    (exported : (m.injectionRecord image symbols c).run toolchain = .ok (some record)) :
    i.addressSpans.length ≤ (if i.endsWithReturn then 1 else 0) ∧
      ∃ site, image.locate c.target = .ok site := by
  unfold injectionRecord at exported
  cases located : image.locate c.target with
  | error e =>
    simp only [located] at exported
    cases exported
  | ok site =>
    refine ⟨?_, site, rfl⟩
    simp only [located, evaluated] at exported
    by_contra dependent
    rw [if_pos (Nat.lt_of_not_le dependent)] at exported
    cases exported

/-- The code of an exported injection does not depend on its place: two places give the same code, or the
same but for the last word if that is the branch that an export leaves out. -/
theorem injection_independent {includes : Includes} {options : Change.KnownOptions} {c : Change}
    {i : Change.Intermediate} (free : Text.contains "__cs_" c.code = false)
    (evaluated : c.evaluated = some i)
    (first : (Change.evaluateCode includes options c.code).run Assembler.toolchain = .ok i)
    (m : GameMod) (symbols : SymbolTable) :
    (i.addressSpans.length ≤ (if i.endsWithReturn then 1 else 0) →
      ∀ (site site' : Address) (hex hex' : Text),
        (c.resolve (m.context symbols site)).run Assembler.toolchain = .ok (.complete hex) →
        (c.resolve (m.context symbols site')).run Assembler.toolchain = .ok (.complete hex') →
          (i.endsWithReturn = false → hex = hex') ∧
            (i.endsWithReturn = true → ∃ (base : Bytes) (word word' : UInt32),
              hex = Hex.encode (base ++ Bytes.ofWord word) ∧
                hex' = Hex.encode (base ++ Bytes.ofWord word'))) ∧
      ∀ (image image' : GameImage) (record record' : GeckoRecord), c.kind = .injection →
        (m.geckoRecord image symbols c).run Assembler.toolchain = .ok (some record) →
        (m.geckoRecord image' symbols c).run Assembler.toolchain = .ok (some record') →
          ∃ site site' code, record = .inject site code ∧ record' = .inject site' code := by
  have resolves (site : Address) : c.resolve (m.context symbols site) =
      Change.resolveCode (m.context symbols site) i c.code := by
    rw [Change.resolve, evaluated]
  simp only [resolves]
  constructor
  · intro few site site' hex hex' complete complete'
    exact Change.complete_independent (c := m.context symbols site) free first few complete complete'
  · intro image image' record record' kind exported exported'
    have injection (image : GameImage) :
        m.geckoRecord image symbols c = m.injectionRecord image symbols c := by
      rw [geckoRecord, kind]
    rw [injection] at exported exported'
    obtain ⟨few, site, located⟩ := locate_of_injectionRecord evaluated exported
    obtain ⟨-, site', located'⟩ := locate_of_injectionRecord evaluated exported'
    obtain ⟨full, found, rfl⟩ := injectionRecord_eq_ok evaluated located exported
    obtain ⟨full', found', rfl⟩ := injectionRecord_eq_ok evaluated located' exported'
    obtain ⟨hex, complete, decoded⟩ := geckoCode_eq_ok evaluated found
    obtain ⟨hex', complete', decoded'⟩ := geckoCode_eq_ok evaluated found'
    obtain ⟨same, words⟩ := Change.complete_independent (c := m.context symbols site) free first few
      complete complete'
    refine ⟨site, site', withoutReturn i full, rfl, ?_⟩
    cases returns : i.endsWithReturn with
    | false =>
      rw [← same returns, decoded] at decoded'
      rw [Except.ok.inj decoded']
    | true =>
      obtain ⟨base, word, word', rfl, rfl⟩ := words returns
      rw [Hex.decode_encode] at decoded decoded'
      cases decoded
      cases decoded'
      rw [withoutReturn_concat returns, withoutReturn_concat returns]

/-- An image in which everything is at one place. -/
def imageAt (site : Address) : GameImage := ⟨fun _ => .ok site, fun _ _ => none⟩

theorem backInjection_independent :
    (∃ (base : Bytes) (word word' : UInt32),
      "3860006348000000".toList = Hex.encode (base ++ Bytes.ofWord word) ∧
        "386000634BFFF000".toList = Hex.encode (base ++ Bytes.ofWord word')) ∧
      ∃ site site' code,
        GeckoRecord.inject 0x80002000 [0x38, 0x60, 0x00, 0x63] = .inject site code ∧
          GeckoRecord.inject 0x80003000 [0x38, 0x60, 0x00, 0x63] = .inject site' code := by
  have first : (Change.evaluateCode ⟨fun _ => false, []⟩ (some livesMod.options)
      backInjection.code).run Assembler.toolchain = .ok (backInjection.evaluated.get (by decide)) := by
    decide +kernel
  have here : (backInjection.resolve (livesMod.context [] 0x80002000)).run Assembler.toolchain =
      .ok (.complete "3860006348000000") := by decide +kernel
  have there : (backInjection.resolve (livesMod.context [] 0x80003000)).run Assembler.toolchain =
      .ok (.complete "386000634BFFF000") := by decide +kernel
  have exported : (livesMod.geckoRecord (imageAt 0x80002000) [] backInjection).run
      Assembler.toolchain = .ok (some (.inject 0x80002000 [0x38, 0x60, 0x00, 0x63])) := by
    decide +kernel
  have exported' : (livesMod.geckoRecord (imageAt 0x80003000) [] backInjection).run
      Assembler.toolchain = .ok (some (.inject 0x80003000 [0x38, 0x60, 0x00, 0x63])) := by
    decide +kernel
  obtain ⟨codes, records⟩ := injection_independent (by decide +kernel) rfl first livesMod []
  obtain ⟨-, words⟩ := codes (by decide +kernel) _ _ _ _ here there
  exact ⟨words (by decide +kernel), records _ _ _ _ rfl exported exported'⟩

end GameMod

end GamePatch
