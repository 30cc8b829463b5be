import GamePatch.Proofs.Change.HexResolution
import GamePatch.Proofs.Change.NormalLines

set_option autoImplicit false

namespace GamePatch.Change

open Code (normalLines normalLines_of_blank normalLines_of_solid)

section

variable (c : Context)

theorem segmentDirectives_unnumbered (spans : List Span) (segments : List Line.Segment) :
    segmentDirectives c (spans.map Span.unnumbered) segments = segmentDirectives c spans segments := by
  apply segmentDirectives_congr
  rw [List.forall₂_map_left_iff, List.forall₂_same]
  intro s member
  rfl

theorem fillSpans_unnumbered (bytes : Bytes) (spans : List Span) :
    fillSpans c bytes (spans.map Span.unnumbered) = fillSpans c bytes spans := by
  apply fillSpans_congr
  rw [List.forall₂_map_left_iff, List.forall₂_same]
  intro s member
  exact ⟨⟨rfl, rfl, rfl⟩, rfl⟩

theorem fill_unnumbered (i : Intermediate) : fill c i.unnumbered = fill c i := by
  rw [fill, fill]
  simp only [Intermediate.unnumbered, fillSpans_unnumbered]

theorem outstanding_unnumbered (i : Intermediate) : c.outstanding i.unnumbered = c.outstanding i := by
  rw [Context.outstanding, Intermediate.functions, Intermediate.unnumbered, List.flatMap_map]
  rfl

end

/-- Whether a value stands inside an instruction can be told from the texts of the spans. -/
theorem needsReassembly_of_located {i : Intermediate} {lines : List Text}
    (located : i.spans.map Span.located = placedFrom 0 lines) :
    needsReassembly i lines =
      if i.unnumbered.isAssembly then
        Line.anyAssembly ((i.unnumbered.spans.filter fun s => !s.placeholder.isBranch).map fun s =>
          Line.classify s.text)
      else .ok false := by
  have kind : ∀ s ∈ i.spans, lines[s.line]?.map Line.classify = some (Line.classify s.text) := by
    intro s member
    have inside : s.located ∈ placedFrom 0 lines := located ▸ List.mem_map_of_mem member
    obtain ⟨k, line, index, onLine, text, -⟩ := getElem?_of_mem_placedFrom inside
    change s.line = 0 + k at index
    change s.text = Line.stripComment line at text
    rw [index, Nat.zero_add, onLine, text, Line.classify_stripComment, Option.map_some]
  have kinds : ((i.spans.filter fun s => !s.placeholder.isBranch).filterMap fun s =>
      lines[s.line]?.map Line.classify) =
        (i.spans.filter fun s => !s.placeholder.isBranch).map fun s => Line.classify s.text := by
    rw [← List.filterMap_eq_map]
    exact List.filterMap_congr fun s member => kind s (List.mem_of_mem_filter member)
  rw [needsReassembly, kinds, Intermediate.unnumbered]
  simp only [List.filter_map, List.map_map]
  rfl

def linesWith (c : Context) (line : Text) (spans : List Span) : Except ResolveError (List Text) :=
  match Line.classify line, spans with
  | .hex segments, spans => segmentDirectives c spans segments
  | .overflow, _ => .error (.toolchain (.branch .overflow))
  | _, [] => .ok [line]
  | _, s :: _ => (resolvedLine c s).map fun line => [line]

theorem linesWith_nil {c : Context} {line : Text} (readable : Line.IsReadable line)
    (notHex : ∀ segments, Line.classify line ≠ .hex segments) : linesWith c line [] = .ok [line] := by
  unfold linesWith
  cases kind : Line.classify line with
  | hex segments => exact absurd kind (notHex segments)
  | overflow => exact absurd kind readable
  | blank | branch | assembly => rfl

theorem linesWith_cons {c : Context} {line : Text} (readable : Line.IsReadable line)
    (notHex : ∀ segments, Line.classify line ≠ .hex segments) (s : Span) (spans : List Span) :
    linesWith c line (s :: spans) = (resolvedLine c s).map fun line => [line] := by
  unfold linesWith
  cases kind : Line.classify line with
  | hex segments => exact absurd kind (notHex segments)
  | overflow => exact absurd kind readable
  | blank | branch | assembly => rfl

theorem resolvedLines_eq_linesWith (c : Context) (i : Intermediate) (ix : Nat) (line : Text) :
    resolvedLines c i ix line = linesWith c line (spansOnLine i ix) := rfl

/-- The source with values for all spans. Each line takes as many spans as it has placeholders, so that
the numbers of the lines are not looked at. -/
def sourceWith (c : Context) : List Span → List Text → Except ResolveError (List Text)
  | _, [] => .ok []
  | spans, line :: rest => do
    let first ← linesWith c line (spans.take (placeholdersOf line).length)
    let more ← sourceWith c (spans.drop (placeholdersOf line).length) rest
    .ok (first ++ more)

theorem resolvedSource_eq_sourceWith {c : Context} {i : Intermediate} {before spans : List Span}
    {ix : Nat} {lines : List Text} (left : Remaining i ix lines before spans) :
    resolvedSource c i ix lines = sourceWith c spans lines := by
  -- The spans are in the order of the placeholders, so the first of them stand on the first line.
  induction lines generalizing before spans ix with
  | nil => rfl
  | cons line rest ih =>
    obtain ⟨here, there, rfl, count⟩ := left.exists_split
    obtain ⟨own, -, next⟩ := left.step count
    rw [resolvedSource, resolvedLines_eq_linesWith, own, ih next, sourceWith, ← count, List.take_left,
      List.drop_left]

section

variable {c : Context}

theorem linesWith_unnumbered (line : Text) (spans : List Span) :
    linesWith c line (spans.map Span.unnumbered) = linesWith c line spans := by
  unfold linesWith
  cases Line.classify line with
  | hex segments => exact segmentDirectives_unnumbered c spans segments
  | blank | branch | assembly | overflow => cases spans <;> rfl

theorem sourceWith_unnumbered (spans : List Span) (lines : List Text) :
    sourceWith c (spans.map Span.unnumbered) lines = sourceWith c spans lines := by
  induction lines generalizing spans with
  | nil => rfl
  | cons line rest ih =>
    rw [sourceWith, sourceWith, ← List.map_take, ← List.map_drop, linesWith_unnumbered, ih]

def seenOf (lines : List Text) : List Assembler.Item := Assembler.seen (Text.joinLines lines)

theorem seenOf_append (front back : List Text) :
    seenOf (front ++ back) = seenOf front ++ seenOf back := by
  rw [seenOf, Assembler.seen_joinLines, List.flatMap_append, ← Assembler.seen_joinLines,
    ← Assembler.seen_joinLines, seenOf, seenOf]

theorem seenOf_singleton (line : Text) : seenOf [line] = Assembler.seen line := by
  rw [seenOf, Text.joinLines_singleton]

theorem linesWith_seen {line : Text} (clean : '\n' ∉ line) (spans : List Span) :
    (linesWith c line spans).map seenOf = (linesWith c (Line.stripComment line) spans).map seenOf := by
  unfold linesWith
  rw [Line.classify_stripComment]
  cases Line.classify line with
  | hex segments => rfl
  | overflow => rfl
  | blank | branch | assembly =>
    cases spans with
    | nil => simp [Except.map, seenOf_singleton, Assembler.seen_stripComment clean]
    | cons s more => rfl

theorem sourceWith_seen (spans : List Span) {lines : List Text} (clean : ∀ line ∈ lines, '\n' ∉ line) :
    (sourceWith c spans lines).map seenOf = (sourceWith c spans (normalLines lines)).map seenOf := by
  induction lines generalizing spans with
  | nil => rfl
  | cons line rest ih =>
    rw [List.forall_mem_cons] at clean
    -- A blank line takes no span, and the assembler passes it over.
    by_cases blank : Line.stripComment line = []
    · have kind := Line.classify_eq_blank_iff.mpr blank
      have own : linesWith c line [] = .ok [line] :=
        linesWith_nil (by simp [Line.IsReadable, kind]) (by simp [kind])
      rw [normalLines_of_blank rest blank, ← ih spans clean.2, sourceWith,
        placeholdersOf_of_blank blank, List.length_nil, List.take_zero, List.drop_zero, own]
      change Except.map _ (sourceWith c spans rest >>= _) = _
      cases sourceWith c spans rest with
      | error e => rfl
      | ok more =>
        refine congrArg Except.ok ?_
        rw [seenOf_append, seenOf_singleton, Assembler.seen_of_blank clean.1 blank, List.nil_append]
    · rw [normalLines_of_solid rest blank, sourceWith, sourceWith, placeholdersOf_stripComment]
      refine Fallible.map_bind_congr (linesWith_seen clean.1 _) fun first first' agree => ?_
      refine Fallible.map_bind_congr (ih _ clean.2) fun more more' agree' => ?_
      refine congrArg Except.ok ?_
      rw [seenOf_append, seenOf_append, agree, agree']

/-- For the second assembly, codes with the same normal form come to sources of which the assembler sees
the same. -/
theorem resolvedSource_seen {i j : Intermediate} {a b : Text}
    (same : Code.normalize a = Code.normalize b) (agree : i.unnumbered = j.unnumbered)
    (left : i.spans.map Span.located = placedFrom 0 (Text.lines a))
    (right : j.spans.map Span.located = placedFrom 0 (Text.lines b)) :
    (resolvedSource c i 0 (Text.lines a)).map seenOf =
      (resolvedSource c j 0 (Text.lines b)).map seenOf := by
  have read {k : Intermediate} {code : Text}
      (located : k.spans.map Span.located = placedFrom 0 (Text.lines code)) :
      (resolvedSource c k 0 (Text.lines code)).map seenOf =
        (sourceWith c k.unnumbered.spans (normalLines (Text.lines code))).map seenOf := by
    rw [resolvedSource_eq_sourceWith (Remaining.all located),
      sourceWith_seen _ fun _ => Text.newline_not_mem_of_mem_lines, Intermediate.unnumbered,
      sourceWith_unnumbered]
  rw [read left, read right, agree, Code.normalLines_eq same]

end

theorem ofSecondReply_congr {i j : Intermediate} (length : i.length = j.length)
    {r r' : Toolchain.Reply} (same : r.toOption = r'.toOption) :
    (ofSecondReply i r).toOption = (ofSecondReply j r').toOption := by
  have read (k : Intermediate) (reply : Toolchain.Reply) : (ofSecondReply k reply).toOption =
      reply.toOption.bind fun assembly =>
        if assembly.bytes.length ≠ k.length then none
        else some (.complete (Hex.encode assembly.bytes)) := by
    cases reply with
    | error e => rfl
    | ok assembly =>
      rw [ofSecondReply, apply_ite Except.toOption]
      rfl
  rw [read, read, same, length]

/-- The second passes over codes with the same normal form come to the same code, wait for the same
functions, or fail both. -/
theorem resolveCode_congr (c : Context) {toolchain : Toolchain} {i j : Intermediate} {a b : Text}
    (same : Code.normalize a = Code.normalize b) (agree : i.unnumbered = j.unnumbered)
    (left : i.spans.map Span.located = placedFrom 0 (Text.lines a))
    (right : j.spans.map Span.located = placedFrom 0 (Text.lines b))
    (small : needsReassembly i (Text.lines a) = .ok true → toolchain = Assembler.toolchain) :
    ((resolveCode c i a).run toolchain).toOption = ((resolveCode c j b).run toolchain).toOption := by
  have hex : i.hex = j.hex := by
    change i.unnumbered.hex = j.unnumbered.hex
    rw [agree]
  have settled : c.outstanding i = c.outstanding j := by
    rw [← outstanding_unnumbered, agree, outstanding_unnumbered]
  have again : needsReassembly i (Text.lines a) = needsReassembly j (Text.lines b) := by
    rw [needsReassembly_of_located left, agree, ← needsReassembly_of_located right]
  by_cases none : c.outstanding i = []
  case neg =>
    rw [resolveCode_of_outstanding a none, resolveCode_of_outstanding b (settled ▸ none), hex, settled]
  have none' := settled ▸ none
  rw [resolveCode, resolveCode, ← again]
  simp only [none, none', List.isEmpty_nil, Bool.not_true, Bool.false_eq_true, ↓reduceIte]
  cases inside : needsReassembly i (Text.lines a) with
  | error e => rfl
  | ok assembled =>
    cases assembled with
    | false =>
      change (fill c i).toOption = (fill c j).toOption
      rw [← fill_unnumbered, agree, fill_unnumbered]
    | true =>
      rw [small inside]
      rcases Fallible.map_eq_map_iff.mp (resolvedSource_seen (c := c) same agree left right) with
        ⟨e, failed, failed'⟩ | ⟨source, source', written, written', sees⟩
      · rw [failed, failed']
      · rw [written, written']
        exact ofSecondReply_congr (congrArg (·.length / 2) hex) (Assembler.assemble_congr sees)

/-- Two codes with the same normal form are interchangeable. They refer to the same functions, the first
pass comes to the same code and the same spans but for the numbers of their lines, and in every context
the second pass comes to the same. For code with assembly this is said of the small assembler. -/
theorem shared_code_agrees {toolchain : Toolchain} {a b : Text}
    (same : Code.normalize a = Code.normalize b)
    (small : Code.isAssembly a = .ok true → toolchain = Assembler.toolchain)
    (includes : Includes) (options : KnownOptions) :
    Code.referencedFunctions a = Code.referencedFunctions b ∧
    ((evaluateCode includes options a).run toolchain).toOption.map Intermediate.unnumbered =
      ((evaluateCode includes options b).run toolchain).toOption.map Intermediate.unnumbered ∧
    ∀ i j, (evaluateCode includes options a).run toolchain = .ok i →
      (evaluateCode includes options b).run toolchain = .ok j →
        ∀ c, ((resolveCode c i a).run toolchain).toOption =
          ((resolveCode c j b).run toolchain).toOption := by
  have first := evaluateCode_unnumbered includes options same small
  refine ⟨Code.referencedFunctions_congr same, first, fun i j left right c => ?_⟩
  rw [left, right] at first
  have agree : i.unnumbered = j.unnumbered := Option.some.inj first
  have located {code : Text} {k : Intermediate}
      (evaluated : (evaluateCode includes options code).run toolchain = .ok k) :
      k.spans.map Span.located = placedFrom 0 (Text.lines code) :=
    evaluateCode_located (Assembling.yields_of_run evaluated)
  exact resolveCode_congr c same agree (located left) (located right) fun again =>
    small (isAssembly_of_needsReassembly left again)

/-- Assembly with an option inside an instruction, as one of two mods brings it along. -/
def handOutLives : Text := "\n  li r4, [[Lives]] # count\n\nbl <Table> + 4\nblr\n# done"

def handOutLivesPlain : Text := "li r4, [[Lives]]\nbl <Table> + 4\nblr"

def handOutLivesEvaluated (load call : Nat) : Intermediate :=
  { hex := "00000000000000004E800020"
    spans :=
      [⟨0, 4, .options ["Lives"], "li r4, [[Lives]]", load⟩,
        ⟨4, 4, .branch ⟨.bl, .symbol "Table", 4⟩, "bl <Table> + 4", call⟩]
    isAssembly := true }

theorem handOutLives_shared :
    Code.normalize handOutLives = Code.normalize handOutLivesPlain ∧
    Code.referencedFunctions handOutLives = Code.referencedFunctions handOutLivesPlain ∧
    (handOutLivesEvaluated 1 3).unnumbered = (handOutLivesEvaluated 0 1).unnumbered ∧
    (resolveCode tablePlaced (handOutLivesEvaluated 1 3) handOutLives).run Assembler.toolchain =
      .ok (.complete "388000634BFFF0014E800020") := by
  have same : Code.normalize handOutLives = Code.normalize handOutLivesPlain := by decide +kernel
  have first : (evaluateCode ⟨fun _ => false, []⟩ none handOutLives).run Assembler.toolchain =
      .ok (handOutLivesEvaluated 1 3) := by decide +kernel
  have plain : (evaluateCode ⟨fun _ => false, []⟩ none handOutLivesPlain).run Assembler.toolchain =
      .ok (handOutLivesEvaluated 0 1) := by decide +kernel
  have second : (resolveCode tablePlaced (handOutLivesEvaluated 0 1) handOutLivesPlain).run
      Assembler.toolchain = .ok (.complete "388000634BFFF0014E800020") := by decide +kernel
  obtain ⟨functions, evaluated, resolved⟩ :=
    shared_code_agrees same (fun _ => rfl) ⟨fun _ => false, []⟩ none
  rw [first, plain] at evaluated
  have answer := resolved _ _ first plain tablePlaced
  rw [second] at answer
  exact ⟨same, functions, Option.some.inj evaluated, Fallible.toOption_eq_some_iff.mp answer⟩

end GamePatch.Change
