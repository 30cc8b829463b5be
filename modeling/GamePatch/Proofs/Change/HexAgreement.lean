import GamePatch.Proofs.Change.Placement
import GamePatch.Proofs.Line.Segments
import GamePatch.Proofs.Text.Lines

set_option autoImplicit false

namespace GamePatch

open Assembler (item bytesOf Accepts Item)

namespace Line

theorem classify_congr {a b : Text} (same : stripComment a = stripComment b) :
    classify a = classify b := by
  rw [← classify_stripComment a, same, classify_stripComment]

theorem item_of_blank {line : Text} (kind : classify line = .blank) : item line = .nothing := by
  rw [← Assembler.item_stripComment, stripComment_of_blank kind]
  rfl

theorem classify_nop : classify "nop" = .assembly := by decide +kernel

/-- A branch begins with the letter that all of its mnemonics begin with. -/
theorem parse_of_foreign {line rest : Text} {c : Char} (shape : stripComment line = c :: rest)
    (solid : Text.isBlank c = false) (other : c ≠ 'b') : SpecialBranch.parse line = .ok none := by
  unfold SpecialBranch.parse
  rw [shape]
  split
  · rfl
  case h_2 mnemonic more cut =>
    obtain ⟨d, blank, whole, -⟩ := Text.eq_of_cutWhere cut
    have unknown : Branch.Mnemonic.ofName? mnemonic = none := by
      cases mnemonic with
      | nil =>
        obtain rfl : c = d := (List.cons.inj whole).1
        rw [solid] at blank
        cases blank
      | cons e mnemonic =>
        obtain rfl : c = e := (List.cons.inj whole).1
        simp [Branch.Mnemonic.ofName?, other]
    rw [unknown]

/-- A line that includes a file is left to the assembler. -/
theorem classify_of_fileOf? {line file : Text} (found : Includes.fileOf? line = some file) :
    classify line = .assembly := by
  obtain ⟨rest, lead, -⟩ := Option.map_eq_some_iff.mp found
  have shape : stripComment line = '.' :: ("include".toList ++ rest) :=
    Text.dropLeading?_eq_some_iff.mp lead
  have stripped : stripComment (stripComment line) = '.' :: ("include".toList ++ rest) := by
    rw [stripComment_stripComment, shape]
  unfold classify
  simp only [parse_of_foreign stripped (by decide) (by decide),
    Segment.ofLine?_of_foreign stripped (by decide) (by decide) (by decide)]
  rw [shape]
  rfl

end Line

namespace Hex

theorem encode_zeros (count : Nat) : encode (Bytes.zeros count) = List.replicate (2 * count) '0' := by
  induction count with
  | zero => rfl
  | succ count ih =>
    have step : Bytes.zeros (count + 1) = 0 :: Bytes.zeros count := rfl
    rw [step, encode_cons, ih, Nat.mul_succ, List.replicate_succ, List.replicate_succ]
    rfl

end Hex

namespace Change

/-- A line without assembly on which each stretch of digits is whole bytes. -/
structure IsWhole (line : Text) : Prop where
  plain : Line.classify line ≠ .assembly
  readable : Line.IsReadable line
  even : ∀ digits ∈ Line.stretches line, digits.length % 2 = 0

theorem IsWhole.congr {a b : Text} (whole : IsWhole a)
    (same : Line.stripComment a = Line.stripComment b) : IsWhole b := by
  have kind := Line.classify_congr same
  have stretches : Line.stretches a = Line.stretches b := by rw [Line.stretches, kind, Line.stretches]
  refine ⟨kind ▸ whole.plain, ?_, stretches ▸ whole.even⟩
  rw [Line.IsReadable, ← kind]
  exact whole.readable

/-- The digits of a whole line are the text of some bytes. -/
theorem IsWhole.decodes {line : Text} {segments : List Line.Segment} (whole : IsWhole line)
    (kind : Line.classify line = .hex segments) {digits : Text} (member : .hex digits ∈ segments) :
    ∃ bytes, Hex.decode digits = .ok bytes ∧ digits = Hex.encode bytes := by
  have areDigits := (Line.Segment.ofLine?_isSound (Line.parse_of_hex kind).2 _ member).1
  obtain ⟨bytes, rfl⟩ := areDigits.eq_encode (whole.even digits (Line.mem_stretches kind member))
  exact ⟨bytes, Hex.decode_encode bytes, rfl⟩

/-- The draft takes up the bytes of parts, with spans at their placeholders, if the parts are what
lines are expanded to, and fails like the expansion. -/
inductive Agrees {α : Type} (d : Draft) (parts : List Part) :
    Except EvaluateError α → Except EvaluateError Draft → Prop
  | error (e : EvaluateError) : Agrees d parts (.error e) (.error e)
  | ok {a : α} {spans : List Span} (placed : Placed (d.digits.length / 2) parts spans) :
      Agrees d parts (.ok a)
        (.ok ⟨d.digits ++ Hex.encode (parts.flatMap Part.blank), d.spans ++ spans⟩)

namespace Draft

theorem addPlaceholder_of_even {d : Draft} (even : d.digits.length % 2 = 0) (p : Placeholder)
    (width : Nat) (text : Text) (line : Nat) :
    d.addPlaceholder p width text line =
      .ok ⟨d.digits ++ Hex.encode (Bytes.zeros width),
        d.spans ++ [⟨d.digits.length / 2, width, p, text, line⟩]⟩ := by
  rw [addPlaceholder, if_neg (not_not.mpr even), Hex.encode_zeros]

theorem half_append {digits : Text} (even : digits.length % 2 = 0) (bytes : Bytes) :
    (digits ++ Hex.encode bytes).length / 2 = digits.length / 2 + bytes.length := by
  rw [List.length_append, Hex.length_encode]
  omega

theorem even_append {digits : Text} (even : digits.length % 2 = 0) (bytes : Bytes) :
    (digits ++ Hex.encode bytes).length % 2 = 0 := by
  rw [List.length_append, Hex.length_encode]
  omega

/-- Whole parts of a line add their bytes, and a span for each placeholder. -/
theorem addSegments_of_even {d : Draft} (even : d.digits.length % 2 = 0) (text : Text) (line : Nat)
    {parts : List (Line.Segment × Nat)} (decode : ∀ digits, .hex digits ∈ parts.map Prod.fst →
      ∃ bytes, Hex.decode digits = .ok bytes ∧ digits = Hex.encode bytes) :
    ∃ spans, Placed (d.digits.length / 2) (parts.map Part.ofSegment) spans ∧
      addSegments text line d parts =
        .ok ⟨d.digits ++ Hex.encode ((parts.map Part.ofSegment).flatMap Part.blank),
          d.spans ++ spans⟩ := by
  induction parts generalizing d with
  | nil => exact ⟨[], .nil, by simp [addSegments]⟩
  | cons part parts ih =>
    rw [List.map_cons] at decode
    have later : ∀ digits, .hex digits ∈ parts.map Prod.fst →
        ∃ bytes, Hex.decode digits = .ok bytes ∧ digits = Hex.encode bytes :=
      fun digits member => decode digits (List.mem_cons_of_mem _ member)
    obtain ⟨segment, width⟩ := part
    have placeholder (p : Placeholder)
        (added : d.addSegment text line segment width = d.addPlaceholder p width text line)
        (shape : Part.ofSegment (segment, width) = .hole p (dataDirectives (Bytes.zeros width))) :
        ∃ spans, Placed (d.digits.length / 2)
            (((segment, width) :: parts).map Part.ofSegment) spans ∧
          addSegments text line d ((segment, width) :: parts) =
            .ok ⟨d.digits ++ Hex.encode
              ((((segment, width) :: parts).map Part.ofSegment).flatMap Part.blank),
              d.spans ++ spans⟩ := by
      obtain ⟨spans, placed, rest⟩ := ih
        (d := ⟨d.digits ++ Hex.encode (Bytes.zeros width),
          d.spans ++ [⟨d.digits.length / 2, width, p, text, line⟩]⟩) (even_append even _) later
      have size : (bytesOf (dataDirectives (Bytes.zeros width))).length = width := by simp
      refine ⟨⟨d.digits.length / 2, width, p, text, line⟩ :: spans, ?_, ?_⟩
      · rw [List.map_cons, shape]
        refine .hole rfl size.symm rfl ?_
        rw [half_append even, Bytes.length_zeros] at placed
        rwa [size]
      · rw [addSegments, added, addPlaceholder_of_even even]
        simp only [rest, List.map_cons, List.flatMap_cons, shape, Part.blank, size,
          Hex.encode_append, List.append_assoc, List.singleton_append]
    cases segment with
    | hex digits =>
      obtain ⟨bytes, decoded, rfl⟩ := decode digits List.mem_cons_self
      obtain ⟨spans, placed, rest⟩ := ih (d := { d with digits := d.digits ++ Hex.encode bytes })
        (even_append even _) later
      have own : Part.decoded (Hex.encode bytes) = bytes := by rw [Part.decoded, decoded]
      refine ⟨spans, ?_, ?_⟩
      · rw [List.map_cons, Part.ofSegment, own]
        apply Placed.lines
        rw [bytesOf_dataDirectives]
        rwa [half_append even] at placed
      · rw [addSegments, addSegment]
        simp only [rest, List.map_cons, List.flatMap_cons, Part.ofSegment, own, Part.blank,
          bytesOf_dataDirectives, Hex.encode_append, List.append_assoc]
    | symbol name => exact placeholder (.symbols [name]) rfl rfl
    | options names => exact placeholder (.options names) rfl rfl

end Draft

/-- Digits that can be decoded are expanded. -/
theorem Expansion.ofSegments_of_decodes (text : Text) (index : Nat)
    {parts : List (Line.Segment × Nat)} (decode : ∀ digits, .hex digits ∈ parts.map Prod.fst →
      ∃ bytes, Hex.decode digits = .ok bytes) : ∃ e, ofSegments text index parts = .ok e := by
  induction parts generalizing index with
  | nil => exact ⟨_, rfl⟩
  | cons part parts ih =>
    rw [List.map_cons] at decode
    obtain ⟨segment, width⟩ := part
    obtain ⟨first, head⟩ : ∃ first, ofSegment text index segment width = .ok first := by
      cases segment with
      | hex digits =>
        obtain ⟨bytes, decoded⟩ := decode digits List.mem_cons_self
        exact ⟨_, by rw [ofSegment, decoded]⟩
      | symbol name => exact ⟨_, rfl⟩
      | options names => exact ⟨_, rfl⟩
    obtain ⟨more, tail⟩ := ih (index + first.found.length)
      fun digits member => decode digits (List.mem_cons_of_mem _ member)
    exact ⟨first.append more, ofSegments_cons_eq_ok_iff.mpr ⟨first, more, head, tail, rfl⟩⟩

variable {options : KnownOptions}

/-- A whole line without assembly is taken up as it is expanded. -/
theorem agrees_of_line {d : Draft} {line : Text} (even : d.digits.length % 2 = 0)
    (whole : IsWhole line) (index ix : Nat) :
    Agrees d (Part.ofLine options line) (Expansion.ofLine options index line)
      (d.addLine options ix line) := by
  unfold Part.ofLine Expansion.ofLine Draft.addLine
  cases kind : Line.classify line with
  | assembly => exact absurd kind whole.plain
  | overflow => exact absurd kind whole.readable
  | blank =>
    have none := placeholder?_of_blank kind
    have nothing : (Part.lines [line]).blank = [] := by
      simp [Part.blank, Line.item_of_blank kind, Item.bytes]
    have same : Agrees d [.lines [line]] (.ok (⟨[line], []⟩ : Expansion))
        (.ok ⟨d.digits ++ Hex.encode ([Part.lines [line]].flatMap Part.blank), d.spans ++ []⟩) :=
      .ok (.lines .nil)
    rw [List.flatMap_singleton, nothing, Hex.encode_nil, List.append_nil, List.append_nil] at same
    simp only [Part.ofPlainLine, Expansion.ofPlainLine, none]
    exact same
  | branch branch =>
    have found := placeholder?_of_branch kind
    have word : Expansion.provisional (Line.stripComment line) (.branch branch) = ".long 0" := rfl
    have four : (bytesOf [".long 0".toList]).length = 4 := by decide +kernel
    simp only [Part.ofPlainLine, Expansion.ofPlainLine, found, word,
      Draft.addPlaceholder_of_even even]
    have placed : Placed (d.digits.length / 2) [.hole (.branch branch) [".long 0"]]
        [⟨d.digits.length / 2, 4, .branch branch, Line.stripComment line, ix⟩] :=
      .hole rfl four.symm rfl .nil
    have agrees := Agrees.ok (a := (⟨labelled index [".long 0"], [.branch branch]⟩ : Expansion)) placed
    rw [List.flatMap_singleton, Part.blank, four] at agrees
    exact agrees
  | hex segments =>
    simp only [Part.ofSegments]
    cases found : placeholderWidths options segments with
    | error e => exact .error e
    | ok widths =>
      have fst := map_fst_zip_widths found
      have decodes : ∀ digits, .hex digits ∈ (segments.zip widths).map Prod.fst →
          ∃ bytes, Hex.decode digits = .ok bytes ∧ digits = Hex.encode bytes := by
        intro digits member
        rw [fst] at member
        exact whole.decodes kind member
      obtain ⟨e, expanded⟩ := Expansion.ofSegments_of_decodes (Line.stripComment line) index
        fun digits member => (decodes digits member).imp fun _ => And.left
      obtain ⟨spans, placed, added⟩ :=
        Draft.addSegments_of_even even (Line.stripComment line) ix decodes
      change Agrees d ((segments.zip widths).map Part.ofSegment)
        (Expansion.ofSegments _ index _) (Draft.addSegments _ ix d _)
      rw [expanded, added]
      exact .ok placed

theorem Placed.concat {offset : Nat} {front back : List Part} {here there : List Span}
    (near : Placed offset front here)
    (far : Placed (offset + (front.flatMap Part.bytes).length) back there) :
    Placed offset (front ++ back) (here ++ there) := by
  induction near with
  | nil => exact far
  | lines rest ih =>
    rw [List.flatMap_cons, List.length_append, ← Nat.add_assoc] at far
    exact .lines (ih far)
  | hole start width kind rest ih =>
    rw [List.flatMap_cons, List.length_append, ← Nat.add_assoc] at far
    exact .hole start width kind (ih far)

/-- Whole lines without assembly are taken up as they are expanded. -/
theorem agrees_of_lines {d : Draft} {lines : List Text} (even : d.digits.length % 2 = 0)
    (whole : ∀ line ∈ lines, IsWhole line) (index ix : Nat) :
    Agrees d (lines.flatMap (Part.ofLine options)) (Expansion.ofLines options index lines)
      (Draft.addLines options d ix lines) := by
  induction lines generalizing d index ix with
  | nil =>
    have same : Agrees d [] (.ok ([] : List Expansion))
        (.ok ⟨d.digits ++ Hex.encode (([] : List Part).flatMap Part.blank), d.spans ++ []⟩) :=
      .ok .nil
    rw [List.flatMap_nil, Hex.encode_nil, List.append_nil, List.append_nil] at same
    exact same
  | cons line lines ih =>
    rw [List.forall_mem_cons] at whole
    have first : Agrees d (Part.ofLine options line) (Expansion.ofLine options index line)
        (d.addLine options ix line) := agrees_of_line even whole.1 index ix
    rw [Expansion.ofLines, Draft.addLines]
    generalize Expansion.ofLine options index line = a at first
    generalize d.addLine options ix line = b at first
    cases first with
    | error e => exact .error e
    | @ok e here near =>
      have rest := ih
        (d := ⟨d.digits ++ Hex.encode ((Part.ofLine options line).flatMap Part.blank), d.spans ++ here⟩)
        (Draft.even_append even _) whole.2 (index + e.found.length) (ix + 1)
      change Agrees d _
        (Expansion.ofLines options (index + e.found.length) lines >>= fun more => .ok (e :: more)) _
      simp only
      generalize Expansion.ofLines options (index + e.found.length) lines = a at rest
      generalize Draft.addLines options _ (ix + 1) lines = b at rest
      cases rest with
      | error e => exact .error e
      | @ok more there far =>
        rw [Draft.half_append even, length_flatMap_blank] at far
        have agrees := Agrees.ok (a := e :: more) (near.concat far)
        rw [List.flatMap_append, Hex.encode_append, ← List.append_assoc, ← List.append_assoc] at agrees
        exact agrees

/-- A part of one line that makes bytes defines no label, and the assembler takes it. -/
theorem quiet_of_data {part : Part} {line : Text} (only : part.body = [line]) (tame : IsTame line)
    (data : ∃ bytes, item line = .data bytes) : part.IsQuiet ∧ Accepts part.body := by
  obtain ⟨bytes, made⟩ := data
  rw [Part.IsQuiet, Accepts, only, List.forall_mem_singleton, List.forall_mem_singleton, made]
  exact ⟨tame.quiet, id⟩

/-- Whatever a whole line holds, it defines no label, and the assembler takes its parts. -/
theorem parts_of_whole {line : Text} (whole : IsWhole line) (clean : '\n' ∉ line) :
    ∀ part ∈ Part.ofLine options line, part.IsQuiet ∧ Accepts part.body := by
  have directives (bytes : Bytes) : (∀ l ∈ dataDirectives bytes, IsQuiet l) ∧
      Accepts (dataDirectives bytes) :=
    ⟨fun _ member => (isTame_of_mem_dataDirectives member).quiet, accepts_dataDirectives bytes⟩
  unfold Part.ofLine
  cases kind : Line.classify line with
  | assembly => exact absurd kind whole.plain
  | overflow => exact absurd kind whole.readable
  | blank =>
    have nothing := Line.item_of_blank kind
    simp only [Part.ofPlainLine, placeholder?_of_blank kind]
    rw [List.forall_mem_singleton]
    constructor
    · intro l member
      rw [List.mem_singleton.mp member]
      exact ⟨clean, fun name defines => by rw [nothing] at defines; cases defines⟩
    · intro l member
      rw [List.mem_singleton.mp member, nothing]
      exact id
  | branch branch =>
    have word : Expansion.provisional (Line.stripComment line) (.branch branch) = ".long 0" := rfl
    have tame : IsTame ".long 0" := by decide
    have accepted : ∃ bytes, item ".long 0" = .data bytes := ⟨Bytes.zeros 4, by decide +kernel⟩
    simp only [Part.ofPlainLine, placeholder?_of_branch kind, word]
    exact List.forall_mem_singleton.mpr (quiet_of_data rfl tame accepted)
  | hex segments =>
    simp only [Part.ofSegments]
    split
    · rw [List.forall_mem_map]
      rintro ⟨segment, width⟩ -
      cases segment with
      | hex digits => exact directives _
      | symbol name => exact directives _
      | options names => exact directives _
    · simp

/-- A line that can always be expanded changes nothing about whether the lines before it can. -/
theorem Expansion.ofLines_concat {last : Text} (expanded : ∀ index, ∃ e, ofLine options index last = .ok e)
    (index : Nat) (lines : List Text) :
    (∀ e, ofLines options index lines = .error e → ofLines options index (lines ++ [last]) = .error e) ∧
      ∀ es, ofLines options index lines = .ok es →
        ∃ more, ofLines options index (lines ++ [last]) = .ok more := by
  induction lines generalizing index with
  | nil =>
    obtain ⟨e, here⟩ := expanded index
    refine ⟨fun _ impossible => (by cases impossible), fun _ _ => ⟨[e], ?_⟩⟩
    exact Fallible.bind_eq_ok_iff.mpr ⟨e, here, rfl⟩
  | cons line lines ih =>
    constructor
    · intro error failed
      rcases Fallible.bind_eq_error_iff.mp failed with head | ⟨e, head, chain⟩
      · exact Fallible.bind_eq_error_iff.mpr (Or.inl head)
      · rcases Fallible.bind_eq_error_iff.mp chain with tail | ⟨more, -, impossible⟩
        · have later := (ih _).1 error tail
          exact Fallible.bind_eq_error_iff.mpr
            (Or.inr ⟨e, head, Fallible.bind_eq_error_iff.mpr (Or.inl later)⟩)
        · cases impossible
    · intro es done
      obtain ⟨e, more, head, tail, -⟩ := ofLines_cons_eq_ok_iff.mp done
      obtain ⟨longer, later⟩ := (ih _).2 more tail
      exact ⟨e :: longer, ofLines_cons_eq_ok_iff.mpr ⟨e, longer, head, later, rfl⟩⟩

theorem placeholder?_nop : Expansion.placeholder? (Line.stripComment "nop") = none := by
  decide +kernel

theorem Part.ofLine_nop : Part.ofLine options "nop" = [.lines ["nop"]] := by
  rw [Part.ofLine, Line.classify_nop]
  simp only [Part.ofPlainLine, placeholder?_nop]

theorem Expansion.ofLine_nop (index : Nat) : ∃ e, ofLine options index "nop" = .ok e := by
  rw [ofLine, Line.classify_nop]
  simp only [ofPlainLine, placeholder?_nop]
  exact ⟨_, rfl⟩

theorem placedFrom_nop (ix : Nat) : placedFrom ix ["nop"] = [] := by
  rw [placedFrom, placeholdersOf, Line.classify_nop]
  simp only [placeholder?_nop]
  rfl

/-- Whole lines and an instruction include no file. -/
theorem missing?_of_whole {includes : Includes} {lines : List Text}
    (whole : ∀ line ∈ lines, IsWhole line) : includes.missing? (lines ++ ["nop".toList]) = none := by
  have noFile : (lines ++ ["nop".toList]).filterMap Includes.fileOf? = [] := by
    rw [List.filterMap_eq_nil_iff]
    intro line member
    rcases List.mem_append.mp member with inside | last
    · rw [Option.eq_none_iff_forall_ne_some]
      exact fun file found => (whole line inside).plain (Line.classify_of_fileOf? found)
    · rw [List.mem_singleton.mp last]
      decide +kernel
  rw [Includes.missing?, noFile]
  rfl

theorem bytesOf_nop : Hex.encode (bytesOf ["nop"]) = "60000000" := by decide +kernel

/-- The assembly of parts and an instruction behind them has the spans that are placed at the parts'
placeholders. -/
theorem ofReply_of_placed {lines : List Text} {expansions : List Expansion} {parts : List Part}
    {spans : List Span} (quiet : ∀ part ∈ parts, part.IsQuiet ∧ Accepts part.body)
    (source : expansions.flatMap Expansion.source = Part.source 0 (parts ++ [.lines ["nop"]]))
    (located : spans.map Span.located = Expansion.located 0 lines expansions)
    (placed : Placed 0 parts spans) :
    ofReply lines expansions (Assembler.assemble (Expansion.text expansions)) =
      .ok ⟨Hex.encode (parts.flatMap Part.blank) ++ "60000000", spans, true⟩ := by
  have nop : (Part.lines ["nop"]).IsQuiet ∧ Accepts (Part.lines ["nop"]).body := by
    have tame : IsTame "nop" := by decide
    have data : ∃ bytes, item "nop" = .data bytes :=
      ⟨Assembler.instruction 0x60000000, by decide +kernel⟩
    exact quiet_of_data rfl tame data
  have all : ∀ part ∈ parts ++ [.lines ["nop"]], part.IsQuiet ∧ Accepts part.body :=
    List.forall_mem_append.mpr ⟨quiet, List.forall_mem_singleton.mpr nop⟩
  have allQuiet : ∀ part ∈ parts ++ [.lines ["nop"]], part.IsQuiet := fun part member => (all part member).1
  have accepted : Accepts (Part.source 0 (parts ++ [.lines ["nop"]])) :=
    accepts_source fun part member => (all part member).2
  have whole : Placed 0 (parts ++ [.lines ["nop"]]) (spans ++ []) := placed.concat (.lines .nil)
  rw [List.append_nil] at whole
  have clean : ∀ line ∈ Part.source 0 (parts ++ [.lines ["nop"]]), '\n' ∉ line :=
    newline_not_mem_source fun part member line inside => (allQuiet part member line inside).1
  have reply := (Assembler.assemble_joinLines_eq_ok_iff clean).mpr ⟨accepted, rfl⟩
  rw [Expansion.text, source]
  refine ofReply_eq_ok_iff.mpr ⟨_, spans, reply, ?_, ?_⟩
  · rw [← located]
    exact spansOf_of_placed [] allQuiet rfl (Nat.le_refl _) whole
  · have cleared := clear_of_placed [] whole
    rw [List.nil_append, List.nil_append, List.flatMap_append, List.flatMap_append] at cleared
    rw [bytesOf_source, List.flatMap_append, cleared, Hex.encode_append]
    exact congrArg (fun last => (⟨_ ++ last, spans, true⟩ : Intermediate)) bytesOf_nop.symm

/-- The bytes and spans that the draft of whole lines has taken up are those that the assembler leaves
for the lines and an instruction behind them. -/
theorem evaluateAssembly_of_whole {includes : Includes} {code : Text} {lines : List Text}
    (split : Text.lines code = lines ++ ["nop".toList]) (whole : ∀ line ∈ lines, IsWhole line) :
    (evaluateAssembly includes options code).run Assembler.toolchain =
      (Draft.addLines options ⟨[], []⟩ 0 lines).map
        fun d => ⟨d.digits ++ "60000000", d.spans, true⟩ := by
  have agrees : Agrees ⟨[], []⟩ (lines.flatMap (Part.ofLine options))
      (Expansion.ofLines options 0 lines) (Draft.addLines options ⟨[], []⟩ 0 lines) :=
    agrees_of_lines rfl whole 0 0
  have last : ∀ index, ∃ e, Expansion.ofLine options index "nop" = .ok e := Expansion.ofLine_nop
  obtain ⟨failing, working⟩ := Expansion.ofLines_concat last 0 lines
  have present : expand includes options (lines ++ ["nop".toList]) =
      Expansion.ofLines options 0 (lines ++ ["nop".toList]) := by
    rw [expand, missing?_of_whole whole]
  rw [evaluateAssembly, split]
  simp only [present]
  generalize expansions : Expansion.ofLines options 0 lines = a at agrees failing working
  generalize drafted : Draft.addLines options ⟨[], []⟩ 0 lines = b at agrees
  cases agrees with
  | error e =>
    rw [failing e rfl]
    rfl
  | @ok es spans placed =>
    obtain ⟨more, expanded⟩ := working es rfl
    rw [expanded]
    have quiet : ∀ part ∈ lines.flatMap (Part.ofLine options), part.IsQuiet ∧ Accepts part.body := by
      intro part member
      obtain ⟨line, inside, found⟩ := List.mem_flatMap.mp member
      have clean : '\n' ∉ line :=
        Text.newline_not_mem_of_mem_lines (split ▸ List.mem_append_left _ inside)
      exact parts_of_whole (whole line inside) clean part found
    have source := (Expansion.ofLines_eq_parts expanded).1
    rw [List.flatMap_append, List.flatMap_singleton, Part.ofLine_nop] at source
    have located := Draft.addLines_located drafted
    have behind : placedFrom 0 (lines ++ ["nop".toList]) = placedFrom 0 lines := by
      rw [placedFrom_append, placedFrom_nop, List.append_nil]
    rw [← behind, ← Expansion.located_ofLines expanded] at located
    exact ofReply_of_placed quiet source located placed

namespace Draft

/-- The draft sees of a line what is left of it without its comment. -/
theorem addLines_congr {a b : List Text} (same : a.map Line.stripComment = b.map Line.stripComment)
    (d : Draft) (ix : Nat) : addLines options d ix a = addLines options d ix b := by
  induction a generalizing b d ix with
  | nil =>
    obtain rfl : b = [] := List.map_eq_nil_iff.mp same.symm
    rfl
  | cons line a ih =>
    obtain ⟨line', b, rfl, first, rest⟩ := List.map_eq_cons_iff.mp same.symm
    have step : d.addLine options ix line = d.addLine options ix line' := by
      rw [addLine, addLine, Line.classify_congr first, first]
    rw [addLines, addLines, step]
    split
    · exact ih rest.symm _ _
    · rfl

theorem addLines_concat_empty (d : Draft) (ix : Nat) (lines : List Text) :
    addLines options d ix (lines ++ [[]]) = addLines options d ix lines := by
  induction lines generalizing d ix with
  | nil => rfl
  | cons line lines ih =>
    rw [List.cons_append, addLines, addLines]
    split
    · exact ih _ _
    · rfl

end Draft

/-- The digits of whole lines are an even number, so that the first pass takes the draft as it is. -/
theorem evaluateHex_of_whole {code : Text} (whole : ∀ line ∈ Text.lines code, IsWhole line) :
    evaluateHex options code =
      (Draft.addLines options ⟨[], []⟩ 0 (Text.lines code)).map
        fun d => ⟨d.digits, d.spans, false⟩ := by
  have agrees : Agrees ⟨[], []⟩ ((Text.lines code).flatMap (Part.ofLine options))
      (Expansion.ofLines options 0 (Text.lines code))
      (Draft.addLines options ⟨[], []⟩ 0 (Text.lines code)) := agrees_of_lines rfl whole 0 0
  unfold evaluateHex
  generalize Expansion.ofLines options 0 (Text.lines code) = a at agrees
  generalize Draft.addLines options ⟨[], []⟩ 0 (Text.lines code) = b at agrees
  cases agrees with
  | error e => rfl
  | ok placed =>
    have none : ([] : Text).length % 2 = 0 := rfl
    have even := Draft.even_append none
      (((Text.lines code).flatMap (Part.ofLine options)).flatMap Part.blank)
    simp only [even, ne_eq, not_true_eq_false, ↓reduceIte, Except.map]

/-- Digits come to the same bytes and spans, or to the same error, by themselves and as directives in
front of an instruction that the assembler is needed for. -/
theorem evaluateCode_concat_nop {includes : Includes} {options : KnownOptions} {code : Text}
    (plain : Code.isAssembly code = .ok false)
    (even : ∀ line ∈ Text.lines code, ∀ digits ∈ Line.stretches line, digits.length % 2 = 0) :
    (evaluateCode includes options (code ++ "\nnop")).run Assembler.toolchain =
      ((evaluateCode includes options code).run Assembler.toolchain).map
        fun i => ⟨i.hex ++ "60000000", i.spans, true⟩ := by
  have whole : ∀ line ∈ Text.lines code, IsWhole line := by
    intro line member
    have none := (Line.anyAssembly_eq_false_iff.mp plain).2
    exact ⟨fun kind => none (kind ▸ List.mem_map_of_mem member),
      isReadable_of_isAssembly plain line member, even line member⟩
  have blind (l : Text) : Line.stripComment (l ++ ['\r']) = Line.stripComment l :=
    Line.stripComment_concat_blank l (by decide)
  obtain ⟨above, last, empty, split, same⟩ := Text.map_lines_append_newline blind code "nop"
  have nop : Text.lines "nop" = ["nop".toList] := by decide
  have lines : Text.lines (code ++ "\nnop") = above ++ ["nop".toList] := nop ▸ split
  have wholeAbove : ∀ line ∈ above, IsWhole line := by
    intro line member
    have seen : Line.stripComment line ∈ (Text.lines code ++ last).map Line.stripComment :=
      same ▸ List.mem_map_of_mem member
    obtain ⟨line', inside, equal⟩ := List.mem_map.mp seen
    refine IsWhole.congr ?_ equal
    rcases List.mem_append.mp inside with ofCode | added
    · exact whole line' ofCode
    · obtain rfl : line' = [] := by
        rcases List.mem_pair.mp empty with rfl | rfl
        · cases added
        · exact List.mem_singleton.mp added
      have blank : Line.classify [] = .blank := by decide
      exact ⟨by rw [blank]; exact Line.Kind.noConfusion, by rw [Line.IsReadable, blank]; simp,
        by rw [Line.stretches, blank]; simp⟩
  have drafted : Draft.addLines options ⟨[], []⟩ 0 above =
      Draft.addLines options ⟨[], []⟩ 0 (Text.lines code) := by
    rw [Draft.addLines_congr same]
    rcases List.mem_pair.mp empty with rfl | rfl
    · rw [List.append_nil]
    · exact Draft.addLines_concat_empty _ _ _
  have assembly : Code.isAssembly (code ++ "\nnop") = .ok true := by
    rw [Code.isAssembly, lines, List.map_append, List.map_singleton, Line.classify_nop,
      Line.anyAssembly_of_readable]
    · simp
    · rw [List.mem_append, List.mem_singleton, not_or]
      refine ⟨fun member => ?_, by simp⟩
      obtain ⟨line, inside, kind⟩ := List.mem_map.mp member
      exact (wholeAbove line inside).readable kind
  rw [evaluateCode, assembly, evaluateCode, plain]
  rw [evaluateAssembly_of_whole lines wholeAbove, drafted, Assembling.run, evaluateHex_of_whole whole]
  cases Draft.addLines options ⟨[], []⟩ 0 (Text.lines code) <;> rfl

/-- Digits with an option at the end of a word, the address of a function with a byte behind it, and
a call of the function. -/
def mixedDigits : Text := "38600001 4E80[[Lives]] # the tail\n<<Table>>AB\n\nbl <Table> + 4\r"

theorem mixedDigits_concat_nop :
    (evaluateCode ⟨fun _ => false, []⟩ none (mixedDigits ++ "\nnop")).run Assembler.toolchain =
      .ok
        { hex := "386000014E80000000000000AB0000000060000000"
          spans :=
            [⟨6, 2, .options ["Lives"], "38600001 4E80[[Lives]]", 0⟩,
              ⟨8, 4, .symbols ["Table"], "<<Table>>AB", 1⟩,
              ⟨13, 4, .branch ⟨.bl, .symbol "Table", 4⟩, "bl <Table> + 4", 3⟩]
          isAssembly := true } := by
  have first : (evaluateCode ⟨fun _ => false, []⟩ none mixedDigits).run Assembler.toolchain =
      .ok
        { hex := "386000014E80000000000000AB00000000"
          spans :=
            [⟨6, 2, .options ["Lives"], "38600001 4E80[[Lives]]", 0⟩,
              ⟨8, 4, .symbols ["Table"], "<<Table>>AB", 1⟩,
              ⟨13, 4, .branch ⟨.bl, .symbol "Table", 4⟩, "bl <Table> + 4", 3⟩]
          isAssembly := false } := by decide +kernel
  rw [evaluateCode_concat_nop (by decide +kernel) (by decide +kernel), first]
  rfl

end Change

end GamePatch
