import GamePatch.Proofs.Change.Layout

set_option autoImplicit false

namespace GamePatch.Change

open Assembler (item bytesOf Accepts Item)

def Part.IsTame (p : Part) : Prop := ∀ line ∈ p.body, Change.IsTame line

def Part.IsQuiet (p : Part) : Prop := ∀ line ∈ p.body, Change.IsQuiet line

theorem Part.IsTame.quiet {p : Part} (tame : p.IsTame) : p.IsQuiet :=
  fun line member => (tame line member).quiet

theorem newline_not_mem_label {name : Text} (letters : ∀ c ∈ name, Assembler.isLabelChar c = true) :
    '\n' ∉ name ++ [':'] := by
  rw [List.mem_append, not_or]
  exact ⟨fun member => absurd (letters _ member) (by decide), by decide⟩

/-- The labels of a source bring no line feed into it. -/
theorem newline_not_mem_source {index : Nat} {parts : List Part}
    (clean : ∀ part ∈ parts, ∀ line ∈ part.body, '\n' ∉ line) :
    ∀ line ∈ Part.source index parts, '\n' ∉ line := by
  induction parts generalizing index with
  | nil => simp [Part.source]
  | cons part parts ih =>
    rw [List.forall_mem_cons] at clean
    cases part with
    | lines ls =>
      rw [Part.source, List.forall_mem_append]
      exact ⟨clean.1, ih clean.2⟩
    | hole p body =>
      rw [Part.source, labelled, List.forall_mem_append, List.forall_mem_append,
        List.forall_mem_append, List.forall_mem_singleton, List.forall_mem_singleton]
      exact ⟨⟨⟨newline_not_mem_label (startLabel_letters index), clean.1⟩,
        newline_not_mem_label (endLabel_letters index)⟩, ih clean.2⟩

theorem bytesOf_labelled (index : Nat) (body : List Text) :
    bytesOf (labelled index body) = bytesOf body := by
  simp [labelled, item_startLabel, item_endLabel, Item.bytes]

/-- The bytes of a source are those of its parts. -/
theorem bytesOf_source (index : Nat) (parts : List Part) :
    bytesOf (Part.source index parts) = parts.flatMap Part.bytes := by
  induction parts generalizing index with
  | nil => rfl
  | cons part parts ih =>
    cases part with
    | lines ls => rw [Part.source, Assembler.bytesOf_append, ih]; rfl
    | hole p body => rw [Part.source, Assembler.bytesOf_append, bytesOf_labelled, ih]; rfl

/-- The source of some parts has all of their lines. -/
theorem Part.mem_source {index : Nat} {parts : List Part} {part : Part} {line : Text}
    (member : part ∈ parts) (inside : line ∈ part.body) : line ∈ Part.source index parts := by
  induction parts generalizing index with
  | nil => cases member
  | cons first parts ih =>
    cases first with
    | lines ls =>
      rw [Part.source, List.mem_append]
      rcases List.mem_cons.mp member with rfl | later
      · exact Or.inl inside
      · exact Or.inr (ih later)
    | hole p body =>
      rw [Part.source, labelled, List.mem_append, List.mem_append, List.mem_append]
      rcases List.mem_cons.mp member with rfl | later
      · exact Or.inl (Or.inl (Or.inr inside))
      · exact Or.inr (ih later)

theorem accepts_of_source {index : Nat} {parts : List Part}
    (accepted : Accepts (Part.source index parts)) : ∀ part ∈ parts, Accepts part.body :=
  fun _ member line inside => accepted line (Part.mem_source member inside)

theorem accepts_source {index : Nat} {parts : List Part}
    (accepted : ∀ part ∈ parts, Accepts part.body) : Accepts (Part.source index parts) := by
  induction parts generalizing index with
  | nil => simp [Part.source, Accepts]
  | cons part parts ih =>
    rw [List.forall_mem_cons] at accepted
    cases part with
    | lines ls => exact Assembler.accepts_append.mpr ⟨accepted.1, ih accepted.2⟩
    | hole p body =>
      have label {name : Text} (defines : item (name ++ [':']) = .label name) :
          Accepts [name ++ [':']] := by
        intro line member
        rw [List.mem_singleton.mp member, defines]
        exact id
      have inside : Accepts (labelled index body) :=
        Assembler.accepts_append.mpr ⟨Assembler.accepts_append.mpr
          ⟨label (item_startLabel index), accepted.1⟩, label (item_endLabel index)⟩
      exact Assembler.accepts_append.mpr ⟨inside, ih accepted.2⟩

theorem label_not_mem_of_quiet {name : Text} (mark : reserved <:+: name) {ls : List Text}
    (quiet : ∀ line ∈ ls, IsQuiet line) : Item.label name ∉ ls.map item := by
  intro member
  obtain ⟨line, inside, defines⟩ := List.mem_map.mp member
  exact (quiet line inside).2 name defines mark

/-- The labels in a source of quiet parts that begin with the mark are those of its numbers. -/
theorem label_of_mem_source {name : Text} (mark : reserved <:+: name) {index : Nat}
    {parts : List Part} (quiet : ∀ part ∈ parts, part.IsQuiet)
    (member : Item.label name ∈ (Part.source index parts).map item) :
    ∃ m, index ≤ m ∧ (name = startLabel m ∨ name = endLabel m) := by
  induction parts generalizing index with
  | nil => cases member
  | cons part parts ih =>
    rw [List.forall_mem_cons] at quiet
    cases part with
    | lines ls =>
      rw [Part.source, List.map_append, List.mem_append] at member
      rcases member with here | later
      · exact absurd here (label_not_mem_of_quiet mark quiet.1)
      · exact ih quiet.2 later
    | hole p body =>
      rw [Part.source, labelled] at member
      simp only [List.map_append, List.map_cons, List.map_nil, item_startLabel, item_endLabel,
        List.mem_append, List.mem_singleton, Item.label.injEq] at member
      rcases member with ((start | here) | stop) | later
      · exact ⟨index, Nat.le_refl _, Or.inl start⟩
      · exact absurd here (label_not_mem_of_quiet mark quiet.1)
      · exact ⟨index, Nat.le_refl _, Or.inr stop⟩
      · obtain ⟨m, behind, named⟩ := ih quiet.2 later
        exact ⟨m, by omega, named⟩

/-- Spans at the places of the placeholders of parts, of which the first is at `offset`. -/
inductive Placed : Nat → List Part → List Span → Prop
  | nil {offset : Nat} : Placed offset [] []
  | lines {offset : Nat} {ls : List Text} {parts : List Part} {spans : List Span}
      (rest : Placed (offset + (bytesOf ls).length) parts spans) :
      Placed offset (.lines ls :: parts) spans
  | hole {offset : Nat} {p : Placeholder} {body : List Text} {parts : List Part} {s : Span}
      {spans : List Span} (start : s.offset = offset) (width : s.width = (bytesOf body).length)
      (kind : s.placeholder = p) (rest : Placed (offset + (bytesOf body).length) parts spans) :
      Placed offset (.hole p body :: parts) (s :: spans)

theorem spanOf_eq_ok {assembly : Assembly} {index : Nat} {found : Expansion.Located} {s : Span}
    (read : spanOf assembly index found = .ok s) :
    ∃ start stop, assembly.labels.offset? (startLabel index) = some start ∧
      assembly.labels.offset? (endLabel index) = some stop ∧
        s = ⟨start, stop - start, found.placeholder, found.text, found.line⟩ := by
  unfold spanOf at read
  split at read
  case h_1 start stop known known' =>
    split at read
    · cases read
    · cases read
      exact ⟨start, stop, known, known', rfl⟩
  case h_2 => cases read

/-- The labels of a placeholder lie before and behind the bytes of its lines, as no line behind them
defines them again. -/
theorem offset?_labelled (index : Nat) (front : List Text) {body : List Text} {parts : List Part}
    (quietBody : ∀ line ∈ body, IsQuiet line) (quiet : ∀ part ∈ parts, part.IsQuiet) :
    let labels := Item.labels 0 []
      ((front ++ (labelled index body ++ Part.source (index + 1) parts)).map item)
    labels.offset? (startLabel index) = some (bytesOf front).length ∧
      labels.offset? (endLabel index) = some (bytesOf (front ++ body)).length := by
  have items : (front ++ (labelled index body ++ Part.source (index + 1) parts)).map item =
      front.map item ++ .label (startLabel index) ::
        (body.map item ++ .label (endLabel index) :: (Part.source (index + 1) parts).map item) := by
    simp [labelled, item_startLabel, item_endLabel]
  have later {name : Text} (mark : reserved <:+: name)
      (other : ∀ m, index + 1 ≤ m → name ≠ startLabel m ∧ name ≠ endLabel m) :
      Item.label name ∉ (Part.source (index + 1) parts).map item := by
    intro member
    obtain ⟨m, behind, same | same⟩ := label_of_mem_source mark quiet member
    · exact (other m behind).1 same
    · exact (other m behind).2 same
  have size (ls : List Text) : ((ls.map item).flatMap Item.bytes).length = (bytesOf ls).length := by
    rw [List.flatMap_map]
    rfl
  simp only [items]
  constructor
  · rw [Item.offset?_labels_of_last, size, Nat.zero_add]
    rw [List.mem_append, List.mem_cons, not_or, not_or]
    refine ⟨label_not_mem_of_quiet (reserved_startLabel index) quietBody, ?_, ?_⟩
    · exact fun same => startLabel_ne_endLabel index index (Item.label.inj same)
    · refine later (reserved_startLabel index) fun m behind => ⟨fun same => ?_, ?_⟩
      · have := startLabel_injective same
        omega
      · exact startLabel_ne_endLabel index m
  · have regroup : front.map item ++ Item.label (startLabel index) ::
        (body.map item ++ .label (endLabel index) :: (Part.source (index + 1) parts).map item) =
        (front.map item ++ .label (startLabel index) :: body.map item) ++
          .label (endLabel index) :: (Part.source (index + 1) parts).map item := by
      rw [List.append_assoc, List.cons_append]
    rw [regroup, Item.offset?_labels_of_last, List.flatMap_append, List.flatMap_cons, Nat.zero_add,
      Assembler.bytesOf_append, List.length_append, List.length_append, List.length_append, size, size]
    · simp [Item.bytes]
    · refine later (reserved_endLabel index) fun m behind => ⟨?_, fun same => ?_⟩
      · exact (startLabel_ne_endLabel m index).symm
      · have := endLabel_injective same
        omega

/-- The spans between the labels of a source are at the places of its placeholders. -/
theorem placed_of_spansOf {assembly : Assembly} (front : List Text) {index : Nat}
    {parts : List Part} {found : List Expansion.Located} {spans : List Span}
    (quiet : ∀ part ∈ parts, part.IsQuiet)
    (labels : assembly.labels = Item.labels 0 [] ((front ++ Part.source index parts).map item))
    (kinds : found.map Expansion.Located.placeholder = parts.filterMap Part.hole?)
    (read : spansOf assembly index found = .ok spans) : Placed (bytesOf front).length parts spans := by
  induction parts generalizing front index found spans with
  | nil =>
    obtain rfl : found = [] := List.map_eq_nil_iff.mp kinds
    cases read
    exact .nil
  | cons part parts ih =>
    rw [List.forall_mem_cons] at quiet
    cases part with
    | lines ls =>
      rw [Part.source, ← List.append_assoc] at labels
      have rest := ih (front ++ ls) quiet.2 labels kinds read
      rw [Assembler.bytesOf_append, List.length_append] at rest
      exact .lines rest
    | hole p body =>
      rw [List.filterMap_cons_some (b := p) (by rfl)] at kinds
      obtain ⟨first, more, rfl, kind, kinds'⟩ := List.map_eq_cons_iff.mp kinds
      obtain ⟨s, others, head, tail, rfl⟩ := Fallible.bind_bind_eq_ok_iff.mp read
      obtain ⟨start, stop, known, known', rfl⟩ := spanOf_eq_ok head
      rw [Part.source] at labels
      obtain ⟨start', stop'⟩ := offset?_labelled index front quiet.1 quiet.2
      rw [labels] at known known'
      obtain rfl : (bytesOf front).length = start := Option.some.inj (start'.symm.trans known)
      obtain rfl : (bytesOf (front ++ body)).length = stop := Option.some.inj (stop'.symm.trans known')
      rw [← List.append_assoc] at labels
      have rest := ih (front ++ labelled index body) quiet.2 labels kinds' tail
      rw [Assembler.bytesOf_append, bytesOf_labelled, List.length_append] at rest
      refine .hole rfl ?_ kind rest
      rw [Assembler.bytesOf_append, List.length_append, Nat.add_sub_cancel_left]

/-- Spans at the places of the placeholders are those between the labels. -/
theorem spansOf_of_placed {assembly : Assembly} (front : List Text) {index : Nat}
    {parts : List Part} {spans : List Span} (quiet : ∀ part ∈ parts, part.IsQuiet)
    (labels : assembly.labels = Item.labels 0 [] ((front ++ Part.source index parts).map item))
    (inside : (bytesOf (front ++ Part.source index parts)).length ≤ assembly.bytes.length)
    (placed : Placed (bytesOf front).length parts spans) :
    spansOf assembly index (spans.map Span.located) = .ok spans := by
  induction parts generalizing front index spans with
  | nil =>
    cases placed
    rfl
  | cons part parts ih =>
    rw [List.forall_mem_cons] at quiet
    cases placed with
    | @lines _ ls _ _ rest =>
      rw [Part.source, ← List.append_assoc] at labels inside
      rw [← List.length_append, ← Assembler.bytesOf_append] at rest
      exact ih (front ++ ls) quiet.2 labels inside rest
    | @hole _ p body _ s more start width kind rest =>
      rw [Part.source] at labels inside
      have own : ∀ line ∈ body, IsQuiet line := quiet.1
      obtain ⟨known, known'⟩ := offset?_labelled index front own quiet.2
      rw [← labels] at known known'
      rw [← List.append_assoc] at labels inside
      have later := ih (front ++ labelled index body) quiet.2 labels inside (by
        rw [Assembler.bytesOf_append, bytesOf_labelled, List.length_append]
        exact rest)
      have ordered : ¬ ((bytesOf (front ++ body)).length < (bytesOf front).length ||
          assembly.bytes.length < (bytesOf (front ++ body)).length) = true := by
        simp only [Assembler.bytesOf_append, bytesOf_labelled, List.length_append] at inside
        simp only [Assembler.bytesOf_append, List.length_append, Bool.or_eq_true, decide_eq_true_eq]
        omega
      have between : (bytesOf (front ++ body)).length - (bytesOf front).length = s.width := by
        rw [Assembler.bytesOf_append, List.length_append, width, Nat.add_sub_cancel_left]
      have here : spanOf assembly index s.located = .ok s := by
        rw [spanOf, known, known']
        simp only
        rw [if_neg ordered, between, ← start]
        rfl
      rw [List.map_cons, spansOf, here, later]
      rfl

theorem Placed.append {offset : Nat} {front back : List Part} {spans : List Span}
    (placed : Placed offset (front ++ back) spans) :
    ∃ here there, spans = here ++ there ∧ Placed offset front here ∧
      Placed (offset + (front.flatMap Part.bytes).length) back there := by
  induction front generalizing offset spans with
  | nil => exact ⟨[], spans, rfl, .nil, placed⟩
  | cons part front ih =>
    rw [List.flatMap_cons, List.length_append, ← Nat.add_assoc]
    cases placed with
    | lines rest =>
      obtain ⟨here, there, rfl, left, right⟩ := ih rest
      exact ⟨here, there, rfl, .lines left, right⟩
    | @hole _ _ _ _ s _ start width kind rest =>
      obtain ⟨here, there, rfl, left, right⟩ := ih rest
      exact ⟨s :: here, there, rfl, .hole start width kind left, right⟩

theorem Placed.placeholders {offset : Nat} {parts : List Part} {spans : List Span}
    (placed : Placed offset parts spans) :
    spans.map Span.placeholder = parts.filterMap Part.hole? := by
  induction placed with
  | nil => rfl
  | lines rest ih => exact ih
  | hole start width kind rest ih => rw [List.map_cons, ih, kind]; rfl

/-- The spans of a code are those in the parts of its first line and those in the parts of the lines below it. -/
theorem Placed.exists_split {options : KnownOptions} {index offset : Nat} {line : Text}
    {lines : List Text} {e : Expansion} {spans : List Span}
    (placed : Placed offset ((line :: lines).flatMap (Part.ofLine options)) spans)
    (expanded : Expansion.ofLine options index line = .ok e) :
    ∃ here there, spans = here ++ there ∧ here.length = (placeholdersOf line).length ∧
      Placed offset (Part.ofLine options line) here ∧
      Placed (offset + ((Part.ofLine options line).flatMap Part.bytes).length)
        (lines.flatMap (Part.ofLine options)) there := by
  rw [List.flatMap_cons] at placed
  obtain ⟨here, there, rfl, near, far⟩ := placed.append
  refine ⟨here, there, rfl, ?_, near, far⟩
  rw [Expansion.placeholdersOf_eq_holes expanded, ← near.placeholders, List.length_map]

/-- Parts are as long with zeros for their placeholders. -/
theorem length_flatMap_blank (parts : List Part) :
    (parts.flatMap Part.blank).length = (parts.flatMap Part.bytes).length := by
  induction parts with
  | nil => rfl
  | cons part parts ih =>
    rw [List.flatMap_cons, List.flatMap_cons, List.length_append, List.length_append, ih]
    cases part with
    | lines ls => rfl
    | hole p body => rw [Part.blank, Bytes.length_zeros]; rfl

/-- Zeros at the spans are zeros at the placeholders. -/
theorem clear_of_placed (front : Bytes) {parts : List Part} {spans : List Span}
    (placed : Placed front.length parts spans) :
    clear (front ++ parts.flatMap Part.bytes) spans = front ++ parts.flatMap Part.blank := by
  induction parts generalizing front spans with
  | nil => cases placed; rfl
  | cons part parts ih =>
    rw [List.flatMap_cons, List.flatMap_cons, ← List.append_assoc, ← List.append_assoc]
    cases placed with
    | @lines _ ls _ _ rest =>
      rw [← List.length_append] at rest
      exact ih (front ++ bytesOf ls) rest
    | @hole _ p body _ s _ start width kind rest =>
      have gap : (front ++ (Part.hole p body).bytes ++ parts.flatMap Part.bytes).splice s.offset
          (Bytes.zeros s.width) = front ++ (Part.hole p body).blank ++ parts.flatMap Part.bytes := by
        rw [start, width]
        exact Bytes.splice_middle _ _ _ _ (Bytes.length_zeros _)
      have behind : front.length + (bytesOf body).length =
          (front ++ (Part.hole p body).blank).length := by
        rw [List.length_append, Part.blank, Bytes.length_zeros]
      rw [clear, List.foldl_cons, gap]
      exact ih (front ++ (Part.hole p body).blank) (behind ▸ rest)

/-- Bytes of parts with values for their placeholders. -/
inductive Filling (c : Context) : List Part → List Span → Bytes → Prop
  | nil : Filling c [] [] []
  | lines {ls : List Text} {parts : List Part} {spans : List Span} {bytes : Bytes}
      (rest : Filling c parts spans bytes) : Filling c (.lines ls :: parts) spans (bytesOf ls ++ bytes)
  | hole {p : Placeholder} {body : List Text} {parts : List Part} {s : Span} {spans : List Span}
      {value bytes : Bytes} (found : c.spanBytes s = .ok value) (rest : Filling c parts spans bytes) :
      Filling c (.hole p body :: parts) (s :: spans) (value ++ bytes)

/-- Filling the spans puts their values in the places of the placeholders. -/
theorem filling_of_fillSpans {c : Context} (front : Bytes) {out : Bytes} {parts : List Part}
    {spans : List Span} (placed : Placed front.length parts spans)
    (filled : fillSpans c (front ++ parts.flatMap Part.blank) spans = .ok out) :
    ∃ bytes, out = front ++ bytes ∧ Filling c parts spans bytes := by
  induction parts generalizing front spans with
  | nil =>
    cases placed
    cases filled
    exact ⟨[], rfl, .nil⟩
  | cons part parts ih =>
    rw [List.flatMap_cons, ← List.append_assoc] at filled
    cases placed with
    | @lines _ ls _ _ rest =>
      rw [← List.length_append] at rest
      obtain ⟨bytes, same, filling⟩ := ih (front ++ bytesOf ls) rest filled
      exact ⟨bytesOf ls ++ bytes, by rw [same, List.append_assoc], .lines filling⟩
    | @hole _ p body _ s _ start width kind rest =>
      obtain ⟨value, found, size, -, more⟩ := fillSpans_cons_eq_ok_iff.mp filled
      have put : (front ++ (Part.hole p body).blank ++ parts.flatMap Part.blank).splice s.offset
          value = front ++ value ++ parts.flatMap Part.blank := by
        rw [start]
        exact Bytes.splice_middle _ _ _ _ (by rw [size, width, Part.blank, Bytes.length_zeros])
      have behind : front.length + (bytesOf body).length = (front ++ value).length := by
        rw [List.length_append, size, width]
      rw [put] at more
      obtain ⟨bytes, same, filling⟩ := ih (front ++ value) (behind ▸ rest) more
      exact ⟨value ++ bytes, by rw [same, List.append_assoc], .hole found filling⟩

theorem Filling.append {c : Context} {front back : List Part} {spans : List Span} {bytes : Bytes}
    (filling : Filling c (front ++ back) spans bytes) :
    ∃ here there left right, spans = here ++ there ∧ bytes = left ++ right ∧
      Filling c front here left ∧ Filling c back there right := by
  induction front generalizing spans bytes with
  | nil => exact ⟨[], spans, [], bytes, rfl, rfl, .nil, filling⟩
  | cons part front ih =>
    cases filling with
    | @lines ls _ _ bytes rest =>
      obtain ⟨here, there, left, right, rfl, rfl, near, far⟩ := ih rest
      exact ⟨here, there, bytesOf ls ++ left, right, rfl, by rw [List.append_assoc], .lines near, far⟩
    | @hole p body _ s _ value bytes found rest =>
      obtain ⟨here, there, left, right, rfl, rfl, near, far⟩ := ih rest
      exact ⟨s :: here, there, value ++ left, right, rfl, by rw [List.append_assoc],
        .hole found near, far⟩

theorem isTame_of_mem_lines {code line : Text} (free : ¬ reserved <:+: code)
    (member : line ∈ Text.lines code) : IsTame line :=
  ⟨Text.newline_not_mem_of_mem_lines member,
    fun mark => free (mark.trans (Text.isInfix_of_mem_lines member))⟩

/-- The lines of a line's parts are data directives, the line itself, or the line with values that
stand for those not known yet. -/
theorem Part.forall_mem_ofLine {P : Text → Prop} {options : KnownOptions} {line : Text}
    (directives : ∀ bytes, ∀ text ∈ dataDirectives bytes, P text) (own : P line)
    (provisional : ∀ p, P (Expansion.provisional (Line.stripComment line) p)) :
    ∀ part ∈ Part.ofLine options line, ∀ text ∈ part.body, P text := by
  unfold Part.ofLine
  split
  case h_1 segments _ =>
    unfold Part.ofSegments
    split
    · rw [List.forall_mem_map]
      rintro ⟨segment, width⟩ -
      cases segment <;> exact directives _
    · simp
  case h_2 =>
    rw [List.forall_mem_singleton]
    unfold Part.ofPlainLine
    split
    · exact List.forall_mem_singleton.mpr own
    · exact List.forall_mem_singleton.mpr (provisional _)

theorem Part.ofLine_isTame {options : KnownOptions} {line : Text} (tame : Change.IsTame line) :
    ∀ part ∈ Part.ofLine options line, part.IsTame :=
  Part.forall_mem_ofLine (fun _ _ => isTame_of_mem_dataDirectives) tame
    fun p => isTame_provisional (isTame_of_part (Line.stripComment_isInfix line) tame) p

/-- The parts of code consist of single lines. -/
theorem Part.newline_not_mem_ofCode (options : KnownOptions) (code : Text) :
    ∀ part ∈ Part.ofCode options code, ∀ text ∈ part.body, '\n' ∉ text := by
  intro part member
  obtain ⟨line, inside, found⟩ := List.mem_flatMap.mp member
  have clean := Text.newline_not_mem_of_mem_lines inside
  have stripped : '\n' ∉ Line.stripComment line :=
    fun feed => clean ((Line.stripComment_isInfix line).subset feed)
  exact Part.forall_mem_ofLine (fun _ _ directive => (isTame_of_mem_dataDirectives directive).1) clean
    (newline_not_mem_provisional stripped) part found

/-- The parts of code without the mark are tame. -/
theorem Part.ofCode_isTame {options : KnownOptions} {code : Text} (free : ¬ reserved <:+: code) :
    ∀ part ∈ Part.ofCode options code, part.IsTame := by
  intro part member
  obtain ⟨line, inside, found⟩ := List.mem_flatMap.mp member
  exact Part.ofLine_isTame (isTame_of_mem_lines free inside) part found

theorem length_of_hex {i : Intermediate} {bytes : Bytes} (text : i.hex = Hex.encode bytes) :
    i.length = bytes.length := by
  rw [Intermediate.length, text, Hex.length_encode]
  omega

/-- What the first pass makes of assembly with the small assembler: the bytes of the parts, with
the spans at the placeholders and zeros there. -/
structure LaidOut (options : KnownOptions) (code : Text) (i : Intermediate) : Prop where
  expanded : ∃ expansions, Expansion.ofLines options 0 (Text.lines code) = .ok expansions
  placed : Placed 0 (Part.ofCode options code) i.spans
  hex : i.hex = Hex.encode ((Part.ofCode options code).flatMap Part.blank)
  accepted : ∀ part ∈ Part.ofCode options code, Accepts part.body

/-- Assembly code without the mark is laid out by the first pass. -/
theorem laidOut_of_evaluateAssembly {includes : Includes} {options : KnownOptions} {code : Text}
    {i : Intermediate} (free : ¬ reserved <:+: code)
    (evaluated : (evaluateAssembly includes options code).run Assembler.toolchain = .ok i) :
    LaidOut options code i := by
  unfold evaluateAssembly at evaluated
  simp only at evaluated
  split at evaluated
  case h_1 => cases evaluated
  case h_2 expansions expanded =>
    obtain ⟨assembly, spans, reply, read, rfl⟩ := ofReply_eq_ok_iff.mp evaluated
    have ofLines := expand_eq_ok expanded
    obtain ⟨sources, holes⟩ := Expansion.ofLines_eq_parts ofLines
    change _ = Part.source 0 (Part.ofCode options code) at sources
    have quiet : ∀ part ∈ Part.ofCode options code, part.IsQuiet :=
      fun part member => (Part.ofCode_isTame free part member).quiet
    change Assembler.assemble (Text.joinLines (expansions.flatMap Expansion.source)) = _ at reply
    rw [sources, Assembler.assemble_joinLines_eq_ok_iff (newline_not_mem_source (Part.newline_not_mem_ofCode options code))] at reply
    obtain ⟨accepted, rfl⟩ := reply
    have kinds : (Expansion.located 0 (Text.lines code) expansions).map
        Expansion.Located.placeholder = (Part.ofCode options code).filterMap Part.hole? := by
      rw [Expansion.located_ofLines ofLines, placedFrom_placeholders, holes]
      rfl
    have placed : Placed 0 (Part.ofCode options code) spans :=
      placed_of_spansOf [] quiet rfl kinds read
    refine ⟨⟨expansions, ofLines⟩, placed, ?_, accepts_of_source accepted⟩
    have cleared := clear_of_placed [] placed
    rw [List.nil_append, List.nil_append] at cleared
    rw [bytesOf_source]
    exact congrArg Hex.encode cleared

/-- Assembly that holds no label of a placeholder is laid out by its first pass. -/
theorem laidOut_of_run {includes : Includes} {options : KnownOptions} {code : Text} {i : Intermediate}
    (assembly : Code.isAssembly code = .ok true) (free : Text.contains "__cs_" code = false)
    (evaluated : (evaluateCode includes options code).run Assembler.toolchain = .ok i) :
    LaidOut options code i := by
  rw [evaluateCode, assembly] at evaluated
  exact laidOut_of_evaluateAssembly (reserved_absent free) evaluated

end GamePatch.Change
