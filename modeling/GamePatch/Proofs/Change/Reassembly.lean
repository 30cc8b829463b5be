import GamePatch.Proofs.Assembler.Growth
import GamePatch.Proofs.Change.LastBranch
import GamePatch.Proofs.Change.Widths

set_option autoImplicit false

namespace GamePatch

open Assembler (item bytesOf Accepts Settles settles_avoids length_item_le)
open GamePatch.Configuration (IsWritten)
open Text (Varies Avoids)

namespace Change

namespace Context

variable {c : Context}

theorem length_of_optionBytes {names : List Text} {width : Nat} {bytes : Bytes}
    (found : c.optionBytes names width = .ok bytes) : bytes.length = width ∧ 1 ≤ width := by
  obtain ⟨options, -, packed⟩ := optionBytes_eq_ok found
  rcases packed with ⟨_, pattern, -, -, rfl, rfl⟩ | ⟨_, _, _, _, -, -, -, ⟨pos, -⟩, length, -⟩
  · exact ⟨Bytes.length_ofWord pattern, by decide⟩
  · exact ⟨length, pos⟩

theorem symbolText_settles {name text : Text} (found : c.symbolText name = .ok text) :
    Settles IsWritten unknownAddress text := by
  obtain ⟨a, -, rfl⟩ := Fallible.map_eq_ok_iff.mp found
  exact .address a

theorem optionText_settles {name text : Text} (found : c.optionText name = .ok text) :
    Settles IsWritten ['0'] text := by
  obtain ⟨o, -, rfl⟩ := Fallible.map_eq_ok_iff.mp found
  exact .value (Configuration.isWritten_write o.value)

end Context

/-- The line that stands for a line with placeholders inside is written like one with values. -/
theorem provisional_of_not_isBranch {p : Placeholder} (noBranch : p.isBranch = false) (text : Text) :
    substitute (ε := Empty) (fun _ => .ok unknownAddress) (fun _ => .ok ['0']) text =
      .ok (Expansion.provisional text p) := by
  unfold Expansion.provisional
  rw [noBranch]
  simp only [Bool.false_eq_true, ↓reduceIte]
  split
  case h_1 line written => exact written

theorem infix_of_provisional {p : Placeholder} {mark text : Text} (noBranch : p.isBranch = false)
    (avoids : Avoids (Settles IsWritten) (· ∈ mark))
    (inside : mark <:+: Expansion.provisional text p) : mark <:+: text := by
  have foreign {old new : Text} (settled : Settles IsWritten old new) : old ≠ [] ∧ ∀ c ∈ mark, c ∉ old :=
    ⟨(avoids old new settled).1.1, fun c inMark member => (avoids old new settled).1.2 c member inMark⟩
  refine infix_of_substitute (fun _ t same => ?_) (fun _ t same => ?_)
    (provisional_of_not_isBranch noBranch text) inside
  · cases same
    exact foreign (.address 0)
  · cases same
    exact foreign (.value (Configuration.isWritten_write (.int 0)))

/-- Values bring none of the characters of a mark into a line. -/
theorem infix_of_values {c : Context} {mark text out : Text}
    (avoids : Avoids (Settles IsWritten) (· ∈ mark))
    (substituted : substitute c.symbolText c.optionText text = .ok out) (inside : mark <:+: out) :
    mark <:+: text := by
  have foreign {old new : Text} (settled : Settles IsWritten old new) : new ≠ [] ∧ ∀ c ∈ mark, c ∉ new :=
    ⟨(avoids old new settled).2.1, fun c inMark member => (avoids old new settled).2.2 c member inMark⟩
  exact infix_of_substitute (fun _ _ found => foreign (Context.symbolText_settles found))
    (fun _ _ found => foreign (Context.optionText_settles found)) substituted inside

/-- The two sources differ in the values only. -/
theorem varies_of_values {c : Context} {p : Placeholder} {text out : Text}
    (noBranch : p.isBranch = false) (substituted : substitute c.symbolText c.optionText text = .ok out) :
    Varies (Settles IsWritten) (Expansion.provisional text p) out := by
  have written := provisional_of_not_isBranch noBranch text
  unfold substitute at written substituted
  split at substituted
  case h_2 => cases substituted
  case h_1 middle symbols =>
    split at written
    case h_2 => cases written
    case h_1 middle' unknown =>
      have between : Varies (Settles IsWritten) middle' middle :=
        Line.varies_replaceEnclosed (by decide) (by decide)
          (settles_avoids (by decide))
          (settles_avoids (by decide))
          (fun _ _ _ _ old new => by cases old; exact Context.symbolText_settles new)
          (.refl text) unknown symbols
      exact Line.varies_replaceEnclosed (by decide) (by decide)
        (settles_avoids (by decide))
        (settles_avoids (by decide))
        (fun _ _ _ _ old new => by cases old; exact Context.optionText_settles new)
        between written substituted

theorem isCommentFree_of_infix {s t : Text} (free : Line.IsCommentFree t)
    (hash : ['#'] <:+: s → ['#'] <:+: t) (slashes : ['/', '/'] <:+: s → ['/', '/'] <:+: t) :
    Line.IsCommentFree s := by
  refine ⟨fun member => free.1 ?_, fun marked => free.2 (slashes marked)⟩
  rw [← List.singleton_infix_iff] at member ⊢
  exact hash member

/-- A line has no fewer bytes with its values in it than while they were unknown. -/
theorem length_provisional_le {c : Context} {p : Placeholder} {line out : Text}
    (noBranch : p.isBranch = false)
    (substituted : substitute c.symbolText c.optionText (Line.stripComment line) = .ok out)
    (accepted : ¬ (item out).IsBad) :
    (item (Expansion.provisional (Line.stripComment line) p)).bytes.length ≤
      (item out).bytes.length := by
  have free := Line.stripComment_commentFree line
  have hash : Avoids (Settles IsWritten) (· ∈ ['#']) :=
    settles_avoids (by decide)
  have slashes : Avoids (Settles IsWritten) (· ∈ ['/', '/']) :=
    settles_avoids (by decide)
  refine length_item_le (varies_of_values noBranch substituted) ?_ ?_ accepted
  · exact isCommentFree_of_infix free (infix_of_provisional noBranch hash)
      (infix_of_provisional noBranch slashes)
  · exact isCommentFree_of_infix free (infix_of_values hash substituted)
      (infix_of_values slashes substituted)

/-- What a second assembly makes of parts: the bytes of lines as they are, a word for each branch,
and no fewer bytes than before for other placeholders. -/
inductive Rebuilt (c : Context) : List Part → List Span → Bytes → Prop
  | nil : Rebuilt c [] [] []
  | lines {ls : List Text} {parts : List Part} {spans : List Span} {bytes : Bytes}
      (rest : Rebuilt c parts spans bytes) : Rebuilt c (.lines ls :: parts) spans (bytesOf ls ++ bytes)
  | hole {p : Placeholder} {body : List Text} {parts : List Part} {s : Span} {spans : List Span}
      {value bytes : Bytes} (grown : (bytesOf body).length ≤ value.length)
      (word : ∀ branch, p = .branch branch →
        (c.branchWord branch s.offset).map Bytes.ofWord = .ok value)
      (rest : Rebuilt c parts spans bytes) :
      Rebuilt c (.hole p body :: parts) (s :: spans) (value ++ bytes)

namespace Rebuilt

variable {c : Context}

theorem append {front back : List Part} {here there : List Span} {left right : Bytes}
    (near : Rebuilt c front here left) (far : Rebuilt c back there right) :
    Rebuilt c (front ++ back) (here ++ there) (left ++ right) := by
  induction near with
  | nil => exact far
  | lines rest ih =>
    rw [List.append_assoc]
    exact .lines ih
  | hole grown word rest ih =>
    rw [List.append_assoc]
    exact .hole grown word ih

theorem length_le {parts : List Part} {spans : List Span} {bytes : Bytes}
    (rebuilt : Rebuilt c parts spans bytes) : (parts.flatMap Part.bytes).length ≤ bytes.length := by
  induction rebuilt with
  | nil => exact Nat.le_refl 0
  | lines rest ih =>
    rw [List.flatMap_cons, List.length_append, List.length_append]
    exact Nat.add_le_add_left ih _
  | hole grown word rest ih =>
    rw [List.flatMap_cons, List.length_append, List.length_append]
    exact Nat.add_le_add grown ih

/-- If nothing has grown, each branch is at the place where its distance was measured. -/
theorem branch_in_place (front : Bytes) {parts : List Part} {spans : List Span} {bytes : Bytes}
    (rebuilt : Rebuilt c parts spans bytes) (placed : Placed front.length parts spans)
    (same : bytes.length = (parts.flatMap Part.bytes).length) :
    ∀ s ∈ spans, ∀ branch, s.placeholder = .branch branch → s.stop ≤ (front ++ bytes).length ∧
      (c.branchWord branch s.offset).map Bytes.ofWord =
        .ok (((front ++ bytes).drop s.offset).take s.width) := by
  induction rebuilt generalizing front with
  | nil => simp
  | @lines ls parts spans bytes rest ih =>
    rw [List.flatMap_cons, List.length_append, List.length_append] at same
    cases placed with
    | lines placed =>
      rw [← List.append_assoc]
      rw [← List.length_append] at placed
      exact ih (front ++ bytesOf ls) placed (Nat.add_left_cancel same)
  | @hole p body parts s spans value bytes grown word rest ih =>
    rw [List.flatMap_cons, List.length_append, List.length_append] at same
    have longer := rest.length_le
    have kept : value.length = (bytesOf body).length := by
      change value.length + bytes.length = (bytesOf body).length + _ at same
      omega
    cases placed with
    | hole start width kind placed =>
      rw [List.forall_mem_cons, ← List.append_assoc]
      constructor
      · intro branch shape
        have taken : ((front ++ value ++ bytes).drop s.offset).take s.width = value := by
          rw [start, width, ← kept, List.append_assoc, List.drop_left, List.take_left]
        refine ⟨?_, ?_⟩
        · simp only [Span.stop, start, width, ← kept, List.length_append]
          omega
        · rw [taken]
          exact word branch (kind.symm.trans shape)
      · rw [← kept, ← List.length_append] at placed
        exact ih (front ++ value) placed (by rw [Part.bytes, Part.body] at same; omega)

end Rebuilt

/-- The values on a line of digits are as wide as the places that were kept for them. -/
theorem rebuilt_of_segmentDirectives {c : Context} {options : KnownOptions} {offset : Nat}
    {segments : List Line.Segment} {widths : List Nat} {spans : List Span} {ls : List Text}
    (kinds : List.Forall₂ (IsWidth options) segments widths)
    (placed : Placed offset ((segments.zip widths).map Part.ofSegment) spans)
    (resolved : segmentDirectives c spans segments = .ok ls) :
    Rebuilt c ((segments.zip widths).map Part.ofSegment) spans (bytesOf ls) := by
  induction kinds generalizing offset spans ls with
  | nil =>
    cases placed
    cases resolved
    exact .nil
  | @cons segment width segments widths kind rest ih =>
    rw [List.zip_cons_cons, List.map_cons] at placed ⊢
    cases segment with
    | hex digits =>
      cases placed with
      | lines placed =>
        obtain ⟨bytes, more, decoded, tail, rfl⟩ := segmentDirectives_hex_eq_ok resolved
        have own : Part.decoded digits = bytes := by rw [Part.decoded, decoded]
        rw [Assembler.bytesOf_append, ← own]
        exact .lines (ih placed tail)
    | symbol name =>
      cases placed with
      | hole start size shape placed =>
        obtain ⟨value, more, found, tail, rfl⟩ :=
          segmentDirectives_cons_eq_ok (fun _ => Line.Segment.noConfusion) resolved
        rw [Context.spanBytes, shape] at found
        obtain ⟨a, -, rfl⟩ := Context.symbolBytes_singleton found
        rw [Assembler.bytesOf_append, bytesOf_dataDirectives]
        refine .hole ?_ (fun _ impossible => by cases impossible) (ih placed tail)
        rw [bytesOf_dataDirectives, Bytes.length_zeros, Bytes.length_ofWord]
        exact Nat.le_of_eq kind
    | options names =>
      cases placed with
      | hole start size shape placed =>
        obtain ⟨value, more, found, tail, rfl⟩ :=
          segmentDirectives_cons_eq_ok (fun _ => Line.Segment.noConfusion) resolved
        rw [Context.spanBytes, shape] at found
        rw [Assembler.bytesOf_append, bytesOf_dataDirectives]
        refine .hole ?_ (fun _ impossible => by cases impossible) (ih placed tail)
        rw [(Context.length_of_optionBytes found).1, size]

/-- A line with a placeholder gets a word for a branch, and no fewer bytes for other values. -/
theorem rebuilt_of_resolvedLine {c : Context} {offset : Nat} {p : Placeholder} {line out : Text}
    {s : Span} (placed : Placed offset [.hole p [Expansion.provisional (Line.stripComment line) p]] [s])
    (text : s.text = Line.stripComment line) (resolved : resolvedLine c s = .ok out)
    (accepted : ¬ (item out).IsBad) :
    Rebuilt c [.hole p [Expansion.provisional (Line.stripComment line) p]] [s] (bytesOf [out]) := by
  have one (l : Text) : bytesOf [l] = (item l).bytes := List.append_nil _
  cases placed with
  | hole start width kind _ =>
    rw [← List.append_nil (bytesOf [out])]
    unfold resolvedLine at resolved
    cases branchly : p.isBranch with
    | true =>
      cases p with
      | branch branch =>
        rw [kind] at resolved
        obtain ⟨word, found, rfl⟩ := Fallible.map_eq_ok_iff.mp resolved
        have value : bytesOf [".long 0x" ++ Hex.encodeWord word] = Bytes.ofWord word := by
          rw [← dataDirectives_ofWord, bytesOf_dataDirectives]
        have gap : (bytesOf [".long 0".toList]).length = 4 := by decide
        rw [value]
        refine .hole ?_ ?_ .nil
        · rw [Bytes.length_ofWord]
          exact Nat.le_of_eq gap
        · rintro _ ⟨⟩
          rw [found]
          rfl
      | symbols names => cases branchly
      | options names => cases branchly
    | false =>
      have substituted : substitute c.symbolText c.optionText (Line.stripComment line) = .ok out := by
        rw [kind, text] at resolved
        cases p with
        | branch branch => cases branchly
        | symbols names => exact resolved
        | options names => exact resolved
      refine .hole ?_ ?_ .nil
      · rw [one, one]
        exact length_provisional_le branchly substituted accepted
      · rintro branch rfl
        cases branchly

/-- A line without digits is itself, or has the value of its one placeholder in it. -/
theorem rebuilt_of_plainLine {c : Context} {i : Intermediate} {ix offset : Nat} {line : Text}
    {ls : List Text} (readable : Line.IsReadable line)
    (notHex : ∀ segments, Line.classify line ≠ .hex segments)
    (texts : ∀ s ∈ spansOnLine i ix, s.text = Line.stripComment line)
    (placed : Placed offset [Part.ofPlainLine line] (spansOnLine i ix))
    (resolved : resolvedLines c i ix line = .ok ls) (accepted : Accepts ls) :
    Rebuilt c [Part.ofPlainLine line] (spansOnLine i ix) (bytesOf ls) := by
  unfold Part.ofPlainLine at placed ⊢
  generalize onLine : spansOnLine i ix = spans at placed texts ⊢
  split at placed
  case h_1 =>
    cases placed with
    | lines placed =>
      cases placed
      rw [resolvedLines_of_no_span readable notHex onLine] at resolved
      cases resolved
      rw [← List.append_nil (bytesOf [line])]
      exact .lines .nil
  case h_2 p _ =>
    obtain ⟨s, rfl⟩ : ∃ s, spans = [s] := by
      cases placed with
      | hole _ _ _ rest =>
        cases rest
        exact ⟨_, rfl⟩
    rw [resolvedLines_of_span readable notHex onLine] at resolved
    obtain ⟨out, found, rfl⟩ := Fallible.map_eq_ok_iff.mp resolved
    exact rebuilt_of_resolvedLine placed (texts s List.mem_cons_self) found
      (accepted out List.mem_cons_self)

/-- The second source of a line makes no fewer bytes than the first one. -/
theorem rebuilt_of_resolvedLines {options : KnownOptions} {c : Context} {i : Intermediate}
    {index ix offset : Nat} {line : Text} {e : Expansion} {ls : List Text}
    (expanded : Expansion.ofLine options index line = .ok e)
    (texts : ∀ s ∈ spansOnLine i ix, s.text = Line.stripComment line)
    (placed : Placed offset (Part.ofLine options line) (spansOnLine i ix))
    (resolved : resolvedLines c i ix line = .ok ls) (accepted : Accepts ls) :
    Rebuilt c (Part.ofLine options line) (spansOnLine i ix) (bytesOf ls) := by
  have readable := Expansion.isReadable_of_ofLine expanded
  unfold Part.ofLine at placed ⊢
  cases kind : Line.classify line with
  | hex segments =>
    rw [kind] at placed
    rw [Expansion.ofLine, kind] at expanded
    obtain ⟨widths, found, -⟩ := Fallible.bind_eq_ok_iff.mp expanded
    simp only [Part.ofSegments, found] at placed ⊢
    rw [resolvedLines_of_hex kind] at resolved
    exact rebuilt_of_segmentDirectives (placeholderWidths_isWidth found) placed resolved
  | blank | branch | assembly =>
    rw [kind] at placed
    exact rebuilt_of_plainLine readable (by simp [kind]) texts placed resolved accepted
  | overflow => exact absurd kind readable

/-- The second source of a code makes no fewer bytes than the first one in any of its places. -/
theorem rebuilt_of_resolvedSource {options : KnownOptions} {c : Context} {i : Intermediate}
    {index ix offset : Nat} {lines : List Text} {expansions : List Expansion}
    {before spans : List Span} {source : List Text}
    (expanded : Expansion.ofLines options index lines = .ok expansions)
    (left : Remaining i ix lines before spans)
    (placed : Placed offset (lines.flatMap (Part.ofLine options)) spans)
    (resolved : resolvedSource c i ix lines = .ok source) (accepted : Accepts source) :
    Rebuilt c (lines.flatMap (Part.ofLine options)) spans (bytesOf source) := by
  induction lines generalizing index ix offset expansions before spans source with
  | nil =>
    cases placed
    cases resolved
    exact .nil
  | cons line lines ih =>
    obtain ⟨e, _, head, tail, rfl⟩ := Expansion.ofLines_cons_eq_ok_iff.mp expanded
    obtain ⟨ls, more, first, rest, rfl⟩ := resolvedSource_cons_eq_ok_iff.mp resolved
    rw [Assembler.accepts_append] at accepted
    obtain ⟨here, there, rfl, count, near, far⟩ := placed.exists_split head
    obtain ⟨between, onLine, next⟩ := left.step count
    rw [List.flatMap_cons, Assembler.bytesOf_append]
    refine Rebuilt.append ?_ (ih tail next far rest accepted.2)
    rw [← between] at near onLine ⊢
    exact rebuilt_of_resolvedLines head (fun s member => (span_of_onLine onLine s member).2.1) near
      first accepted.1

theorem newline_not_mem_segmentDirectives {c : Context} {spans : List Span}
    {segments : List Line.Segment} {ls : List Text}
    (resolved : segmentDirectives c spans segments = .ok ls) : ∀ line ∈ ls, '\n' ∉ line := by
  have directives (bytes : Bytes) : ∀ line ∈ dataDirectives bytes, '\n' ∉ line :=
    fun _ member => (isTame_of_mem_dataDirectives member).1
  fun_induction segmentDirectives c spans segments generalizing ls with
  | case1 =>
    cases resolved
    simp
  | case2 => cases resolved
  | case3 spans digits rest bytes decoded ih =>
    obtain ⟨more, tail, same⟩ := Fallible.bind_eq_ok_iff.mp resolved
    cases same
    exact List.forall_mem_append.mpr ⟨directives bytes, ih tail⟩
  | case4 => cases resolved
  | case5 s spans segment rest notHex ih =>
    obtain ⟨value, more, -, tail, rfl⟩ := Fallible.bind_bind_eq_ok_iff.mp resolved
    exact List.forall_mem_append.mpr ⟨directives value, ih tail⟩

theorem newline_not_mem_resolvedLine {c : Context} {s : Span} {out : Text} (clean : '\n' ∉ s.text)
    (resolved : resolvedLine c s = .ok out) : '\n' ∉ out := by
  have values (substituted : substitute c.symbolText c.optionText s.text = .ok out) : '\n' ∉ out := by
    rw [← List.singleton_infix_iff] at clean ⊢
    exact fun inside => clean (infix_of_values
      (settles_avoids (by decide)) substituted inside)
  unfold resolvedLine at resolved
  split at resolved
  · obtain ⟨word, -, rfl⟩ := Fallible.map_eq_ok_iff.mp resolved
    have directive : ".long 0x" ++ Hex.encodeWord word ∈ dataDirectives (Bytes.ofWord word) := by
      rw [dataDirectives_ofWord]
      exact List.mem_cons_self
    exact (isTame_of_mem_dataDirectives directive).1
  · exact values resolved

/-- Values break no line of the second source. -/
theorem newline_not_mem_resolvedSource {c : Context} {i : Intermediate} {ix : Nat}
    {lines source : List Text} (texts : ∀ s ∈ i.spans, '\n' ∉ s.text)
    (clean : ∀ line ∈ lines, '\n' ∉ line) (resolved : resolvedSource c i ix lines = .ok source) :
    ∀ line ∈ source, '\n' ∉ line := by
  induction lines generalizing ix source with
  | nil =>
    cases resolved
    simp
  | cons line lines ih =>
    rw [List.forall_mem_cons] at clean
    obtain ⟨ls, more, first, rest, rfl⟩ := resolvedSource_cons_eq_ok_iff.mp resolved
    refine List.forall_mem_append.mpr ⟨?_, ih clean.2 rest⟩
    unfold resolvedLines at first
    split at first
    · exact newline_not_mem_segmentDirectives first
    · cases first
    · cases first
      exact List.forall_mem_singleton.mpr clean.1
    case h_4 s _ onLine _ _ =>
      obtain ⟨out, found, rfl⟩ := Fallible.map_eq_ok_iff.mp first
      have member : s ∈ spansOnLine i ix := by simp [onLine]
      exact List.forall_mem_singleton.mpr
        (newline_not_mem_resolvedLine (texts s (List.mem_filter.mp member).1) found)

/-- The second source of some code consists of single lines. -/
theorem newline_not_mem_secondSource {c : Context} {i : Intermediate} {code : Text} {source : List Text}
    (located : i.spans.map Span.located = placedFrom 0 (Text.lines code))
    (written : resolvedSource c i 0 (Text.lines code) = .ok source) :
    ∀ line ∈ source, '\n' ∉ line := by
  have texts : ∀ s ∈ i.spans, '\n' ∉ s.text := by
    intro s member feed
    have inside : s.located ∈ placedFrom 0 (Text.lines code) := located ▸ List.mem_map_of_mem member
    obtain ⟨-, line, onLine, same, -⟩ := line_of_mem_placedFrom inside
    have ofLine : '\n' ∈ line := (same ▸ Line.stripComment_isInfix line).subset feed
    exact Text.newline_not_mem_of_mem_lines onLine ofLine
  exact newline_not_mem_resolvedSource texts
    (fun _ member => Text.newline_not_mem_of_mem_lines member) written

/-- The second assembly puts each branch at the offset for which its word was made, although only
the lengths of the two assemblies are compared. -/
theorem reassembled_branches_in_place {includes : Includes} {options : KnownOptions}
    {code hex : Text} {i : Intermediate} {c : Context} (free : Text.contains "__cs_" code = false)
    (evaluated : (evaluateCode includes options code).run Assembler.toolchain = .ok i)
    (again : needsReassembly i (Text.lines code) = .ok true)
    (resolved : (resolveCode c i code).run Assembler.toolchain = .ok (.complete hex)) :
    ∃ bytes, hex = Hex.encode bytes ∧
      ∀ s ∈ i.spans, ∀ branch, s.placeholder = .branch branch →
        s.width = 4 ∧ s.stop ≤ bytes.length ∧
          ∃ word, c.branchWord branch s.offset = .ok word ∧
            (bytes.drop s.offset).take 4 = Bytes.ofWord word ∧ c.Places s (Bytes.ofWord word) := by
  have located := evaluateCode_located (Assembling.yields_of_run evaluated)
  obtain ⟨⟨expansions, expanded⟩, placed, text, -⟩ :=
    laidOut_of_run (isAssembly_of_needsReassembly evaluated again) free evaluated
  obtain ⟨source, assembled, written, made, length, rfl⟩ := reassembled_eq_ok again resolved
  have clean := newline_not_mem_secondSource located written
  obtain ⟨accepted, rfl⟩ := (Assembler.assemble_joinLines_eq_ok_iff clean).mp made
  have rebuilt : Rebuilt c (Part.ofCode options code) i.spans (bytesOf source) :=
    rebuilt_of_resolvedSource expanded (Remaining.all located) placed written accepted
  have total : (bytesOf source).length = ((Part.ofCode options code).flatMap Part.bytes).length := by
    rw [← length_flatMap_blank, ← length_of_hex text]
    exact length
  refine ⟨bytesOf source, rfl, fun s member branch shape => ?_⟩
  obtain ⟨inside, value⟩ := rebuilt.branch_in_place [] placed total s member branch shape
  rw [List.nil_append] at inside value
  have places : c.Places s (((bytesOf source).drop s.offset).take s.width) := by
    refine Context.places_of_spanBytes (fun names impossible => ?_) ?_
    · rw [shape] at impossible
      cases impossible
    · rw [Context.spanBytes, shape]
      exact value
  obtain ⟨word, found, taken⟩ := Fallible.map_eq_ok_iff.mp value
  have four : s.width = 4 := by
    have size := congrArg List.length taken
    rw [Bytes.length_ofWord, List.length_take, List.length_drop] at size
    rw [Span.stop] at inside
    omega
  rw [four] at taken places
  exact ⟨four, inside, word, found, taken.symm, taken ▸ places⟩

/-- Assembly with options inside its instructions, one of which says how much is left free before a
call. -/
def callBehindGap : Text := "li r4, [[Lives]] # on start\n.space [[Gap]]\nbl <Table> + 4\nblr"

def callBehindGapEvaluated : Intermediate :=
  { hex := "00000000000000004E800020"
    spans :=
      [⟨0, 4, .options ["Lives"], "li r4, [[Lives]]", 0⟩,
        ⟨4, 0, .options ["Gap"], ".space [[Gap]]", 1⟩,
        ⟨4, 4, .branch ⟨.bl, .symbol "Table", 4⟩, "bl <Table> + 4", 2⟩]
    isAssembly := true }

def tablePlacedNoGap : Context :=
  { tablePlaced with
    options := tablePlaced.options ++
      [⟨"Gap", .int .one false none, .int 0, .int 0, [], none, false⟩] }

theorem callBehindGap_in_place :
    ∃ bytes, "388000634BFFF0014E800020".toList = Hex.encode bytes ∧
      ∃ word, tablePlacedNoGap.branchWord ⟨.bl, .symbol "Table", 4⟩ 4 = .ok word ∧
        (bytes.drop 4).take 4 = Bytes.ofWord word := by
  have first : (evaluateCode ⟨fun _ => false, []⟩ none callBehindGap).run Assembler.toolchain =
      .ok callBehindGapEvaluated := by decide +kernel
  have second : (resolveCode tablePlacedNoGap callBehindGapEvaluated callBehindGap).run
      Assembler.toolchain = .ok (.complete "388000634BFFF0014E800020") := by decide +kernel
  obtain ⟨bytes, text, branches⟩ :=
    reassembled_branches_in_place (by decide +kernel) first (by decide +kernel) second
  obtain ⟨-, -, word, found, taken, -⟩ := branches
    ⟨4, 4, .branch ⟨.bl, .symbol "Table", 4⟩, "bl <Table> + 4", 2⟩ (by decide +kernel) _ rfl
  exact ⟨bytes, text, word, found, taken⟩

end Change

end GamePatch
