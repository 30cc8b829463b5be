import GamePatch.GameMod.Evaluate
import GamePatch.Proofs.Change.Groups
import GamePatch.Proofs.Change.Regrouping
import GamePatch.Proofs.Change.Sharing
import GamePatch.Proofs.Change.UnknownOptions
import GamePatch.Proofs.Configuration.Packing

set_option autoImplicit false

namespace GamePatch

open Fallible (Both)

namespace Configuration

theorem packInt_of_nonneg {n : Int} (nonneg : 0 ≤ n) (width : Nat) (signed signed' : Bool) :
    packInt n width signed = packInt n width signed' := by
  have fitting (signed : Bool) :
      fits width signed n = fits width false n := by
    unfold fits
    split
    · rfl
    · cases signed with
      | false => rfl
      | true =>
        simp [nonneg]
        omega
  rw [packInt, packInt, fitting signed, fitting signed']

/-- A number is packed without a sign only if it is not negative or has eight bytes. -/
theorem sign_of_packInt {n : Int} {width : Nat} {signed : Bool} {bytes : Bytes}
    (packed : packInt n width signed = some bytes) : width = 8 ∨ 0 ≤ n ∨ signed = true := by
  obtain ⟨⟨-, -, own⟩, -⟩ := packInt_eq_some_iff.mp packed
  by_cases eight : width = 8
  · exact Or.inl eight
  · right
    rw [IsPackable, if_neg eight] at own
    cases signed with
    | true => exact Or.inr rfl
    | false => exact Or.inl own.1

end Configuration

namespace Change

open GamePatch.Configuration (IsSettingOf)

def isFirstSigned (options : List Configuration) : Bool :=
  match options with
  | [] => false
  | o :: _ => o.kind.isSigned

/-- Two orders of options treat the sign of their values alike. In eight bytes every number has a
place. -/
def KeepsSign (width : Nat) (options options' : List Configuration) : Prop :=
  width = 8 ∨ (∀ o ∈ options, ∀ n, o.value = .int n → 0 ≤ n) ∨
    isFirstSigned options = isFirstSigned options'

namespace Context

theorem packOptions?_of_two {options : List Configuration} (two : 2 ≤ options.length) (width : Nat) :
    packOptions? options width = (combined? options).bind fun n =>
      Configuration.packInt n width (isFirstSigned options) := by
  match options, two with
  | first :: second :: rest, _ => rfl

/-- There is only one order of a single option. -/
theorem eq_of_perm_of_short {options options' : List Configuration} (short : ¬ 2 ≤ options.length)
    (perm : options.Perm options') : options = options' := by
  match options, short with
  | [], _ => exact (List.nil_perm.mp perm).symm
  | [o], _ => exact List.singleton_perm.mp perm
  | _ :: _ :: _, short => exact absurd (by simp) short

section

variable {options options' : List Configuration}
  (checked : ∀ o ∈ options, o.check o.value = .ok ())

include checked

/-- What options come to is negative exactly if one of their values is. -/
theorem combined?_neg {n : Int} (found : combined? options = some n) :
    n < 0 ↔ ∃ o ∈ options, ∃ n, o.value = .int n ∧ n < 0 := by
  cases widest : (options.map fun o => o.kind.width).max? with
  | some width => exact (combined?_inWidth checked widest found).2
  | none =>
    rw [List.max?_eq_none_iff, List.map_eq_nil_iff] at widest
    cases widest
    cases found
    simp

variable (perm : options.Perm options')

include perm

theorem packOptions?_perm {width : Nat} (keeps : KeepsSign width options options') :
    packOptions? options width = packOptions? options' width := by
  by_cases two : 2 ≤ options.length
  case neg => rw [eq_of_perm_of_short two perm]
  rw [packOptions?_of_two two, packOptions?_of_two (perm.length_eq ▸ two), ← combined?_perm perm]
  cases found : combined? options with
  | none => rfl
  | some n =>
    rw [Option.bind_some, Option.bind_some]
    rcases keeps with rfl | nonneg | same
    · rfl
    · apply Configuration.packInt_of_nonneg
      rw [← not_lt, combined?_neg checked found]
      rintro ⟨o, member, n', value, negative⟩
      exact absurd (nonneg o member n' value) (not_le.mpr negative)
    · rw [same]

/-- Where both orders have bytes, they treat the sign alike. -/
theorem keepsSign_of_packed {width : Nat} {bytes bytes' : Bytes}
    (packed : packOptions? options width = some bytes)
    (packed' : packOptions? options' width = some bytes') : KeepsSign width options options' := by
  by_cases two : 2 ≤ options.length
  case neg =>
    right; right
    rw [eq_of_perm_of_short two perm]
  rw [packOptions?_of_two two] at packed
  rw [packOptions?_of_two (perm.length_eq ▸ two), ← combined?_perm perm] at packed'
  obtain ⟨n, found, fits⟩ := Option.bind_eq_some_iff.mp packed
  obtain ⟨n', found', fits'⟩ := Option.bind_eq_some_iff.mp packed'
  obtain rfl : n = n' := Option.some.inj (found.symm.trans found')
  by_cases negative : n < 0
  · -- A negative number takes a sign in both orders.
    rcases Configuration.sign_of_packInt fits with eight | nonneg | sign
    · exact Or.inl eight
    · omega
    rcases Configuration.sign_of_packInt fits' with eight | nonneg | sign'
    · exact Or.inl eight
    · omega
    right; right
    rw [sign, sign']
  · right; left
    intro o member n' value
    by_contra lower
    exact negative ((combined?_neg checked found).mpr ⟨o, member, n', value, not_le.mp lower⟩)

end

end Context

def optionsNamed (options : List Configuration) (names : List Text) : List Configuration :=
  names.filterMap (Configuration.find? options)

theorem forall₂_optionsNamed {options : List Configuration} {names : List Text}
    (known : KnowsAll options names) :
    List.Forall₂ (fun name o => Configuration.find? options name = some o) names
      (optionsNamed options names) := by
  induction names with
  | nil => exact .nil
  | cons name names ih =>
    rw [KnowsAll, List.forall_mem_cons] at known
    obtain ⟨⟨o, found⟩, later⟩ := known
    rw [optionsNamed, List.filterMap_cons_some found]
    exact .cons found (ih later)

theorem checked_optionsNamed {options : List Configuration}
    (checked : ∀ o ∈ options, o.check o.value = .ok ()) (names : List Text) :
    ∀ o ∈ optionsNamed options names, o.check o.value = .ok () := by
  intro o member
  obtain ⟨name, -, found⟩ := List.mem_filterMap.mp member
  exact checked o (List.mem_of_find?_eq_some found)

/-- What names that are known are packed to. -/
theorem toOption_optionBytes_of_known {c : Context} {names : List Text} (nonempty : names ≠ [])
    (known : KnowsAll c.options names) (width : Nat) :
    (c.optionBytes names width).toOption =
      Context.packOptions? (optionsNamed c.options names) width := by
  have found := forall₂_optionsNamed known
  refine Context.toOption_optionBytes found (fun none => nonempty ?_) width
  rw [none] at found
  exact List.forall₂_nil_right_iff.mp found

theorem KnowsAll.perm {options : List Configuration} {names names' : List Text}
    (known : KnowsAll options names) (perm : names.Perm names') : KnowsAll options names' :=
  fun name member => known name (perm.mem_iff.mpr member)

/-- Spans at the same place that differ at most in the order of their options. -/
structure Span.Regroups (s t : Span) : Prop where
  place : s.place = t.place
  located : s.located.Regroups t.located

/-- The options in two spans treat the sign of their values alike. -/
def Span.KeepsSign (options : List Configuration) (s t : Span) : Prop :=
  s.placeholder.isOptions = true →
    Change.KeepsSign s.width (optionsNamed options s.placeholder.names)
      (optionsNamed options t.placeholder.names)

section

variable {c : Context} {s t : Span} (regroups : s.Regroups t)
  (known : s.placeholder.IsKnown c.options) (checked : ∀ o ∈ c.options, o.check o.value = .ok ())

include regroups known checked

/-- Spans that differ in the order of their options alone have the same bytes or none, if their options
treat the sign alike. -/
theorem spanBytes_both (keeps : s.KeepsSign c.options t) :
    Both Eq (c.spanBytes s) (c.spanBytes t) := by
  obtain ⟨offset, width, placeholder, text, line⟩ := s
  obtain ⟨offset', width', placeholder', text', line'⟩ := t
  obtain ⟨place, located⟩ := regroups
  cases place
  cases located with
  | same => exact Both.refl _
  | @options names names' perm =>
    obtain ⟨nonempty, all⟩ := known names rfl
    have nonempty' : names' ≠ [] := fun none => nonempty (none ▸ perm).eq_nil
    change Both Eq (c.optionBytes names width) (c.optionBytes names' width)
    rw [Both.eq_iff, toOption_optionBytes_of_known nonempty all,
      toOption_optionBytes_of_known nonempty' (all.perm perm)]
    exact Context.packOptions?_perm (checked_optionsNamed checked names) (perm.filterMap _) (keeps rfl)

/-- Where both spans have bytes, their options treat the sign alike. -/
theorem keepsSign_of_spanBytes
    (hasBytes : (∃ segments, Line.classify s.text = .hex segments) → ∃ bytes, c.spanBytes s = .ok bytes)
    (hasBytes' : (∃ segments, Line.classify t.text = .hex segments) → ∃ bytes, c.spanBytes t = .ok bytes) :
    s.KeepsSign c.options t := by
  obtain ⟨offset, width, placeholder, text, line⟩ := s
  obtain ⟨offset', width', placeholder', text', line'⟩ := t
  obtain ⟨place, located⟩ := regroups
  cases place
  intro
  cases located with
  | same => exact Or.inr (Or.inr rfl)
  | @options names names' perm _ _ _ _ kind kind' =>
    obtain ⟨nonempty, all⟩ := known names rfl
    have nonempty' : names' ≠ [] := fun none => nonempty (none ▸ perm).eq_nil
    obtain ⟨bytes, found⟩ := hasBytes ⟨_, kind⟩
    obtain ⟨bytes', found'⟩ := hasBytes' ⟨_, kind'⟩
    change c.optionBytes names width = .ok bytes at found
    change c.optionBytes names' width = .ok bytes' at found'
    rw [← Fallible.toOption_eq_some_iff] at found found'
    rw [toOption_optionBytes_of_known nonempty all] at found
    rw [toOption_optionBytes_of_known nonempty' (all.perm perm)] at found'
    exact Context.keepsSign_of_packed (checked_optionsNamed checked names) (perm.filterMap _) found
      found'

end

/-- Spans with the same bytes at the same places are filled alike. -/
theorem fillSpans_both {c : Context} {spans spans' : List Span}
    (all : List.Forall₂ (fun s t => s.place = t.place ∧ Both Eq (c.spanBytes s) (c.spanBytes t))
      spans spans') (bytes : Bytes) :
    Both Eq (fillSpans c bytes spans) (fillSpans c bytes spans') := by
  induction all generalizing bytes with
  | nil => exact Both.refl _
  | @cons s t _ _ here rest ih =>
    obtain ⟨place, values⟩ := here
    obtain ⟨offset, width⟩ := Prod.mk.inj place
    rw [fillSpans, fillSpans]
    rcases values.eq_or_eq with ⟨e, e', left, right⟩ | ⟨value, _, left, right, rfl⟩
    · rw [left, right]
      exact .error _ _
    · have stop : s.stop = t.stop := by rw [Span.stop, Span.stop, offset, width]
      rw [left, right]
      simp only [offset, width, stop]
      by_cases unfit : (decide (value.length ≠ t.width) || decide (bytes.length < t.stop)) = true
      · rw [if_pos unfit, if_pos unfit]
        exact .error _ _
      · rw [if_neg unfit, if_neg unfit]
        exact ih _

theorem segmentDirectives_both {c : Context} {segments segments' : List Line.Segment}
    (parts : List.Forall₂ Line.Segment.Regroups segments segments') {spans spans' : List Span}
    (all : List.Forall₂ (fun s t => Both Eq (c.spanBytes s) (c.spanBytes t)) spans spans') :
    Both Eq (segmentDirectives c spans segments) (segmentDirectives c spans' segments') := by
  induction parts generalizing spans spans' with
  | nil => exact Both.refl _
  | @cons segment segment' segments segments' here rest ih =>
    -- Every part that is no digits takes the next span.
    have hole {p p' : Line.Segment} (notHex : ∀ digits, p ≠ .hex digits)
        (notHex' : ∀ digits, p' ≠ .hex digits) : Both Eq (segmentDirectives c spans (p :: segments))
          (segmentDirectives c spans' (p' :: segments')) := by
      cases all with
      | nil =>
        rw [segmentDirectives_of_no_span c notHex, segmentDirectives_of_no_span c notHex']
        exact Both.refl _
      | cons value more =>
        rw [segmentDirectives_of_span c notHex, segmentDirectives_of_span c notHex']
        refine value.bind fun bytes bytes' same => (ih more).bind fun tail tail' same' => .ok ?_
        rw [same, same']
    cases here with
    | options perm => exact hole (by simp) (by simp)
    | same =>
      cases segment with
      | hex digits =>
        rw [segmentDirectives, segmentDirectives]
        cases Hex.decode digits with
        | error e => exact .error _ _
        | ok bytes => exact (ih all).bind fun _ _ same => .ok (congrArg _ same)
      | symbol name => exact hole (by simp) (by simp)
      | options names => exact hole (by simp) (by simp)

/-- A span on a line that has no digits, written with its value. -/
theorem resolvedLine_eq {c : Context} {s t : Span} (regroups : s.Regroups t) (same : s.text = t.text)
    (notHex : ∀ segments, Line.classify s.text ≠ .hex segments) :
    resolvedLine c s = resolvedLine c t := by
  obtain ⟨offset, width, placeholder, text, line⟩ := s
  obtain ⟨offset', width', placeholder', text', line'⟩ := t
  obtain ⟨place, located⟩ := regroups
  cases place
  cases same
  cases located with
  | same => rfl
  | options perm kind kind' => exact absurd kind (notHex _)

theorem linesWith_both {c : Context} {line line' : Text} (lines : Line.Regroups line line')
    {spans spans' : List Span}
    (all : List.Forall₂ (fun s t => s.Regroups t ∧ Both Eq (c.spanBytes s) (c.spanBytes t)) spans spans')
    (onLine : ∀ s ∈ spans, s.text = Line.stripComment line)
    (onLine' : ∀ t ∈ spans', t.text = Line.stripComment line') :
    Both Eq (linesWith c line spans) (linesWith c line' spans') := by
  rcases lines.hex_or_same with ⟨segments, segments', kind, kind', parts⟩ | ⟨rfl, notHex⟩
  · unfold linesWith
    rw [kind, kind']
    exact segmentDirectives_both parts (all.imp fun _ _ both => both.2)
  · cases all with
    | nil => exact Both.refl _
    | @cons s t _ _ here rest =>
      have text := onLine s List.mem_cons_self
      have text' := onLine' t List.mem_cons_self
      have kind : ∀ segments, Line.classify s.text ≠ .hex segments := by
        rw [text, Line.classify_stripComment]
        exact notHex
      by_cases readable : Line.IsReadable line
      · rw [linesWith_cons readable notHex, linesWith_cons readable notHex,
          resolvedLine_eq here.1 (text.trans text'.symm) kind]
        exact Both.refl _
      · unfold linesWith
        rw [not_not.mp readable]
        exact .error _ _

theorem sourceWith_both {c : Context} {lines lines' : List Text}
    (codes : List.Forall₂ Line.Regroups lines lines') (ix : Nat) {spans spans' : List Span}
    (all : List.Forall₂ (fun s t => s.Regroups t ∧ Both Eq (c.spanBytes s) (c.spanBytes t)) spans spans')
    (located : spans.map Span.located = placedFrom ix lines)
    (located' : spans'.map Span.located = placedFrom ix lines') :
    Both Eq (sourceWith c spans lines) (sourceWith c spans' lines') := by
  induction codes generalizing ix spans spans' with
  | nil => exact Both.refl _
  | @cons line line' lines lines' here rest ih =>
    obtain ⟨front, back, rfl, onLine, below⟩ := List.map_eq_append_iff.mp located
    obtain ⟨front', back', rfl, onLine', below'⟩ := List.map_eq_append_iff.mp located'
    have count : (placeholdersOf line).length = (placeholdersOf line').length := by
      have both := (placeholdersOf_regroup here ix).length_eq
      rwa [List.length_map, List.length_map] at both
    have size : front.length = (placeholdersOf line).length := by
      rw [← placeholders_of_onLine onLine, List.length_map]
    have size' : front'.length = (placeholdersOf line').length := by
      rw [← placeholders_of_onLine onLine', List.length_map]
    have heads := List.forall₂_take front.length all
    have tails := List.forall₂_drop front.length all
    rw [List.take_left, size, count, ← size', List.take_left] at heads
    rw [List.drop_left, size, count, ← size', List.drop_left] at tails
    rw [sourceWith, sourceWith, ← size, ← size', List.take_left, List.drop_left, List.take_left,
      List.drop_left]
    refine (linesWith_both here heads (fun s member => (span_of_onLine onLine s member).2.1)
      fun s member => (span_of_onLine onLine' s member).2.1).bind fun first first' same => ?_
    refine (ih (ix + 1) tails below below').bind fun more more' same' => .ok ?_
    rw [same, same']

theorem functions_regroup {s t : Span} (regroups : s.Regroups t) :
    s.placeholder.functions = t.placeholder.functions := by
  obtain ⟨offset, width, placeholder, text, line⟩ := s
  obtain ⟨offset', width', placeholder', text', line'⟩ := t
  obtain ⟨-, located⟩ := regroups
  cases located <;> rfl

theorem outstanding_regroup (c : Context) {i j : Intermediate}
    (all : List.Forall₂ Span.Regroups i.spans j.spans) : c.outstanding i = c.outstanding j := by
  have functions {spans spans' : List Span} (all : List.Forall₂ Span.Regroups spans spans') :
      (spans.flatMap fun s => s.placeholder.functions) =
        spans'.flatMap fun s => s.placeholder.functions := by
    induction all with
    | nil => rfl
    | cons here rest ih => rw [List.flatMap_cons, List.flatMap_cons, ih, functions_regroup here]
  rw [Context.outstanding, Context.outstanding, Intermediate.functions, Intermediate.functions,
    functions all]

/-- Whether the code is assembled a second time does not depend on the order of options. -/
theorem needsReassembly_regroup {i j : Intermediate} {lines lines' : List Text}
    (shape : i.SameShape j) (all : List.Forall₂ Span.Regroups i.spans j.spans)
    (located : i.spans.map Span.located = placedFrom 0 lines)
    (located' : j.spans.map Span.located = placedFrom 0 lines') :
    needsReassembly i lines = needsReassembly j lines' := by
  have behind (kind : Line.Kind) {kinds kinds' : List Line.Kind}
      (same : Line.anyAssembly kinds = Line.anyAssembly kinds') :
      Line.anyAssembly (kind :: kinds) = Line.anyAssembly (kind :: kinds') := by
    cases kind with
    | assembly | overflow => rfl
    | blank | branch | hex => exact same
  have anyway {spans spans' : List Span} (all : List.Forall₂ Span.Regroups spans spans') :
      Line.anyAssembly ((spans.filter fun s => !s.placeholder.isBranch).map fun s =>
          Line.classify s.text) =
        Line.anyAssembly ((spans'.filter fun s => !s.placeholder.isBranch).map fun s =>
          Line.classify s.text) := by
    induction all with
    | nil => rfl
    | @cons s t _ _ here rest ih =>
      obtain ⟨offset, width, placeholder, text, line⟩ := s
      obtain ⟨offset', width', placeholder', text', line'⟩ := t
      obtain ⟨-, located⟩ := here
      cases located with
      | same _ kind =>
        rw [List.filter_cons, List.filter_cons]
        cases placeholder with
        | branch branch => exact ih
        | symbols | options => exact (kind _).trans (behind _ ih)
      | options perm kind kind' =>
        rw [List.filter_cons_of_pos rfl, List.filter_cons_of_pos rfl, List.map_cons, List.map_cons, kind,
          kind']
        exact ih
  have unnumbered (k : Intermediate) :
      ((k.unnumbered.spans.filter fun s => !s.placeholder.isBranch).map fun s => Line.classify s.text) =
        (k.spans.filter fun s => !s.placeholder.isBranch).map fun s => Line.classify s.text := by
    rw [Intermediate.unnumbered, List.filter_map, List.map_map]
    rfl
  rw [needsReassembly_of_located located, needsReassembly_of_located located', unnumbered, unnumbered,
    anyway all]
  exact if_congr (Bool.eq_iff_iff.mp shape.isAssembly) rfl rfl

/-- The spans of regrouped codes, whose places agree. -/
theorem spans_regroup {a b : Text} {i j : Intermediate} (codes : Code.Regroups a b)
    (shape : i.SameShape j) (located : i.spans.map Span.located = placedFrom 0 (Text.lines a))
    (located' : j.spans.map Span.located = placedFrom 0 (Text.lines b)) :
    List.Forall₂ Span.Regroups i.spans j.spans := by
  have all := placedFrom_regroup codes 0
  rw [← located, ← located', List.forall₂_map_left_iff, List.forall₂_map_right_iff] at all
  have together {spans spans' : List Span}
      (all : List.Forall₂ (fun s t => s.located.Regroups t.located) spans spans')
      (places : spans.map Span.place = spans'.map Span.place) :
      List.Forall₂ Span.Regroups spans spans' := by
    induction all with
    | nil => exact .nil
    | cons here rest ih =>
      rw [List.map_cons, List.map_cons, List.cons.injEq] at places
      exact .cons ⟨places.1, here⟩ (ih places.2)
  exact together all shape.places

/-- Where the options of all places treat the sign alike, the second passes come to the same code, wait
for the same functions, or fail both. -/
theorem resolveCode_regroup {c : Context} {toolchain : Toolchain} {a b : Text} {i j : Intermediate}
    (codes : Code.Regroups a b) (shape : i.SameShape j)
    (located : i.spans.map Span.located = placedFrom 0 (Text.lines a))
    (located' : j.spans.map Span.located = placedFrom 0 (Text.lines b))
    (bytes : List.Forall₂ (fun s t => s.Regroups t ∧ Both Eq (c.spanBytes s) (c.spanBytes t))
      i.spans j.spans) :
    ((resolveCode c i a).run toolchain).toOption = ((resolveCode c j b).run toolchain).toOption := by
  have all := bytes.imp fun _ _ both => both.1
  have settled := outstanding_regroup c all
  have again := needsReassembly_regroup shape all located located'
  by_cases none : c.outstanding i = []
  case neg =>
    rw [resolveCode_of_outstanding a none, resolveCode_of_outstanding b (settled ▸ none), shape.hex,
      settled]
  have none' := settled ▸ none
  have filled : (fill c i).toOption = (fill c j).toOption := by
    rw [fill, fill, shape.hex]
    cases Hex.decode j.hex with
    | error e => rfl
    | ok data =>
      rw [← Both.eq_iff]
      have places := bytes.imp fun _ _ both => And.intro both.1.place both.2
      exact (fillSpans_both places data).map fun _ _ same => same ▸ rfl
  have sources : Both Eq (resolvedSource c i 0 (Text.lines a)) (resolvedSource c j 0 (Text.lines b)) := by
    rw [resolvedSource_eq_sourceWith (Remaining.all located),
      resolvedSource_eq_sourceWith (Remaining.all located')]
    exact sourceWith_both codes 0 bytes located located'
  cases inside : needsReassembly i (Text.lines a) with
  | error e => rw [resolveCode_of_ends none inside, resolveCode_of_ends none' (again ▸ inside)]
  | ok assembled =>
    cases assembled with
    | false =>
      rw [resolveCode_of_spliced none inside, resolveCode_of_spliced none' (again ▸ inside)]
      exact filled
    | true =>
      rw [resolveCode, resolveCode, ← again]
      simp only [none, none', inside, List.isEmpty_nil, Bool.not_true, Bool.false_eq_true, ↓reduceIte]
      rcases sources.eq_or_eq with ⟨e, e', left, right⟩ | ⟨source, _, left, right, rfl⟩
      · rw [left, right]
        rfl
      · rw [left, right]
        exact ofSecondReply_congr (congrArg (·.length / 2) shape.hex) rfl

/-- A line of digits that is written with values has bytes for all its spans. -/
theorem spanBytes_of_segmentDirectives {c : Context} {spans : List Span}
    {segments : List Line.Segment} {ls : List Text}
    (spanned : spans.map Span.placeholder = segments.filterMap Placeholder.ofSegment?)
    (written : segmentDirectives c spans segments = .ok ls) :
    ∀ s ∈ spans, ∃ bytes, c.spanBytes s = .ok bytes := by
  induction segments generalizing spans ls with
  | nil =>
    rw [List.filterMap_nil, List.map_eq_nil_iff] at spanned
    rw [spanned]
    simp
  | cons segment segments ih =>
    by_cases hex : ∃ digits, segment = .hex digits
    · obtain ⟨digits, rfl⟩ := hex
      obtain ⟨_, more, -, later, -⟩ := segmentDirectives_hex_eq_ok written
      exact ih spanned later
    · have notHex : ∀ digits, segment ≠ .hex digits := fun digits same => hex ⟨digits, same⟩
      cases spans with
      | nil => simp
      | cons s spans =>
        obtain ⟨bytes, more, head, later, -⟩ := segmentDirectives_cons_eq_ok notHex written
        have tail : spans.map Span.placeholder = segments.filterMap Placeholder.ofSegment? := by
          cases segment with
          | hex digits => exact absurd rfl (notHex digits)
          | symbol name => exact (List.cons.inj spanned).2
          | options names => exact (List.cons.inj spanned).2
        rw [List.forall_mem_cons]
        exact ⟨⟨bytes, head⟩, ih tail later⟩

theorem spanBytes_of_fillSpans {c : Context} {bytes out : Bytes} {spans : List Span}
    (filled : fillSpans c bytes spans = .ok out) : ∀ s ∈ spans, ∃ value, c.spanBytes s = .ok value := by
  induction spans generalizing bytes with
  | nil => simp
  | cons s spans ih =>
    obtain ⟨value, found, -, -, rest⟩ := fillSpans_cons_eq_ok_iff.mp filled
    rw [List.forall_mem_cons]
    exact ⟨⟨value, found⟩, ih rest⟩

/-- Complete code has bytes for every span on a line of digits. -/
theorem spanBytes_of_complete {c : Context} {code hex : Text} {i : Intermediate}
    {toolchain : Toolchain} {bytes : Bytes} (text : i.hex = Hex.encode bytes)
    (located : i.spans.map Span.located = placedFrom 0 (Text.lines code))
    (complete : (resolveCode c i code).run toolchain = .ok (.complete hex)) :
    ∀ s ∈ i.spans, (∃ segments, Line.classify s.text = .hex segments) →
      ∃ value, c.spanBytes s = .ok value := by
  rintro s member ⟨segments, kind⟩
  rcases needsReassembly_of_complete complete with again | spliced
  · obtain ⟨source, -, written, -⟩ := reassembled_eq_ok again complete
    have inside : s.located ∈ placedFrom 0 (Text.lines code) := located ▸ List.mem_map_of_mem member
    obtain ⟨k, line, index, here, same, -⟩ := getElem?_of_mem_placedFrom inside
    change s.line = 0 + k at index
    change s.text = Line.stripComment line at same
    rw [same, Line.classify_stripComment] at kind
    obtain ⟨ls, own⟩ := resolvedLines_of_resolvedSource written here
    rw [Nat.zero_add] at own index
    rw [resolvedLines_of_hex kind] at own
    have placeholders := placeholders_of_onLine (onLine_of_located located here)
    rw [placeholdersOf, kind] at placeholders
    exact spanBytes_of_segmentDirectives placeholders own s
      (List.mem_filter.mpr ⟨member, by simpa using index⟩)
  · obtain ⟨after, filled, -⟩ := fill_eq_ok text (fill_of_complete spliced complete)
    exact spanBytes_of_fillSpans filled s member

theorem not_complete_cases {c : Context} {code : Text} {i : Intermediate} {toolchain : Toolchain}
    (settled : c.outstanding i = [])
    (never : ∀ hex, (resolveCode c i code).run toolchain ≠ .ok (.complete hex)) :
    ((resolveCode c i code).run toolchain).toOption = none := by
  have possible := Assembling.run_yields toolchain (resolveCode c i code)
  generalize (resolveCode c i code).run toolchain = result at never possible ⊢
  match result with
  | .error e => rfl
  | .ok (.complete hex) => exact absurd rfl (never hex)
  | .ok (.pending hex names) => exact absurd possible (resolveCode_not_pending settled)

theorem known_of_settings {options options' : List Configuration}
    (settings : List.Forall₂ IsSettingOf options options') {p : Placeholder}
    (known : p.IsKnown options) : p.IsKnown options' := by
  intro names shape
  obtain ⟨nonempty, all⟩ := known names shape
  refine ⟨nonempty, fun name member => ?_⟩
  obtain ⟨o, found⟩ := all name member
  obtain ⟨o', found', -⟩ := Configuration.find?_of_settings settings found
  exact ⟨o', found'⟩

/-- Options that share a place may be written in any order as far as the first pass goes. In the second
pass two orders come to the same, or fail both, exactly if the options of each place treat the sign of
their values alike, or if neither code is complete for another reason. -/
theorem group_order_iff {m : GameMod} {toolchain : Toolchain} {includes : Includes} {a b : Text}
    (built : ∀ o ∈ m.options, o.IsBuilt) (codes : Code.Regroups a b) :
    Both Intermediate.SameShape ((evaluateCode includes (some m.options) a).run toolchain)
      ((evaluateCode includes (some m.options) b).run toolchain) ∧
    ∀ i j, (evaluateCode includes (some m.options) a).run toolchain = .ok i →
      (evaluateCode includes (some m.options) b).run toolchain = .ok j →
      ∀ (attempts : List (Text × Configuration.Value)) (c : Context),
        c.options = (m.trySetOptions attempts).options →
        (((resolveCode c i a).run toolchain).toOption =
            ((resolveCode c j b).run toolchain).toOption ↔
          List.Forall₂ (Span.KeepsSign c.options) i.spans j.spans ∨
          ∀ hex, (resolveCode c i a).run toolchain ≠ .ok (.complete hex) ∧
            (resolveCode c j b).run toolchain ≠ .ok (.complete hex)) := by
  have first := evaluateCode_both toolchain includes (some m.options) codes
  refine ⟨first, fun i j evaluated evaluated' attempts c options => ?_⟩
  rw [evaluated, evaluated'] at first
  have shape : i.SameShape j := by
    cases first with
    | ok shape => exact shape
  have settings : List.Forall₂ IsSettingOf m.options c.options :=
    options ▸ GameMod.settings_of_built built attempts
  have checked : ∀ o ∈ c.options, o.check o.value = .ok () := by
    intro o member
    obtain ⟨o', -, setting⟩ := exists_left_of_forall₂ settings member
    exact setting.checked
  have yields := Assembling.yields_of_run evaluated
  have yields' := Assembling.yields_of_run evaluated'
  have located := evaluateCode_located yields
  have located' := evaluateCode_located yields'
  have known : ∀ s ∈ i.spans, s.placeholder.IsKnown c.options :=
    fun s member => known_of_settings settings (evaluateCode_known yields s member)
  have all := spans_regroup codes shape located located'
  obtain ⟨count, pairs⟩ := List.forall₂_iff_zip.mp all
  constructor
  · intro same
    by_cases never : ∀ hex, (resolveCode c i a).run toolchain ≠ .ok (.complete hex) ∧
        (resolveCode c j b).run toolchain ≠ .ok (.complete hex)
    · exact Or.inr never
    left
    obtain ⟨hex, complete, complete'⟩ : ∃ hex, (resolveCode c i a).run toolchain = .ok (.complete hex) ∧
        (resolveCode c j b).run toolchain = .ok (.complete hex) := by
      rw [not_forall] at never
      obtain ⟨hex, one⟩ := never
      simp only [← Fallible.toOption_eq_some_iff, ne_eq, ← same, and_self, not_not] at one ⊢
      exact ⟨hex, one⟩
    obtain ⟨bytes, text⟩ := evaluateCode_eq_encode yields
    have hasBytes := spanBytes_of_complete text located complete
    have hasBytes' := spanBytes_of_complete (shape.hex ▸ text) located' complete'
    refine List.forall₂_iff_zip.mpr ⟨count, fun {s t} pair => ?_⟩
    obtain ⟨left, right⟩ := List.of_mem_zip pair
    exact keepsSign_of_spanBytes (pairs pair) (known s left) checked (hasBytes s left) (hasBytes' t right)
  · rintro (keeps | never)
    · apply resolveCode_regroup codes shape located located'
      refine List.forall₂_iff_zip.mpr ⟨count, fun {s t} pair => ⟨pairs pair, ?_⟩⟩
      have left := (List.of_mem_zip pair).1
      exact spanBytes_both (pairs pair) (known s left) checked
        ((List.forall₂_iff_zip.mp keeps).2 pair)
    · have settled := outstanding_regroup c all
      by_cases none : c.outstanding i = []
      · rw [not_complete_cases none fun hex => (never hex).1,
          not_complete_cases (settled ▸ none) fun hex => (never hex).2]
      · rw [resolveCode_of_outstanding a none, resolveCode_of_outstanding b (settled ▸ none), shape.hex,
          settled]

def shiftAndBase : GameMod :=
  { GameMod.new "Shifted" with
    options :=
      [⟨"Shift", .int .one true none, .int (-1), .int (-1), [], none, false⟩,
        ⟨"Base", .int .one false none, .int 0, .int 0, [], none, false⟩] }

theorem shiftAndBase_isBuilt : ∀ o ∈ shiftAndBase.options, o.IsBuilt := by
  simp only [shiftAndBase, List.forall_mem_cons, List.not_mem_nil, false_implies, implies_true, and_true]
  exact ⟨.declared "int8 Shift = -1" (by decide +kernel),
    .declared "uint8 Base = 0" (by decide +kernel)⟩

/-- The two in one place, with the one that has a sign in front or behind. -/
def signInFront : Text := "386000[[Shift]]|[[Base]]"
def signBehind : Text := "386000[[Base]]|[[Shift]]"

theorem signInFront_regroups : Code.Regroups signInFront signBehind := by
  have lines : Text.lines signInFront = [signInFront] := by decide +kernel
  have lines' : Text.lines signBehind = [signBehind] := by decide +kernel
  have kind : Line.classify signInFront = .hex [.hex "386000", .options ["Shift", "Base"]] := by
    decide +kernel
  have kind' : Line.classify signBehind = .hex [.hex "386000", .options ["Base", "Shift"]] := by
    decide +kernel
  rw [Code.Regroups, lines, lines']
  exact .cons (.hex kind kind' (.cons (.same _) (.cons (.options (.swap _ _ _)) .nil))) .nil

def onePlaceEvaluated (text : Text) (names : List Text) : Intermediate :=
  { hex := "38600000"
    spans := [⟨3, 1, .options names, text, 0⟩]
    isAssembly := false }

def forwardAttempts : List (Text × Configuration.Value) :=
  [("Shift", .int 5), ("Base", .int (-1)), ("Base", .int 0x40)]

def forwardPlaced : Context :=
  { tablePlaced with options := (shiftAndBase.trySetOptions forwardAttempts).options }

theorem signBehind_completes_forward :
    (resolveCode forwardPlaced (onePlaceEvaluated signBehind ["Base", "Shift"]) signBehind).run
      Assembler.toolchain = .ok (.complete "38600045") := by
  have first : (evaluateCode ⟨fun _ => false, []⟩ (some shiftAndBase.options) signInFront).run
      Assembler.toolchain = .ok (onePlaceEvaluated signInFront ["Shift", "Base"]) := by decide +kernel
  have first' : (evaluateCode ⟨fun _ => false, []⟩ (some shiftAndBase.options) signBehind).run
      Assembler.toolchain = .ok (onePlaceEvaluated signBehind ["Base", "Shift"]) := by decide +kernel
  have second : (resolveCode forwardPlaced (onePlaceEvaluated signInFront ["Shift", "Base"])
      signInFront).run Assembler.toolchain = .ok (.complete "38600045") := by decide +kernel
  have nonneg : ∀ o ∈ optionsNamed forwardPlaced.options ["Shift", "Base"], ∀ n,
      o.value = .int n → 0 ≤ n := by
    have values : (optionsNamed forwardPlaced.options ["Shift", "Base"]).map
        (fun o => o.value) = [.int 5, .int 0x40] := by decide +kernel
    intro o member n value
    have inside := List.mem_map_of_mem (f := fun o : Configuration => o.value) member
    rw [values, value] at inside
    rcases List.mem_pair.mp inside with same | same
    · cases same
      decide
    · cases same
      decide
  have keeps : List.Forall₂ (Span.KeepsSign forwardPlaced.options)
      (onePlaceEvaluated signInFront ["Shift", "Base"]).spans
      (onePlaceEvaluated signBehind ["Base", "Shift"]).spans :=
    .cons (fun _ => Or.inr (Or.inl nonneg)) .nil
  have same := ((group_order_iff shiftAndBase_isBuilt signInFront_regroups).2 _ _ first first'
    forwardAttempts forwardPlaced rfl).mpr (Or.inl keeps)
  rw [second] at same
  exact Fallible.toOption_eq_some_iff.mp same.symm

def shiftedPlaced : Context := { tablePlaced with options := shiftAndBase.options }

/-- With a negative value, only the order with the sign in front comes to code. -/
theorem signInFront_alone_completes :
    (∀ o ∈ shiftAndBase.options, o.IsBuilt) ∧ Code.Regroups signInFront signBehind ∧
      (evaluateCode ⟨fun _ => false, []⟩ (some shiftAndBase.options) signInFront).run
        Assembler.toolchain = .ok (onePlaceEvaluated signInFront ["Shift", "Base"]) ∧
      (evaluateCode ⟨fun _ => false, []⟩ (some shiftAndBase.options) signBehind).run
        Assembler.toolchain = .ok (onePlaceEvaluated signBehind ["Base", "Shift"]) ∧
      (resolveCode shiftedPlaced (onePlaceEvaluated signInFront ["Shift", "Base"]) signInFront).run
        Assembler.toolchain = .ok (.complete "386000FF") ∧
      (resolveCode shiftedPlaced (onePlaceEvaluated signBehind ["Base", "Shift"]) signBehind).run
        Assembler.toolchain = .error (.optionDoesNotFit "Base|Shift" 1) := by
  refine ⟨shiftAndBase_isBuilt, signInFront_regroups, ?_⟩
  decide +kernel

end Change

end GamePatch
