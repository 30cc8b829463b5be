import GamePatch.Proofs.Change.HexAgreement
import GamePatch.Proofs.Change.Placeholders
import GamePatch.Proofs.Change.Widths
import Mathlib.Data.List.Perm.Basic

set_option autoImplicit false

namespace GamePatch

open Fallible (Both)

namespace Line

/-- Parts of a line that differ at most in the order of the options in one place. -/
inductive Segment.Regroups : Segment → Segment → Prop where
  | same (segment : Segment) : Regroups segment segment
  | options {names names' : List Text} (perm : names.Perm names') :
    Regroups (.options names) (.options names')

/-- Lines that are equal, or are lines of digits of which the parts differ so. -/
inductive Regroups : Text → Text → Prop where
  | same (line : Text) : Regroups line line
  | hex {line line' : Text} {segments segments' : List Segment}
    (kind : classify line = .hex segments) (kind' : classify line' = .hex segments')
    (parts : List.Forall₂ Segment.Regroups segments segments') : Regroups line line'

/-- Lines of digits, or one line of another kind. -/
theorem Regroups.hex_or_same {line line' : Text} (lines : Regroups line line') :
    (∃ segments segments', classify line = .hex segments ∧ classify line' = .hex segments' ∧
      List.Forall₂ Segment.Regroups segments segments') ∨
    (line = line' ∧ ∀ segments, classify line ≠ .hex segments) := by
  cases lines with
  | hex kind kind' parts => exact Or.inl ⟨_, _, kind, kind', parts⟩
  | same =>
    by_cases hex : ∃ segments, classify line = .hex segments
    · obtain ⟨segments, kind⟩ := hex
      left
      exact ⟨segments, segments, kind, kind, List.forall₂_same.mpr fun segment _ => .same segment⟩
    · right
      exact ⟨rfl, fun segments kind => hex ⟨segments, kind⟩⟩

end Line

def Code.Regroups (a b : Text) : Prop := List.Forall₂ Line.Regroups (Text.lines a) (Text.lines b)

namespace Change

theorem toOption_map {ε α β : Type} (x : Except ε α) (f : α → β) :
    (x.map f).toOption = x.toOption.map f := by
  cases x <;> rfl

section

variable (options : KnownOptions)

/-- The widest of some options is found in any order. -/
theorem widestOption_perm (cs : List Configuration) {names names' : List Text}
    (perm : names.Perm names') :
    (widestOption cs names).toOption = (widestOption cs names').toOption := by
  induction perm with
  | nil => rfl
  | cons name rest ih =>
    rw [widestOption, widestOption]
    cases Configuration.find? cs name with
    | none => rfl
    | some c =>
      simp only
      rw [toOption_map, toOption_map, ih]
  | swap first second names =>
    simp only [widestOption]
    cases Configuration.find? cs first with
    | none => cases Configuration.find? cs second <;> rfl
    | some c =>
      cases Configuration.find? cs second with
      | none => rfl
      | some c' =>
        cases widestOption cs names with
        | error e => rfl
        | ok width => simp [Except.map, Except.toOption, Nat.max_left_comm]
  | trans _ _ ih ih' => exact ih.trans ih'

theorem knownDigits_both {segment segment' : Line.Segment}
    (parts : Line.Segment.Regroups segment segment') :
    Both Eq (knownDigits options segment) (knownDigits options segment') := by
  cases parts with
  | same => exact Both.refl _
  | options perm =>
    cases options with
    | none => exact Both.refl _
    | some cs =>
      have widest := Both.eq_iff.mpr (widestOption_perm cs perm)
      exact (widest.map fun _ _ same => congrArg some same).map
        fun _ _ same => congrArg (Option.map (2 * ·)) same

theorem fillWidths_regroups {segments segments' : List Line.Segment}
    (parts : List.Forall₂ Line.Segment.Regroups segments segments') (known : List (Option Nat))
    (digits : Nat) :
    fillWidths digits (segments.zip known) = fillWidths digits (segments'.zip known) := by
  induction parts generalizing known digits with
  | nil => rfl
  | @cons segment _ _ _ here rest ih =>
    cases known with
    | nil => rfl
    | cons width known =>
      rw [List.zip_cons_cons, List.zip_cons_cons]
      cases here with
      | same => cases segment <;> cases width <;> simp only [fillWidths, ih]
      | options perm => cases width <;> simp only [fillWidths, ih]

theorem placeholderWidths_both {segments segments' : List Line.Segment}
    (parts : List.Forall₂ Line.Segment.Regroups segments segments') :
    Both Eq (placeholderWidths options segments) (placeholderWidths options segments') := by
  refine (Both.mapM parts fun _ _ => knownDigits_both options).bind fun known known' same => ?_
  rw [List.forall₂_eq_eq_eq] at same
  cases same
  exact .ok (fillWidths_regroups parts known _)

end

def Span.place (s : Span) : Nat × Nat := (s.offset, s.width)

/-- Drafts of the same digits, with their places at the same offsets. -/
structure Draft.SameShape (d d' : Draft) : Prop where
  digits : d.digits = d'.digits
  places : d.spans.map Span.place = d'.spans.map Span.place

namespace Draft

theorem addSegments_cons (text : Text) (line : Nat) (d : Draft) (part : Line.Segment × Nat)
    (rest : List (Line.Segment × Nat)) : addSegments text line d (part :: rest) =
      d.addSegment text line part.1 part.2 >>= fun d => addSegments text line d rest := by
  rw [addSegments]
  cases d.addSegment text line part.1 part.2 <;> rfl

theorem addLine_of_hex (options : KnownOptions) (d : Draft) (ix : Nat) {line : Text}
    {segments : List Line.Segment} (kind : Line.classify line = .hex segments) :
    d.addLine options ix line = placeholderWidths options segments >>= fun widths =>
      addSegments (Line.stripComment line) ix d (segments.zip widths) := by
  rw [addLine, kind]
  simp only
  cases placeholderWidths options segments <;> rfl

theorem addLines_cons (options : KnownOptions) (d : Draft) (ix : Nat) (line : Text)
    (rest : List Text) : addLines options d ix (line :: rest) =
      d.addLine options ix line >>= fun d => addLines options d (ix + 1) rest := by
  rw [addLines]
  cases d.addLine options ix line <;> rfl

variable {d d' : Draft} (same : d.SameShape d')

include same

theorem SameShape.addPlaceholder (p p' : Placeholder) (width : Nat) (text text' : Text)
    (line line' : Nat) :
    Both SameShape (d.addPlaceholder p width text line) (d'.addPlaceholder p' width text' line') := by
  unfold Draft.addPlaceholder
  rw [same.digits]
  split
  · exact .error _ _
  · refine .ok ⟨rfl, ?_⟩
    rw [List.map_append, List.map_append, same.places]
    rfl

theorem SameShape.addSegment {segment segment' : Line.Segment}
    (parts : Line.Segment.Regroups segment segment') (text text' : Text) (line width : Nat) :
    Both SameShape (d.addSegment text line segment width)
      (d'.addSegment text' line segment' width) := by
  cases parts with
  | same =>
    cases segment with
    | hex digits => exact .ok ⟨congrArg (· ++ digits) same.digits, same.places⟩
    | symbol name => exact same.addPlaceholder ..
    | options names => exact same.addPlaceholder ..
  | options perm => exact same.addPlaceholder ..

theorem SameShape.addSegments {segments segments' : List Line.Segment}
    (parts : List.Forall₂ Line.Segment.Regroups segments segments') (widths : List Nat)
    (text text' : Text) (line : Nat) :
    Both SameShape (Draft.addSegments text line d (segments.zip widths))
      (Draft.addSegments text' line d' (segments'.zip widths)) := by
  induction parts generalizing d d' widths with
  | nil => exact .ok same
  | cons here rest ih =>
    cases widths with
    | nil => exact .ok same
    | cons width widths =>
      rw [List.zip_cons_cons, List.zip_cons_cons, addSegments_cons, addSegments_cons]
      exact (same.addSegment here text text' line width).bind fun _ _ step => ih step widths

theorem SameShape.addLine (options : KnownOptions) {line line' : Text}
    (lines : Line.Regroups line line') (ix : Nat) :
    Both SameShape (d.addLine options ix line) (d'.addLine options ix line') := by
  rcases lines.hex_or_same with ⟨segments, segments', kind, kind', parts⟩ | ⟨rfl, notHex⟩
  · rw [addLine_of_hex options d ix kind, addLine_of_hex options d' ix kind']
    refine (placeholderWidths_both options parts).bind fun widths widths' agree => ?_
    cases agree
    exact same.addSegments parts widths _ _ ix
  · rw [Draft.addLine, Draft.addLine]
    cases kind : Line.classify line with
    | blank => exact .ok same
    | branch branch => exact same.addPlaceholder ..
    | hex segments => exact absurd kind (notHex segments)
    | assembly | overflow => exact .error _ _

theorem SameShape.addLines (options : KnownOptions) {lines lines' : List Text}
    (all : List.Forall₂ Line.Regroups lines lines') (ix : Nat) :
    Both SameShape (Draft.addLines options d ix lines) (Draft.addLines options d' ix lines') := by
  induction all generalizing d d' ix with
  | nil => exact .ok same
  | cons here rest ih =>
    rw [addLines_cons, addLines_cons]
    exact (same.addLine options here ix).bind fun _ _ step => ih step (ix + 1)

end Draft

structure Intermediate.SameShape (i j : Intermediate) : Prop where
  hex : i.hex = j.hex
  isAssembly : i.isAssembly = j.isAssembly
  places : i.spans.map Span.place = j.spans.map Span.place

theorem evaluateHex_both (options : KnownOptions) {a b : Text} (codes : Code.Regroups a b) :
    Both Intermediate.SameShape (evaluateHex options a) (evaluateHex options b) := by
  have start : Draft.SameShape ⟨[], []⟩ ⟨[], []⟩ := ⟨rfl, rfl⟩
  have whole (code : Text) : evaluateHex options code =
      Draft.addLines options ⟨[], []⟩ 0 (Text.lines code) >>= fun d =>
        if d.digits.length % 2 ≠ 0 then
          .error (.invalidHex ("odd number of hex digits (" ++ Text.decimal d.digits.length ++ ")"))
        else .ok ⟨d.digits, d.spans, false⟩ := by
    rw [evaluateHex]
    cases Draft.addLines options ⟨[], []⟩ 0 (Text.lines code) <;> rfl
  rw [whole, whole]
  refine (start.addLines options codes 0).bind fun d d' same => ?_
  rw [same.digits]
  split
  · exact .error _ _
  · exact .ok ⟨rfl, rfl, same.places⟩

structure Expansion.SameSource (e e' : Expansion) : Prop where
  source : e.source = e'.source
  count : e.found.length = e'.found.length

namespace Expansion

theorem SameSource.refl (e : Expansion) : e.SameSource e := ⟨rfl, rfl⟩

theorem ofSegment_both {segment segment' : Line.Segment}
    (parts : Line.Segment.Regroups segment segment') (text text' : Text) (index width : Nat) :
    Both SameSource (ofSegment text index segment width) (ofSegment text' index segment' width) := by
  cases parts with
  | options perm => exact .ok ⟨rfl, rfl⟩
  | same =>
    cases segment with
    | hex digits =>
      rw [ofSegment, ofSegment]
      cases Hex.decode digits with
      | error e => exact .error _ _
      | ok bytes => exact .ok (SameSource.refl _)
    | symbol name => exact .ok ⟨rfl, rfl⟩
    | options names => exact .ok ⟨rfl, rfl⟩

theorem ofSegments_both {segments segments' : List Line.Segment}
    (parts : List.Forall₂ Line.Segment.Regroups segments segments') (widths : List Nat)
    (text text' : Text) (index : Nat) :
    Both SameSource (ofSegments text index (segments.zip widths))
      (ofSegments text' index (segments'.zip widths)) := by
  induction parts generalizing widths index with
  | nil => exact .ok (SameSource.refl _)
  | cons here rest ih =>
    cases widths with
    | nil => exact .ok (SameSource.refl _)
    | cons width widths =>
      rw [List.zip_cons_cons, List.zip_cons_cons, ofSegments, ofSegments]
      refine (ofSegment_both here text text' index width).bind fun first first' head => ?_
      rw [head.count]
      refine (ih widths _).bind fun more more' tail => .ok ⟨?_, ?_⟩
      · exact congrArg₂ (· ++ ·) head.source tail.source
      · rw [append, append, List.length_append, List.length_append, head.count, tail.count]

theorem ofLine_both (options : KnownOptions) {line line' : Text} (lines : Line.Regroups line line')
    (index : Nat) :
    Both SameSource (ofLine options index line) (ofLine options index line') := by
  cases lines with
  | same =>
    refine (Both.refl _).mono ?_
    rintro e _ rfl
    exact SameSource.refl e
  | hex kind kind' parts =>
    rw [ofLine, ofLine, kind, kind']
    refine (placeholderWidths_both options parts).bind fun widths widths' agree => ?_
    cases agree
    exact ofSegments_both parts widths _ _ index

theorem ofLines_both (options : KnownOptions) {lines lines' : List Text}
    (all : List.Forall₂ Line.Regroups lines lines') (index : Nat) :
    Both (List.Forall₂ SameSource) (ofLines options index lines) (ofLines options index lines') := by
  induction all generalizing index with
  | nil => exact .ok .nil
  | cons here rest ih =>
    rw [ofLines, ofLines]
    refine (ofLine_both options here index).bind fun first first' head => ?_
    rw [head.count]
    exact (ih _).bind fun more more' tail => .ok (.cons head tail)

theorem text_of_sameSource {expansions expansions' : List Expansion}
    (all : List.Forall₂ SameSource expansions expansions') : text expansions = text expansions' := by
  have sources : expansions.flatMap Expansion.source = expansions'.flatMap Expansion.source := by
    induction all with
    | nil => rfl
    | cons here rest ih => rw [List.flatMap_cons, List.flatMap_cons, here.source, ih]
  rw [text, text, sources]

end Expansion

/-- Placeholders that differ at most in the order of their options. Where they differ, the texts are
lines of digits. -/
inductive Expansion.Located.Regroups : Expansion.Located → Expansion.Located → Prop where
  | same (p : Placeholder) {text text' : Text}
    (kind : ∀ kinds, Line.anyAssembly (Line.classify text :: kinds) =
      Line.anyAssembly (Line.classify text' :: kinds)) (line : Nat) :
    Regroups ⟨p, text, line⟩ ⟨p, text', line⟩
  | options {names names' : List Text} (perm : names.Perm names') {text text' : Text}
    {segments segments' : List Line.Segment} (kind : Line.classify text = .hex segments)
    (kind' : Line.classify text' = .hex segments') (line : Nat) :
    Regroups ⟨.options names, text, line⟩ ⟨.options names', text', line⟩

theorem segments_regroup {segments segments' : List Line.Segment}
    (parts : List.Forall₂ Line.Segment.Regroups segments segments') {text text' : Text}
    {all all' : List Line.Segment} (kind : Line.classify text = .hex all)
    (kind' : Line.classify text' = .hex all') (ix : Nat) :
    List.Forall₂ Expansion.Located.Regroups
      ((segments.filterMap Placeholder.ofSegment?).map fun p => ⟨p, text, ix⟩)
      ((segments'.filterMap Placeholder.ofSegment?).map fun p => ⟨p, text', ix⟩) := by
  have alike (kinds : List Line.Kind) : Line.anyAssembly (Line.classify text :: kinds) =
      Line.anyAssembly (Line.classify text' :: kinds) := by
    rw [kind, kind']
    rfl
  induction parts with
  | nil => exact .nil
  | @cons segment _ _ _ here rest ih =>
    cases here with
    | options perm => exact .cons (.options perm kind kind' ix) ih
    | same =>
      cases segment with
      | hex digits => exact ih
      | symbol name => exact .cons (.same _ alike ix) ih
      | options names => exact .cons (.same _ alike ix) ih

theorem placeholdersOf_regroup {line line' : Text} (lines : Line.Regroups line line') (ix : Nat) :
    List.Forall₂ Expansion.Located.Regroups
      ((placeholdersOf line).map fun p => ⟨p, Line.stripComment line, ix⟩)
      ((placeholdersOf line').map fun p => ⟨p, Line.stripComment line', ix⟩) := by
  cases lines with
  | same =>
    rw [List.forall₂_map_left_iff, List.forall₂_map_right_iff, List.forall₂_same]
    exact fun p _ => .same p (fun _ => rfl) ix
  | hex kind kind' parts =>
    have stripped := (Line.classify_stripComment line).trans kind
    have stripped' := (Line.classify_stripComment line').trans kind'
    rw [placeholdersOf, placeholdersOf, kind, kind']
    exact segments_regroup parts stripped stripped' ix

theorem placedFrom_regroup {lines lines' : List Text} (all : List.Forall₂ Line.Regroups lines lines')
    (ix : Nat) :
    List.Forall₂ Expansion.Located.Regroups (placedFrom ix lines) (placedFrom ix lines') := by
  induction all generalizing ix with
  | nil => exact .nil
  | cons here rest ih => exact List.rel_append (placeholdersOf_regroup here ix) (ih (ix + 1))

/-- The spans lie where the labels do. -/
theorem spansOf_both (assembly : Assembly) {found found' : List Expansion.Located}
    (count : found.length = found'.length) (index : Nat) :
    Both (fun spans spans' => spans.map Span.place = spans'.map Span.place)
      (spansOf assembly index found) (spansOf assembly index found') := by
  induction found generalizing found' index with
  | nil =>
    rw [List.length_nil, eq_comm, List.length_eq_zero_iff] at count
    cases count
    exact .ok rfl
  | cons first found ih =>
    cases found' with
    | nil => cases count
    | cons first' found' =>
      rw [spansOf, spansOf]
      have head : Both (fun s s' => s.place = s'.place) (spanOf assembly index first)
          (spanOf assembly index first') := by
        unfold spanOf
        split
        · split
          · exact .error _ _
          · exact .ok rfl
        · exact .error _ _
      refine head.bind fun s s' place => ?_
      refine (ih (Nat.succ.inj count) _).bind fun more more' places => .ok ?_
      rw [List.map_cons, List.map_cons, place, places]

theorem clear_of_places (bytes : Bytes) {spans spans' : List Span}
    (places : spans.map Span.place = spans'.map Span.place) :
    clear bytes spans = clear bytes spans' := by
  have read (spans : List Span) : clear bytes spans =
      (spans.map Span.place).foldl (fun bytes p => bytes.splice p.1 (Bytes.zeros p.2)) bytes := by
    rw [List.foldl_map]
    rfl
  rw [read, read, places]

theorem ofReply_both {lines lines' : List Text} {expansions expansions' : List Expansion}
    (count : (Expansion.located 0 lines expansions).length =
      (Expansion.located 0 lines' expansions').length) (reply : Toolchain.Reply) :
    Both Intermediate.SameShape (ofReply lines expansions reply)
      (ofReply lines' expansions' reply) := by
  unfold ofReply
  split
  · exact .error _ _
  · exact .error _ _
  case h_3 assembly =>
    rcases (spansOf_both assembly count 0).eq_or_eq with
      ⟨e, e', left, right⟩ | ⟨spans, spans', left, right, places⟩
    · rw [left, right]
      exact .error _ _
    · rw [left, right]
      exact .ok ⟨congrArg Hex.encode (clear_of_places _ places), rfl, places⟩

theorem missing?_regroup (includes : Includes) {lines lines' : List Text}
    (all : List.Forall₂ Line.Regroups lines lines') :
    includes.missing? lines = includes.missing? lines' := by
  have none {line : Text} {segments : List Line.Segment} (kind : Line.classify line = .hex segments) :
      Includes.fileOf? line = .none := by
    cases found : Includes.fileOf? line with
    | none => rfl
    | some file => cases kind.symm.trans (Line.classify_of_fileOf? found)
  have files : lines.filterMap Includes.fileOf? = lines'.filterMap Includes.fileOf? := by
    induction all with
    | nil => rfl
    | cons here rest ih =>
      cases here with
      | same => rw [List.filterMap_cons, List.filterMap_cons, ih]
      | hex kind kind' parts =>
        rw [List.filterMap_cons_none (none kind), List.filterMap_cons_none (none kind'), ih]
  rw [Includes.missing?, Includes.missing?, files]

theorem isAssembly_regroup {a b : Text} (codes : Code.Regroups a b) :
    Code.isAssembly a = Code.isAssembly b := by
  have lines {ls ls' : List Text} (all : List.Forall₂ Line.Regroups ls ls') :
      Line.anyAssembly (ls.map Line.classify) = Line.anyAssembly (ls'.map Line.classify) := by
    induction all with
    | nil => rfl
    | @cons line line' _ _ here rest ih =>
      rw [List.map_cons, List.map_cons]
      cases here with
      | same =>
        cases Line.classify line with
        | assembly | overflow => rfl
        | blank | branch | hex => exact ih
      | hex kind kind' parts =>
        rw [kind, kind']
        exact ih
  exact lines codes

/-- The first pass does not tell in which order options that share a place are written, whatever
assembler is asked. -/
theorem evaluateCode_both (toolchain : Toolchain) (includes : Includes) (options : KnownOptions)
    {a b : Text} (codes : Code.Regroups a b) :
    Both Intermediate.SameShape ((evaluateCode includes options a).run toolchain)
      ((evaluateCode includes options b).run toolchain) := by
  rw [evaluateCode, evaluateCode, ← isAssembly_regroup codes]
  split
  case h_1 => exact .error _ _
  case h_3 => exact evaluateHex_both options codes
  case h_2 =>
    rw [evaluateAssembly, evaluateAssembly, expand, expand, ← missing?_regroup includes codes]
    cases includes.missing? (Text.lines a) with
    | some file => exact .error _ _
    | none =>
      have expanded := Expansion.ofLines_both options codes 0
      simp only
      rcases expanded.eq_or_eq with ⟨e, e', left, right⟩ | ⟨all, all', left, right, sources⟩
      · rw [left, right]
        exact .error _ _
      · have count := (placedFrom_regroup codes 0).length_eq
        rw [← Expansion.located_ofLines left, ← Expansion.located_ofLines right] at count
        rw [left, right]
        simp only [Assembling.run, Expansion.text_of_sameSource sources]
        exact ofReply_both count _

end Change

end GamePatch
