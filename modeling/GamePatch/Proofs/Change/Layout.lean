import GamePatch.Proofs.Change.Labels
import GamePatch.Proofs.Change.Placeholders
import GamePatch.Proofs.Change.Splice

set_option autoImplicit false

namespace GamePatch.Change

open Assembler (item bytesOf Accepts)

inductive Part where
  /-- Lines as they stand. -/
  | lines (ls : List Text)
  /-- A placeholder with the lines that stand for it. -/
  | hole (placeholder : Placeholder) (body : List Text)

namespace Part

/-- The lines of a part, its labels apart. -/
def body : Part → List Text
  | .lines ls => ls
  | .hole _ body => body

def hole? : Part → Option Placeholder
  | .lines _ => none
  | .hole placeholder _ => some placeholder

/-- The bytes of a part while nothing is known yet. -/
def bytes (p : Part) : Bytes := bytesOf p.body

/-- The bytes of a part, with zeros for a placeholder. -/
def blank : Part → Bytes
  | .lines ls => bytesOf ls
  | .hole _ body => Bytes.zeros (bytesOf body).length

/-- The source of parts, with numbers for their placeholders from `index` on. -/
def source : Nat → List Part → List Text
  | _, [] => []
  | index, .lines ls :: rest => ls ++ source index rest
  | index, .hole _ body :: rest => labelled index body ++ source (index + 1) rest

def decoded (digits : Text) : Bytes :=
  match Hex.decode digits with
  | .ok bytes => bytes
  | .error _ => []

def ofSegment : Line.Segment × Nat → Part
  | (.hex digits, _) => .lines (dataDirectives (decoded digits))
  | (.symbol name, width) => .hole (.symbols [name]) (dataDirectives (Bytes.zeros width))
  | (.options names, width) => .hole (.options names) (dataDirectives (Bytes.zeros width))

def ofSegments (options : KnownOptions) (segments : List Line.Segment) : List Part :=
  match placeholderWidths options segments with
  | .ok widths => (segments.zip widths).map ofSegment
  | .error _ => []

/-- The part of a line that has no digits. -/
def ofPlainLine (line : Text) : Part :=
  match Expansion.placeholder? (Line.stripComment line) with
  | none => .lines [line]
  | some p => .hole p [Expansion.provisional (Line.stripComment line) p]

def ofLine (options : KnownOptions) (line : Text) : List Part :=
  match Line.classify line with
  | .hex segments => ofSegments options segments
  | _ => [ofPlainLine line]

def ofCode (options : KnownOptions) (code : Text) : List Part :=
  (Text.lines code).flatMap (ofLine options)

theorem source_append (index : Nat) (front back : List Part) :
    source index (front ++ back) =
      source index front ++ source (index + (front.filterMap hole?).length) back := by
  induction front generalizing index with
  | nil => rfl
  | cons part front ih =>
    cases part with
    | lines ls => rw [List.cons_append, source, ih, source, List.append_assoc]; rfl
    | hole p body =>
      rw [List.cons_append, source, ih, source, List.append_assoc,
        List.filterMap_cons_some (b := p) (by rfl), List.length_cons, Nat.add_assoc,
        Nat.add_comm 1]

end Part

namespace Expansion

def ofParts (index : Nat) (parts : List Part) : Expansion :=
  ⟨Part.source index parts, parts.filterMap Part.hole?⟩

theorem ofParts_cons (index : Nat) (part : Part) (parts : List Part) :
    ofParts index (part :: parts) =
      (ofParts index [part]).append (ofParts (index + (ofParts index [part]).found.length) parts) := by
  rw [append, ofParts, ofParts, ofParts, ← List.filterMap_append, ← Part.source_append]
  rfl

theorem ofSegment_eq_ofParts {text : Text} {index width : Nat} {segment : Line.Segment}
    {e : Expansion} (expanded : ofSegment text index segment width = .ok e) :
    e = ofParts index [Part.ofSegment (segment, width)] := by
  cases segment with
  | hex digits =>
    rw [ofSegment] at expanded
    split at expanded
    case h_1 bytes decoded =>
      cases expanded
      rw [Part.ofSegment, Part.decoded, decoded, ofParts, Part.source, Part.source, List.append_nil]
      rfl
    case h_2 => cases expanded
  | symbol name =>
    cases expanded
    rw [Part.ofSegment, ofParts, Part.source, Part.source, List.append_nil]
    rfl
  | options names =>
    cases expanded
    rw [Part.ofSegment, ofParts, Part.source, Part.source, List.append_nil]
    rfl

theorem ofSegments_eq_ofParts {text : Text} {index : Nat} {parts : List (Line.Segment × Nat)}
    {e : Expansion} (expanded : ofSegments text index parts = .ok e) :
    e = ofParts index (parts.map Part.ofSegment) := by
  induction parts generalizing index e with
  | nil => cases expanded; rfl
  | cons part parts ih =>
    obtain ⟨first, more, head, tail, rfl⟩ := ofSegments_cons_eq_ok_iff.mp expanded
    rw [ih tail, ofSegment_eq_ofParts head, List.map_cons, ← ofParts_cons]

theorem ofPlainLine_eq_ofParts {options : KnownOptions} {index : Nat} {line : Text} {e : Expansion}
    (expanded : ofPlainLine options index line = .ok e) :
    e = ofParts index [Part.ofPlainLine line] := by
  unfold ofPlainLine at expanded
  simp only at expanded
  split at expanded
  case h_1 none =>
    cases expanded
    rw [Part.ofPlainLine, none]
    rfl
  case h_2 names some =>
    obtain ⟨_, -, rfl⟩ := Fallible.map_eq_ok_iff.mp expanded
    rw [Part.ofPlainLine, some]
    rfl
  case h_3 p _ some =>
    cases expanded
    rw [Part.ofPlainLine, some]
    rfl

/-- A line is expanded to its parts. -/
theorem ofLine_eq_ofParts {options : KnownOptions} {index : Nat} {line : Text} {e : Expansion}
    (expanded : ofLine options index line = .ok e) : e = ofParts index (Part.ofLine options line) := by
  unfold ofLine at expanded
  unfold Part.ofLine
  cases kind : Line.classify line with
  | hex segments =>
    rw [kind] at expanded
    obtain ⟨widths, found, parts⟩ := Fallible.bind_eq_ok_iff.mp expanded
    simp only [Part.ofSegments, found]
    exact ofSegments_eq_ofParts parts
  | blank =>
    rw [kind] at expanded
    exact ofPlainLine_eq_ofParts expanded
  | branch branch =>
    rw [kind] at expanded
    exact ofPlainLine_eq_ofParts expanded
  | assembly =>
    rw [kind] at expanded
    exact ofPlainLine_eq_ofParts expanded
  | overflow =>
    rw [kind] at expanded
    cases expanded

theorem placeholdersOf_eq_holes {options : KnownOptions} {index : Nat} {line : Text} {e : Expansion}
    (expanded : ofLine options index line = .ok e) :
    placeholdersOf line = (Part.ofLine options line).filterMap Part.hole? := by
  rw [← ofLine_found expanded, ofLine_eq_ofParts expanded]
  rfl

/-- Code is expanded to its parts, which hold the placeholders of its lines. -/
theorem ofLines_eq_parts {options : KnownOptions} {index : Nat} {lines : List Text}
    {expansions : List Expansion} (expanded : ofLines options index lines = .ok expansions) :
    expansions.flatMap source = Part.source index (lines.flatMap (Part.ofLine options)) ∧
      lines.flatMap placeholdersOf = (lines.flatMap (Part.ofLine options)).filterMap Part.hole? := by
  induction lines generalizing index expansions with
  | nil => cases expanded; exact ⟨rfl, rfl⟩
  | cons line lines ih =>
    obtain ⟨first, more, head, tail, rfl⟩ := ofLines_cons_eq_ok_iff.mp expanded
    obtain ⟨sources, holes⟩ := ih tail
    rw [List.flatMap_cons, List.flatMap_cons, List.flatMap_cons, sources, holes,
      ofLine_eq_ofParts head, placeholdersOf_eq_holes head, Part.source_append, List.filterMap_append]
    exact ⟨rfl, rfl⟩

end Expansion

end GamePatch.Change
