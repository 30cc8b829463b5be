import GamePatch.Path
import GamePatch.Proofs.Text.LineBreaks

set_option autoImplicit false

namespace GamePatch.Path

/-- A text that is one part of a path, as the name of a file is. -/
structure IsPlain (name : Text) : Prop where
  noSlash : '/' ∉ name
  nonempty : name ≠ []
  notDot : name ≠ ['.']
  notDots : name ≠ ['.', '.']

variable {folder : Path} {name : Text}

theorem innerPart?_plain (plain : IsPlain name) : innerPart? name = some (.name name) := by
  rw [innerPart?, if_neg, if_neg plain.notDots]
  simpa using ⟨plain.nonempty, plain.notDot⟩

theorem isIdle_plain (plain : IsPlain name) : isIdle name = false := by
  simpa [isIdle] using ⟨plain.nonempty, plain.notDot⟩

/-- A piece that is not idle is a part. -/
theorem innerPart?_eq_none_iff {piece : Text} : innerPart? piece = none ↔ isIdle piece = true := by
  rw [innerPart?, isIdle]
  split
  case isTrue idle => simpa using idle
  case isFalse solid =>
    split
    case isTrue dots => simp [dots]
    case isFalse => simpa using solid

theorem same_iff {p q : Path} : p.same q = true ↔ p.parts = q.parts := by
  rw [Path.same, beq_iff_eq]

theorem text_eq_join (p : Path) : Text.join ['/'] (Text.splitAt '/' p.text) = p.text :=
  List.intercalate_splitOn '/'

def startOf : List Text → List Part
  | [] => []
  | first :: rest =>
    if first = [] then (if rest = [] then [] else [.root])
    else if first = ['.'] then [.current]
    else []

/-- Where a path starts is said by its first piece, and by whether it is the only one. -/
theorem startOf_congr {first : Text} {rest rest' : List Text}
    (alone : first = [] → (rest = [] ↔ rest' = [])) :
    startOf (first :: rest) = startOf (first :: rest') := by
  rw [startOf, startOf]
  by_cases empty : first = []
  · simp only [if_pos empty, alone empty]
  · simp only [if_neg empty]

theorem isAbsolute_iff (p : Path) :
    p.isAbsolute = true ↔ ∃ piece rest, Text.splitAt '/' p.text = [] :: piece :: rest := by
  obtain ⟨text⟩ := p
  rw [isAbsolute, beq_iff_eq]
  constructor
  · intro first
    obtain ⟨rest, rfl⟩ := List.head?_eq_some_iff.mp first
    obtain ⟨piece, pieces, shape⟩ :=
      List.exists_cons_of_ne_nil (Text.splitAt_ne_nil '/' rest)
    have split := Text.splitAt_append_mark '/' [] rest
    rw [List.nil_append, shape] at split
    exact ⟨piece, pieces, split⟩
  · rintro ⟨piece, rest, shape⟩
    have whole := text_eq_join ⟨text⟩
    rw [shape, Text.join, List.intercalate_cons_cons] at whole
    rw [← whole]
    rfl

/-- The parts of a path in terms of its pieces. -/
theorem parts_eq (p : Path) :
    p.parts = startOf (Text.splitAt '/' p.text) ++ (Text.splitAt '/' p.text).filterMap innerPart? := by
  rw [parts]
  by_cases absolute : p.isAbsolute = true
  · obtain ⟨piece, rest, shape⟩ := (isAbsolute_iff p).mp absolute
    rw [if_pos absolute, shape, startOf, if_pos rfl, if_neg (List.cons_ne_nil piece rest)]
  · rw [if_neg absolute]
    cases shape : Text.splitAt '/' p.text with
    | nil => rfl
    | cons first rest =>
      have relative : first = [] → rest = [] := by
        rintro rfl
        by_contra more
        obtain ⟨piece, rest, rfl⟩ := List.exists_cons_of_ne_nil more
        exact absolute ((isAbsolute_iff p).mpr ⟨piece, rest, shape⟩)
      rw [startOf]
      by_cases empty : first = []
      · rw [if_pos empty, if_pos (relative empty), empty]
        simp
      · rw [if_neg empty]
        simp

theorem parts_plain (plain : IsPlain name) : (⟨name⟩ : Path).parts = [.name name] := by
  have single : Text.splitAt '/' name = [name] := Text.splitAt_eq_singleton plain.noSlash
  have start : startOf [name] = [] := by
    rw [startOf, if_neg plain.nonempty, if_neg plain.notDot]
  rw [parts_eq, single, start, List.filterMap_cons_some (innerPart?_plain plain)]
  rfl

theorem same_plain {other : Text} (plain : IsPlain name) (plain' : IsPlain other) :
    (⟨name⟩ : Path).same ⟨other⟩ = true ↔ name = other := by
  rw [same_iff, parts_plain plain, parts_plain plain']
  simp

/-- The pieces of a directory's path in front of the name of a file in the directory. -/
def leadPieces (folder : Path) : List Text :=
  if folder.endsInSlash then (Text.splitAt '/' folder.text).dropLast
  else Text.splitAt '/' folder.text

theorem splitAt_of_endsInSlash (slash : folder.endsInSlash = true) :
    ∃ front, folder.text = front ++ ['/'] ∧
      Text.splitAt '/' folder.text = Text.splitAt '/' front ++ [[]] := by
  obtain ⟨front, shape⟩ := List.getLast?_eq_some_iff.mp (of_decide_eq_true slash)
  refine ⟨front, shape, ?_⟩
  rw [shape, Text.splitAt_append_mark, Text.splitAt_eq_singleton List.not_mem_nil]

theorem splitAt_leadPieces (folder : Path) :
    Text.splitAt '/' folder.text = folder.leadPieces ∨
      Text.splitAt '/' folder.text = folder.leadPieces ++ [[]] := by
  rw [leadPieces]
  split
  case isTrue slash =>
    obtain ⟨front, -, split⟩ := splitAt_of_endsInSlash slash
    rw [split, List.dropLast_concat]
    exact Or.inr rfl
  case isFalse => exact Or.inl rfl

theorem leadPieces_ne_nil (folder : Path) : folder.leadPieces ≠ [] := by
  rw [leadPieces]
  split
  case isTrue slash =>
    obtain ⟨front, -, split⟩ := splitAt_of_endsInSlash slash
    rw [split, List.dropLast_concat]
    exact Text.splitAt_ne_nil '/' front
  case isFalse => exact Text.splitAt_ne_nil '/' folder.text

theorem noSlash_leadPieces : ∀ piece ∈ folder.leadPieces, '/' ∉ piece := by
  intro piece member
  have inside : piece ∈ Text.splitAt '/' folder.text := by
    rcases splitAt_leadPieces folder with split | split
    · rw [split]
      exact member
    · rw [split]
      exact List.mem_append_left _ member
  exact (Text.mem_splitAt inside).2

/-- The path of a file in a directory. -/
theorem join_plain (some : folder.text ≠ []) (plain : IsPlain name) :
    (folder.join ⟨name⟩).text =
      if folder.endsInSlash then folder.text ++ name else folder.text ++ '/' :: name := by
  have relative : (⟨name⟩ : Path).isAbsolute = false := by
    rw [isAbsolute, beq_eq_false_iff_ne]
    exact fun first => plain.noSlash (List.mem_of_mem_head? first)
  rw [join, relative, Bool.false_or, if_neg (by simpa using some)]
  split
  · rfl
  · simp

theorem splitAt_join (some : folder.text ≠ []) (plain : IsPlain name) :
    Text.splitAt '/' (folder.join ⟨name⟩).text = folder.leadPieces ++ [name] := by
  rw [join_plain some plain, leadPieces]
  split
  case isTrue slash =>
    obtain ⟨front, shape, split⟩ := splitAt_of_endsInSlash slash
    rw [split, shape, List.dropLast_concat, List.append_assoc, List.singleton_append,
      Text.splitAt_append_mark, Text.splitAt_eq_singleton plain.noSlash]
  case isFalse =>
    rw [Text.splitAt_append_mark, Text.splitAt_eq_singleton plain.noSlash]

/-- The part that a directory starts with does not depend on what is in the directory. -/
theorem startOf_leadPieces (some : folder.text ≠ []) (piece : Text) :
    startOf (folder.leadPieces ++ [piece]) = startOf (Text.splitAt '/' folder.text) := by
  obtain ⟨first, rest, shape⟩ := List.exists_cons_of_ne_nil folder.leadPieces_ne_nil
  rcases splitAt_leadPieces folder with split | split
  · have solid : rest = [] → first ≠ [] := by
      rintro rfl rfl
      have whole := folder.text_eq_join
      rw [split, shape] at whole
      exact some whole.symm
    rw [split, shape]
    refine startOf_congr fun empty => ?_
    simpa using fun alone => solid alone empty
  · rw [split, shape]
    exact startOf_congr fun _ => by simp

theorem filterMap_leadPieces (folder : Path) :
    folder.leadPieces.filterMap innerPart? =
      (Text.splitAt '/' folder.text).filterMap innerPart? := by
  rcases splitAt_leadPieces folder with split | split
  · rw [split]
  · rw [split, List.filterMap_append]
    simp [innerPart?]

/-- The parts of a file in a directory. -/
theorem parts_join (some : folder.text ≠ []) (plain : IsPlain name) :
    (folder.join ⟨name⟩).parts = folder.parts ++ [.name name] := by
  rw [parts_eq, splitAt_join some plain, startOf_leadPieces some, List.filterMap_append,
    List.filterMap_cons_some (innerPart?_plain plain), filterMap_leadPieces, parts_eq,
    List.append_assoc]
  rfl

theorem fileName?_join (some : folder.text ≠ []) (plain : IsPlain name) :
    (folder.join ⟨name⟩).fileName? = .some name := by
  rw [fileName?, parts_join some plain, List.getLast?_concat]

theorem reversePieces_join (some : folder.text ≠ []) (plain : IsPlain name) :
    (folder.join ⟨name⟩).reversePieces = name :: folder.leadPieces.reverse := by
  have pieces : (Text.splitAt '/' (folder.join ⟨name⟩).text).reverse.dropWhile isIdle =
      name :: folder.leadPieces.reverse := by
    rw [splitAt_join some plain, List.reverse_concat]
    exact List.dropWhile_cons_of_neg (by simp [isIdle_plain plain])
  rw [reversePieces, pieces]
  rfl

theorem endsInSlash_join (some : folder.text ≠ []) (plain : IsPlain name) :
    (folder.join ⟨name⟩).endsInSlash = false := by
  have last : (folder.join ⟨name⟩).text.getLast? = name.getLast? := by
    rw [join_plain some plain]
    split
    · rw [List.getLast?_append_of_ne_nil _ plain.nonempty]
    · rw [List.getLast?_append_of_ne_nil _ (List.cons_ne_nil _ _)]
      obtain ⟨c, rest, shape⟩ := List.exists_cons_of_ne_nil plain.nonempty
      rw [shape, List.getLast?_cons_cons]
  rw [endsInSlash, last, decide_eq_false_iff_not]
  exact fun slash => plain.noSlash (List.mem_of_getLast? slash)

theorem endsInDot_join (some : folder.text ≠ []) (plain : IsPlain name) :
    (folder.join ⟨name⟩).endsInDot = false := by
  rw [endsInDot, splitAt_join some plain, List.reverse_concat,
    List.dropWhile_cons_of_neg (by simp [plain.nonempty]), List.head?_cons, decide_eq_false_iff_not,
    Option.some.injEq]
  exact plain.notDot

/-- Another extension on the name of a file in a directory. -/
theorem withExtension_join {stem extension other : Text} (some : folder.text ≠ [])
    (plain : IsPlain name) (split : splitExtension name = (stem, .some extension))
    (plain' : IsPlain (stem ++ '.' :: other)) :
    (folder.join ⟨name⟩).withExtension other = folder.join ⟨stem ++ '.' :: other⟩ := by
  have text : Text.join ['/'] (folder.leadPieces ++ [stem ++ '.' :: other]) =
      (folder.join ⟨stem ++ '.' :: other⟩).text := by
    rw [← splitAt_join some plain']
    exact List.intercalate_splitOn '/'
  have shape : stem ++ ['.'] ++ other = stem ++ '.' :: other := by simp
  rw [withExtension, fileName?_join some plain, reversePieces_join some plain]
  simp only [split, shape, ofReversePieces, List.reverse_cons, List.reverse_reverse, text]

theorem extension?_join (some : folder.text ≠ []) (plain : IsPlain name) :
    (folder.join ⟨name⟩).extension? = (splitExtension name).2 := by
  rw [extension?, fileName?_join some plain, Option.bind_some]

/-- The pieces of a text that is joined from pieces. -/
theorem splitAt_ofReversePieces {pieces : List Text} (clean : ∀ piece ∈ pieces, '/' ∉ piece)
    (some : pieces ≠ []) : Text.splitAt '/' (ofReversePieces pieces) = pieces.reverse :=
  List.splitOn_intercalate '/' (by simpa using clean) (by simpa using some)

theorem join_isPrefix {front back : List Text} (some : front ≠ []) :
    Text.join ['/'] front <+: Text.join ['/'] (front ++ back) := by
  by_cases more : back = []
  · rw [more, List.append_nil]
  · rw [Text.join_append some more, List.append_assoc]
    exact List.prefix_append _ _

/-- The start of a path's text, written by some of its pieces. -/
theorem join_leadPieces_isPrefix {front back : List Text} (some : front ≠ [])
    (split : folder.leadPieces = front ++ back) : Text.join ['/'] front <+: folder.text := by
  rw [← folder.text_eq_join]
  rcases splitAt_leadPieces folder with whole | whole
  · rw [whole, split]
    exact join_isPrefix some
  · rw [whole, split, List.append_assoc]
    exact join_isPrefix some

theorem isAbsolute_join (some : folder.text ≠ []) (plain : IsPlain name) :
    (folder.join ⟨name⟩).isAbsolute = folder.isAbsolute := by
  rw [isAbsolute, isAbsolute, join_plain some plain]
  obtain ⟨c, rest, shape⟩ := List.exists_cons_of_ne_nil some
  rw [shape]
  split <;> rfl

/-- The pieces in front of a name, in those that a parent keeps and the idle ones at their end. -/
structure IsDivided (folder : Path) (front idle : List Text) : Prop where
  pieces : folder.leadPieces = front ++ idle
  dropped : ∀ piece ∈ idle, isIdle piece = true
  kept : ∀ piece ∈ front.getLast?, isIdle piece = false

/-- The other spelling names the same directory and is no longer. -/
structure Abbreviates (short folder : Path) : Prop where
  parts : short.parts = folder.parts
  nonempty : short.text ≠ []
  isPrefix : short.text <+: folder.text

theorem isDivided (folder : Path) :
    folder.IsDivided (folder.leadPieces.reverse.dropWhile isIdle).reverse
      (folder.leadPieces.reverse.takeWhile isIdle).reverse := by
  refine ⟨?_, ?_, ?_⟩
  · rw [← List.reverse_append, List.takeWhile_append_dropWhile, List.reverse_reverse]
  · intro piece member
    exact List.mem_takeWhile_imp (List.mem_reverse.mp member)
  · intro piece last
    rw [List.getLast?_reverse] at last
    have first := List.head?_dropWhile_not isIdle folder.leadPieces.reverse
    rwa [Option.mem_def.mp last] at first

section Parents

variable {front idle : List Text}

theorem isAbsolute_iff_leadPieces (some : folder.text ≠ []) (plain : IsPlain name) :
    folder.isAbsolute = true ↔ ∃ rest, folder.leadPieces = [] :: rest := by
  obtain ⟨first, rest, shape⟩ := List.exists_cons_of_ne_nil folder.leadPieces_ne_nil
  obtain ⟨next, others, found⟩ := List.exists_cons_of_ne_nil (List.concat_ne_nil name rest)
  rw [← isAbsolute_join some plain, isAbsolute_iff, splitAt_join some plain, shape, List.cons_append,
    found]
  simp

/-- The parts of a directory come from the pieces that a parent keeps, but for the first part. -/
theorem parts_of_isDivided (divided : folder.IsDivided front idle) (some : folder.text ≠ [])
    (name : Text) :
    folder.parts = startOf (folder.leadPieces ++ [name]) ++ front.filterMap innerPart? := by
  have none : idle.filterMap innerPart? = [] :=
    List.filterMap_eq_nil_iff.mpr fun piece member =>
      innerPart?_eq_none_iff.mpr (divided.dropped piece member)
  rw [parts_eq, startOf_leadPieces some, ← filterMap_leadPieces, divided.pieces,
    List.filterMap_append, none, List.append_nil]

/-- Of an absolute path without names, the parent of a file keeps the root. -/
theorem abbreviates_root (divided : folder.IsDivided [] idle) (some : folder.text ≠ [])
    (plain : IsPlain name) (absolute : folder.isAbsolute = true) : Abbreviates ⟨['/']⟩ folder := by
  refine ⟨?_, List.cons_ne_nil _ _, ?_⟩
  · obtain ⟨rest, shape⟩ := (isAbsolute_iff_leadPieces some plain).mp absolute
    rw [parts_of_isDivided divided some name, shape, List.cons_append, startOf, if_pos rfl,
      if_neg (by simp)]
    rfl
  · obtain ⟨tail, found⟩ := List.head?_eq_some_iff.mp (beq_iff_eq.mp absolute)
    exact ⟨tail, by rw [found]; rfl⟩

/-- Of a relative path without names, the parent of a file keeps the point it starts with. -/
theorem abbreviates_current (divided : folder.IsDivided [] idle) (some : folder.text ≠ [])
    (plain : IsPlain name) (relative : ¬ folder.isAbsolute = true) :
    Abbreviates ⟨['.']⟩ folder ∧ folder.leadPieces.head? = .some ['.'] := by
  obtain ⟨first, rest, shape⟩ := List.exists_cons_of_ne_nil folder.leadPieces_ne_nil
  have idleFirst : isIdle first = true := by
    refine divided.dropped first ?_
    rw [← List.nil_append idle, ← divided.pieces, shape]
    exact List.mem_cons_self
  rw [isIdle, Bool.or_eq_true, List.isEmpty_iff, decide_eq_true_eq] at idleFirst
  obtain rfl : first = ['.'] := idleFirst.resolve_left fun empty =>
    relative ((isAbsolute_iff_leadPieces some plain).mpr ⟨rest, empty ▸ shape⟩)
  refine ⟨⟨?_, List.cons_ne_nil _ _, ?_⟩, by rw [shape, List.head?_cons]⟩
  · rw [parts_of_isDivided divided some name, shape, List.cons_append, startOf, if_neg (by simp),
      if_pos rfl]
    rfl
  · exact join_leadPieces_isPrefix (List.cons_ne_nil ['.'] []) shape

/-- Where a path has names, the parent of a file keeps its pieces up to the last one. -/
theorem abbreviates_front (divided : folder.IsDivided front idle) (some : folder.text ≠ [])
    (nonempty : front ≠ []) : Abbreviates ⟨ofReversePieces front.reverse⟩ folder := by
  have clean : ∀ piece ∈ front.reverse, '/' ∉ piece := by
    intro piece member
    have lead : piece ∈ folder.leadPieces := by
      rw [divided.pieces]
      exact List.mem_append_left _ (List.mem_reverse.mp member)
    exact noSlash_leadPieces piece lead
  have pieces := splitAt_ofReversePieces clean (List.reverse_ne_nil_iff.mpr nonempty)
  rw [List.reverse_reverse] at pieces
  have text : ofReversePieces front.reverse = Text.join ['/'] front := by
    rw [ofReversePieces, List.reverse_reverse]
  refine ⟨?_, fun none => ?_, ?_⟩
  · obtain ⟨first, rest, rfl⟩ := List.exists_cons_of_ne_nil nonempty
    rw [parts_eq, pieces, parts_of_isDivided divided some [], divided.pieces, List.append_assoc]
    congr 1
    refine startOf_congr fun blank => ?_
    have more : rest ≠ [] := by
      rintro rfl
      have solid := divided.kept first rfl
      rw [blank] at solid
      cases solid
    simp [more]
  · change ofReversePieces front.reverse = [] at none
    rw [none, Text.splitAt_eq_singleton List.not_mem_nil] at pieces
    have solid := divided.kept [] (by rw [← pieces]; rfl)
    cases solid
  · rw [text]
    exact join_leadPieces_isPrefix nonempty divided.pieces

/-- The parent of a file in a directory is the directory, perhaps written shorter. -/
theorem parent?_join (some : folder.text ≠ []) (plain : IsPlain name) :
    ∃ parent, (folder.join ⟨name⟩).parent? = .some parent ∧ Abbreviates parent folder := by
  have divided := folder.isDivided
  rw [parent?, reversePieces_join some plain]
  simp only [isAbsolute_join some plain, List.isEmpty_iff]
  split
  case isFalse nonempty =>
    have front := abbreviates_front divided some (List.reverse_ne_nil_iff.mpr nonempty)
    rw [List.reverse_reverse] at front
    exact ⟨_, rfl, front⟩
  case isTrue empty =>
    rw [empty, List.reverse_nil] at divided
    split
    case isTrue absolute => exact ⟨_, rfl, abbreviates_root divided some plain absolute⟩
    case isFalse relative =>
      obtain ⟨current, first⟩ := abbreviates_current divided some plain relative
      rw [List.getLast?_reverse, if_pos first]
      exact ⟨_, rfl, current⟩

end Parents

end GamePatch.Path
