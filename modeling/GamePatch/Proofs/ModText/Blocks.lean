import GamePatch.ModText.Reader
import GamePatch.ModText.Writer
import GamePatch.Proofs.Fallible

set_option autoImplicit false

namespace GamePatch

namespace Text

/-- A line with its line break, if it has one. -/
def IsWhole (l : Text) : Prop := l ≠ [] ∧ '\n' ∉ l.dropLast

def IsTerminated (s : Text) : Prop := s.getLast? = some '\n'

/-- Lines as a text is split into them: none but the last goes without its line break. -/
structure AreWhole (ls : List Text) : Prop where
  whole : ∀ l ∈ ls, IsWhole l
  terminated : ls.Pairwise fun l _ => IsTerminated l

theorem AreWhole.sublist {ls ls' : List Text} (whole : AreWhole ls) (sub : ls'.Sublist ls) :
    AreWhole ls' :=
  ⟨fun l member => whole.whole l (sub.subset member), whole.terminated.sublist sub⟩

theorem isTerminated_append {s t : Text} (nonempty : t ≠ []) :
    IsTerminated (s ++ t) ↔ IsTerminated t := by
  rw [IsTerminated, IsTerminated, List.getLast?_append_of_ne_nil s nonempty]

theorem splitInclusive_cons {c : Char} (s : Text) (inside : c ≠ '\n') :
    splitInclusive (c :: s) =
      match splitInclusive s with
      | [] => [[c]]
      | l :: ls => (c :: l) :: ls := by
  rw [splitInclusive]
  exact if_neg inside

/-- A line with its line break is split off. -/
theorem splitInclusive_line {l : Text} (whole : IsWhole l) (ends : IsTerminated l) (s : Text) :
    splitInclusive (l ++ s) = l :: splitInclusive s := by
  induction l with
  | nil => exact absurd rfl whole.1
  | cons c l ih =>
    cases l with
    | nil =>
      have feed : c = '\n' := Option.some.inj ends
      rw [feed, List.singleton_append, splitInclusive, if_pos rfl]
    | cons d l =>
      have inner : c ≠ '\n' ∧ '\n' ∉ (d :: l).dropLast := by
        have := whole.2
        rw [List.dropLast_cons_cons, List.mem_cons, not_or] at this
        exact ⟨Ne.symm this.1, this.2⟩
      rw [List.cons_append, splitInclusive_cons _ inner.1,
        ih ⟨List.cons_ne_nil d l, inner.2⟩ (by rwa [IsTerminated, List.getLast?_cons_cons] at ends)]

theorem splitInclusive_last {l : Text} (whole : IsWhole l) : splitInclusive l = [l] := by
  by_cases ends : IsTerminated l
  · have alone := splitInclusive_line whole ends []
    rwa [List.append_nil, splitInclusive] at alone
  · induction l with
    | nil => exact absurd rfl whole.1
    | cons c l ih =>
      have inside : c ≠ '\n' := by
        rintro rfl
        cases l with
        | nil => exact ends rfl
        | cons d l => exact whole.2 (by simp)
      rw [splitInclusive_cons _ inside]
      cases l with
      | nil => rfl
      | cons d l =>
        have inner : IsWhole (d :: l) := by
          refine ⟨List.cons_ne_nil d l, fun member => whole.2 ?_⟩
          rw [List.dropLast_cons_cons]
          exact List.mem_cons_of_mem c member
        rw [ih inner (by rwa [IsTerminated, List.getLast?_cons_cons] at ends)]

/-- Lines with their line breaks are read back from their text. -/
theorem splitInclusive_append {ls : List Text} (whole : ∀ l ∈ ls, IsWhole l ∧ IsTerminated l)
    (s : Text) : splitInclusive (ls.flatten ++ s) = ls ++ splitInclusive s := by
  induction ls with
  | nil => rfl
  | cons l ls ih =>
    rw [List.forall_mem_cons] at whole
    rw [List.flatten_cons, List.append_assoc, splitInclusive_line whole.1.1 whole.1.2, ih whole.2,
      List.cons_append]

theorem AreWhole.splitInclusive_flatten {ls : List Text} (whole : AreWhole ls) :
    splitInclusive ls.flatten = ls := by
  induction ls with
  | nil => rfl
  | cons l ls ih =>
    have own := whole.whole l List.mem_cons_self
    cases ls with
    | nil => rw [List.flatten_singleton, splitInclusive_last own]
    | cons l' ls =>
      have ends := List.rel_of_pairwise_cons whole.terminated (List.mem_cons_self (a := l'))
      rw [List.flatten_cons, splitInclusive_line own ends,
        ih (whole.sublist (List.sublist_cons_self l _))]

theorem isWhole_cons {c : Char} {l : Text} (inside : c ≠ '\n') (whole : IsWhole l) :
    IsWhole (c :: l) := by
  refine ⟨List.cons_ne_nil c l, ?_⟩
  rw [List.dropLast_cons_of_ne_nil whole.1, List.mem_cons, not_or]
  exact ⟨Ne.symm inside, whole.2⟩

theorem areWhole_splitInclusive (s : Text) : AreWhole (splitInclusive s) := by
  fun_induction splitInclusive s with
  | case1 => exact ⟨by simp, List.Pairwise.nil⟩
  | case2 r ih =>
    refine ⟨?_, ih.terminated.cons fun l _ => rfl⟩
    rw [List.forall_mem_cons]
    exact ⟨⟨List.cons_ne_nil _ _, by simp⟩, ih.whole⟩
  | case3 c r inside none ih =>
    exact ⟨by simp [IsWhole], List.pairwise_singleton _ _⟩
  | case4 c r inside l ls shape ih =>
    rw [shape] at ih
    have own := ih.whole l List.mem_cons_self
    have pairs := List.pairwise_cons.mp ih.terminated
    refine ⟨?_, List.pairwise_cons.mpr ⟨fun l' member => ?_, pairs.2⟩⟩
    · rw [List.forall_mem_cons]
      exact ⟨isWhole_cons inside own, fun l' member => ih.whole l' (List.mem_cons_of_mem l member)⟩
    · have ends := pairs.1 l' member
      rwa [← List.singleton_append, isTerminated_append own.1]

theorem flatten_splitInclusive (s : Text) : (splitInclusive s).flatten = s := by
  fun_induction splitInclusive s with
  | case1 => rfl
  | case2 r ih => rw [List.flatten_cons, ih, List.singleton_append]
  | case3 c r inside none ih =>
    rw [none, List.flatten_nil] at ih
    rw [← ih, List.flatten_singleton]
  | case4 c r inside l ls shape ih =>
    rw [shape, List.flatten_cons] at ih
    rw [List.flatten_cons, List.cons_append, ih]

/-- A text that ends in a line break has no line without one. -/
theorem isTerminated_of_mem_splitInclusive {s l : Text} (ends : IsTerminated s)
    (member : l ∈ splitInclusive s) : IsTerminated l := by
  have whole := areWhole_splitInclusive s
  obtain ⟨front, back, shape⟩ := List.append_of_mem member
  rw [shape] at whole
  cases back with
  | nil =>
    have own := whole.whole l (by simp)
    rw [← flatten_splitInclusive s, shape, List.flatten_append, List.flatten_singleton,
      isTerminated_append own.1] at ends
    exact ends
  | cons l' back =>
    have later := (List.pairwise_append.mp whole.terminated).2.1
    exact List.rel_of_pairwise_cons later List.mem_cons_self

end Text

namespace ModText

open Text (splitInclusive IsTerminated IsWhole AreWhole)

/-- The lines of a file between two separators are lines of the file, and if more lines follow them
they have their line breaks. -/
theorem splitOnP_spec {p : Text → Bool} {ls : List Text} (whole : AreWhole ls) :
    (∀ part ∈ ls.splitOnP p, part.Sublist ls ∧ ∀ l ∈ part, p l = false) ∧
      (ls.splitOnP p).Pairwise fun part _ => ∀ l ∈ part, IsTerminated l := by
  induction ls with
  | nil => simp [List.splitOnP_nil]
  | cons l ls ih =>
    obtain ⟨parts, ends⟩ := ih (whole.sublist (List.sublist_cons_self l ls))
    rw [List.splitOnP_cons_eq_if_modifyHead]
    split
    case isTrue =>
      refine ⟨?_, ends.cons (by simp)⟩
      rw [List.forall_mem_cons]
      exact ⟨by simp, fun part member =>
        ⟨(parts part member).1.trans (List.sublist_cons_self l ls), (parts part member).2⟩⟩
    case isFalse clear =>
      obtain ⟨first, others, shape⟩ := List.exists_cons_of_ne_nil (List.splitOnP_ne_nil p ls)
      rw [shape, List.forall_mem_cons] at parts
      rw [shape, List.pairwise_cons] at ends
      rw [shape, List.modifyHead_cons, List.forall_mem_cons, List.pairwise_cons]
      refine ⟨⟨⟨parts.1.1.cons_cons l, ?_⟩, fun part member =>
        ⟨(parts.2 part member).1.trans (List.sublist_cons_self l ls), (parts.2 part member).2⟩⟩,
        fun other member => ?_, ends.2⟩
      · rw [List.forall_mem_cons]
        exact ⟨Bool.not_eq_true _ ▸ clear, parts.1.2⟩
      · rw [List.forall_mem_cons]
        refine ⟨?_, ends.1 other member⟩
        -- Another part means that there was a separator, so that `l` is not the last line.
        cases ls with
        | nil =>
          rw [List.splitOnP_nil] at shape
          cases shape
          cases member
        | cons l' ls => exact List.rel_of_pairwise_cons whole.terminated List.mem_cons_self

/-- A text that a file can have as a block. -/
structure IsBlockText (b : Text) : Prop where
  solid : Text.isAllBlank b = false
  clear : ∀ l ∈ splitInclusive b, isSeparator l = false

theorem IsBlockText.nonempty {b : Text} (block : IsBlockText b) : b ≠ [] := by
  rintro rfl
  cases block.solid

theorem isBlockText_of_mem_blocks {file b : Text} (member : b ∈ blocks file) : IsBlockText b := by
  obtain ⟨inside, solid⟩ := List.mem_filter.mp member
  obtain ⟨part, found, rfl⟩ := List.mem_map.mp inside
  have whole := Text.areWhole_splitInclusive file
  obtain ⟨sub, clear⟩ := (splitOnP_spec whole).1 part found
  refine ⟨by simpa using solid, ?_⟩
  rw [(whole.sublist sub).splitInclusive_flatten]
  exact clear

theorem isTerminated_flatten {ls : List Text} (ends : ∀ l ∈ ls, IsTerminated l)
    (nonempty : ls.flatten ≠ []) : IsTerminated ls.flatten := by
  induction ls with
  | nil => exact absurd rfl nonempty
  | cons l ls ih =>
    rw [List.forall_mem_cons] at ends
    rw [List.flatten_cons]
    by_cases last : ls.flatten = []
    · rw [last, List.append_nil]
      exact ends.1
    · rw [Text.isTerminated_append last]
      exact ih ends.2 last

/-- A block that another block follows ends in a line break. -/
theorem pairwise_blocks (file : Text) : (blocks file).Pairwise fun b _ => IsTerminated b := by
  have parts := (splitOnP_spec (p := isSeparator) (Text.areWhole_splitInclusive file)).2
  have flat : (((splitInclusive file).splitOnP isSeparator).map List.flatten).Pairwise
      fun b _ => b ≠ [] → IsTerminated b :=
    List.pairwise_map.mpr (parts.imp fun ends nonempty => isTerminated_flatten ends nonempty)
  refine (flat.sublist List.filter_sublist).imp_of_mem fun member _ ends => ?_
  exact ends (isBlockText_of_mem_blocks member).nonempty

theorem forall_mem_dropLast {α : Type} {P : α → Prop} {xs : List α}
    (pairs : xs.Pairwise fun a _ => P a) : ∀ a ∈ xs.dropLast, P a := by
  induction xs with
  | nil => simp
  | cons a xs ih =>
    cases xs with
    | nil => simp
    | cons b xs =>
      rw [List.dropLast_cons_cons, List.forall_mem_cons]
      exact ⟨List.rel_of_pairwise_cons pairs List.mem_cons_self, ih (List.Pairwise.of_cons pairs)⟩

def separatorLine : Text := separator ++ ['\n']

theorem isSeparator_line : isSeparator separatorLine = true := by decide

theorem isWhole_separatorLine : IsWhole separatorLine := ⟨by decide, by decide⟩

theorem joinBlocks_singleton (b : Text) : joinBlocks [b] = b := by
  rw [joinBlocks, Text.join, List.intercalate_singleton]

theorem joinBlocks_cons_cons (b b' : Text) (texts : List Text) :
    joinBlocks (b :: b' :: texts) = b ++ separatorLine ++ joinBlocks (b' :: texts) :=
  List.intercalate_cons_cons

/-- One text alone is the only block. -/
theorem blocks_self {b : Text} (block : IsBlockText b) : blocks b = [b] := by
  rw [blocks, List.splitOnP_eq_singleton block.clear, List.map_singleton,
    Text.flatten_splitInclusive, List.filter_singleton, block.solid]
  rfl

/-- A text with its line break, and a separator behind it, is the first block. -/
theorem blocks_append {b : Text} (block : IsBlockText b) (ends : IsTerminated b) (rest : Text) :
    blocks (b ++ separatorLine ++ rest) = b :: blocks rest := by
  have lines : splitInclusive (b ++ separatorLine ++ rest) =
      splitInclusive b ++ separatorLine :: splitInclusive rest := by
    have whole : ∀ l ∈ splitInclusive b, IsWhole l ∧ IsTerminated l := fun l member =>
      ⟨(Text.areWhole_splitInclusive b).whole l member,
        Text.isTerminated_of_mem_splitInclusive ends member⟩
    have split := Text.splitInclusive_append whole (separatorLine ++ rest)
    rwa [Text.flatten_splitInclusive, ← List.append_assoc,
      Text.splitInclusive_line isWhole_separatorLine rfl] at split
  rw [blocks, lines, List.splitOnP_append_cons _ _ isSeparator_line,
    List.splitOnP_eq_singleton block.clear, List.singleton_append, List.map_cons,
    Text.flatten_splitInclusive, List.filter_cons_of_pos (by simpa using block.solid), blocks]

/-- Texts are the blocks of the file that they are written to, exactly if each of them but the last
ends in a line break. -/
theorem blocks_joinBlocks_iff {texts : List Text} (each : ∀ b ∈ texts, IsBlockText b) :
    blocks (joinBlocks texts) = texts ↔ ∀ b ∈ texts.dropLast, IsTerminated b := by
  constructor
  · intro same
    exact forall_mem_dropLast (same ▸ pairwise_blocks (joinBlocks texts))
  · intro ends
    induction texts with
    | nil => rfl
    | cons b texts ih =>
      rw [List.forall_mem_cons] at each
      cases texts with
      | nil => rw [joinBlocks_singleton, blocks_self each.1]
      | cons b' texts =>
        rw [List.dropLast_cons_cons, List.forall_mem_cons] at ends
        rw [joinBlocks_cons_cons, blocks_append each.1 ends.1, ih each.2 ends.2]

/-- The texts of the mods in a file: its blocks with a title. -/
def modTexts (file : Text) : List Text := (blocks file).filter fun b => (parse b).toOption.isSome

theorem sourceText_of_parse {text : Text} {m : GameMod} (parsed : parse text = .ok m) :
    m.sourceText = some text := by
  unfold parse at parsed
  split at parsed
  · cases parsed
  · cases parsed
    rfl

/-- Each mod of a file keeps its text. -/
theorem sourceText_parseAll (file : Text) :
    (parseAll file).map GameMod.sourceText = (modTexts file).map some := by
  rw [parseAll, modTexts]
  induction blocks file with
  | nil => rfl
  | cons b rest ih =>
    rw [List.filterMap_cons, List.filter_cons]
    cases parsed : parse b with
    | error e => exact ih
    | ok m =>
      change m.sourceText :: _ = some b :: _
      rw [sourceText_of_parse parsed, ih]

theorem write_of_sourceText {mods : List GameMod} {texts : List Text}
    (kept : mods.map GameMod.sourceText = texts.map some) : mods.map write = texts := by
  induction mods generalizing texts with
  | nil =>
    cases texts with
    | nil => rfl
    | cons => cases kept
  | cons m mods ih =>
    cases texts with
    | nil => cases kept
    | cons text texts =>
      rw [List.map_cons, List.map_cons, List.cons.injEq] at kept
      rw [List.map_cons, ih kept.2, write, kept.1, Option.getD_some]

theorem sourceText_parseAll_files (files : List Text) :
    (files.flatMap parseAll).map GameMod.sourceText = (files.flatMap modTexts).map some := by
  rw [List.map_flatMap, List.map_flatMap]
  exact List.flatMap_congr fun file _ => sourceText_parseAll file

theorem isBlockText_of_mem_modTexts {files : List Text} {b : Text}
    (member : b ∈ files.flatMap modTexts) : IsBlockText b := by
  obtain ⟨file, -, inside⟩ := List.mem_flatMap.mp member
  exact isBlockText_of_mem_blocks (List.mem_filter.mp inside).1

/-- The mods of some files, written to one file without a change, are its blocks exactly if each text
but the last ends in a line break. A text without one is the last of its file, where it can stand. -/
theorem blocks_writeAll_iff (files : List Text) :
    (files.flatMap parseAll).map GameMod.sourceText = (files.flatMap modTexts).map some ∧
      (blocks (writeAll (files.flatMap parseAll)) = files.flatMap modTexts ↔
        ∀ b ∈ (files.flatMap modTexts).dropLast, IsTerminated b) := by
  have kept := sourceText_parseAll_files files
  refine ⟨kept, ?_⟩
  rw [writeAll, write_of_sourceText kept]
  exact blocks_joinBlocks_iff fun b member => isBlockText_of_mem_modTexts member

/-- The last line of the first file runs into the separator, and two mods become one. -/
theorem unterminated_mods_merge :
    (["A".toList, "B\n".toList].flatMap parseAll).map GameMod.sourceText =
        [some "A".toList, some "B\n".toList] ∧
      blocks (writeAll (["A".toList, "B\n".toList].flatMap parseAll)) = ["A-==-\nB\n".toList] := by
  decide +kernel

end ModText

end GamePatch
