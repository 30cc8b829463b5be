import GamePatch.Proofs.ModText.Blocks
import GamePatch.Proofs.Text.Ends
import GamePatch.Proofs.Text.Lines
import Mathlib.Data.List.Pairwise

set_option autoImplicit false

namespace GamePatch

namespace Text

/-- A line differs from what it is with its line break only by blanks at its end. -/
theorem forall₂_lines_splitInclusive (s : Text) :
    List.Forall₂ (fun l whole => ∃ gap, isAllBlank gap = true ∧ whole = l ++ gap) (lines s)
      (splitInclusive s) := by
  fun_induction lines s with
  | case1 => exact .nil
  | case2 r ih =>
    rw [splitInclusive, if_pos rfl]
    exact .cons ⟨['\n'], by decide, rfl⟩ ih
  | case3 r ih =>
    have feed : splitInclusive ('\n' :: r) = ['\n'] :: splitInclusive r := by
      rw [splitInclusive, if_pos rfl]
    rw [splitInclusive_cons _ (by decide), feed]
    exact .cons ⟨['\r', '\n'], by decide, rfl⟩ ih
  | case4 c r notFeed _ none ih =>
    rw [none, List.forall₂_nil_left_iff] at ih
    rw [splitInclusive_cons _ notFeed, ih]
    exact .cons ⟨[], rfl, rfl⟩ .nil
  | case5 c r notFeed _ first rest shape ih =>
    rw [shape, List.forall₂_cons_left_iff] at ih
    obtain ⟨whole, wholes, ⟨gap, blank, rfl⟩, others, split⟩ := ih
    rw [splitInclusive_cons _ notFeed, split]
    exact .cons ⟨gap, blank, rfl⟩ others

/-- What is seen of the lines when their blanks are trimmed does not depend on the line breaks. -/
theorem map_trim_lines (s : Text) : (lines s).map trim = (splitInclusive s).map trim := by
  have alike := forall₂_lines_splitInclusive s
  generalize lines s = ls, splitInclusive s = wholes at alike
  induction alike with
  | nil => rfl
  | cons here _ ih =>
    obtain ⟨gap, blank, rfl⟩ := here
    rw [List.map_cons, List.map_cons, ih, trim_append_blanks _ blank]

/-- A part of a text, with the number of characters in front of it. -/
structure Piece where
  start : Nat
  text : Text

namespace Piece

def stop (x : Piece) : Nat := x.start + x.text.length

/-- The text has the piece at its place. -/
def LiesIn (x : Piece) (s : Text) : Prop :=
  ∃ front back, s = front ++ x.text ++ back ∧ front.length = x.start

/-- The piece is a line of the text, with its line break. -/
def IsLineOf (x : Piece) (s : Text) : Prop :=
  ∃ above below, splitInclusive s = above ++ x.text :: below ∧ above.flatten.length = x.start

def Covers (x y : Piece) : Prop := x.start ≤ y.start ∧ y.stop ≤ x.stop

/-- The first piece ends before the second one starts, or where it starts. -/
def IsBefore (x y : Piece) : Prop := x.stop ≤ y.start

/-- Of pieces in order, only one can hold a part that is not empty. -/
theorem eq_of_covers {pieces : List Piece} (ordered : pieces.Pairwise IsBefore) {part x y : Piece}
    (solid : part.text ≠ []) (here : x ∈ pieces) (there : y ∈ pieces) (first : x.Covers part)
    (second : y.Covers part) : x = y := by
  by_contra differ
  have apart : pieces.Pairwise fun x y => x.IsBefore y ∨ y.IsBefore x := ordered.imp Or.inl
  have symmetric : Std.Symm fun x y : Piece => x.IsBefore y ∨ y.IsBefore x := ⟨fun _ _ => Or.symm⟩
  have either := apart.forall here there differ
  have nonempty : 0 < part.text.length := List.length_pos_iff.mpr solid
  unfold Covers stop at first second
  unfold IsBefore stop at either
  omega

end Piece

end Text

namespace ModText

open Text (Piece splitInclusive)

/-- Whether a line may be missing in all blocks. -/
def isIdleLine (l : Text) : Bool := isSeparator l || Text.isAllBlank l

/-- How lines are dealt out to blocks: each is passed over, which only an idle line may be, or is
taken into a block with the lines beside it. -/
inductive Deals : List Text → List Text → Prop
  | done : Deals [] []
  | pass {l : Text} {lines bs : List Text} (idle : isIdleLine l = true) (rest : Deals lines bs) :
      Deals (l :: lines) bs
  | block {lines bs : List Text} (part : List Text) (rest : Deals lines bs) :
      Deals (part ++ lines) (part.flatten :: bs)

theorem Deals.pass_all {part lines bs : List Text} (idle : ∀ l ∈ part, isIdleLine l = true)
    (rest : Deals lines bs) : Deals (part ++ lines) bs := by
  induction part with
  | nil => exact rest
  | cons l part ih =>
    rw [List.forall_mem_cons] at idle
    exact .pass idle.1 (ih idle.2)

theorem isIdleLine_of_blank {part : List Text} (blank : Text.isAllBlank part.flatten = true) :
    ∀ l ∈ part, isIdleLine l = true := by
  intro l member
  have own : Text.isAllBlank l = true := by
    rw [Text.isAllBlank_iff] at blank ⊢
    intro c inside
    exact blank c (List.mem_flatten.mpr ⟨l, member, inside⟩)
  simp [isIdleLine, own]

def blocksOf (lines : List Text) : List Text :=
  ((lines.splitOnP isSeparator).map List.flatten).filter fun block => !Text.isAllBlank block

theorem blocksOf_of_clear {part : List Text} (clear : ∀ l ∈ part, isSeparator l = false) :
    blocksOf part = [part.flatten].filter fun block => !Text.isAllBlank block := by
  rw [blocksOf, List.splitOnP_eq_singleton clear, List.map_singleton]

theorem blocksOf_append_cons {part : List Text} (clear : ∀ l ∈ part, isSeparator l = false)
    {l : Text} (mark : isSeparator l = true) (rest : List Text) :
    blocksOf (part ++ l :: rest) = blocksOf part ++ blocksOf rest := by
  rw [blocksOf_of_clear clear, blocksOf, List.splitOnP_append_cons _ _ mark,
    List.splitOnP_eq_singleton clear, List.map_append, List.filter_append]
  rfl

/-- Lines without a separator are one block, or are all passed over. -/
theorem Deals.part {part lines bs : List Text} (clear : ∀ l ∈ part, isSeparator l = false)
    (rest : Deals lines bs) : Deals (part ++ lines) (blocksOf part ++ bs) := by
  rw [blocksOf_of_clear clear, List.filter_singleton]
  cases blank : Text.isAllBlank part.flatten with
  | true => exact rest.pass_all (isIdleLine_of_blank blank)
  | false => exact rest.block part

/-- The lines behind those that have been read since the last separator are dealt out, too. -/
theorem deals_blocksOf {front : List Text} (clear : ∀ l ∈ front, isSeparator l = false)
    (lines : List Text) : Deals (front ++ lines) (blocksOf (front ++ lines)) := by
  induction lines generalizing front with
  | nil =>
    have whole := Deals.part clear .done
    rw [List.append_nil, List.append_nil] at whole
    rwa [List.append_nil]
  | cons l lines ih =>
    cases mark : isSeparator l with
    | true =>
      have idle : isIdleLine l = true := by simp [isIdleLine, mark]
      rw [blocksOf_append_cons clear mark]
      exact .part clear (.pass idle (@ih [] (by simp)))
    | false =>
      have clear' : ∀ l' ∈ front ++ [l], isSeparator l' = false := by
        simp only [List.forall_mem_append, List.forall_mem_singleton]
        exact ⟨clear, mark⟩
      have longer := ih clear'
      rwa [List.append_assoc] at longer

/-- Places for blocks, behind the lines above and one behind the other. Each line that is not idle has its
place in one of them. -/
structure AreLaid (above lines bs : List Text) (pieces : List Piece) : Prop where
  texts : pieces.map Piece.text = bs
  behind : ∀ x ∈ pieces, above.flatten.length ≤ x.start
  lie : ∀ x ∈ pieces, x.LiesIn (above ++ lines).flatten
  ordered : pieces.Pairwise Piece.IsBefore
  covered : ∀ mid l below, lines = mid ++ l :: below → isIdleLine l = false →
    ∃ x ∈ pieces, x.Covers ⟨(above ++ mid).flatten.length, l⟩

namespace AreLaid

variable {above lines bs : List Text} {pieces : List Piece}

theorem pass {line : Text} (idle : isIdleLine line = true)
    (rest : AreLaid (above ++ [line]) lines bs pieces) : AreLaid above (line :: lines) bs pieces := by
  refine ⟨rest.texts, ?_, ?_, rest.ordered, ?_⟩
  · intro x member
    have behind := rest.behind x member
    rw [List.flatten_append, List.length_append] at behind
    omega
  · intro x member
    have lies := rest.lie x member
    rwa [List.append_assoc] at lies
  · intro mid l below shape busy
    cases mid with
    | nil =>
      obtain ⟨rfl, rfl⟩ := List.cons.inj shape
      rw [idle] at busy
      cases busy
    | cons l' mid =>
      obtain ⟨rfl, rfl⟩ := List.cons.inj shape
      obtain ⟨x, member, holds⟩ := rest.covered mid l below rfl busy
      rw [List.append_assoc] at holds
      exact ⟨x, member, holds⟩

/-- A line is one of those that a block is made of, or one of those below. -/
theorem covered_of_block {part mid below : List Text} {l : Text}
    (rest : AreLaid (above ++ part) lines bs pieces) (shape : part ++ lines = mid ++ l :: below)
    (busy : isIdleLine l = false) :
    ∃ x ∈ ⟨above.flatten.length, part.flatten⟩ :: pieces,
      x.Covers ⟨(above ++ mid).flatten.length, l⟩ := by
  rcases List.append_eq_append_iff.mp shape with ⟨mid', rfl, later⟩ | ⟨part', inside, later⟩
  · obtain ⟨x, member, holds⟩ := rest.covered mid' l below later busy
    rw [List.append_assoc] at holds
    exact ⟨x, List.mem_cons_of_mem _ member, holds⟩
  · cases part' with
    | nil =>
      -- The part ends right above the line, which is the first of the lines behind it.
      rw [List.append_nil] at inside
      subst inside
      obtain ⟨x, member, holds⟩ := rest.covered [] l below (by simpa using later.symm) busy
      rw [List.append_nil] at holds
      exact ⟨x, List.mem_cons_of_mem _ member, holds⟩
    | cons l' part' =>
      obtain ⟨rfl, -⟩ := List.cons.inj later
      refine ⟨_, List.mem_cons_self, ?_⟩
      subst inside
      simp only [Piece.Covers, Piece.stop, List.flatten_append, List.flatten_cons,
        List.length_append]
      omega

theorem block {part : List Text} (rest : AreLaid (above ++ part) lines bs pieces) :
    AreLaid above (part ++ lines) (part.flatten :: bs)
      (⟨above.flatten.length, part.flatten⟩ :: pieces) := by
  have start (x : Piece) (member : x ∈ pieces) :
      above.flatten.length + part.flatten.length ≤ x.start := by
    have behind := rest.behind x member
    rwa [List.flatten_append, List.length_append] at behind
  refine ⟨?_, ?_, ?_, List.pairwise_cons.mpr ⟨start, rest.ordered⟩,
    fun mid l below => rest.covered_of_block⟩
  · rw [List.map_cons, rest.texts]
  · rw [List.forall_mem_cons]
    refine ⟨Nat.le_refl _, fun x member => ?_⟩
    have behind := start x member
    omega
  · rw [List.forall_mem_cons]
    refine ⟨⟨above.flatten, lines.flatten, ?_, rfl⟩, fun x member => ?_⟩
    · rw [List.flatten_append, List.flatten_append, List.append_assoc]
    · have lies := rest.lie x member
      rwa [List.append_assoc] at lies

end AreLaid

theorem Deals.exists_pieces {lines bs : List Text} (deals : Deals lines bs) (above : List Text) :
    ∃ pieces, AreLaid above lines bs pieces := by
  induction deals generalizing above with
  | done => exact ⟨[], rfl, by simp, by simp, .nil, fun mid l below shape => by simp at shape⟩
  | @pass line lines bs idle rest ih =>
    obtain ⟨pieces, laid⟩ := ih (above ++ [line])
    exact ⟨pieces, laid.pass idle⟩
  | block part rest ih =>
    obtain ⟨pieces, laid⟩ := ih (above ++ part)
    exact ⟨_, laid.block⟩

/-- The texts are what a file is split into, and hold all of it but separators and blank lines. -/
structure IsSplitOf (bs : List Text) (file : Text) : Prop where
  /-- No text is blank, and none has a separator on a line. -/
  solid : ∀ b ∈ bs, Text.isAllBlank b = false
  clear : ∀ b ∈ bs, ∀ l ∈ Text.lines b, Text.trim l ≠ separator
  /-- The texts lie in the file one behind the other, and any other line in exactly one of them. -/
  placed : ∃ pieces : List Piece, pieces.map Piece.text = bs ∧ (∀ x ∈ pieces, x.LiesIn file) ∧
    pieces.Pairwise Piece.IsBefore ∧
    ∀ line : Piece, line.IsLineOf file → Text.isAllBlank line.text = false →
      Text.trim line.text ≠ separator → ∃! x, x ∈ pieces ∧ x.Covers line

theorem clear_lines {b : Text} (block : IsBlockText b) :
    ∀ l ∈ Text.lines b, Text.trim l ≠ separator := by
  intro l member same
  have seen : Text.trim l ∈ (splitInclusive b).map Text.trim := by
    rw [← Text.map_trim_lines]
    exact List.mem_map_of_mem member
  obtain ⟨whole, inside, trimmed⟩ := List.mem_map.mp seen
  have other := block.clear whole inside
  rw [isSeparator, trimmed, same] at other
  simp at other

/-- A file is split into its blocks without a loss, and splitting the blocks again, joined by
separators, gives them back. -/
theorem isSplitOf_blocks (file : Text) :
    IsSplitOf (blocks file) file ∧ blocks (joinBlocks (blocks file)) = blocks file := by
  refine ⟨⟨?_, ?_, ?_⟩, ?_⟩
  · exact fun b member => (isBlockText_of_mem_blocks member).solid
  · exact fun b member => clear_lines (isBlockText_of_mem_blocks member)
  · have deals : Deals (splitInclusive file) (blocks file) :=
      @deals_blocksOf [] (by simp) (splitInclusive file)
    obtain ⟨pieces, texts, -, lie, ordered, covered⟩ := deals.exists_pieces []
    rw [List.nil_append, Text.flatten_splitInclusive] at lie
    refine ⟨pieces, texts, lie, ordered, ?_⟩
    rintro ⟨start, l⟩ ⟨above, below, split, rfl⟩ solid other
    have busy : isIdleLine l = false := by simp [isIdleLine, isSeparator, solid, other]
    obtain ⟨x, member, holds⟩ := covered above l below split busy
    have nonempty : l ≠ [] := by
      rintro rfl
      cases solid
    refine ⟨x, ⟨member, holds⟩, ?_⟩
    rintro y ⟨there, also⟩
    exact Piece.eq_of_covers ordered nonempty there member also holds
  · apply (blocks_joinBlocks_iff fun b member => isBlockText_of_mem_blocks member).mpr
    exact forall_mem_dropLast (pairwise_blocks file)

end ModText

end GamePatch
