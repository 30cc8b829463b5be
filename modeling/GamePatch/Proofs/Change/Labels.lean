import GamePatch.Proofs.Change.Directives
import GamePatch.Proofs.Fallible
import GamePatch.Proofs.Text.Digits

set_option autoImplicit false

namespace GamePatch

namespace Line

/-- What occurs around a text in which it has no character occurs on one of its sides. -/
theorem infix_sides {mark front middle back : Text} (nonempty : middle ≠ [])
    (foreign : ∀ c ∈ mark, c ∉ middle) (inside : mark <:+: front ++ (middle ++ back)) :
    mark <:+: front ∨ mark <:+: back := by
  have starts {part : Text} (lead : part <+: middle ++ back) (within : part ⊆ mark) : part = [] := by
    cases part with
    | nil => rfl
    | cons c part =>
      obtain ⟨d, rest, rfl⟩ := List.exists_cons_of_ne_nil nonempty
      obtain ⟨rfl, -⟩ := List.cons_prefix_cons.mp lead
      exact absurd List.mem_cons_self (foreign c (within List.mem_cons_self))
  have ends {part : Text} (tail : part <:+ middle) (within : part ⊆ mark) : part = [] := by
    rw [List.eq_nil_iff_forall_not_mem]
    exact fun c member => foreign c (within member) (tail.subset member)
  rcases List.infix_append_iff.mp inside with left | right | ⟨a, b, rfl, tail, lead⟩
  · exact Or.inl left
  · rcases List.infix_append_iff.mp right with within | behind | ⟨a, b, rfl, tail, lead⟩
    · have empty : mark = [] := by
        rw [List.eq_nil_iff_forall_not_mem]
        exact fun c member => foreign c member (within.subset member)
      exact Or.inl (empty ▸ List.nil_infix)
    · exact Or.inr behind
    · rw [ends tail (List.subset_append_left _ _), List.nil_append]
      exact Or.inr lead.isInfix
  · rw [starts lead (List.subset_append_right _ _), List.append_nil]
    exact Or.inl tail.isInfix

/-- Texts put in the places of marked names hold nothing of a mark that they share no character
with. -/
theorem infix_of_replaceIn {ε : Type} {opening closing mark s text : Text}
    {replace : Text → Except ε Text}
    (foreign : ∀ name t, replace name = .ok t → t ≠ [] ∧ ∀ c ∈ mark, c ∉ t)
    (replaced : Enclosed.replaceIn replace (Enclosed.all opening closing s).1 = .ok text)
    (inside : mark <:+: text ++ (Enclosed.all opening closing s).2) : mark <:+: s := by
  fun_induction Enclosed.all opening closing s generalizing text with
  | case1 s =>
    cases replaced
    exact inside
  | case2 s e after found smaller more rest all ih =>
    rw [all] at ih
    obtain ⟨t, later, value, tail, rfl⟩ := Fallible.bind_bind_eq_ok_iff.mp replaced
    obtain ⟨nonempty, apart⟩ := foreign e.name t value
    have shape := Enclosed.eq_of_first? found
    rw [List.append_assoc, List.append_assoc] at inside
    rcases infix_sides nonempty apart inside with front | back
    · rw [shape, List.append_assoc]
      exact front.trans (List.prefix_append _ _).isInfix
    · rw [shape]
      exact (ih tail back).trans (List.suffix_append _ _).isInfix
  | case3 s e after found notSmaller =>
    cases replaced
    exact inside

theorem infix_of_replaceEnclosed {ε : Type} {opening closing mark line out : Text}
    {replace : Text → Except ε Text}
    (foreign : ∀ name t, replace name = .ok t → t ≠ [] ∧ ∀ c ∈ mark, c ∉ t)
    (replaced : replaceEnclosed opening closing replace line = .ok out) (inside : mark <:+: out) :
    mark <:+: line := by
  obtain ⟨text, found, rfl⟩ := Fallible.map_eq_ok_iff.mp replaced
  exact infix_of_replaceIn foreign found inside

end Line

namespace Text

theorem decimal_isLabelChar (n : Nat) : ∀ c ∈ decimal n, Assembler.isLabelChar c = true := by
  intro c member
  have digit : c.isDigit = true := Nat.isDigit_of_mem_toDigits (by decide) (by decide) member
  simp [Assembler.isLabelChar, Char.isAlphanum, digit]

end Text

namespace Change

open Assembler (item)

/-- What the labels of placeholders begin with. -/
def reserved : Text := "__cs_"

/-- A line that is one line and defines no label of a placeholder. -/
def IsTame (line : Text) : Prop := '\n' ∉ line ∧ ¬ reserved <:+: line

instance : DecidablePred IsTame := fun line =>
  inferInstanceAs (Decidable ('\n' ∉ line ∧ ¬ reserved <:+: line))

/-- Assembly that does not hold what the labels of placeholders begin with. -/
theorem reserved_absent {code : Text} (free : Text.contains "__cs_" code = false) :
    ¬ reserved <:+: code := by
  rw [← Text.contains_iff, Bool.not_eq_true]
  exact free

/-- A name with a number behind it is a label. -/
theorem letters_append_decimal {name : Text} (letters : name.all Assembler.isLabelChar = true)
    (index : Nat) : ∀ c ∈ name ++ Text.decimal index, Assembler.isLabelChar c = true := by
  rw [List.forall_mem_append]
  exact ⟨List.all_eq_true.mp letters, Text.decimal_isLabelChar index⟩

theorem startLabel_letters (index : Nat) : ∀ c ∈ startLabel index, Assembler.isLabelChar c = true :=
  letters_append_decimal (by decide) index

theorem endLabel_letters (index : Nat) : ∀ c ∈ endLabel index, Assembler.isLabelChar c = true :=
  letters_append_decimal (by decide) index

theorem item_startLabel (index : Nat) : item (startLabel index ++ [':']) = .label (startLabel index) :=
  Assembler.item_label (List.cons_ne_nil _ _) (startLabel_letters index)

theorem item_endLabel (index : Nat) : item (endLabel index ++ [':']) = .label (endLabel index) :=
  Assembler.item_label (List.cons_ne_nil _ _) (endLabel_letters index)

theorem startLabel_injective {m n : Nat} (same : startLabel m = startLabel n) : m = n :=
  Text.decimal_injective (List.append_cancel_left same)

theorem endLabel_injective {m n : Nat} (same : endLabel m = endLabel n) : m = n :=
  Text.decimal_injective (List.append_cancel_left same)

theorem startLabel_ne_endLabel (m n : Nat) : startLabel m ≠ endLabel n := by
  intro same
  have sixth : (startLabel m)[5]? = (endLabel n)[5]? := by rw [same]
  have start : (startLabel m)[5]? = some 's' := rfl
  have stop : (endLabel n)[5]? = some 'e' := rfl
  rw [start, stop] at sixth
  exact absurd (Option.some.inj sixth) (by decide)

theorem reserved_startLabel (index : Nat) : reserved <:+: startLabel index :=
  ⟨[], "start_" ++ Text.decimal index, rfl⟩

theorem reserved_endLabel (index : Nat) : reserved <:+: endLabel index :=
  ⟨[], "end_" ++ Text.decimal index, rfl⟩

/-- The label on a tame line is not one of a placeholder. -/
theorem IsTame.label_free {line name : Text} (tame : IsTame line) (defines : item line = .label name) :
    ¬ reserved <:+: name := by
  intro inside
  have whole : name <:+: line := by
    have shape := Assembler.stripComment_of_item_label defines
    exact (List.prefix_append name [':']).isInfix.trans (shape ▸ Line.stripComment_isInfix line)
  exact tame.2 (inside.trans whole)

/-- A line that is one line and, if it defines a label, not one of a placeholder. -/
def IsQuiet (line : Text) : Prop :=
  '\n' ∉ line ∧ ∀ name, item line = .label name → ¬ reserved <:+: name

theorem IsTame.quiet {line : Text} (tame : IsTame line) : IsQuiet line :=
  ⟨tame.1, fun _ => tame.label_free⟩

theorem isTame_of_part {line part : Text} (inside : part <:+: line) (tame : IsTame line) : IsTame part :=
  ⟨fun feed => tame.1 (inside.subset feed), fun mark => tame.2 (mark.trans inside)⟩

theorem isTame_of_mem_dataDirectives {bytes : Bytes} {line : Text}
    (member : line ∈ dataDirectives bytes) : IsTame line := by
  have noFeed : '\n' ∉ line := not_mem_dataDirectives (by decide) (by decide) member
  have noUnderscore : '_' ∉ line := not_mem_dataDirectives (by decide) (by decide) member
  refine ⟨noFeed, fun inside => ?_⟩
  apply noUnderscore
  exact inside.subset List.mem_cons_self

theorem infix_of_substitute {ε : Type} {symbol option : Text → Except ε Text} {mark line out : Text}
    (symbols : ∀ name t, symbol name = .ok t → t ≠ [] ∧ ∀ c ∈ mark, c ∉ t)
    (options : ∀ name t, option name = .ok t → t ≠ [] ∧ ∀ c ∈ mark, c ∉ t)
    (substituted : substitute symbol option line = .ok out) (inside : mark <:+: out) :
    mark <:+: line := by
  unfold substitute at substituted
  split at substituted
  case h_1 between first =>
    exact Line.infix_of_replaceEnclosed symbols first
      (Line.infix_of_replaceEnclosed options substituted inside)
  case h_2 => cases substituted

/-- A mark is on a line only if it was there before values took the places of those not known yet,
unless it has a character of such a value. -/
theorem mark_of_provisional {mark text : Text} {placeholder : Placeholder}
    (absent : ∀ c ∈ mark, c ∉ unknownAddress) (missing : '0' ∉ mark) (other : ¬ mark <:+: ".long 0".toList)
    (inside : mark <:+: Expansion.provisional text placeholder) : mark <:+: text := by
  unfold Expansion.provisional at inside
  split at inside
  · exact absurd inside other
  · split at inside
    case h_1 line substituted =>
      refine infix_of_substitute (fun name t same => ?_) (fun name t same => ?_) substituted inside
      · cases same
        exact ⟨List.cons_ne_nil _ _, absent⟩
      · cases same
        refine ⟨List.cons_ne_nil _ _, fun c member zero => ?_⟩
        rw [List.mem_singleton.mp zero] at member
        exact missing member

theorem newline_not_mem_provisional {text : Text} (clean : '\n' ∉ text) (placeholder : Placeholder) :
    '\n' ∉ Expansion.provisional text placeholder := by
  intro feed
  apply clean
  rw [← List.singleton_infix_iff] at feed ⊢
  exact mark_of_provisional (List.all_iff_forall_prop.mp (by decide)) (by decide) (by decide) feed

/-- The values that stand for those not known yet make no line break and no label. -/
theorem isTame_provisional {text : Text} (tame : IsTame text) (placeholder : Placeholder) :
    IsTame (Expansion.provisional text placeholder) := by
  refine ⟨newline_not_mem_provisional tame.1 placeholder, fun mark => tame.2 ?_⟩
  exact mark_of_provisional (List.all_iff_forall_prop.mp (by decide)) (by decide) (by decide) mark

end Change

end GamePatch
