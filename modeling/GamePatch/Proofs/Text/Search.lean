import GamePatch.Text.Basic
import Mathlib.Data.List.Infix

set_option autoImplicit false

namespace GamePatch.Text

theorem dropLeading?_eq_some_iff {lead s rest : Text} :
    dropLeading? lead s = some rest ↔ s = lead ++ rest := by
  fun_induction dropLeading? lead s with
  | case1 s => simp [eq_comm]
  | case2 => simp
  | case3 c lead s ih => simpa using ih
  | case4 l lead c s differs => simp [Ne.symm differs]

theorem dropLeading?_eq_none {first : Char} {lead s : Text} (other : s.head? ≠ some first) :
    dropLeading? (first :: lead) s = none := by
  rw [Option.eq_none_iff_forall_ne_some]
  intro rest found
  rw [dropLeading?_eq_some_iff.mp found] at other
  exact other rfl

theorem dropTrailing?_eq_some_iff {tail s rest : Text} :
    dropTrailing? tail s = some rest ↔ s = rest ++ tail := by
  simp only [dropTrailing?, Option.map_eq_some_iff, dropLeading?_eq_some_iff]
  constructor
  · rintro ⟨back, reversed, rfl⟩
    have := congrArg List.reverse reversed
    simpa using this
  · rintro rfl
    exact ⟨rest.reverse, by simp, by simp⟩

theorem eq_of_cut {mark s before after : Text} (found : cut mark s = some (before, after)) :
    s = before ++ mark ++ after := by
  fun_induction cut mark s generalizing before with
  | case1 s rest lead =>
    obtain ⟨rfl, rfl⟩ : before = [] ∧ after = rest := by simpa [eq_comm] using found
    simpa using dropLeading?_eq_some_iff.mp lead
  | case2 => simp at found
  | case3 c s noLead ih =>
    obtain ⟨⟨before', after'⟩, found', shape⟩ := Option.map_eq_some_iff.mp found
    obtain ⟨rfl, rfl⟩ : c :: before' = before ∧ after' = after := by simpa using shape
    simpa using ih found'

theorem cut_eq_none_iff {mark s : Text} : cut mark s = none ↔ ¬ mark <:+: s := by
  fun_induction cut mark s with
  | case1 s rest lead =>
    have shape := dropLeading?_eq_some_iff.mp lead
    simp only [reduceCtorEq, false_iff, not_not]
    exact ⟨[], rest, by simp [shape]⟩
  | case2 noLead =>
    simp only [List.infix_nil, true_iff]
    rintro rfl
    simp [dropLeading?] at noLead
  | case3 c s noLead ih =>
    rw [Option.map_eq_none_iff, ih, List.infix_cons_iff, not_or]
    refine ⟨fun absent => ⟨?_, absent⟩, And.right⟩
    rintro ⟨rest, shape⟩
    rw [dropLeading?_eq_some_iff.mpr shape.symm] at noLead
    cases noLead

theorem contains_iff {mark s : Text} : contains mark s = true ↔ mark <:+: s := by
  rw [contains, Option.isSome_iff_ne_none, ne_eq, cut_eq_none_iff, not_not]

theorem eq_of_cutWhere {p : Char → Bool} {s before after : Text}
    (found : cutWhere p s = some (before, after)) :
    ∃ c, p c = true ∧ s = before ++ c :: after ∧ ∀ x ∈ before, p x = false := by
  fun_induction cutWhere p s generalizing before with
  | case1 => simp at found
  | case2 c s holds =>
    obtain ⟨rfl, rfl⟩ : before = [] ∧ after = s := by simpa [eq_comm] using found
    exact ⟨c, holds, rfl, by simp⟩
  | case3 c s fails ih =>
    obtain ⟨⟨before', after'⟩, found', shape⟩ := Option.map_eq_some_iff.mp found
    obtain ⟨rfl, rfl⟩ : c :: before' = before ∧ after' = after := by simpa using shape
    obtain ⟨mark, holds, whole, clear⟩ := ih found'
    refine ⟨mark, holds, by rw [whole, List.cons_append], ?_⟩
    simpa using ⟨by simpa using fails, clear⟩

theorem cutWhere_append {p : Char → Bool} {before after : Text} {c : Char}
    (clear : ∀ x ∈ before, p x = false) (holds : p c = true) :
    cutWhere p (before ++ c :: after) = some (before, after) := by
  induction before with
  | nil => simp [cutWhere, holds]
  | cons x before ih =>
    have fails : p x = false := clear x List.mem_cons_self
    have later := ih fun y member => clear y (List.mem_cons_of_mem x member)
    simp [cutWhere, fails, later]

theorem cutAt_append {mark : Char} {before : Text} (clean : mark ∉ before) (after : Text) :
    cutAt mark (before ++ mark :: after) = some (before, after) := by
  refine cutWhere_append (fun c member => ?_) (beq_self_eq_true mark)
  rw [beq_eq_false_iff_ne]
  rintro rfl
  exact clean member

theorem cutAtLast_append {mark : Char} (before : Text) {after : Text} (clean : mark ∉ after) :
    cutAtLast mark (before ++ mark :: after) = some (before, after) := by
  have reversed : (before ++ mark :: after).reverse = after.reverse ++ mark :: before.reverse := by
    simp
  rw [cutAtLast, reversed, cutAt_append (by simpa using clean)]
  simp

theorem cutAt_eq_none {mark : Char} {s : Text} (clean : mark ∉ s) : cutAt mark s = none := by
  rw [cutAt, Option.eq_none_iff_forall_ne_some]
  rintro ⟨front, back⟩ found
  obtain ⟨c, marked, whole, -⟩ := eq_of_cutWhere found
  rw [beq_iff_eq.mp marked] at whole
  exact clean (whole ▸ List.mem_append_right _ List.mem_cons_self)

/-- The part of a text before a mark, and what is behind the mark if there is one. -/
theorem getD_cutAt {mark : Char} {before behind : Text} (clean : mark ∉ before)
    (shape : behind = [] ∨ ∃ after, behind = mark :: after) :
    (cutAt mark (before ++ behind)).getD (before ++ behind, []) = (before, behind.tail) := by
  rcases shape with rfl | ⟨after, rfl⟩
  · rw [List.append_nil, cutAt_eq_none clean]
    rfl
  · rw [cutAt_append clean]
    rfl

/-- What is around a mark, and the first part does not have it. -/
theorem isInfix_of_cutAt {mark : Char} {s before after : Text}
    (cut : cutAt mark s = some (before, after)) :
    mark ∉ before ∧ before <:+: s ∧ after <:+: s := by
  obtain ⟨c, -, rfl, clear⟩ := eq_of_cutWhere cut
  refine ⟨fun member => ?_, (List.prefix_append _ _).isInfix,
    ((List.suffix_cons c after).trans (List.suffix_append _ _)).isInfix⟩
  have other := clear mark member
  rw [beq_self_eq_true] at other
  cases other

theorem splitAt_append_of_clear {mark : Char} {piece : Text} (clear : ∀ c ∈ piece, c ≠ mark)
    (s : Text) : splitAt mark (piece ++ s) = (splitAt mark s).modifyHead (piece ++ ·) := by
  induction piece with
  | nil => cases h : splitAt mark s <;> simp [h]
  | cons c piece ih =>
    rw [List.forall_mem_cons] at clear
    have differs : ¬ ((c == mark) = true) := by simpa using clear.1
    unfold splitAt at ih ⊢
    rw [List.cons_append, List.splitOnP_cons_eq_if_modifyHead, if_neg differs, ih clear.2,
      List.modifyHead_modifyHead]
    rfl

/-- The members of a list, each of them once, in the order of their first appearance. -/
structure AreFirsts (all names : List Text) : Prop where
  distinct : names.Nodup
  mem_iff : ∀ name, name ∈ names ↔ name ∈ all
  ordered : names.Pairwise fun a b => all.idxOf a < all.idxOf b

namespace AreFirsts

variable {all names : List Text} {name : Text}

/-- What is behind does not change the places of those in front. -/
theorem ordered_append (firsts : AreFirsts all names) (name : Text) :
    names.Pairwise fun a b => (all ++ [name]).idxOf a < (all ++ [name]).idxOf b := by
  refine firsts.ordered.imp_of_mem fun {a b} first second before => ?_
  rw [List.idxOf_append_of_mem ((firsts.mem_iff a).mp first),
    List.idxOf_append_of_mem ((firsts.mem_iff b).mp second)]
  exact before

theorem again (firsts : AreFirsts all names) (known : name ∈ all) :
    AreFirsts (all ++ [name]) names where
  distinct := firsts.distinct
  mem_iff other := by
    rw [firsts.mem_iff, List.mem_append, List.mem_singleton]
    exact ⟨Or.inl, fun inside => inside.elim id (· ▸ known)⟩
  ordered := firsts.ordered_append name

theorem fresh (firsts : AreFirsts all names) (new : name ∉ all) :
    AreFirsts (all ++ [name]) (names ++ [name]) where
  distinct := by
    rw [List.nodup_append]
    refine ⟨firsts.distinct, by simp, fun a member b last same => ?_⟩
    rw [same, List.mem_singleton.mp last] at member
    exact new ((firsts.mem_iff name).mp member)
  mem_iff other := by rw [List.mem_append, List.mem_append, firsts.mem_iff]
  ordered := by
    rw [List.pairwise_append]
    refine ⟨firsts.ordered_append name, List.pairwise_singleton _ _, fun a member b last => ?_⟩
    have inside : a ∈ all := (firsts.mem_iff a).mp member
    rw [List.mem_singleton.mp last, List.idxOf_append_of_mem inside,
      List.idxOf_append_of_notMem new]
    have := List.idxOf_lt_length_of_mem inside
    omega

end AreFirsts

theorem areFirsts_dedup (all : List Text) : AreFirsts all (dedup all) := by
  induction all using List.reverseRecOn with
  | nil => exact ⟨List.nodup_nil, fun _ => Iff.rfl, List.Pairwise.nil⟩
  | append_singleton all name ih =>
    have step : dedup (all ++ [name]) =
        if (dedup all).contains name then dedup all else dedup all ++ [name] := by
      rw [dedup, List.foldl_append]
      rfl
    rw [step]
    split
    case isTrue known => exact ih.again ((ih.mem_iff name).mp (by simpa using known))
    case isFalse new => exact ih.fresh fun member => new (by simpa using (ih.mem_iff name).mpr member)

@[simp] theorem mem_dedup {name : Text} {names : List Text} : name ∈ dedup names ↔ name ∈ names :=
  (areFirsts_dedup names).mem_iff name

end GamePatch.Text
