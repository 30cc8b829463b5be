import GamePatch.Line.Marker
import Mathlib.Data.List.DropRight

set_option autoImplicit false

namespace GamePatch.Text

theorem dropEndWhile_eq (p : Char → Bool) (s : Text) : dropEndWhile p s = s.rdropWhile p := rfl

theorem trim_isInfix (s : Text) : trim s <:+: s :=
  (List.rdropWhile_prefix _ _).isInfix.trans (List.dropWhile_suffix _).isInfix

theorem trimStart_trim (s : Text) : trimStart (trim s) = trim s := by
  rw [trimStart, List.dropWhile_eq_self_iff]
  intro positive
  have lead : trim s <+: trimStart s := List.rdropWhile_prefix _ _
  have first : (trim s)[0] =
      (trimStart s).get ⟨0, Nat.lt_of_lt_of_le positive lead.length_le⟩ := lead.getElem positive
  rw [first]
  exact List.dropWhile_eq_self_iff.mp (List.dropWhile_idempotent _ _) _

@[simp] theorem trim_trim (s : Text) : trim (trim s) = trim s := by
  rw [trim, trimStart_trim]
  exact List.rdropWhile_idempotent ..

/-- A text whose ends are not blank is left as it is. -/
theorem trim_eq_self (s : Text) (front : ∀ c, s.head? = some c → isBlank c = false)
    (back : ∀ c, s.getLast? = some c → isBlank c = false) : trim s = s := by
  have start : trimStart s = s := by
    rw [trimStart, List.dropWhile_eq_self_iff]
    intro positive
    simp [front s[0] (by rw [List.head?_eq_getElem?, List.getElem?_eq_getElem positive])]
  rw [trim, start, trimEnd, dropEndWhile_eq, List.rdropWhile_eq_self_iff]
  intro nonempty
  simp [back (s.getLast nonempty) (List.getLast?_eq_some_getLast nonempty)]

theorem trim_eq_self_of_forall (s : Text) (solid : ∀ c ∈ s, isBlank c = false) : trim s = s :=
  trim_eq_self s (fun c h => solid c (List.mem_of_mem_head? h))
    (fun c h => solid c (List.mem_of_mem_getLast? h))

/-- A blank at the start is trimmed off. -/
theorem trim_cons_blank (s : Text) (c : Char) (blank : isBlank c = true) :
    trim (c :: s) = trim s := by
  rw [trim, trimStart, List.dropWhile_cons_of_pos blank, trim, trimStart]

/-- A blank at the end is trimmed off. -/
theorem trim_append_blank (s : Text) (c : Char) (blank : isBlank c = true) :
    trim (s ++ [c]) = trim s := by
  by_cases empty : trimStart s = []
  · have all : ∀ x ∈ s, isBlank x = true := List.dropWhile_eq_nil_iff.mp empty
    have all' : trimStart (s ++ [c]) = [] := by
      rw [trimStart, List.dropWhile_append_of_pos all]
      simp [blank]
    rw [trim, trim, empty, all']
  · have start : trimStart (s ++ [c]) = trimStart s ++ [c] := by
      have : (s.dropWhile isBlank).isEmpty = false := List.isEmpty_eq_false_iff.mpr empty
      simp only [trimStart, List.dropWhile_append, this, Bool.false_eq_true, ↓reduceIte]
    rw [trim, start]
    exact List.rdropWhile_concat_pos _ _ _ blank

/-- Trimming takes away blanks only. -/
theorem count_trim (c : Char) (solid : isBlank c = false) (s : Text) :
    (trim s).count c = s.count c := by
  have dropped (l : Text) : (l.dropWhile isBlank).count c = l.count c := by
    conv_rhs => rw [← List.takeWhile_append_dropWhile (p := isBlank) (l := l)]
    rw [List.count_append]
    have absent : c ∉ l.takeWhile isBlank := fun member => by
      simpa [solid] using List.mem_takeWhile_imp member
    simp [List.count_eq_zero_of_not_mem absent]
  have reversed : (trim s).count c = ((trimStart s).reverse.dropWhile isBlank).count c :=
    List.count_reverse
  rw [reversed, dropped, List.count_reverse]
  exact dropped s

theorem removeBlanks_append (s t : Text) :
    removeBlanks (s ++ t) = removeBlanks s ++ removeBlanks t := List.filter_append ..

theorem removeBlanks_dropWhile (s : Text) :
    removeBlanks (s.dropWhile isBlank) = removeBlanks s := by
  have front : removeBlanks (s.takeWhile isBlank) = [] := by
    rw [removeBlanks, List.filter_eq_nil_iff]
    intro c member
    simp [List.mem_takeWhile_imp member]
  have whole := removeBlanks_append (s.takeWhile isBlank) (s.dropWhile isBlank)
  rw [List.takeWhile_append_dropWhile, front, List.nil_append] at whole
  exact whole.symm

@[simp] theorem removeBlanks_trim (s : Text) : removeBlanks (trim s) = removeBlanks s := by
  have reversed (t : Text) : removeBlanks t.reverse = (removeBlanks t).reverse :=
    List.filter_reverse
  rw [trim, trimEnd, dropEndWhile, reversed, removeBlanks_dropWhile, reversed,
    List.reverse_reverse, trimStart, removeBlanks_dropWhile]

end GamePatch.Text

namespace GamePatch.Line

def IsCommentFree (s : Text) : Prop := '#' ∉ s ∧ ¬ ['/', '/'] <:+: s

theorem isCommentFree_of_not_mem {s : Text} (noHash : '#' ∉ s) (noSlash : '/' ∉ s) :
    IsCommentFree s :=
  ⟨noHash, fun marked => noSlash (marked.subset (by simp))⟩

theorem IsCommentFree.of_part {s t : Text} (free : IsCommentFree s) (part : t <:+: s) :
    IsCommentFree t :=
  ⟨fun member => free.1 (part.subset member), fun marked => free.2 (marked.trans part)⟩

theorem IsCommentFree.tail {c : Char} {s : Text} (free : IsCommentFree (c :: s)) :
    IsCommentFree s :=
  free.of_part (List.suffix_cons c s).isInfix

theorem beforeComment_of_commentFree {s : Text} (free : IsCommentFree s) :
    beforeComment s = s := by
  induction s with
  | nil => rfl
  | cons c s ih =>
    rw [beforeComment, ih free.tail]
    · rintro rfl
      exact free.1 List.mem_cons_self
    · rintro r rfl rfl
      exact free.2 ⟨[], r, rfl⟩

theorem beforeComment_isPrefix (s : Text) : beforeComment s <+: s := by
  fun_induction beforeComment s with
  | case1 => exact List.prefix_rfl
  | case2 => exact List.nil_prefix
  | case3 => exact List.nil_prefix
  | case4 c r _ _ ih => exact List.cons_prefix_cons.mpr ⟨rfl, ih⟩

theorem beforeComment_commentFree (s : Text) : IsCommentFree (beforeComment s) := by
  fun_induction beforeComment s with
  | case1 => exact ⟨by simp, by simp⟩
  | case2 => exact ⟨by simp, by simp⟩
  | case3 => exact ⟨by simp, by simp⟩
  | case4 c r notHash notSlashes ih =>
    refine ⟨?_, ?_⟩
    · rw [List.mem_cons, not_or]
      exact ⟨fun hash => notHash hash.symm, ih.1⟩
    · rw [List.infix_cons_iff, not_or]
      refine ⟨fun lead => ?_, ih.2⟩
      obtain ⟨slash, next⟩ := List.cons_prefix_cons.mp lead
      obtain ⟨rest, shape⟩ := next.trans (beforeComment_isPrefix r)
      exact notSlashes rest slash.symm shape.symm

theorem stripComment_commentFree (line : Text) : IsCommentFree (stripComment line) :=
  (beforeComment_commentFree line).of_part (Text.trim_isInfix _)

theorem stripComment_isInfix (line : Text) : stripComment line <:+: line :=
  (Text.trim_isInfix _).trans (beforeComment_isPrefix line).isInfix

@[simp] theorem stripComment_stripComment (line : Text) :
    stripComment (stripComment line) = stripComment line := by
  rw [stripComment, beforeComment_of_commentFree (stripComment_commentFree line), stripComment,
    Text.trim_trim]

theorem stripComment_of_commentFree {line : Text} (free : IsCommentFree line) :
    stripComment line = Text.trim line := by
  rw [stripComment, beforeComment_of_commentFree free]

/-- A blank at the start of a line means nothing. -/
theorem stripComment_cons_blank {c : Char} (blank : Text.isBlank c = true) (line : Text) :
    stripComment (c :: line) = stripComment line := by
  have kept : beforeComment (c :: line) = c :: beforeComment line := by
    rw [beforeComment]
    · rintro rfl
      revert blank
      decide
    · rintro rest rfl -
      revert blank
      decide
  rw [stripComment, kept, Text.trim_cons_blank _ c blank, stripComment]

theorem beforeComment_concat (line : Text) {c : Char} (notHash : c ≠ '#') (notSlash : c ≠ '/') :
    beforeComment (line ++ [c]) = beforeComment line ∨
      beforeComment (line ++ [c]) = beforeComment line ++ [c] := by
  fun_induction beforeComment line with
  | case1 =>
    right
    rw [List.nil_append, beforeComment_of_commentFree]
    exact ⟨by simpa using notHash.symm, by simp [List.infix_cons_iff, notSlash.symm]⟩
  | case2 => exact Or.inl rfl
  | case3 => exact Or.inl rfl
  | case4 d r noHash noSlashes ih =>
    have step : beforeComment (d :: (r ++ [c])) = d :: beforeComment (r ++ [c]) := by
      rw [beforeComment]
      · exact noHash
      · intro s isSlash shape
        cases r with
        | nil => exact notSlash (List.cons.inj shape).1
        | cons e r =>
          obtain rfl : e = '/' := (List.cons.inj shape).1
          exact noSlashes r isSlash rfl
    rw [List.cons_append, step]
    exact ih.imp (fun same => by rw [same]) fun longer => by rw [longer, List.cons_append]

/-- A blank at the end of a line means nothing. -/
theorem stripComment_concat_blank (line : Text) {c : Char} (blank : Text.isBlank c = true) :
    stripComment (line ++ [c]) = stripComment line := by
  have notHash : c ≠ '#' := by
    rintro rfl
    revert blank
    decide
  have notSlash : c ≠ '/' := by
    rintro rfl
    revert blank
    decide
  rw [stripComment, stripComment]
  rcases beforeComment_concat line notHash notSlash with same | longer
  · rw [same]
  · rw [longer, Text.trim_append_blank _ c blank]

end GamePatch.Line
