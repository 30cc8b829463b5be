import GamePatch.Proofs.Text.Trimming

set_option autoImplicit false

namespace GamePatch.Text

theorem isAllBlank_iff {s : Text} : isAllBlank s = true ↔ ∀ c ∈ s, isBlank c = true :=
  List.all_eq_true

theorem not_mem_of_isAllBlank {s : Text} {c : Char} (blank : isAllBlank s = true)
    (solid : isBlank c = false) : c ∉ s := by
  intro member
  rw [isAllBlank_iff.mp blank c member] at solid
  cases solid

theorem trimEnd_eq_self_iff {s : Text} :
    trimEnd s = s ↔ ∀ c, s.getLast? = some c → isBlank c = false := by
  rw [trimEnd, dropEndWhile_eq, List.rdropWhile_eq_self_iff]
  constructor
  · intro solid c last
    have some : s ≠ [] := by
      rintro rfl
      cases last
    rw [List.getLast?_eq_some_getLast some] at last
    simpa [← Option.some.inj last] using solid some
  · intro solid some
    simp [solid _ (List.getLast?_eq_some_getLast some)]

theorem trimStart_eq_self_iff {s : Text} :
    trimStart s = s ↔ ∀ c, s.head? = some c → isBlank c = false := by
  rw [trimStart, List.dropWhile_eq_self_iff]
  cases s with
  | nil => simp
  | cons c s => simp

theorem trimEnd_isPrefix (s : Text) : trimEnd s <+: s := List.rdropWhile_prefix ..

@[simp] theorem trimEnd_trimEnd (s : Text) : trimEnd (trimEnd s) = trimEnd s :=
  List.rdropWhile_idempotent ..

theorem trimEnd_trim (s : Text) : trimEnd (trim s) = trim s := trimEnd_trimEnd _

/-- A text is trimmed exactly if neither of its ends is blank. -/
theorem trim_eq_self_iff {s : Text} : trim s = s ↔ trimStart s = s ∧ trimEnd s = s := by
  constructor
  · intro trimmed
    have start := trimStart_trim s
    have last := trimEnd_trim s
    rw [trimmed] at start last
    exact ⟨start, last⟩
  · rintro ⟨start, last⟩
    rw [trim, start, last]

/-- Blanks behind a text are taken away. -/
theorem trimEnd_append_blanks (s : Text) {t : Text} (blank : isAllBlank t = true) :
    trimEnd (s ++ t) = trimEnd s := by
  induction t using List.reverseRecOn with
  | nil => rw [List.append_nil]
  | append_singleton t c ih =>
    rw [isAllBlank, List.all_append, Bool.and_eq_true] at blank
    have last : isBlank c = true := by simpa using blank.2
    rw [← List.append_assoc, trimEnd, dropEndWhile_eq, List.rdropWhile_concat_pos _ _ _ last]
    exact ih blank.1

/-- What stands before a character that is not blank is kept. -/
theorem trimEnd_append (s : Text) {t : Text} (solid : isAllBlank t = false) :
    trimEnd (s ++ t) = s ++ trimEnd t := by
  have kept : (t.reverse.dropWhile isBlank).isEmpty = false := by
    rw [List.isEmpty_eq_false_iff, ne_eq, List.dropWhile_eq_nil_iff]
    intro blank
    have all : isAllBlank t = true := isAllBlank_iff.mpr fun c member =>
      blank c (List.mem_reverse.mpr member)
    rw [solid] at all
    cases all
  rw [trimEnd, dropEndWhile, List.reverse_append, List.dropWhile_append, kept, if_neg (by simp),
    List.reverse_append, List.reverse_reverse]
  rfl

/-- What is taken away at the end is blank. -/
theorem exists_blank_end (s : Text) : ∃ back, isAllBlank back = true ∧ s = trimEnd s ++ back := by
  refine ⟨(s.reverse.takeWhile isBlank).reverse, ?_, ?_⟩
  · rw [isAllBlank_iff]
    intro c member
    exact List.mem_takeWhile_imp (List.mem_reverse.mp member)
  · have whole := List.takeWhile_append_dropWhile (p := isBlank) (l := s.reverse)
    have reversed := congrArg List.reverse whole
    rw [List.reverse_append, List.reverse_reverse] at reversed
    exact reversed.symm

theorem trimEnd_eq_nil_iff {s : Text} : trimEnd s = [] ↔ isAllBlank s = true := by
  rw [trimEnd, dropEndWhile_eq, List.rdropWhile_eq_nil_iff, isAllBlank_iff]

theorem trimEnd_cons {c : Char} (solid : isBlank c = false) (s : Text) :
    trimEnd (c :: s) = c :: trimEnd s := by
  by_cases blank : isAllBlank s = true
  · have alone : trimEnd [c] = [c] := by
      rw [trimEnd_eq_self_iff]
      rintro _ ⟨⟩
      exact solid
    have dropped := trimEnd_append_blanks [c] blank
    rwa [alone, List.singleton_append, ← trimEnd_eq_nil_iff.mpr blank] at dropped
  · exact trimEnd_append [c] (Bool.eq_false_iff.mpr blank)

@[simp] theorem isAllBlank_trimEnd (s : Text) : isAllBlank (trimEnd s) = isAllBlank s := by
  rw [Bool.eq_iff_iff, ← trimEnd_eq_nil_iff, ← trimEnd_eq_nil_iff, trimEnd_trimEnd]

theorem trim_eq_nil_iff {s : Text} : trim s = [] ↔ isAllBlank s = true := by
  rw [trim, trimEnd_eq_nil_iff, isAllBlank_iff, isAllBlank_iff]
  constructor
  · intro blank c member
    rw [← List.takeWhile_append_dropWhile (p := isBlank) (l := s), List.mem_append] at member
    exact member.elim List.mem_takeWhile_imp (blank c)
  · exact fun blank c member => blank c ((List.dropWhile_sublist _).subset member)

@[simp] theorem isAllBlank_trim (s : Text) : isAllBlank (trim s) = isAllBlank s := by
  rw [Bool.eq_iff_iff, ← trim_eq_nil_iff, trim_trim, trim_eq_nil_iff]

/-- Both ends are trimmed, in whatever order. -/
@[simp] theorem trim_trimEnd (s : Text) : trim (trimEnd s) = trim s := by
  induction s using List.reverseRecOn with
  | nil => rfl
  | append_singleton s c ih =>
    by_cases blank : isBlank c = true
    · have dropped : trimEnd (s ++ [c]) = trimEnd s := List.rdropWhile_concat_pos _ _ _ blank
      rw [dropped, trim_append_blank s c blank, ih]
    · have kept : trimEnd (s ++ [c]) = s ++ [c] := List.rdropWhile_concat_neg _ _ _ blank
      rw [kept]

theorem trim_append_blanks (s : Text) {t : Text} (blank : isAllBlank t = true) :
    trim (s ++ t) = trim s := by
  rw [← trim_trimEnd, trimEnd_append_blanks s blank, trim_trimEnd]

theorem trim_blanks_append {t : Text} (blank : isAllBlank t = true) (s : Text) :
    trim (t ++ s) = trim s := by
  have start : trimStart (t ++ s) = trimStart s :=
    List.dropWhile_append_of_pos (isAllBlank_iff.mp blank)
  rw [trim, start, ← trim]

/-- Blanks around a text are taken away. -/
theorem trim_between_blanks {s front back : Text} (blank : isAllBlank front = true)
    (blank' : isAllBlank back = true) : trim (front ++ s ++ back) = trim s := by
  rw [trim_append_blanks _ blank', trim_blanks_append blank]

/-- Blanks at the end of a text that says something do not change how it begins. -/
theorem head?_trim {s : Text} (solid : isAllBlank s = false) : (trim s).head? = (trimStart s).head? := by
  have some : trim s ≠ [] := by
    rw [ne_eq, trim_eq_nil_iff, solid]
    simp
  obtain ⟨back, shape⟩ := trimEnd_isPrefix (trimStart s)
  obtain ⟨c, rest, found⟩ := List.exists_cons_of_ne_nil some
  have same : trimEnd (trimStart s) = c :: rest := found
  rw [found, ← shape, same]
  rfl

theorem isAllBlank_eq_false_of_trim {s : Text} (some : s ≠ []) (trimmed : trim s = s) :
    isAllBlank s = false := by
  rw [Bool.eq_false_iff, ne_eq, ← trim_eq_nil_iff, trimmed]
  exact some

end GamePatch.Text
