import GamePatch.Proofs.Text.Ends
import GamePatch.Proofs.Text.Lines
import GamePatch.Proofs.Text.Search

set_option autoImplicit false

namespace GamePatch.Text

theorem joinLines_splitAt (s : Text) : joinLines (splitAt '\n' s) = s := List.intercalate_splitOn '\n'

theorem splitAt_joinLines {ls : List Text} (clean : ∀ l ∈ ls, '\n' ∉ l) (some : ls ≠ []) :
    splitAt '\n' (joinLines ls) = ls :=
  List.splitOn_intercalate '\n' clean some

theorem splitAt_ne_nil (mark : Char) (s : Text) : splitAt mark s ≠ [] := List.splitOn_ne_nil mark s

theorem splitAt_append_mark (mark : Char) (s t : Text) :
    splitAt mark (s ++ mark :: t) = splitAt mark s ++ splitAt mark t :=
  List.splitOn_append_cons_self s t

theorem splitAt_eq_singleton {mark : Char} {s : Text} (absent : mark ∉ s) : splitAt mark s = [s] :=
  List.splitOn_eq_singleton absent

theorem splitAt_append_mark_of_not_mem {mark : Char} {s : Text} (absent : mark ∉ s) (t : Text) :
    splitAt mark (s ++ mark :: t) = s :: splitAt mark t := by
  rw [splitAt_append_mark, splitAt_eq_singleton absent, List.singleton_append]

/-- A character behind a text belongs to its last part, unless it is the mark. -/
theorem splitAt_concat {mark c : Char} (other : c ≠ mark) (s : Text) :
    ∃ front last, splitAt mark s = front ++ [last] ∧
      splitAt mark (s ++ [c]) = front ++ [last ++ [c]] := by
  have differs : ¬ ((c == mark) = true) := by simpa using other
  induction s with
  | nil =>
    refine ⟨[], [], rfl, ?_⟩
    rw [List.nil_append, splitAt, List.splitOnP_cons_eq_if_modifyHead, if_neg differs]
    rfl
  | cons d s ih =>
    obtain ⟨front, last, parts, longer⟩ := ih
    unfold splitAt at parts longer ⊢
    rw [List.cons_append, List.splitOnP_cons_eq_if_modifyHead, List.splitOnP_cons_eq_if_modifyHead,
      parts, longer]
    split
    · exact ⟨[] :: front, last, rfl, rfl⟩
    · cases front with
      | nil => exact ⟨[], d :: last, rfl, rfl⟩
      | cons part front => exact ⟨(d :: part) :: front, last, rfl, rfl⟩

/-- The parts between the marks are in the text, and no mark is in them. -/
theorem mem_splitAt {mark : Char} {s part : Text} (member : part ∈ splitAt mark s) :
    part <:+: s ∧ mark ∉ part := by
  induction length : s.length using Nat.strong_induction_on generalizing s with
  | _ n ih =>
    by_cases marked : mark ∈ s
    · obtain ⟨front, back, rfl, clean⟩ := List.eq_append_cons_of_mem marked
      rw [splitAt_append_mark_of_not_mem clean, List.mem_cons] at member
      rcases member with rfl | later
      · exact ⟨(List.prefix_append _ _).isInfix, clean⟩
      · have shorter : back.length < n := by
          rw [← length, List.length_append, List.length_cons]
          omega
        obtain ⟨inside, absent⟩ := ih back.length shorter later rfl
        exact ⟨inside.trans ((List.suffix_cons mark back).trans (List.suffix_append _ _)).isInfix,
          absent⟩
    · rw [splitAt_eq_singleton marked, List.mem_singleton] at member
      subst member
      exact ⟨List.infix_rfl, marked⟩

/-- The lines that are left without the blanks in front of a text are its last lines, the first of
them perhaps without the blanks in front of it. -/
theorem exists_blank_start {s l : Text} (member : l ∈ splitAt '\n' (trimStart s)) :
    ∃ front, isAllBlank front = true ∧ front ++ l ∈ splitAt '\n' s := by
  induction s with
  | nil => exact ⟨[], rfl, member⟩
  | cons c s ih =>
    by_cases blank : isBlank c = true
    · have dropped : trimStart (c :: s) = trimStart s := List.dropWhile_cons_of_pos blank
      rw [dropped] at member
      obtain ⟨front, blank', inside⟩ := ih member
      by_cases feed : c = '\n'
      · refine ⟨front, blank', ?_⟩
        rw [feed, ← List.nil_append ('\n' :: s), splitAt_append_mark]
        exact List.mem_append_right _ inside
      · obtain ⟨first, rest, split⟩ := List.exists_cons_of_ne_nil (splitAt_ne_nil '\n' s)
        have split' : splitAt '\n' (c :: s) = (c :: first) :: rest := by
          have cons : splitAt '\n' ([c] ++ s) = (splitAt '\n' s).modifyHead ([c] ++ ·) :=
            splitAt_append_of_clear (List.forall_mem_singleton.mpr feed) s
          rw [split, List.modifyHead_cons] at cons
          exact cons
        rw [split, List.mem_cons] at inside
        rcases inside with same | later
        · refine ⟨c :: front, ?_, ?_⟩
          · rw [isAllBlank, List.all_cons, blank, ← isAllBlank, blank']
            rfl
          · rw [split', List.cons_append, same]
            exact List.mem_cons_self
        · refine ⟨front, blank', ?_⟩
          rw [split']
          exact List.mem_cons_of_mem _ later
    · have kept : trimStart (c :: s) = c :: s := List.dropWhile_cons_of_neg blank
      rw [kept] at member
      exact ⟨[], rfl, member⟩

def terminated (ls : List Text) : Text := ls.flatMap (· ++ ['\n'])

theorem terminated_cons (l : Text) (ls : List Text) :
    terminated (l :: ls) = l ++ '\n' :: terminated ls := by
  rw [terminated, List.flatMap_cons, List.append_assoc]
  rfl

theorem terminated_append (ls ls' : List Text) :
    terminated (ls ++ ls') = terminated ls ++ terminated ls' := List.flatMap_append

theorem joinLines_concat {pieces : List Text} (some : pieces ≠ []) :
    joinLines pieces ++ ['\n'] = terminated pieces := by
  induction pieces with
  | nil => exact absurd rfl some
  | cons piece pieces ih =>
    cases pieces with
    | nil => rw [joinLines_singleton, terminated_cons]; rfl
    | cons piece' pieces =>
      rw [joinLines_cons_cons, List.append_assoc, List.cons_append, ih (List.cons_ne_nil _ _),
        ← terminated_cons]

def IsLine (l : Text) : Prop := '\n' ∉ l ∧ l.getLast? ≠ some '\r'

theorem isLine_of_trimEnd {l : Text} (clean : '\n' ∉ l) (trimmed : trimEnd l = l) : IsLine l := by
  refine ⟨clean, fun back => ?_⟩
  have solid := trimEnd_eq_self_iff.mp trimmed _ back
  revert solid
  decide

/-- Something may stand behind a line, if it does not end in blanks. -/
theorem IsLine.append {s t : Text} (line : IsLine s) (clean : '\n' ∉ t) (trimmed : trimEnd t = t) :
    IsLine (s ++ t) := by
  refine ⟨fun feed => (List.mem_append.mp feed).elim line.1 clean, fun back => ?_⟩
  rw [List.getLast?_append] at back
  cases found : t.getLast? with
  | none =>
    rw [found] at back
    exact line.2 back
  | some c =>
    rw [found] at back
    exact (isLine_of_trimEnd clean trimmed).2 (found.trans back)

theorem lines_terminated {ls : List Text} (whole : ∀ l ∈ ls, IsLine l) :
    lines (terminated ls) = ls := by
  induction ls with
  | nil => rfl
  | cons l ls ih =>
    rw [List.forall_mem_cons] at whole
    obtain ⟨first, same, split⟩ := lines_append_newline whole.1.1 (terminated ls)
    have kept : first = l := by
      rcases same with same | rfl
      · exact same
      · exact absurd List.getLast?_concat whole.1.2
    rw [terminated_cons, split, kept, ih whole.2]

/-- Pieces are written line by line. -/
theorem terminated_pieces (pieces : List Text) :
    terminated pieces = terminated (pieces.flatMap (splitAt '\n')) := by
  induction pieces with
  | nil => rfl
  | cons piece pieces ih =>
    have first : piece ++ ['\n'] = terminated (splitAt '\n' piece) := by
      rw [← joinLines_concat (splitAt_ne_nil _ _), joinLines_splitAt]
    rw [List.flatMap_cons, terminated_append, ← first, ← ih, terminated_cons, List.append_assoc]
    rfl

theorem lines_joinLines_pieces {pieces : List Text} (some : pieces ≠ [])
    (whole : ∀ l ∈ pieces.flatMap (splitAt '\n'), IsLine l) :
    lines (joinLines pieces ++ ['\n']) = pieces.flatMap (splitAt '\n') := by
  rw [joinLines_concat some, terminated_pieces, lines_terminated whole]

end GamePatch.Text
