import GamePatch.Text.Basic
import Mathlib.Data.List.Infix

set_option autoImplicit false

namespace GamePatch.Text

/-- The first line is at the start of its text, and every line is somewhere in it. -/
theorem lines_isInfix (s : Text) :
    (∀ l ∈ (lines s).head?, l <+: s) ∧ ∀ l ∈ lines s, l <:+: s := by
  fun_induction lines s with
  | case1 => simp
  | case2 r ih =>
    refine ⟨by simp, ?_⟩
    rw [List.forall_mem_cons]
    exact ⟨List.nil_infix, fun l member => (ih.2 l member).trans (List.suffix_cons _ _).isInfix⟩
  | case3 r ih =>
    refine ⟨by simp, ?_⟩
    have inside : r <:+: '\r' :: '\n' :: r :=
      ((List.suffix_cons _ _).trans (List.suffix_cons _ _)).isInfix
    rw [List.forall_mem_cons]
    exact ⟨List.nil_infix, fun l member => (ih.2 l member).trans inside⟩
  | case4 c r _ _ _ _ =>
    have lead : [c] <+: c :: r := ⟨r, rfl⟩
    exact ⟨by simp, by simpa using lead.isInfix⟩
  | case5 c r _ _ first rest shape ih =>
    rw [shape] at ih
    have lead : c :: first <+: c :: r := List.cons_prefix_cons.mpr ⟨rfl, ih.1 first rfl⟩
    refine ⟨by simpa using lead, ?_⟩
    rw [List.forall_mem_cons]
    refine ⟨lead.isInfix, fun l member => ?_⟩
    exact (ih.2 l (List.mem_cons_of_mem _ member)).trans (List.suffix_cons c r).isInfix

theorem isInfix_of_mem_lines {s l : Text} (member : l ∈ lines s) : l <:+: s :=
  (lines_isInfix s).2 l member

/-- No line holds a line feed. -/
theorem newline_not_mem_of_mem_lines {s l : Text} (member : l ∈ lines s) : '\n' ∉ l := by
  fun_induction lines s generalizing l with
  | case1 => cases member
  | case2 r ih =>
    rcases List.mem_cons.mp member with rfl | later
    · simp
    · exact ih later
  | case3 r ih =>
    rcases List.mem_cons.mp member with rfl | later
    · simp
    · exact ih later
  | case4 c r notFeed _ _ _ =>
    rw [List.mem_singleton.mp member, List.mem_singleton]
    exact fun feed => notFeed feed.symm
  | case5 c r notFeed _ first rest shape ih =>
    rw [shape] at ih
    rcases List.mem_cons.mp member with rfl | later
    · rw [List.mem_cons, not_or]
      exact ⟨fun feed => notFeed feed.symm, ih List.mem_cons_self⟩
    · exact ih (List.mem_cons_of_mem _ later)

/-- A character in front of a text that no line break starts with belongs to its first line. -/
theorem lines_cons {c : Char} {r : Text} (notFeed : c ≠ '\n')
    (notBreak : c = '\r' → ∀ r', r ≠ '\n' :: r') :
    lines (c :: r) =
      match lines r with
      | [] => [[c]]
      | l :: ls => (c :: l) :: ls := by
  apply lines.eq_4
  · exact notFeed
  · exact fun r' isReturn shape => notBreak isReturn r' shape

theorem lines_of_no_newline {l : Text} (clean : '\n' ∉ l) (nonempty : l ≠ []) : lines l = [l] := by
  induction l with
  | nil => exact absurd rfl nonempty
  | cons c l ih =>
    rw [List.mem_cons, not_or] at clean
    have step := lines_cons (r := l) (Ne.symm clean.1) fun _ r' shape => clean.2 (by simp [shape])
    by_cases last : l = []
    · rw [step, last]
      rfl
    · rw [step, ih clean.2 last]

/-- The text up to a line feed is a line, less a carriage return at its end. -/
theorem lines_append_newline {l : Text} (clean : '\n' ∉ l) (rest : Text) :
    ∃ first, (first = l ∨ first ++ ['\r'] = l) ∧ lines (l ++ '\n' :: rest) = first :: lines rest := by
  induction l with
  | nil => exact ⟨[], Or.inl rfl, by rw [List.nil_append, lines]⟩
  | cons c l ih =>
    rw [List.mem_cons, not_or] at clean
    by_cases isReturn : c = '\r' ∧ l = []
    · obtain ⟨rfl, rfl⟩ := isReturn
      exact ⟨[], Or.inr rfl, by rw [List.singleton_append, lines]⟩
    · obtain ⟨first, same, later⟩ := ih clean.2
      have step := lines_cons (c := c) (r := l ++ '\n' :: rest) (Ne.symm clean.1) (by
        intro feed r' shape
        cases l with
        | nil => exact isReturn ⟨feed, rfl⟩
        | cons d l =>
          have : d = '\n' := (List.cons.inj shape).1
          exact clean.2 (by simp [this]))
      refine ⟨c :: first, ?_, ?_⟩
      · rcases same with rfl | rfl
        · exact Or.inl rfl
        · exact Or.inr rfl
      · rw [List.cons_append, step, later]

theorem lines_cons_behind {c : Char} {front back : Text} (notFeed : c = '\n' → False)
    (notBreak : ∀ r, c = '\r' → front = '\n' :: r → False)
    (behind : ∃ first above, lines (front ++ '\n' :: back) = first :: above ++ lines back) :
    ∃ first above, lines (c :: front ++ '\n' :: back) = first :: above ++ lines back := by
  obtain ⟨first, above, later⟩ := behind
  by_cases isReturn : c = '\r' ∧ front = []
  · obtain ⟨rfl, rfl⟩ := isReturn
    exact ⟨[], [], by rw [List.singleton_append, lines]; rfl⟩
  · refine ⟨c :: first, above, ?_⟩
    rw [List.cons_append, lines_cons notFeed, later]
    · rfl
    · intro feed r shape
      cases front with
      | nil => exact isReturn ⟨feed, rfl⟩
      | cons d front =>
        obtain rfl : d = '\n' := (List.cons.inj shape).1
        exact notBreak front feed rfl

/-- The lines behind a line feed are the last lines of the text. -/
theorem lines_behind_newline (front back : Text) :
    ∃ first above, lines (front ++ '\n' :: back) = first :: above ++ lines back := by
  fun_induction lines front with
  | case1 => exact ⟨[], [], by rw [List.nil_append, lines]; rfl⟩
  | case2 r ih =>
    obtain ⟨first, above, later⟩ := ih
    exact ⟨[], first :: above, by rw [List.cons_append, lines, later]; rfl⟩
  | case3 r ih =>
    obtain ⟨first, above, later⟩ := ih
    exact ⟨[], first :: above, by rw [List.cons_append, List.cons_append, lines, later]; rfl⟩
  | case4 c r notFeed notBreak _ ih => exact lines_cons_behind notFeed notBreak ih
  | case5 c r notFeed notBreak _ _ _ ih => exact lines_cons_behind notFeed notBreak ih

/-- A reader who does not see carriage returns at the ends of lines reads the lines in front of a
line feed as he reads the lines of the text in front of it, but for an empty last one. -/
theorem map_lines_append_newline {α : Type} {read : Text → α}
    (blind : ∀ l, read (l ++ ['\r']) = read l) (front back : Text) :
    ∃ above, ∃ last ∈ [[], [[]]], lines (front ++ '\n' :: back) = above ++ lines back ∧
      above.map read = (lines front ++ last).map read := by
  have seen {first l : Text} (same : first = l ∨ first ++ ['\r'] = l) : read first = read l := by
    rcases same with rfl | rfl
    · rfl
    · exact (blind first).symm
  induction length : front.length using Nat.strong_induction_on generalizing front with
  | _ n ih =>
    by_cases feed : '\n' ∈ front
    · obtain ⟨l, rest, rfl, clean⟩ := List.eq_append_cons_of_mem feed
      have shorter : rest.length < n := by
        rw [← length, List.length_append, List.length_cons]
        omega
      obtain ⟨above, last, empty, split, same⟩ := ih rest.length shorter rest rfl
      obtain ⟨first, kept, lead⟩ := lines_append_newline clean (rest ++ '\n' :: back)
      obtain ⟨first', kept', lead'⟩ := lines_append_newline clean rest
      refine ⟨first :: above, last, empty, ?_, ?_⟩
      · rw [List.append_assoc, List.cons_append, lead, split, List.cons_append]
      · rw [lead', List.cons_append, List.map_cons, List.map_cons, same, seen kept, seen kept']
    · obtain ⟨first, kept, lead⟩ := lines_append_newline feed back
      by_cases empty : front = []
      · subst empty
        refine ⟨[first], [[]], by simp, lead, ?_⟩
        rw [List.map_singleton, seen kept]
        rfl
      · refine ⟨[first], [], by simp, lead, ?_⟩
        rw [lines_of_no_newline feed empty, List.map_singleton, seen kept]
        rfl

theorem join_cons_cons (sep t t' : Text) (ts : List Text) :
    join sep (t :: t' :: ts) = t ++ sep ++ join sep (t' :: ts) :=
  List.intercalate_cons_cons

theorem join_append {sep : Text} {front back : List Text} (some : front ≠ []) (more : back ≠ []) :
    join sep (front ++ back) = join sep front ++ sep ++ join sep back := by
  induction front with
  | nil => exact absurd rfl some
  | cons t front ih =>
    cases front with
    | nil =>
      obtain ⟨t', back, rfl⟩ := List.exists_cons_of_ne_nil more
      rw [List.singleton_append, join_cons_cons, join, join, List.intercalate_singleton]
    | cons t' front =>
      rw [List.cons_append, List.cons_append, join_cons_cons, ← List.cons_append,
        ih (List.cons_ne_nil _ _), join_cons_cons]
      simp only [List.append_assoc]

/-- A separator of two characters is one character and a lead of the parts behind it. -/
theorem join_pair (a b : Char) (t : Text) (ts : List Text) :
    join [a, b] (t :: ts) = join [a] (t :: ts.map (b :: ·)) := by
  induction ts generalizing t with
  | nil => rfl
  | cons t' ts ih =>
    rw [join_cons_cons, ih, List.map_cons, join_cons_cons, List.append_assoc, List.append_assoc]
    cases ts <;> rfl

theorem mem_join {sep : Text} {ts : List Text} {c : Char} (member : c ∈ join sep ts) :
    c ∈ sep ∨ ∃ t ∈ ts, c ∈ t := by
  induction ts with
  | nil => cases member
  | cons t ts ih =>
    cases ts with
    | nil =>
      rw [join, List.intercalate_singleton] at member
      exact Or.inr ⟨t, List.mem_cons_self, member⟩
    | cons t' ts =>
      rw [join_cons_cons, List.mem_append, List.mem_append] at member
      rcases member with (here | between) | later
      · exact Or.inr ⟨t, List.mem_cons_self, here⟩
      · exact Or.inl between
      · rcases ih later with between | ⟨u, inside, found⟩
        · exact Or.inl between
        · exact Or.inr ⟨u, List.mem_cons_of_mem _ inside, found⟩

theorem getLast?_join {sep : Text} {ts : List Text} {last : Text} (isLast : ts.getLast? = some last)
    (nonempty : last ≠ []) : (join sep ts).getLast? = last.getLast? := by
  induction ts with
  | nil => cases isLast
  | cons t ts ih =>
    cases ts with
    | nil =>
      obtain rfl : t = last := by simpa using isLast
      rw [join, List.intercalate_singleton]
    | cons t' ts =>
      have rest := ih (by simpa using isLast)
      obtain ⟨c, found⟩ : ∃ c, last.getLast? = some c :=
        ⟨last.getLast nonempty, List.getLast?_eq_some_getLast nonempty⟩
      rw [join_cons_cons, List.getLast?_append, rest, found]
      rfl

theorem joinLines_singleton (l : Text) : joinLines [l] = l := by
  rw [joinLines, join, List.intercalate_singleton]

theorem joinLines_cons_cons (l l' : Text) (ls : List Text) :
    joinLines (l :: l' :: ls) = l ++ '\n' :: joinLines (l' :: ls) := by
  rw [joinLines, join, List.intercalate_cons_cons, List.append_assoc]
  rfl

theorem joinLines_append {front back : List Text} (some : front ≠ []) (more : back ≠ []) :
    joinLines (front ++ back) = joinLines front ++ '\n' :: joinLines back := by
  rw [joinLines, join_append some more, List.append_assoc]
  rfl

/-- Lines with something on each and no line breaks of their own are read back. -/
theorem lines_joinLines {ls : List Text} (nonempty : ∀ l ∈ ls, l ≠ [])
    (clean : ∀ l ∈ ls, '\n' ∉ l ∧ '\r' ∉ l) : lines (joinLines ls) = ls := by
  induction ls with
  | nil => rfl
  | cons l ls ih =>
    rw [List.forall_mem_cons] at nonempty clean
    cases ls with
    | nil => rw [joinLines_singleton, lines_of_no_newline clean.1.1 nonempty.1]
    | cons l' ls =>
      obtain ⟨first, same, split⟩ := lines_append_newline clean.1.1 (joinLines (l' :: ls))
      have whole : first = l := by
        rcases same with rfl | rfl
        · rfl
        · exact absurd (by simp) clean.1.2
      rw [joinLines_cons_cons, split, whole, ih nonempty.2 clean.2]

theorem joinLines_ne_nil {ls : List Text} (some : ls ≠ []) (nonempty : ∀ l ∈ ls, l ≠ []) :
    joinLines ls ≠ [] := by
  obtain ⟨l, ls, rfl⟩ := List.exists_cons_of_ne_nil some
  cases ls with
  | nil =>
    rw [joinLines_singleton]
    exact nonempty l List.mem_cons_self
  | cons l' ls => simp [joinLines_cons_cons]

/-- Lines with something on each can be told from the text that they are joined to. -/
theorem joinLines_injective {a b : List Text} (nonempty : ∀ l ∈ a, l ≠ [])
    (nonempty' : ∀ l ∈ b, l ≠ []) (clean : ∀ l ∈ a, '\n' ∉ l) (clean' : ∀ l ∈ b, '\n' ∉ l)
    (same : joinLines a = joinLines b) : a = b := by
  by_cases none : a = []
  · subst none
    by_contra some
    exact joinLines_ne_nil (Ne.symm some) nonempty' same.symm
  · have some : b ≠ [] := by
      rintro rfl
      exact joinLines_ne_nil none nonempty same
    have left := List.splitOn_intercalate '\n' clean none
    have right := List.splitOn_intercalate '\n' clean' some
    have joined : ['\n'].intercalate a = ['\n'].intercalate b := same
    rw [← left, joined, right]

/-- Lines may be joined in groups first. -/
theorem joinLines_flatten {groups : List (List Text)} (nonempty : ∀ group ∈ groups, group ≠ []) :
    joinLines (groups.map joinLines) = joinLines groups.flatten := by
  induction groups with
  | nil => rfl
  | cons group groups ih =>
    rw [List.forall_mem_cons] at nonempty
    cases groups with
    | nil => rw [List.map_singleton, joinLines_singleton, List.flatten_singleton]
    | cons group' groups =>
      have more : (group' :: groups).flatten ≠ [] := by
        rw [List.flatten_cons]
        exact List.append_ne_nil_of_left_ne_nil (nonempty.2 group' List.mem_cons_self) _
      rw [List.map_cons, List.map_cons, joinLines_cons_cons, ← List.map_cons, ih nonempty.2,
        List.flatten_cons (l := group), joinLines_append nonempty.1 more]

/-- A reader who does not see carriage returns at the ends of lines reads the lines of a text back,
an empty last one apart. -/
theorem map_lines_joinLines {α : Type} {read : Text → α} (blind : ∀ l, read (l ++ ['\r']) = read l)
    {ls : List Text} (clean : ∀ l ∈ ls, '\n' ∉ l) :
    ls.map read = (lines (joinLines ls)).map read ∨
      ls.map read = (lines (joinLines ls)).map read ++ [read []] := by
  induction ls with
  | nil => exact Or.inl rfl
  | cons l ls ih =>
    rw [List.forall_mem_cons] at clean
    cases ls with
    | nil =>
      rw [joinLines_singleton]
      by_cases empty : l = []
      · rw [empty]
        exact Or.inr rfl
      · rw [lines_of_no_newline clean.1 empty]
        exact Or.inl rfl
    | cons l' ls =>
      obtain ⟨first, same, split⟩ := lines_append_newline clean.1 (joinLines (l' :: ls))
      have seen : read l = read first := by
        rcases same with rfl | rfl
        · rfl
        · exact blind first
      rw [joinLines_cons_cons, split, List.map_cons (f := read) (a := l),
        List.map_cons (f := read) (a := first), seen]
      rcases ih clean.2 with whole | short
      · exact Or.inl (by rw [whole])
      · exact Or.inr (by rw [short, List.cons_append])

end GamePatch.Text
