import GamePatch.Proofs.Configuration.Declarations

set_option autoImplicit false

namespace GamePatch.Configuration

open Text (trim trimEnd isAllBlank)

/-- A value that is allowed has bytes in the width of the option. -/
theorem pack_of_check {c : Configuration} {value : Value} (checked : c.check value = .ok ()) :
    ∃ bytes, c.kind.pack value c.kind.width = some bytes := by
  unfold check at checked
  split at checked
  · cases checked
  case isFalse some =>
    rw [Option.isNone_iff_eq_none, ← ne_eq] at some
    exact Option.ne_none_iff_exists'.mp some

theorem isRemark_remark? (text : Text) : IsRemark (remark? text) := by
  intro r found
  rw [remark?] at found
  split at found
  · cases found
  case isFalse some =>
    rw [Bool.not_eq_true, List.isEmpty_eq_false_iff] at some
    obtain rfl := Option.some.inj found
    exact ⟨some, Text.trim_trim text⟩

theorem isInfix_of_remark? {text r : Text} (found : r ∈ remark? text) : r <:+: text := by
  rw [remark?] at found
  split at found
  · cases found
  · obtain rfl := Option.some.inj found
    exact Text.trim_isInfix text

structure IsSplit (line left : Text) (note : Option Text) : Prop where
  remark : IsRemark note
  clean : '#' ∉ left
  left : left <:+: line
  note : ∀ r ∈ note, r <:+: line

theorem isSplit_of_splitRemark {line left : Text} {note : Option Text}
    (split : splitRemark line = (left, note)) : IsSplit line left note := by
  cases cut : Text.cutAt '#' line with
  | none =>
    rw [splitRemark, cut, Prod.mk.injEq] at split
    obtain ⟨rfl, rfl⟩ := split
    have clean : '#' ∉ line := fun hash => by
      obtain ⟨front, back, whole, absent⟩ := List.eq_append_cons_of_mem hash
      rw [whole, Text.cutAt_append absent] at cut
      cases cut
    exact ⟨by simp [IsRemark], clean, List.infix_rfl, by simp⟩
  | some found =>
    obtain ⟨front, back⟩ := found
    rw [splitRemark, cut, Prod.mk.injEq] at split
    obtain ⟨rfl, rfl⟩ := split
    obtain ⟨clean, left, right⟩ := Text.isInfix_of_cutAt cut
    exact ⟨isRemark_remark? back, clean, left, fun r found => (isInfix_of_remark? found).trans right⟩

theorem name_of_splitName {left type name : Text} (found : splitName left = some (type, name)) :
    name ≠ [] ∧ trim name = name ∧ name <:+: left := by
  rw [splitName] at found
  split at found
  · cases found
  case h_2 word rest cut =>
    simp only at found
    split at found
    · cases found
    case isFalse some =>
      rw [Bool.not_eq_true, List.isEmpty_eq_false_iff] at some
      obtain ⟨rfl, rfl⟩ := Prod.mk.inj (Option.some.inj found)
      obtain ⟨blank, -, whole, -⟩ := Text.eq_of_cutWhere cut
      have inside : rest <:+: trim left := by
        rw [whole]
        exact ((List.suffix_cons blank rest).trans (List.suffix_append _ _)).isInfix
      exact ⟨some, Text.trim_trim rest,
        ((Text.trim_isInfix rest).trans inside).trans (Text.trim_isInfix left)⟩

theorem required_eq_ok_iff {α : Type} {missing : Error} {found : Except Overflow (Option α)} {a : α} :
    required missing found = .ok a ↔ found = .ok (some a) := by
  rcases found with _ | _ | _ <;> simp [required]

/-- A result that is made of what was read. -/
theorem exists_of_map_eq_some {α β : Type} {found : Except Overflow (Option α)} {f : α → β} {b : β}
    (made : (found.map fun a => a.map f) = .ok (some b)) : ∃ a, found = .ok (some a) ∧ f a = b := by
  obtain ⟨_, rfl, inside⟩ := Fallible.map_eq_ok_iff.mp made
  obtain ⟨a, rfl, same⟩ := Option.map_eq_some_iff.mp inside
  exact ⟨a, rfl, same⟩

/-- A restriction does not change what values a kind has. -/
theorem restrict_eq_float {base kind : Kind} {restriction : Text}
    (read : restrict base restriction = .ok (some kind)) : kind = .float ↔ base = .float := by
  unfold restrict at read
  split at read
  · rw [Option.some.inj (Except.ok.inj read)]
  · split at read
    · obtain ⟨allowed, -, rfl⟩ := exists_of_map_eq_some read
      simp
    · obtain ⟨range, -, rfl⟩ := exists_of_map_eq_some read
      simp
    · cases read

theorem Kind.Admits.of_restrict {base kind : Kind} {v : Value} {restriction : Text}
    (admits : base.Admits v) (read : restrict base restriction = .ok (some kind)) : kind.Admits v := by
  have same := restrict_eq_float read
  cases v with
  | int n => exact fun float => admits (same.mp float)
  | float bits => exact same.mpr admits

/-- What is read of a declaration. -/
theorem isDeclared_of_parse {line : Text} {c : Configuration} (read : parse line = .ok c) :
    c.IsDeclared ∧ c.members = [] ∧ '=' ∈ line ∧ c.name <:+: line ∧ ∀ r ∈ c.note, r <:+: line := by
  rw [parse] at read
  cases split : splitRemark line with
  | mk declaration note =>
    obtain ⟨remark, clean, leftPart, notePart⟩ := isSplit_of_splitRemark split
    simp only [split] at read
    split at read
    · cases read
    case h_2 left right cut =>
      obtain ⟨noEquals, inside, -⟩ := Text.isInfix_of_cutAt cut
      obtain ⟨mark, equals, whole, -⟩ := Text.eq_of_cutWhere cut
      split at read
      · cases read
      case h_2 type name found =>
        obtain ⟨some, trimmed, part⟩ := name_of_splitName found
        split at read
        · cases read
        case h_2 base known =>
          split at read
          · cases read
          case h_2 default value =>
            split at read
            · cases read
            case h_2 kind restricted =>
              have admits : kind.Admits default :=
                (Kind.admits_of_read (required_eq_ok_iff.mp value)).of_restrict
                  (required_eq_ok_iff.mp restricted)
              have marked : '=' ∈ line := by
                refine leftPart.subset ?_
                rw [whole, beq_iff_eq.mp equals]
                exact List.mem_append_right _ List.mem_cons_self
              obtain ⟨done, checked, rfl⟩ := Fallible.map_eq_ok_iff.mp read
              exact ⟨⟨some, trimmed, ⟨fun member => noEquals (part.subset member),
                fun member => clean ((part.trans inside).subset member)⟩, remark, admits, rfl,
                checked⟩, rfl, marked, (part.trans inside).trans leftPart, notePart⟩

/-- What is read of a member. -/
theorem isMemberOf_of_parseMember {c : Configuration} {line : Text} {m : Member}
    (read : c.parseMember line = .ok m) :
    IsMemberOf c.kind m ∧ m.name <:+: line ∧ ∀ r ∈ m.comment, r <:+: line := by
  rw [parseMember] at read
  split at read
  · cases read
  case h_2 value rest cut =>
    obtain ⟨-, -, inside⟩ := Text.isInfix_of_cutAt cut
    cases split : splitRemark rest with
    | mk name comment =>
      obtain ⟨remark, clean, part, commentPart⟩ := isSplit_of_splitRemark split
      simp only [split] at read
      obtain ⟨v, known, rfl⟩ := Fallible.map_eq_ok_iff.mp read
      have name' : trim name <:+: name := Text.trim_isInfix name
      exact ⟨⟨Text.trim_trim name, fun hash => clean (name'.subset hash), remark,
        Kind.admits_of_read (required_eq_ok_iff.mp known)⟩, (name'.trans part).trans inside,
        fun r found => (commentPart r found).trans inside⟩

end GamePatch.Configuration
