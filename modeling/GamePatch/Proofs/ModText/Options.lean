import GamePatch.ModText.Reader
import GamePatch.ModText.Writer
import GamePatch.Proofs.Configuration.Readings
import GamePatch.Proofs.Text.LineBreaks

set_option autoImplicit false

namespace GamePatch

namespace ModText

open GamePatch.Configuration (IsMemberOf IsReadAs)
open Text (trim trimEnd isAllBlank IsLine)

variable {o : Configuration}

/-- A text that may stand in the line of a member. -/
def IsMemberText (s : Text) : Prop := '\n' ∉ s ∧ '=' ∉ s

/-- An option whose lines are told apart in their block. -/
structure IsWrittenOption (o : Configuration) : Prop where
  declared : o.IsDeclared
  name : '\n' ∉ o.name
  note : ∀ r ∈ o.note, '\n' ∉ r
  members : ∀ m ∈ o.members,
    IsMemberOf o.kind m ∧ IsMemberText m.name ∧ ∀ r ∈ m.comment, IsMemberText r

/-- An option whose numbers are read back from their texts. -/
structure IsReadableOption (o : Configuration) : Prop where
  default : o.default.IsReadable
  kind : o.kind.IsReadable
  members : ∀ m ∈ o.members, m.value.IsReadable

/-- The lines of a block leave nothing but such options. -/
theorem isWrittenOption_addOptionLine {options options' : List Configuration} {line : Text}
    (written : ∀ o ∈ options, IsWrittenOption o) (clean : '\n' ∉ line)
    (read : addOptionLine options line = .ok options') : ∀ o ∈ options', IsWrittenOption o := by
  have absent {s : Text} (inside : s <:+: line) : '\n' ∉ s := fun feed => clean (inside.subset feed)
  rw [addOptionLine] at read
  split at read
  case h_1 o last member =>
    obtain ⟨m, parsed, rfl⟩ := Fallible.map_eq_ok_iff.mp read
    obtain ⟨own, name, comment⟩ := Configuration.isMemberOf_of_parseMember parsed
    have noEquals : '=' ∉ line := by
      rw [isMemberLine, Bool.and_eq_true, Bool.not_eq_true', List.any_eq_false] at member
      exact fun equals => member.1 _ equals rfl
    have text {s : Text} (inside : s <:+: line) : IsMemberText s :=
      ⟨absent inside, fun equals => noEquals (inside.subset equals)⟩
    have known := written o (List.mem_of_mem_getLast? last)
    intro o' inside
    rcases List.mem_append.mp inside with before | new
    · exact written o' (List.dropLast_subset _ before)
    · rw [List.mem_singleton.mp new]
      refine ⟨⟨known.declared.nonempty, known.declared.trimmed, known.declared.clean,
        known.declared.note, known.declared.admits, known.declared.value,
        known.declared.checked⟩, known.name, known.note, ?_⟩
      rw [List.forall_mem_append, List.forall_mem_singleton]
      exact ⟨known.members, own, text name, fun r found => text (comment r found)⟩
  case h_2 =>
    obtain ⟨o, parsed, rfl⟩ := Fallible.map_eq_ok_iff.mp read
    obtain ⟨declared, none, -, name, note⟩ := Configuration.isDeclared_of_parse parsed
    rw [List.forall_mem_append, List.forall_mem_singleton]
    refine ⟨written, declared, absent name, fun r found => absent (note r found), ?_⟩
    rw [none]
    simp

/-- An option is declared on a line with an equals sign, so the line is none of a member. -/
theorem isMemberLine_declaration (o : Configuration) :
    isMemberLine (trimEnd o.declaration) = false := by
  have written : o.declaration =
      (o.kind.name ++ ' ' :: o.name ++ " ") ++ '=' :: (' ' :: o.default.write o.hexadecimal ++
        Configuration.writeRestriction o.hexadecimal o.kind ++ Configuration.writeRemark o.note) := by
    simp [Configuration.declaration]
  have marked : '=' ∈ trimEnd o.declaration := by
    rw [written, Text.trimEnd_append _ rfl, Text.trimEnd_cons (by decide)]
    exact List.mem_append_right _ List.mem_cons_self
  have found : (trimEnd o.declaration).any (· == '=') = true :=
    List.any_eq_true.mpr ⟨'=', marked, rfl⟩
  rw [isMemberLine, found]
  rfl

def optioned (m : GameMod) (options : List Configuration) : GameMod := { m with options := options }

@[simp] theorem options_optioned (m : GameMod) (options : List Configuration) :
    (optioned m options).options = options := rfl

@[simp] theorem optioned_optioned (m : GameMod) (options options' : List Configuration) :
    optioned (optioned m options) options' = optioned m options' := rfl

/-- A line of a block is read without the blanks in front of it. -/
theorem addOption_indented {m : GameMod} {indent word rest : Text} {options : List Configuration}
    (blank : isAllBlank indent = true) (some : word ≠ [])
    (solid : ∀ c ∈ word, Text.isBlank c = false)
    (read : addOptionLine m.options (trimEnd (word ++ rest)) = .ok options) :
    addOption m (indent ++ (word ++ rest)) = optioned m options := by
  obtain ⟨first, word, rfl⟩ := List.exists_cons_of_ne_nil some
  have lead : Text.isBlank first = false := solid first List.mem_cons_self
  have said : isAllBlank (indent ++ (first :: word ++ rest)) = false := by
    rw [isAllBlank, List.all_append, List.cons_append, List.all_cons, lead, Bool.false_and,
      Bool.and_false]
  have start : Text.trimStart (first :: word ++ rest) = first :: word ++ rest := by
    rw [Text.trimStart_eq_self_iff]
    rintro _ ⟨⟩
    exact lead
  rw [addOption, said, if_neg (by simp), Text.trim_blanks_append blank, trim, start, read]
  rfl

/-- The declaration of an option adds it. -/
theorem addOption_declaration (written : IsWrittenOption o) (readable : IsReadableOption o)
    (m : GameMod) : ∃ o', addOption m ("    " ++ o.declaration) = optioned m (m.options ++ [o']) ∧
      IsReadAs { o with members := [] } o' := by
  obtain ⟨o', parsed, same⟩ :=
    Configuration.parse_declaration written.declared readable.kind readable.default
  have read : addOptionLine m.options (trimEnd o.declaration) = .ok (m.options ++ [o']) := by
    rw [addOptionLine, isMemberLine_declaration, parsed]
    split
    case h_1 none => cases none
    case h_2 => rfl
  obtain ⟨rest, shape⟩ : ∃ rest, o.declaration = o.kind.name ++ rest :=
    ⟨_, by simp [Configuration.declaration]; rfl⟩
  rw [shape] at read ⊢
  exact ⟨o', addOption_indented (by decide) o.kind.name_ne_nil o.kind.solid_name read, same⟩

/-- The line of a member adds it to the last option. -/
theorem addOption_member {m : GameMod} {front : List Configuration} {o' : Configuration}
    (known : m.options = front ++ [o']) (same : o'.kind = o.kind) {c : Configuration.Member}
    (own : IsMemberOf o.kind c) (name : IsMemberText c.name)
    (comment : ∀ r ∈ c.comment, IsMemberText r) (readable : c.value.IsReadable) :
    ∃ c', addOption m ("        " ++ o.memberLine c) =
        optioned m (front ++ [{ o' with members := o'.members ++ [c'] }]) ∧
      (o.kind ≠ .float → c' = c) := by
  obtain ⟨c', parsed, value⟩ := Configuration.parseMember_memberLine same own readable
  have member : isMemberLine (trimEnd (o.memberLine c)) = true := by
    have digits : '=' ∉ c.value.write o.hexadecimal := Configuration.not_mem_write (by decide) _ _
    have remark : '=' ∉ Configuration.writeRemark c.comment :=
      Configuration.not_mem_writeRemark (by decide) fun r found => (comment r found).2
    have text : '=' ∉ trimEnd (' ' :: c.name ++ Configuration.writeRemark c.comment) := by
      refine fun equals => absurd ((Text.trimEnd_isPrefix _).subset equals) ?_
      simp [name.2, remark]
    rw [Configuration.trimEnd_memberLine, isMemberLine, Bool.and_eq_true, Bool.not_eq_true',
      List.any_eq_false]
    refine ⟨fun x inside equals => ?_, List.any_eq_true.mpr ⟨':', by simp, rfl⟩⟩
    rw [beq_iff_eq.mp equals, List.mem_append, List.mem_cons] at inside
    rcases inside with value | colon | rest
    · exact digits value
    · cases colon
    · exact text rest
  have read : addOptionLine m.options (trimEnd (o.memberLine c)) =
      .ok (front ++ [{ o' with members := o'.members ++ [c'] }]) := by
    rw [addOptionLine, member, known, List.getLast?_concat, List.dropLast_concat]
    simp only [parsed]
    rfl
  obtain ⟨rest, shape⟩ : ∃ rest, o.memberLine c = c.value.write o.hexadecimal ++ rest :=
    ⟨_, by simp [Configuration.memberLine]; rfl⟩
  rw [shape] at read ⊢
  exact ⟨c', addOption_indented (by decide) (Configuration.write_ne_nil _ _)
    Configuration.solid_write read, value⟩

/-- The lines of members add them one by one. -/
theorem foldl_addOption_members {m : GameMod} {front : List Configuration} {o' : Configuration}
    (known : m.options = front ++ [o']) (same : o'.kind = o.kind)
    {members : List Configuration.Member}
    (written : ∀ c ∈ members,
      IsMemberOf o.kind c ∧ IsMemberText c.name ∧ ∀ r ∈ c.comment, IsMemberText r)
    (readable : ∀ c ∈ members, c.value.IsReadable) :
    ∃ members', (members.map fun c => "        " ++ o.memberLine c).foldl addOption m =
        optioned m (front ++ [{ o' with members := o'.members ++ members' }]) ∧
      (o.kind ≠ .float → members' = members) := by
  induction members generalizing m o' with
  | nil =>
    refine ⟨[], ?_, fun _ => rfl⟩
    rw [List.map_nil, List.foldl_nil, List.append_nil, ← known]
    rfl
  | cons c members ih =>
    rw [List.forall_mem_cons] at written readable
    obtain ⟨own, name, comment⟩ := written.1
    obtain ⟨c', step, value⟩ := addOption_member known same own name comment readable.1
    have kind : ({ o' with members := o'.members ++ [c'] } : Configuration).kind = o.kind := same
    obtain ⟨members', rest, values⟩ := ih (m := optioned m _) rfl kind written.2 readable.2
    refine ⟨c' :: members', ?_, fun whole => by rw [value whole, values whole]⟩
    rw [List.map_cons, List.foldl_cons, step, rest, optioned_optioned, List.append_assoc]
    rfl

/-- The lines of an option add it. -/
theorem foldl_addOption_optionLines (written : IsWrittenOption o) (readable : IsReadableOption o)
    (m : GameMod) : ∃ o', (optionLines o).foldl addOption m = optioned m (m.options ++ [o']) ∧
      IsReadAs o o' := by
  obtain ⟨o', first, same⟩ := addOption_declaration written readable m
  have kind : o'.kind = o.kind := same.kind
  obtain ⟨members', rest, values⟩ := foldl_addOption_members (m := optioned m (m.options ++ [o'])) rfl
    kind written.members readable.members
  refine ⟨{ o' with members := o'.members ++ members' }, ?_, same.name, same.kind, fun whole => ?_⟩
  · rw [optionLines, List.foldl_cons, first, rest, optioned_optioned]
  · rw [values whole, same.whole whole]
    rfl

/-- The lines of a block add its options. -/
theorem foldl_addOption_block {options : List Configuration}
    (written : ∀ o ∈ options, IsWrittenOption o) (readable : ∀ o ∈ options, IsReadableOption o)
    (m : GameMod) : ∃ options', (options.flatMap optionLines).foldl addOption m =
      optioned m (m.options ++ options') ∧ List.Forall₂ IsReadAs options options' := by
  induction options generalizing m with
  | nil =>
    refine ⟨[], ?_, .nil⟩
    rw [List.flatMap_nil, List.foldl_nil, List.append_nil]
    rfl
  | cons o options ih =>
    rw [List.forall_mem_cons] at written readable
    obtain ⟨o', first, same⟩ := foldl_addOption_optionLines written.1 readable.1 m
    obtain ⟨options', rest, all⟩ := ih written.2 readable.2 (optioned m (m.options ++ [o']))
    refine ⟨o' :: options', ?_, .cons same all⟩
    rw [List.flatMap_cons, List.foldl_append, first, rest, optioned_optioned, options_optioned,
      List.append_assoc]
    rfl

theorem isIndented_of_lead {l : Text} (lead : l.head? = some ' ') : isIndented l = true := by
  rw [isIndented, lead]
  simp

/-- A remark may stand behind a line. -/
theorem isLine_append_writeRemark {l : Text} (line : IsLine l) {note : Option Text}
    (remark : Configuration.IsRemark note) (clean : ∀ r ∈ note, '\n' ∉ r) :
    IsLine (l ++ Configuration.writeRemark note) := by
  cases note with
  | none =>
    rw [Configuration.writeRemark, List.append_nil]
    exact line
  | some r =>
    obtain ⟨some, trimmed⟩ := remark r rfl
    refine line.append (Configuration.not_mem_writeRemark (by decide) clean) ?_
    rw [Configuration.writeRemark,
      Text.trimEnd_append _ (Text.isAllBlank_eq_false_of_trim some trimmed),
      (Text.trim_eq_self_iff.mp trimmed).2]

/-- The lines of an option are indented, and they are read as they are written. -/
theorem isLine_optionLines (written : IsWrittenOption o) :
    ∀ l ∈ optionLines o, isIndented l = true ∧ IsLine l := by
  have value (v : Configuration.Value) : '\n' ∉ v.write o.hexadecimal :=
    Configuration.not_mem_write (by decide) _ _
  rw [optionLines, List.forall_mem_cons, List.forall_mem_map]
  refine ⟨⟨isIndented_of_lead rfl, ?_⟩, fun c member => ⟨isIndented_of_lead rfl, ?_⟩⟩
  · have type : '\n' ∉ o.kind.name := o.kind.not_mem_name (by decide)
    have restriction : '\n' ∉ Configuration.writeRestriction o.hexadecimal o.kind :=
      Configuration.not_mem_writeRestriction (by decide) _ _
    have line := Text.isLine_of_trimEnd (by simp [type, written.name, value, restriction])
      (Configuration.trimEnd_append_write ("    " ++ o.kind.name ++ " " ++ o.name ++ " = ")
        o.hexadecimal o.kind o.default)
    have whole := isLine_append_writeRemark line written.declared.note written.note
    simpa [Configuration.declaration] using whole
  · obtain ⟨own, name, comment⟩ := written.members c member
    have lead : IsLine ("        " ++ c.value.write o.hexadecimal ++ ": ") :=
      ⟨by simp [value], by rw [List.getLast?_append]; simp⟩
    have line := lead.append name.1 (Text.trim_eq_self_iff.mp own.trimmed).2
    have whole := isLine_append_writeRemark line own.comment fun r found => (comment r found).1
    simpa [Configuration.memberLine] using whole

end ModText

end GamePatch
