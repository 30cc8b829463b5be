import GamePatch.Proofs.Configuration.Ranges
import GamePatch.Proofs.Configuration.WrittenRecords
import GamePatch.ModText.Reader

set_option autoImplicit false

namespace GamePatch.ModText

/-! ### The options of the block -/

section Block

variable {P : Configuration → Prop}
  (declared : ∀ line c, Configuration.parse line = .ok c → P c)
  (extended : ∀ o, P o → ∀ line member, o.parseMember line = .ok member →
    P { o with members := o.members ++ [member] })

include declared extended

/-- What holds of declared options and stays with their members holds of all options. -/
theorem forall_addOptionLine {options options' : List Configuration} {line : Text}
    (all : ∀ o ∈ options, P o) (read : addOptionLine options line = .ok options') :
    ∀ o ∈ options', P o := by
  rw [addOptionLine] at read
  split at read
  case h_1 o last member =>
    obtain ⟨m, parsed, rfl⟩ := Fallible.map_eq_ok_iff.mp read
    rw [List.forall_mem_append, List.forall_mem_singleton]
    constructor
    · exact fun o' before => all o' (List.dropLast_subset _ before)
    · exact extended o (all o (List.mem_of_mem_getLast? last)) line m parsed
  case h_2 =>
    obtain ⟨o, parsed, rfl⟩ := Fallible.map_eq_ok_iff.mp read
    rw [List.forall_mem_append, List.forall_mem_singleton]
    exact ⟨all, declared line o parsed⟩

theorem forall_addOption {m : GameMod} (all : ∀ o ∈ m.options, P o) (line : Text) :
    ∀ o ∈ (addOption m line).options, P o := by
  rw [addOption]
  split
  case isTrue => exact all
  case isFalse =>
    split
    case h_1 options read => exact forall_addOptionLine declared extended all read
    case h_2 => exact all

theorem forall_foldl_addOption {m : GameMod} (all : ∀ o ∈ m.options, P o) (lines : List Text) :
    ∀ o ∈ (lines.foldl addOption m).options, P o := by
  induction lines generalizing m with
  | nil => exact all
  | cons line lines ih => exact ih (forall_addOption declared extended all line)

theorem forall_readTop {m : GameMod} {description lines : List Text} (all : ∀ o ∈ m.options, P o) :
    ∀ o ∈ (readTop m description lines).1.options, P o := by
  fun_induction readTop m description lines with
  | case1 m description => exact all
  | case2 m description line rest text start => exact all
  | case3 m description line rest text noStart block ih =>
    exact ih (forall_foldl_addOption declared extended all _)
  | case4 m description line rest text noStart noBlock header ih => exact ih all
  | case5 m description line rest text noStart noBlock noHeader authors read ih => exact ih all
  | case6 m description line rest text noStart noBlock noHeader noAuthors link read ih => exact ih all
  | case7 m description line rest text noStart noBlock noHeader noAuthors noLink ih => exact ih all

end Block

/-! ### The options behind the changes -/

theorem options_foldl_push (m : GameMod) (note : Option Text) (changes : List Change) :
    (changes.foldl (fun m c => m.push { c with note := note }) m).options = m.options := by
  induction changes generalizing m with
  | nil => rfl
  | cons c changes ih => exact ih (m.push { c with note := note })

theorem options_addGeckoLines {m m' : GameMod} {body : Text} (read : addGeckoLines m body = .ok m') :
    m'.options = m.options := by
  unfold addGeckoLines at read
  cases split : Code.splitRemark body with
  | mk note code =>
    simp only [split] at read
    cases parsed : GeckoRecord.parse code with
    | error line =>
      rw [parsed] at read
      cases read
    | ok changes =>
      rw [parsed] at read
      cases read
      exact options_foldl_push m note changes

theorem options_addChange (m : GameMod) (header : Header) (body : Text) :
    (addChange m header body).1.options = m.options := by
  cases header with
  | row revision offset vanilla code => cases code <;> rfl
  | standalone => rfl
  | gecko revision =>
    rw [addChange]
    split
    case h_1 m' read =>
      have same : m'.options = (m.setRevision revision).options := options_addGeckoLines read
      exact same
    case h_2 => rfl

theorem options_record (read : GameMod × Option ParseError) : (record read).options = read.1.options := by
  obtain ⟨m, error⟩ := read
  cases error <;> rfl

theorem options_readChanges (m : GameMod) (last : Option Text) (lines : List Text) :
    (readChanges m last lines).options = m.options := by
  fun_induction readChanges m last lines with
  | case1 => rfl
  | case2 m last line rest blank ih => exact ih
  | case3 m last line rest solid e refused ih => exact ih
  | case4 m last line rest solid header parsed isBody ih =>
    rw [ih, options_record, options_addChange]

/-! ### Declared options -/

/-- An option that was declared on a line, with members of its kind. -/
structure IsDeclaredOption (o : Configuration) : Prop where
  declaration : ∃ line, Configuration.parse line = .ok { o with members := [] }
  members : ∀ m ∈ o.members, o.kind.Admits m.value

/-- Every option of a text was declared in it. -/
theorem isDeclaredOption_of_parse {text : Text} {m : GameMod} (read : parse text = .ok m) :
    ∀ o ∈ m.options, IsDeclaredOption o := by
  have declared (line : Text) (c : Configuration) (read : Configuration.parse line = .ok c) :
      IsDeclaredOption c := by
    obtain ⟨-, none, -⟩ := Configuration.isDeclared_of_parse read
    constructor
    · refine ⟨line, ?_⟩
      rw [read, ← none]
    · rw [none]
      exact List.forall_mem_nil _
  have extended (o : Configuration) (listed : IsDeclaredOption o) (line : Text) (member : Configuration.Member)
      (read : o.parseMember line = .ok member) :
      IsDeclaredOption { o with members := o.members ++ [member] } := by
    refine ⟨listed.declaration, ?_⟩
    rw [List.forall_mem_append, List.forall_mem_singleton]
    exact ⟨listed.members, (Configuration.isMemberOf_of_parseMember read).1.admits⟩
  unfold parse at read
  split at read
  case h_1 => cases read
  case h_2 title rest lines =>
    cases read
    have above : ∀ o ∈ (readTop (GameMod.new title) [] rest).1.options, IsDeclaredOption o :=
      forall_readTop declared extended (List.forall_mem_nil _)
    intro o member
    exact above o (by simpa [options_readChanges] using member)

/-- A declared option of whole numbers is read back from its record, if its members are. -/
theorem IsDeclaredOption.isRecordable {o : Configuration} (listed : IsDeclaredOption o) (whole : o.kind.IsWhole)
    (members : ∀ m ∈ o.members, m.value.IsReadable) : o.IsRecordable := by
  obtain ⟨line, read⟩ := listed.declaration
  obtain ⟨declared, -⟩ := Configuration.isDeclared_of_parse read
  obtain ⟨default, kind⟩ := Configuration.isReadable_of_parse read whole
  have same : o.value = o.default := declared.value
  have admits : o.kind.Admits o.default := declared.admits
  have checked : o.check o.default = .ok () := declared.checked
  exact
    { whole := whole.ne_float
      kind := kind
      default := ⟨admits, default⟩
      value := same ▸ ⟨admits, default⟩
      members := fun m member => ⟨listed.members m member, members m member⟩
      checkedDefault := checked
      checkedValue := same ▸ checked }

end GamePatch.ModText
