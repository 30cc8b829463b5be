import GamePatch.Proofs.Library.Definitions
import Mathlib.Data.List.Nodup

set_option autoImplicit false

namespace GamePatch.SymbolTable

inductive Call where
  | define (s : Symbol)
  | allocate (name : Text) (address : Address)
deriving DecidableEq, Repr

namespace Call

def on (table : SymbolTable) : Call → Except Symbol.Error Unit × SymbolTable
  | define s => table.define s
  | allocate name address => table.allocate name address

def after (table : SymbolTable) (c : Call) : SymbolTable := (c.on table).2

/-- The function that a call brings for a name. -/
def definition? (name : Text) : Call → Option Symbol
  | define s => if s.name = name then some s else none
  | allocate _ _ => none

/-- The address that a call gives to a name, if it succeeds. -/
def address? (name : Text) (table : SymbolTable) : Call → Option Address
  | define _ => none
  | allocate other address =>
    match (table.allocate other address).1 with
    | .ok _ => if other = name then some address else none
    | .error _ => none

end Call

/-- The table after calls that start from the empty one. -/
def run (calls : List Call) : SymbolTable := calls.foldl Call.after []

def firstDefinition? (name : Text) (calls : List Call) : Option Symbol :=
  calls.findSome? (Call.definition? name)

def addressesFrom (name : Text) : SymbolTable → List Call → List Address
  | _, [] => []
  | table, c :: rest => (c.address? name table).toList ++ addressesFrom name (c.after table) rest

/-- The addresses that a name is given by the calls that succeed, from the empty table on. -/
def addresses (name : Text) (calls : List Call) : List Address := addressesFrom name [] calls

/-- Every function of one table stands at the same place in the other one, and only its address may
differ. -/
def Keeps (table later : SymbolTable) : Prop :=
  ∀ (i : Nat) (s : Symbol), table[i]? = some s →
    ∃ address, later[i]? = some { s with address := address }

theorem Keeps.refl (table : SymbolTable) : Keeps table table := fun _ s found => ⟨s.address, found⟩

theorem Keeps.trans {table later last : SymbolTable} (first : Keeps table later)
    (second : Keeps later last) : Keeps table last := by
  intro i s found
  obtain ⟨_, between⟩ := first i s found
  obtain ⟨address, there⟩ := second i _ between
  exact ⟨address, there⟩

/-- To place a function is to give an address to the first one of that name. -/
theorem place_eq_some_iff {name : Text} {address : Address} {table later : SymbolTable} :
    place name address table = some later ↔ ∃ above s below, table = above ++ s :: below ∧
      s.name = name ∧ (∀ t ∈ above, t.name ≠ name) ∧
        later = above ++ { s with address := some address } :: below := by
  induction table generalizing later with
  | nil => simp [place]
  | cons first rest ih =>
    unfold place
    by_cases here : first.name = name
    · rw [if_pos here]
      constructor
      · intro placed
        exact ⟨[], first, rest, rfl, here, by simp, (Option.some.inj placed).symm⟩
      · rintro ⟨above, s, below, shape, named, others, rfl⟩
        cases above with
        | nil =>
          obtain ⟨rfl, rfl⟩ := List.cons.inj shape
          rfl
        | cons t above =>
          obtain ⟨rfl, -⟩ := List.cons.inj shape
          exact absurd here (others first List.mem_cons_self)
    · rw [if_neg here, Option.map_eq_some_iff]
      constructor
      · rintro ⟨rest', placed, rfl⟩
        obtain ⟨above, s, below, rfl, named, others, rfl⟩ := ih.mp placed
        exact ⟨first :: above, s, below, rfl, named, List.forall_mem_cons.mpr ⟨here, others⟩, rfl⟩
      · rintro ⟨above, s, below, shape, named, others, rfl⟩
        cases above with
        | nil =>
          obtain ⟨rfl, -⟩ := List.cons.inj shape
          exact absurd named here
        | cons t above =>
          obtain ⟨rfl, rfl⟩ := List.cons.inj shape
          exact ⟨_, ih.mpr ⟨above, s, below, rfl, named, (List.forall_mem_cons.mp others).2, rfl⟩, rfl⟩

theorem place_eq_none_iff {name : Text} {address : Address} {table : SymbolTable} :
    place name address table = none ↔ table.find? name = none := by
  induction table with
  | nil => simp [place, find?]
  | cons first rest ih =>
    rw [find?_cons, find?_singleton, place]
    by_cases here : first.name = name
    · simp [here]
    · simpa [here] using ih

theorem allocate_eq_error_iff {table : SymbolTable} {name : Text} {address : Address}
    {e : Symbol.Error} :
    (table.allocate name address).1 = .error e ↔ table.find? name = none ∧ e = .notFound name := by
  rw [← @place_eq_none_iff name address]
  unfold allocate
  cases place name address table with
  | none => simp [eq_comm]
  | some later => simp

theorem define_eq_error_iff {table : SymbolTable} {s : Symbol} {e : Symbol.Error} :
    (table.define s).1 = .error e ↔ ∃ known, table.find? s.name = some known ∧
      Code.normalize known.code ≠ Code.normalize s.code ∧ e = .alreadyDefined s.name known.owner := by
  unfold define
  cases table.find? s.name with
  | none => simp
  | some known =>
    by_cases same : Code.normalize known.code = Code.normalize s.code
    · simp [same]
    · simp [same, @eq_comm _ e]

namespace Call

theorem after_of_error {c : Call} {table : SymbolTable} {e : Symbol.Error}
    (failed : (c.on table).1 = .error e) : c.after table = table := by
  cases c with
  | define s =>
    obtain ⟨known, found, differ, -⟩ := define_eq_error_iff.mp failed
    simp only [after, on, SymbolTable.define, found, if_neg differ]
  | allocate name address =>
    obtain ⟨unknown, -⟩ := allocate_eq_error_iff.mp failed
    rw [← @place_eq_none_iff name address] at unknown
    simp only [after, on, SymbolTable.allocate, unknown]

/-- A function that is offered is taken up if its name is new. Otherwise nothing changes, whether the
call fails or not. -/
theorem after_define (table : SymbolTable) (s : Symbol) : (define s).after table = table.offer s := by
  change (table.define s).2 = table.offer s
  unfold SymbolTable.define offer
  cases table.find? s.name with
  | none => rfl
  | some known =>
    by_cases same : Code.normalize known.code = Code.normalize s.code <;> simp [same]

theorem after_allocate_cases (table : SymbolTable) (name : Text) (address : Address) :
    table.find? name = none ∧ (allocate name address).after table = table ∨
    ∃ above s below, table = above ++ s :: below ∧ s.name = name ∧ (∀ t ∈ above, t.name ≠ name) ∧
      (allocate name address).after table = above ++ { s with address := some address } :: below := by
  have outcome : (allocate name address).after table =
      (table.allocate name address).2 := rfl
  rw [outcome]
  unfold SymbolTable.allocate
  cases placed : place name address table with
  | none => exact Or.inl ⟨place_eq_none_iff.mp placed, rfl⟩
  | some later =>
    obtain ⟨above, s, below, shape, named, others, rfl⟩ := place_eq_some_iff.mp placed
    exact Or.inr ⟨above, s, below, shape, named, others, rfl⟩

/-- The names stay as they are, or a new one is put behind them. -/
theorem names_after (c : Call) (table : SymbolTable) :
    (c.after table).map Symbol.name = table.map Symbol.name ∨
    ∃ name, name ∉ table.map Symbol.name ∧
      (c.after table).map Symbol.name = table.map Symbol.name ++ [name] := by
  cases c with
  | define s =>
    rw [after_define, offer]
    split
    case isTrue => exact Or.inl rfl
    case isFalse unknown =>
      have absent := find?_eq_none_iff.mp (Option.not_isSome_iff_eq_none.mp unknown)
      refine Or.inr ⟨s.name, ?_, by simp⟩
      intro member
      obtain ⟨t, member, same⟩ := List.mem_map.mp member
      exact absent t member same
  | allocate name address =>
    rcases after_allocate_cases table name address with
      ⟨-, same⟩ | ⟨above, s, below, rfl, -, -, placed⟩
    · rw [same]
      exact Or.inl rfl
    · rw [placed]
      exact Or.inl (by simp)

theorem keeps_after (c : Call) (table : SymbolTable) : Keeps table (c.after table) := by
  cases c with
  | define s =>
    rw [after_define, offer]
    split
    case isTrue => exact Keeps.refl table
    case isFalse =>
      intro i t found
      obtain ⟨inside, -⟩ := List.getElem?_eq_some_iff.mp found
      exact ⟨t.address, by rw [List.getElem?_append_left inside, found]⟩
  | allocate name address =>
    rcases after_allocate_cases table name address with
      ⟨-, same⟩ | ⟨above, s, below, rfl, -, -, placed⟩
    · rw [same]
      exact Keeps.refl table
    · rw [placed]
      intro i t found
      rcases Nat.lt_trichotomy i above.length with front | rfl | back
      · rw [List.getElem?_append_left front] at found ⊢
        exact ⟨t.address, found⟩
      · rw [List.getElem?_append_right (Nat.le_refl _), Nat.sub_self] at found ⊢
        obtain rfl : s = t := by simpa using found
        exact ⟨some address, rfl⟩
      · obtain ⟨j, rfl⟩ := Nat.exists_eq_add_of_lt back
        rw [List.getElem?_append_right (by omega)] at found ⊢
        have next : above.length + j + 1 - above.length = j + 1 := by omega
        rw [next, List.getElem?_cons_succ] at found ⊢
        exact ⟨t.address, found⟩

/-- Only the function that is placed changes, and only in its address. -/
theorem find?_after_allocate (table : SymbolTable) (placed name : Text) (address : Address) :
    ((allocate placed address).after table).find? name =
      if placed = name then (table.find? name).map fun s => { s with address := some address }
      else table.find? name := by
  rcases after_allocate_cases table placed address with
    ⟨unknown, same⟩ | ⟨above, s, below, rfl, rfl, others, placed⟩
  · rw [same]
    split
    case isTrue h =>
      subst h
      rw [unknown]
      rfl
    case isFalse => rfl
  · have split (t : Symbol) : SymbolTable.find? (above ++ t :: below) name =
        (SymbolTable.find? above name).or
          ((SymbolTable.find? [t] name).or (SymbolTable.find? below name)) := by
      rw [find?_append, find?_cons]
    rw [placed, split, split, find?_singleton, find?_singleton]
    by_cases here : s.name = name
    · subst here
      simp [find?_eq_none_iff.mpr others]
    · simp [here]

/-- A call gives an address to a name only if the name is known. -/
theorem address?_allocate (table : SymbolTable) (placed name : Text) (address : Address) :
    (allocate placed address).address? name table =
      if placed = name ∧ (table.find? name).isSome then some address else none := by
  have outcome : (allocate placed address).address? name table =
      match (table.allocate placed address).1 with
      | .ok _ => if placed = name then some address else none
      | .error _ => none := rfl
  rw [outcome]
  by_cases same : placed = name
  · subst same
    cases allocated : (table.allocate placed address).1 with
    | ok later =>
      have known : (table.find? placed).isSome := by
        by_contra unknown
        rw [Option.not_isSome_iff_eq_none] at unknown
        rw [allocate_eq_error_iff.mpr ⟨unknown, rfl⟩] at allocated
        cases allocated
      simp [known]
    | error e => simp [(allocate_eq_error_iff.mp allocated).1]
  · cases (table.allocate placed address).1 <;> simp [same]

end Call

section

variable (calls later : List Call) (c : Call) (name : Text)

theorem run_append_singleton : run (calls ++ [c]) = c.after (run calls) := by
  simp [run]

theorem firstDefinition?_append_singleton :
    firstDefinition? name (calls ++ [c]) = (firstDefinition? name calls).or (c.definition? name) := by
  simp [firstDefinition?, List.findSome?_append]

theorem addressesFrom_append (table : SymbolTable) :
    addressesFrom name table (calls ++ later) =
      addressesFrom name table calls ++ addressesFrom name (calls.foldl Call.after table) later := by
  induction calls generalizing table with
  | nil => rfl
  | cons first rest ih => simp [addressesFrom, ih]

theorem addresses_append_singleton :
    addresses name (calls ++ [c]) = addresses name calls ++ (c.address? name (run calls)).toList := by
  simp [addresses, addressesFrom_append, addressesFrom, run]

theorem nodup_names_run : ((run calls).map Symbol.name).Nodup := by
  induction calls using List.reverseRecOn with
  | nil => exact List.nodup_nil
  | append_singleton calls c ih =>
    rw [run_append_singleton]
    rcases c.names_after (run calls) with same | ⟨name, fresh, more⟩
    · rwa [same]
    · rw [more, ← List.concat_eq_append]
      exact ih.concat fresh

theorem keeps_run : Keeps (run calls) (run (calls ++ later)) := by
  induction later using List.reverseRecOn with
  | nil =>
    rw [List.append_nil]
    exact Keeps.refl _
  | append_singleton later c ih =>
    rw [← List.append_assoc, run_append_singleton]
    exact ih.trans (c.keeps_after _)

/-- What a name stands for after calls is the first function that they bring for it, at the last of the
addresses that they give to it. A name that is not defined has been given no address. -/
theorem find?_run :
    ((run calls).find? name = (firstDefinition? name calls).map fun d =>
      { d with address := (addresses name calls).getLast?.or d.address }) ∧
    (firstDefinition? name calls = none → addresses name calls = []) := by
  induction calls using List.reverseRecOn with
  | nil => exact ⟨rfl, fun _ => rfl⟩
  | append_singleton calls c ih =>
    obtain ⟨found, unplaced⟩ := ih
    rw [run_append_singleton, firstDefinition?_append_singleton, addresses_append_singleton]
    cases c with
    | define s =>
      rw [Call.after_define, find?_offer, find?_singleton, found]
      cases first : firstDefinition? name calls with
      | none =>
        rw [unplaced first]
        by_cases same : s.name = name
        · subst same
          simp [Call.definition?, Call.address?]
        · simp [Call.definition?, Call.address?, same]
      | some d => simp [Call.address?]
    | allocate other address =>
      rw [Call.find?_after_allocate, Call.address?_allocate, found]
      cases first : firstDefinition? name calls with
      | none => simp [Call.definition?, unplaced first]
      | some d =>
        by_cases same : other = name
        · simp [same]
        · simp [same]

end

/-- What calls have left in a table of functions, and what the next call would do. -/
structure IsRecord (calls : List Call) (table : SymbolTable) : Prop where
  distinct : (table.map Symbol.name).Nodup
  /-- A function stays at its place with its name, its owner and its code. -/
  kept : ∀ later, Keeps table (run (calls ++ later))
  /-- A name stands for the function that was the first to be defined under it. -/
  found : ∀ name, table.find? name = (firstDefinition? name calls).map fun d =>
    { d with address := (addresses name calls).getLast?.or d.address }
  /-- A function is at the last address that it was given, and before that where it was defined. -/
  placed : ∀ name, table.addressOf? name = (firstDefinition? name calls).bind fun d =>
    (addresses name calls).getLast?.or d.address
  /-- The first function of a name is put behind the others. -/
  new : ∀ s, firstDefinition? s.name calls = none → table.define s = (.ok (), table ++ [s])
  /-- A known name is shared by all that agree on its code. -/
  shared : ∀ s d, firstDefinition? s.name calls = some d →
    ((table.define s).1 = .ok () ↔ Code.normalize d.code = Code.normalize s.code) ∧
    ∀ e, (table.define s).1 = .error e → e = .alreadyDefined s.name d.owner
  /-- To define a name again changes nothing. -/
  absorbed : ∀ s, (firstDefinition? s.name calls).isSome → run (calls ++ [.define s]) = table
  missing : ∀ name address e, (table.allocate name address).1 = .error e ↔
    firstDefinition? name calls = none ∧ e = .notFound name
  /-- A call that fails changes nothing. -/
  failed : ∀ c e, (Call.on table c).1 = .error e → run (calls ++ [c]) = table

/-- The table after any calls is the record of them. -/
theorem run_isRecord (calls : List Call) : IsRecord calls (run calls) := by
  have found (name : Text) := (find?_run calls name).1
  constructor
  · exact nodup_names_run calls
  · exact keeps_run calls
  · exact found
  · intro name
    rw [addressOf?, found]
    cases firstDefinition? name calls <;> rfl
  · intro s unknown
    rw [define, found, unknown]
    rfl
  · intro s d first
    have known := found s.name
    rw [first, Option.map_some] at known
    constructor
    · unfold define
      rw [known]
      by_cases same : Code.normalize d.code = Code.normalize s.code <;> simp [same]
    · intro e refused
      obtain ⟨k, known', -, rfl⟩ := define_eq_error_iff.mp refused
      rw [known, Option.some.injEq] at known'
      subst known'
      rfl
  · intro s first
    rw [run_append_singleton, Call.after_define, offer, found, Option.isSome_map, if_pos first]
  · intro name address e
    rw [allocate_eq_error_iff, found, Option.map_eq_none_iff]
  · intro c e refused
    rw [run_append_singleton, Call.after_of_error refused]

example :
    run [.define ⟨"Wait", "Menus", "blr", none⟩, .allocate "Wait" 0x80001000,
      .define ⟨"Wait", "Stages", "blr # at once", some 0x80002000⟩, .allocate "Load" 0x80003000,
      .define ⟨"Wait", "Stages", "nop", none⟩] = [⟨"Wait", "Menus", "blr", some 0x80001000⟩] := by
  decide +kernel

end GamePatch.SymbolTable
