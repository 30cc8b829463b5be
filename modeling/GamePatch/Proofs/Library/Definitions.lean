import GamePatch.Library.Basic
import GamePatch.Proofs.Fallible
import GamePatch.Proofs.GameMod.RawOptions
import GamePatch.Proofs.Overflow
import GamePatch.Proofs.SymbolTable.Closure
import Mathlib.Data.List.Permutation

set_option autoImplicit false

namespace GamePatch

namespace SymbolTable

theorem find?_append (front back : SymbolTable) (name : Text) :
    find? (front ++ back) name = (front.find? name).or (back.find? name) := List.find?_append

theorem find?_cons (s : Symbol) (rest : SymbolTable) (name : Text) :
    find? (s :: rest) name = (find? [s] name).or (rest.find? name) := find?_append [s] rest name

theorem find?_singleton (s : Symbol) (name : Text) :
    find? [s] name = if s.name = name then some s else none := by
  by_cases same : s.name = name <;> simp [find?, same]

theorem mem_of_find? {table : SymbolTable} {name : Text} {s : Symbol}
    (found : table.find? name = some s) : s ∈ table ∧ s.name = name :=
  ⟨List.mem_of_find?_eq_some found, by simpa using List.find?_some found⟩

theorem find?_eq_none_iff {table : SymbolTable} {name : Text} :
    table.find? name = none ↔ ∀ s ∈ table, s.name ≠ name := by
  simp [find?]

/-- Why a function is refused by a table: another owner has defined its name with other code. -/
def clash? (table : SymbolTable) (s : Symbol) : Option Symbol.Error :=
  match table.find? s.name with
  | none => none
  | some known =>
    if known.owner = s.owner ∨ Code.normalize known.code = Code.normalize s.code then none
    else some (.alreadyDefined s.name known.owner)

def offer (table : SymbolTable) (s : Symbol) : SymbolTable :=
  if (table.find? s.name).isSome then table else table ++ [s]

theorem defineAll_cons (table : SymbolTable) (s : Symbol) (rest : List Symbol) :
    table.defineAll (s :: rest) =
      (((table.offer s).defineAll rest).1,
        (table.clash? s).toList ++ ((table.offer s).defineAll rest).2) := by
  rw [defineAll]
  unfold offer clash? define
  cases found : table.find? s.name with
  | none => simp
  | some known =>
    by_cases own : known.owner = s.owner
    · simp [own]
    · by_cases same : Code.normalize known.code = Code.normalize s.code
      · simp [own, same]
      · simp [own, same]

theorem find?_offer (table : SymbolTable) (s : Symbol) (name : Text) :
    (table.offer s).find? name = (table.find? name).or (find? [s] name) := by
  unfold offer
  split
  case isTrue known =>
    rw [find?_singleton]
    split
    case isTrue same =>
      obtain ⟨t, found⟩ := Option.isSome_iff_exists.mp known
      rw [← same, found, Option.some_or]
    case isFalse => rw [Option.or_none]
  case isFalse => exact find?_append table [s] name

/-- A name stands for what it stood for in the table, and otherwise for the first of the functions. -/
theorem find?_defineAll (table : SymbolTable) (symbols : List Symbol) (name : Text) :
    (table.defineAll symbols).1.find? name = (table.find? name).or (find? symbols name) := by
  induction symbols generalizing table with
  | nil => simp [defineAll, find?]
  | cons s rest ih =>
    rw [defineAll_cons, ih, find?_offer, find?_cons s rest, Option.or_assoc]

theorem mem_offer {table : SymbolTable} {s t : Symbol} (member : t ∈ table.offer s) : t ∈ table ∨ t = s := by
  unfold offer at member
  split at member
  · exact Or.inl member
  · simpa using member

theorem mem_defineAll {table : SymbolTable} {symbols : List Symbol} {t : Symbol}
    (member : t ∈ (table.defineAll symbols).1) : t ∈ table ∨ t ∈ symbols := by
  induction symbols generalizing table with
  | nil => exact Or.inl member
  | cons s rest ih =>
    rw [defineAll_cons] at member
    rcases ih member with before | later
    · rcases mem_offer before with known | rfl
      · exact Or.inl known
      · exact Or.inr List.mem_cons_self
    · exact Or.inr (List.mem_cons_of_mem s later)

/-- A function that has been offered by an owner does not stand in the way of his other functions. -/
theorem clash?_offer {table : SymbolTable} {s t : Symbol} (own : s.owner = t.owner) :
    (table.offer s).clash? t = table.clash? t := by
  unfold clash?
  rw [find?_offer, find?_singleton]
  cases found : table.find? t.name with
  | some known => rw [Option.some_or]
  | none =>
    split
    case h_1 => rfl
    case h_2 known same =>
      split at same
      case isTrue =>
        obtain rfl : s = known := by simpa using same
        simp [own]
      case isFalse => simp at same

/-- Of the functions of one owner those are refused that clash with the table as it was before. -/
theorem errors_defineAll {table : SymbolTable} {owner : Text} {symbols : List Symbol}
    (own : ∀ s ∈ symbols, s.owner = owner) :
    (table.defineAll symbols).2 = symbols.filterMap table.clash? := by
  induction symbols generalizing table with
  | nil => rfl
  | cons s rest ih =>
    rw [List.forall_mem_cons] at own
    have kept : rest.filterMap (table.offer s).clash? = rest.filterMap table.clash? := by
      apply List.filterMap_congr
      intro t member
      exact clash?_offer (own.1.trans (own.2 t member).symm)
    rw [defineAll_cons, ih own.2, kept]
    cases refused : table.clash? s with
    | none => rw [List.filterMap_cons_none refused]; rfl
    | some e => rw [List.filterMap_cons_some refused]; rfl

theorem clash?_eq_some_iff {table : SymbolTable} {s : Symbol} {e : Symbol.Error} :
    table.clash? s = some e ↔ ∃ known, table.find? s.name = some known ∧ known.owner ≠ s.owner ∧
      Code.normalize known.code ≠ Code.normalize s.code ∧
        e = .alreadyDefined s.name known.owner := by
  unfold clash?
  cases found : table.find? s.name with
  | none => simp
  | some known =>
    by_cases own : known.owner = s.owner
    · simp [own]
    · by_cases same : Code.normalize known.code = Code.normalize s.code
      · simp [own, same]
      · simp only [own, same, or_self, ↓reduceIte, Option.some.injEq, ne_eq, existsAndEq, not_false_eq_true,
          true_and]
        exact eq_comm

end SymbolTable

/-- The functions that a code refers to can be told, and the program does not end at one of its lines. -/
def Code.IsReadable (code : Text) : Prop := ∃ names, Code.referencedFunctions code = .ok names

theorem Code.referencedFunctions_eq_error_iff {code : Text} {e : Overflow} :
    Code.referencedFunctions code = .error e ↔ ¬ Code.IsReadable code := by
  unfold Code.IsReadable
  cases Code.referencedFunctions code with
  | ok names => simp
  | error ends => simp [ends.eq_overflow, e.eq_overflow]

/-- A walk through functions that can be read comes to a result of its own. -/
theorem SymbolTable.closure_ne_overflow {table : SymbolTable}
    (readable : ∀ name s, table.find? name = some s → Code.IsReadable s.code) (roots : List Text)
    (referrer : Text) : table.closure roots referrer ≠ .error .overflow := by
  intro overflows
  obtain ⟨count, final, -, ends⟩ := closure_turns table roots referrer
  rw [overflows] at ends
  cases ends with
  | @overflow met stack name fresh unreadable =>
    unfold dependencies at unreadable
    split at unreadable
    case h_1 s found =>
      exact Code.referencedFunctions_eq_error_iff.mp unreadable (readable name s found)
    case h_2 => cases unreadable

namespace GameMod

/-- The program ends at no code of the mod. -/
def IsReadable (m : GameMod) : Prop := ∀ c ∈ m.changes, Code.IsReadable c.code

theorem referencedFunctions_eq_error_iff {m : GameMod} {e : Overflow} :
    m.referencedFunctions = .error e ↔ ¬ m.IsReadable := by
  unfold referencedFunctions
  rw [Fallible.map_eq_error_iff]
  constructor
  · intro ends readable
    obtain ⟨c, member, unreadable⟩ := Fallible.mapM_eq_error ends
    exact Code.referencedFunctions_eq_error_iff.mp unreadable (readable c member)
  · intro unreadable
    cases each : m.changes.mapM fun c => Code.referencedFunctions c.code with
    | error ends => rw [ends.eq_overflow, e.eq_overflow]
    | ok names =>
      refine absurd (fun c member => ?_) unreadable
      obtain ⟨own, -, read⟩ := exists_right_of_forall₂ (Fallible.mapM_eq_ok_iff.mp each) member
      exact ⟨own, read⟩

theorem mem_standaloneSymbols {m : GameMod} {s : Symbol} :
    s ∈ m.standaloneSymbols ↔
      ∃ c ∈ m.changes, c.kind = .standalone ∧ symbolOf m.name c = s := by
  simp [standaloneSymbols, and_assoc]

theorem owner_of_standaloneSymbols {m : GameMod} {s : Symbol} (member : s ∈ m.standaloneSymbols) :
    s.owner = m.name := by
  obtain ⟨c, -, -, rfl⟩ := mem_standaloneSymbols.mp member
  rfl

theorem IsReadable.standalone {m : GameMod} (readable : m.IsReadable) {s : Symbol}
    (member : s ∈ m.standaloneSymbols) : Code.IsReadable s.code := by
  obtain ⟨c, inside, -, rfl⟩ := mem_standaloneSymbols.mp member
  exact readable c inside

theorem changes_recordErrors (m : GameMod) (messages : List Text) (isAssembly : Bool) :
    (m.recordErrors messages isAssembly).changes = m.changes ∧
      (m.recordErrors messages isAssembly).name = m.name := by
  unfold recordErrors
  induction messages generalizing m with
  | nil => exact ⟨rfl, rfl⟩
  | cons message messages ih => exact ih (m.recordError message isAssembly)

end GameMod

namespace Library

def functionsOf (mods : List GameMod) : List Symbol := mods.flatMap GameMod.standaloneSymbols

/-- A mod in its place in a library, where a table of functions is known before it. -/
def placed (l : Library) (root : Option Path) (before : SymbolTable) (m : GameMod) : GameMod :=
  { m with includePaths := l.searchPaths root m }.recordErrors
    ((m.standaloneSymbols.filterMap before.clash?).map Symbol.Error.message) false

theorem define_eq (l : Library) (root : Option Path) (m : GameMod) :
    l.define root m =
      ({ l with symbols := (l.symbols.defineAll m.standaloneSymbols).1 },
        l.placed root l.symbols m) := by
  have own : ∀ s ∈ m.standaloneSymbols, s.owner = m.name :=
    fun _ => GameMod.owner_of_standaloneSymbols
  unfold define placed
  simp only [SymbolTable.errors_defineAll own]

/-- What a mod finds defined before it is what the library had, and what the mods before it define. -/
theorem defineAll_append_cons (l : Library) (root : Option Path) (before after : List GameMod)
    (m : GameMod) :
    ∃ table : SymbolTable,
      (∀ name, table.find? name = (l.symbols.find? name).or
        (SymbolTable.find? (functionsOf before) name)) ∧
      (l.defineAll root (before ++ m :: after)).2[before.length]? = some (l.placed root table m) := by
  induction before generalizing l with
  | nil =>
    refine ⟨l.symbols, fun name => by simp [functionsOf, SymbolTable.find?], ?_⟩
    rw [List.nil_append, defineAll, define_eq]
    rfl
  | cons first before ih =>
    obtain ⟨table, known, place⟩ :=
      ih { l with symbols := (l.symbols.defineAll first.standaloneSymbols).1 }
    refine ⟨table, fun name => ?_, ?_⟩
    · rw [known, SymbolTable.find?_defineAll, functionsOf, functionsOf, List.flatMap_cons,
        SymbolTable.find?_append, Option.or_assoc]
    · rw [List.cons_append, defineAll, define_eq]
      exact place

/-- The table in the end is that of the library and of all mods. -/
theorem find?_symbols_defineAll (l : Library) (root : Option Path) (mods : List GameMod) (name : Text) :
    (l.defineAll root mods).1.symbols.find? name =
      (l.symbols.find? name).or (SymbolTable.find? (functionsOf mods) name) := by
  induction mods generalizing l with
  | nil => simp [defineAll, functionsOf, SymbolTable.find?]
  | cons m rest ih =>
    rw [defineAll, define_eq]
    simp only [ih]
    rw [SymbolTable.find?_defineAll, functionsOf, functionsOf, List.flatMap_cons,
      SymbolTable.find?_append, Option.or_assoc]

theorem requiredFunctions_congr {l : Library} {m r : GameMod} (changes : r.changes = m.changes)
    (name : r.name = m.name) : l.requiredFunctions r = l.requiredFunctions m := by
  rw [requiredFunctions, requiredFunctions, GameMod.referencedFunctions, GameMod.referencedFunctions,
    changes, name]

/-- Mods keep their changes and their names in a library. -/
theorem defineAll_kept (l : Library) (root : Option Path) (mods : List GameMod) :
    List.Forall₂ (fun m r => GameMod.changes r = GameMod.changes m ∧ r.name = m.name) mods
      (l.defineAll root mods).2 := by
  induction mods generalizing l with
  | nil => exact .nil
  | cons m rest ih =>
    rw [defineAll, define_eq]
    exact .cons (GameMod.changes_recordErrors _ _ _) (ih _)

/-- Mods are registered if none of them brings the program to its end. -/
theorem register_eq_ok_iff {l after : Library} {root : Option Path} {mods ended : List GameMod} :
    l.register root mods = .ok (after, ended) ↔
      after = (l.defineAll root mods).1 ∧
        List.Forall₂ (fun m r => after.checkFunctions m = .ok r) (l.defineAll root mods).2 ended := by
  rw [register, Fallible.map_eq_ok_iff]
  simp only [Prod.mk.injEq, Fallible.mapM_eq_ok_iff]
  constructor
  · rintro ⟨mods', each, rfl, rfl⟩
    exact ⟨rfl, each⟩
  · rintro ⟨rfl, each⟩
    exact ⟨ended, each, rfl, rfl⟩

/-- What can be wrong with the functions that a mod needs: one is not defined, or the program ends at
the code of one. -/
theorem requiredFunctions_error {l : Library} {m : GameMod} {e : Symbol.Error}
    (failed : l.requiredFunctions m = .error e) :
    (∃ name, e = .undefined name m.name) ∨ e = .overflow := by
  unfold requiredFunctions at failed
  split at failed
  · cases failed
    exact Or.inr rfl
  case h_2 roots read =>
    obtain ⟨count, final, -, ends⟩ := SymbolTable.closure_turns l.symbols roots m.name
    rw [failed] at ends
    cases ends with
    | @undefined met stack name fresh unknown => exact Or.inl ⟨name, rfl⟩
    | overflow fresh unreadable => exact Or.inr rfl

/-- A mod that refers to no function has all that it needs. -/
theorem checkFunctions_of_referencedFunctions_eq_nil {l : Library} {m : GameMod}
    (alone : m.referencedFunctions = .ok []) : l.checkFunctions m = .ok m := by
  have needed : l.requiredFunctions m = .ok [] := by
    rw [requiredFunctions, alone]
    simp only [SymbolTable.closure]
    rw [List.reverse_nil, SymbolTable.closureFrom]
  rw [checkFunctions, needed]

theorem checkFunctions_eq_error_iff {l : Library} {m : GameMod} {e : Overflow} :
    l.checkFunctions m = .error e ↔ l.requiredFunctions m = .error .overflow := by
  unfold checkFunctions
  cases required : l.requiredFunctions m with
  | ok names => exact iff_of_false nofun nofun
  | error failure =>
    rcases requiredFunctions_error required with ⟨name, rfl⟩ | rfl
    · exact iff_of_false nofun nofun
    · rw [e.eq_overflow]
      exact iff_of_true rfl rfl

theorem register_eq_error_iff {l : Library} {root : Option Path} {mods : List GameMod} {e : Overflow} :
    l.register root mods = .error e ↔
      ∃ m ∈ mods, (l.defineAll root mods).1.requiredFunctions m = .error .overflow := by
  have kept := defineAll_kept l root mods
  constructor
  · intro ends
    obtain ⟨r, member, failed⟩ := Fallible.mapM_eq_error (Fallible.map_eq_error_iff.mp ends)
    obtain ⟨m, inside, changes, name⟩ := exists_left_of_forall₂ kept member
    exact ⟨m, inside, requiredFunctions_congr changes name ▸ checkFunctions_eq_error_iff.mp failed⟩
  · rintro ⟨m, inside, failed⟩
    cases outcome : l.register root mods with
    | error ends => rw [ends.eq_overflow, e.eq_overflow]
    | ok result =>
      obtain ⟨same, each⟩ := register_eq_ok_iff.mp outcome
      obtain ⟨r, member, changes, name⟩ := exists_right_of_forall₂ kept inside
      obtain ⟨checked, -, found⟩ := exists_right_of_forall₂ each member
      rw [← requiredFunctions_congr changes name, ← checkFunctions_eq_error_iff (e := .overflow),
        ← same, found] at failed
      cases failed

/-- Registering ends the program for a mod that cannot be read. -/
theorem register_of_not_isReadable {l : Library} {root : Option Path} {mods : List GameMod}
    {m : GameMod} (member : m ∈ mods) (unreadable : ¬ m.IsReadable) :
    l.register root mods = .error .overflow := by
  refine register_eq_error_iff.mpr ⟨m, member, ?_⟩
  have unknown : m.referencedFunctions = .error .overflow :=
    GameMod.referencedFunctions_eq_error_iff.mpr unreadable
  rw [requiredFunctions, unknown]

/-- Mods that can be read are registered. -/
theorem exists_register {l : Library} {root : Option Path} {mods : List GameMod}
    (readable : ∀ m ∈ mods, m.IsReadable) (before : ∀ s ∈ l.symbols, Code.IsReadable s.code) :
    ∃ after ended, l.register root mods = .ok (after, ended) := by
  cases outcome : l.register root mods with
  | ok result => exact ⟨result.1, result.2, rfl⟩
  | error e =>
    obtain ⟨m, member, failed⟩ := register_eq_error_iff.mp outcome
    unfold requiredFunctions at failed
    split at failed
    case h_1 ends unknown =>
      exact absurd (readable m member) (GameMod.referencedFunctions_eq_error_iff.mp unknown)
    case h_2 roots read =>
      refine absurd failed (SymbolTable.closure_ne_overflow (fun name s found => ?_) _ _)
      rw [find?_symbols_defineAll, ← SymbolTable.find?_append] at found
      rcases List.mem_append.mp (SymbolTable.mem_of_find? found).1 with own | defined
      · exact before s own
      · obtain ⟨owner, inside, own⟩ := List.mem_flatMap.mp defined
        exact (readable owner inside).standalone own

theorem mem_checkFunctions {l : Library} {m r : GameMod} (checked : l.checkFunctions m = .ok r)
    {known : Text} :
    known ∈ r.errors ↔
      known ∈ m.errors ∨ ∃ name, l.requiredFunctions m = .error (.undefined name m.name) ∧
        known = (Symbol.Error.undefined name m.name).message := by
  unfold checkFunctions at checked
  cases required : l.requiredFunctions m with
  | ok names =>
    rw [required] at checked
    cases checked
    simp
  | error failure =>
    rw [required] at checked
    rcases requiredFunctions_error required with ⟨name, rfl⟩ | rfl
    · cases checked
      rw [GameMod.mem_recordError]
      simp
    · cases checked

/-- A refused definition does not read like a missing one. -/
theorem message_alreadyDefined_ne (name owner name' referrer : Text) :
    (Symbol.Error.alreadyDefined name owner).message ≠
      (Symbol.Error.undefined name' referrer).message := by
  have quoted : (Symbol.Error.alreadyDefined name owner).message.getLast? = some (Char.ofNat 39) :=
    List.getLast?_append
  have worded : (Symbol.Error.undefined name' referrer).message.getLast? = some 'd' :=
    List.getLast?_append
  intro same
  rw [same, worded] at quoted
  exact absurd quoted (by decide)

/-- Which functions of a mod are reported as refused. The first definition of a name counts, however
often mods between them repeat it; and it is reported only where the two mods differ in their names.
Nothing is reported if the program ends at the code of a mod. -/
theorem register_refuses_iff (includePaths : List Path) (root : Option Path)
    (before after : List GameMod) (m : GameMod) :
    ((∃ other ∈ before ++ m :: after, ¬ other.IsReadable) →
      (empty includePaths).register root (before ++ m :: after) = .error .overflow) ∧
    ((∀ other ∈ before ++ m :: after, other.IsReadable) →
      ∃ library mods r,
        (empty includePaths).register root (before ++ m :: after) = .ok (library, mods) ∧
          mods[before.length]? = some r ∧
          ∀ name owner, (Symbol.Error.alreadyDefined name owner).message ∈ r.errors ↔
            (Symbol.Error.alreadyDefined name owner).message ∈ m.errors ∨
            ∃ s ∈ m.standaloneSymbols, ∃ first,
              SymbolTable.find? (functionsOf before) s.name = some first ∧ first.owner ≠ m.name ∧
                Code.normalize first.code ≠ Code.normalize s.code ∧
                  (Symbol.Error.alreadyDefined name owner).message =
                    (Symbol.Error.alreadyDefined s.name first.owner).message) := by
  refine ⟨fun ⟨other, member, unreadable⟩ => register_of_not_isReadable member unreadable,
    fun readable => ?_⟩
  obtain ⟨library, mods, registered⟩ : ∃ library mods,
      (empty includePaths).register root (before ++ m :: after) = .ok (library, mods) :=
    exists_register readable nofun
  obtain ⟨-, each⟩ := register_eq_ok_iff.mp registered
  obtain ⟨table, known, place⟩ :=
    defineAll_append_cons (empty includePaths) root before after m
  obtain ⟨r, here, checked⟩ := getElem?_of_forall₂ each place
  refine ⟨library, mods, r, registered, here, fun name owner => ?_⟩
  have missing (n : Text) :
      (Symbol.Error.alreadyDefined name owner).message ≠
        (Symbol.Error.undefined n ((empty includePaths).placed root table m).name).message :=
    message_alreadyDefined_ne _ _ _ _
  have first (s : Symbol) : table.find? s.name = SymbolTable.find? (functionsOf before) s.name := by
    rw [known]
    exact Option.none_or
  rw [mem_checkFunctions checked, placed, GameMod.mem_recordErrors]
  constructor
  · rintro ((old | refused) | ⟨n, -, same⟩)
    · exact Or.inl old
    · obtain ⟨e, clash, same⟩ := List.mem_map.mp refused
      obtain ⟨s, member, clash⟩ := List.mem_filterMap.mp clash
      obtain ⟨f, found, other, differ, rfl⟩ := SymbolTable.clash?_eq_some_iff.mp clash
      rw [GameMod.owner_of_standaloneSymbols member] at other
      exact Or.inr ⟨s, member, f, first s ▸ found, other, differ, same.symm⟩
    · exact absurd same (missing n)
  · rintro (old | ⟨s, member, f, found, other, differ, same⟩)
    · exact Or.inl (Or.inl old)
    · have clash : table.clash? s = some (.alreadyDefined s.name f.owner) := by
        refine SymbolTable.clash?_eq_some_iff.mpr ⟨f, (first s).trans found, ?_, differ, rfl⟩
        rwa [GameMod.owner_of_standaloneSymbols member]
      refine Or.inl (Or.inr (List.mem_map.mpr ⟨_, ?_, same.symm⟩))
      exact List.mem_filterMap.mpr ⟨s, member, clash⟩

def helperMod (title code : Text) : GameMod :=
  ((GameMod.new title).setRevision "ALL").addStandalone "Helper" code

/-- The second of two mods of one name brings other code for a function, and nothing is reported. -/
theorem namesake_not_refused :
    (SymbolTable.find? (functionsOf [helperMod "Same" "blr"]) "Helper").map Symbol.code =
      some "blr" ∧
    (helperMod "Same" "li r3, 1\nblr").standaloneSymbols.map Symbol.code = ["li r3, 1\nblr"] ∧
    Code.normalize "blr" ≠ Code.normalize "li r3, 1\nblr" ∧
    ((empty []).register none [helperMod "Same" "blr", helperMod "Same" "li r3, 1\nblr"]).map
      (fun result => result.2.map GameMod.errors) = .ok [[], []] := by
  refine ⟨by decide +kernel, by decide +kernel, by decide +kernel, ?_⟩
  cbv

end Library

end GamePatch
