import GamePatch.Proofs.Change.NormalLines
import GamePatch.Proofs.Library.Definitions

set_option autoImplicit false

namespace GamePatch

namespace SymbolTable

/-- Tables in which the same names are defined, by functions that refer to the same functions. -/
structure Alike (a b : SymbolTable) : Prop where
  defined : ∀ name, (a.find? name).isSome = (b.find? name).isSome
  references : ∀ name, a.dependencies name = b.dependencies name

theorem Alike.none_iff {a b : SymbolTable} (alike : Alike a b) (name : Text) :
    a.find? name = none ↔ b.find? name = none := by
  rw [← Option.not_isSome_iff_eq_none, alike.defined, Option.not_isSome_iff_eq_none]

/-- The walk through the references does not see more of a table. -/
theorem Alike.closureFrom_eq {a b : SymbolTable} (alike : Alike a b) (referrer : Text)
    (met stack : List Text) : a.closureFrom referrer met stack = b.closureFrom referrer met stack := by
  fun_induction closureFrom a referrer met stack with
  | case1 met => rw [closureFrom]
  | case2 met name stack known ih =>
    rw [closureFrom, dif_pos known]
    exact ih
  | case3 met name stack fresh unknown =>
    have missing : b.find? name = none := (alike.none_iff name).mp unknown
    rw [closureFrom, dif_neg fresh]
    split
    · rfl
    case h_2 s known => rw [missing] at known; cases known
  | case4 met name stack fresh s defined e unreadable =>
    rw [closureFrom, dif_neg fresh]
    split
    case h_1 missing =>
      rw [(alike.none_iff name).mpr missing] at defined
      cases defined
    · rw [alike.references name] at unreadable
      simp only [unreadable]
  | case5 met name stack fresh s defined names references ih =>
    rw [closureFrom, dif_neg fresh]
    split
    case h_1 missing =>
      rw [(alike.none_iff name).mpr missing] at defined
      cases defined
    · rw [alike.references name] at references
      simp only [references]
      exact ih

def Calls (functions : List Symbol) (name next : Text) : Prop :=
  ∃ s ∈ functions, s.name = name ∧
    ∃ names, Code.referencedFunctions s.code = .ok names ∧ next ∈ names

/-- A name that no function has, although it is needed for one of the roots. -/
def IsMissing (functions : List Symbol) (roots : List Text) (name : Text) : Prop :=
  (∃ root ∈ roots, Relation.ReflTransGen (Calls functions) root name) ∧
    ∀ s ∈ functions, s.name ≠ name

/-- Functions of one name agree in all but comments and blank lines. -/
def Agree (functions : List Symbol) : Prop :=
  ∀ s ∈ functions, ∀ t ∈ functions, s.name = t.name → Code.normalize s.code = Code.normalize t.code

/-- A table that knows the functions of a list: those names, each by one of its functions. -/
structure Represents (table : SymbolTable) (functions : List Symbol) : Prop where
  mem_of_find? : ∀ name s, table.find? name = some s → s ∈ functions
  none_iff : ∀ name, table.find? name = none ↔ ∀ s ∈ functions, s.name ≠ name

variable {table : SymbolTable} {functions : List Symbol}

theorem represents_of_find? (same : ∀ name, table.find? name = find? functions name) :
    Represents table functions where
  mem_of_find? name s found := by
    rw [same] at found
    exact (SymbolTable.mem_of_find? found).1
  none_iff name := by rw [same, find?_eq_none_iff]

/-- The functions may stand in any order. -/
theorem Represents.of_perm {others : List Symbol} (represents : Represents table functions)
    (perm : functions.Perm others) : Represents table others where
  mem_of_find? name s found := perm.mem_iff.mp (represents.mem_of_find? name s found)
  none_iff name := by
    rw [represents.none_iff]
    exact forall_congr' fun s => imp_congr_left perm.mem_iff

/-- The function that is kept refers to what every function of its name refers to. -/
theorem Represents.refers_iff (represents : Represents table functions) (agree : Agree functions)
    (name next : Text) : table.Refers name next ↔ Calls functions name next := by
  unfold Refers dependencies
  cases found : table.find? name with
  | none =>
    have absent := (represents.none_iff name).mp found
    constructor
    · rintro ⟨names, known, member⟩
      cases known
      cases member
    · rintro ⟨s, member, named, -⟩
      exact absurd named (absent s member)
  | some s =>
    have inside := represents.mem_of_find? name s found
    have named := (SymbolTable.mem_of_find? found).2
    constructor
    · exact fun refers => ⟨s, inside, named, refers⟩
    · rintro ⟨t, member, named', refers⟩
      have same := agree s inside t member (named.trans named'.symm)
      rwa [← Code.referencedFunctions_congr same] at refers

theorem Represents.reachable_iff (represents : Represents table functions) (agree : Agree functions)
    (roots : List Text) (name : Text) :
    table.Reachable roots name ↔
      ∃ root ∈ roots, Relation.ReflTransGen (Calls functions) root name := by
  have same : table.Refers = Calls functions :=
    funext fun a => funext fun b => propext (represents.refers_iff agree a b)
  rw [Reachable, same]

/-- Two tables that know the same functions are alike, if the functions agree. -/
theorem Represents.alike {table' : SymbolTable} (left : Represents table functions)
    (right : Represents table' functions) (agree : Agree functions) : Alike table table' where
  defined name := by
    rw [Bool.eq_iff_iff, Option.isSome_iff_ne_none, Option.isSome_iff_ne_none, not_iff_not,
      left.none_iff, right.none_iff]
  references name := by
    unfold dependencies
    cases found : table.find? name with
    | none =>
      rw [(right.none_iff name).mpr ((left.none_iff name).mp found)]
    | some s =>
      cases found' : table'.find? name with
      | none =>
        have absent := (left.none_iff name).mpr ((right.none_iff name).mp found')
        rw [found] at absent
        cases absent
      | some t =>
        have named := (SymbolTable.mem_of_find? found).2
        have named' := (SymbolTable.mem_of_find? found').2
        exact Code.referencedFunctions_congr (agree s (left.mem_of_find? _ _ found) t
          (right.mem_of_find? _ _ found') (named.trans named'.symm))

/-- All functions that are needed are found, or one that is missing is named, or the program ends. -/
theorem closure_cases (table : SymbolTable) (roots : List Text) (referrer : Text) :
    table.closure roots referrer = .error .overflow ∨
    ((∃ order, table.closure roots referrer = .ok order) ∧
      ∀ name, table.Reachable roots name → table.find? name ≠ none) ∨
    ∃ name, table.closure roots referrer = .error (.undefined name referrer) ∧
      table.Reachable roots name ∧ table.find? name = none := by
  obtain ⟨count, final, turns, ends⟩ := closure_turns table roots referrer
  have sound := turns.isSound (Loop.isSound_start table roots)
  generalize table.closure roots referrer = result at ends
  cases ends with
  | complete met =>
    refine Or.inr (Or.inl ⟨⟨met, rfl⟩, fun name reached unknown => ?_⟩)
    have known := sound.met_defined name ((sound.mem_iff name).mpr reached)
    rw [unknown] at known
    cases known
  | @undefined met stack name fresh unknown =>
    exact Or.inr (Or.inr ⟨name, rfl, sound.stack_reached name List.mem_cons_self, unknown⟩)
  | overflow fresh unreadable => exact Or.inl rfl

/-- Where the program does not end, the walk fails exactly if a function is missing, and names one that
is. -/
theorem Represents.closure_error (represents : Represents table functions)
    (agree : Agree functions) {roots : List Text} {referrer : Text}
    (goesOn : table.closure roots referrer ≠ .error .overflow) :
    (∀ name, table.closure roots referrer = .error (.undefined name referrer) →
        IsMissing functions roots name) ∧
      ((∃ name, IsMissing functions roots name) →
        ∃ name, table.closure roots referrer = .error (.undefined name referrer)) := by
  rcases closure_cases table roots referrer with
    ends | ⟨⟨order, found⟩, defined⟩ | ⟨other, failed, reached, unknown⟩
  · exact absurd ends goesOn
  · constructor
    · intro name failed
      rw [found] at failed
      cases failed
    · rintro ⟨name, needed, absent⟩
      have reached := (represents.reachable_iff agree roots name).mpr needed
      exact absurd ((represents.none_iff name).mpr absent) (defined name reached)
  · constructor
    · intro name failed'
      rw [failed] at failed'
      cases failed'
      exact ⟨(represents.reachable_iff agree roots other).mp reached,
        (represents.none_iff other).mp unknown⟩
    · exact fun _ => ⟨other, failed⟩

theorem Agree.mono {others : List Symbol} (agree : Agree functions)
    (inside : ∀ s ∈ others, s ∈ functions) : Agree others :=
  fun s member t member' => agree s (inside s member) t (inside t member')

/-- A function is not refused by functions that it agrees with. -/
theorem Agree.clash?_eq_none (agree : Agree functions) (inside : ∀ s ∈ table, s ∈ functions)
    {s : Symbol} (member : s ∈ functions) : table.clash? s = none := by
  rw [Option.eq_none_iff_forall_ne_some]
  intro e clash
  obtain ⟨known, found, -, differ, -⟩ := clash?_eq_some_iff.mp clash
  obtain ⟨there, named⟩ := SymbolTable.mem_of_find? found
  exact differ (agree known (inside known there) s member named)

end SymbolTable

namespace Library

open SymbolTable (Agree IsMissing Represents)

/-- A mod that takes its place in a library without clashes. -/
def settled (l : Library) (root : Option Path) (m : GameMod) : GameMod :=
  { m with includePaths := l.searchPaths root m }

theorem placed_of_agree {l : Library} {root : Option Path} {functions : List Symbol} {m : GameMod}
    (agree : Agree functions) (known : ∀ s ∈ l.symbols, s ∈ functions)
    (own : ∀ s ∈ m.standaloneSymbols, s ∈ functions) : l.placed root l.symbols m = l.settled root m := by
  have none : m.standaloneSymbols.filterMap l.symbols.clash? = [] := by
    rw [List.filterMap_eq_nil_iff]
    exact fun s member => agree.clash?_eq_none known (own s member)
  rw [placed, none]
  rfl

/-- Mods that agree are all settled. -/
theorem defineAll_of_agree {l : Library} {root : Option Path} {mods : List GameMod}
    (agree : Agree (l.symbols ++ functionsOf mods)) :
    (l.defineAll root mods).2 = mods.map (l.settled root) := by
  induction mods generalizing l with
  | nil => rfl
  | cons m rest ih =>
    have whole : functionsOf (m :: rest) = m.standaloneSymbols ++ functionsOf rest :=
      List.flatMap_cons
    rw [whole] at agree
    have later : Agree ((l.symbols.defineAll m.standaloneSymbols).1 ++ functionsOf rest) := by
      refine agree.mono fun s member => ?_
      rcases List.mem_append.mp member with before | after
      · rcases SymbolTable.mem_defineAll before with known | own
        · exact List.mem_append_left _ known
        · exact List.mem_append_right _ (List.mem_append_left _ own)
      · exact List.mem_append_right _ (List.mem_append_right _ after)
    have first : l.placed root l.symbols m = l.settled root m :=
      placed_of_agree agree (fun s => List.mem_append_left _)
        fun s member => List.mem_append_right _ (List.mem_append_left _ member)
    have rest := ih (l := { l with symbols := (l.symbols.defineAll m.standaloneSymbols).1 }) later
    rw [defineAll, define_eq]
    simp only [rest, first, List.map_cons]
    rfl

theorem register_of_agree {l after : Library} {root : Option Path} {mods ended : List GameMod}
    (agree : Agree (l.symbols ++ functionsOf mods))
    (registered : l.register root mods = .ok (after, ended)) :
    List.Forall₂ (fun m r => after.checkFunctions (l.settled root m) = .ok r) mods ended := by
  obtain ⟨-, each⟩ := register_eq_ok_iff.mp registered
  rwa [defineAll_of_agree agree, List.forall₂_map_left_iff] at each

/-- What a mod ends as does not depend on which of two libraries with the same answers it is in. -/
theorem exists_ending {l after after' : Library} {root : Option Path}
    {mods others ended ended' : List GameMod}
    (required : ∀ m, after.requiredFunctions m = after'.requiredFunctions m)
    (first : List.Forall₂ (fun m r => after.checkFunctions (l.settled root m) = .ok r) mods ended)
    (second : List.Forall₂ (fun m r => after'.checkFunctions (l.settled root m) = .ok r) others ended') :
    ∃ ending : GameMod → GameMod, ended = mods.map ending ∧ ended' = others.map ending ∧
      ∀ m ∈ mods, ∀ message, message ∈ (ending m).errors ↔ message ∈ m.errors ∨
        ∃ name, after.requiredFunctions m = .error (.undefined name m.name) ∧
          message = (Symbol.Error.undefined name m.name).message := by
  have checked : after'.checkFunctions = after.checkFunctions := by
    funext m
    rw [checkFunctions, checkFunctions, required]
  let ending (m : GameMod) : GameMod := (after.checkFunctions (l.settled root m)).toOption.getD m
  have ends {m r : GameMod} (own : after.checkFunctions (l.settled root m) = .ok r) : ending m = r := by
    change (after.checkFunctions (l.settled root m)).toOption.getD m = r
    rw [own]
    rfl
  have all {ms rs : List GameMod} (each : List.Forall₂
      (fun m r => after.checkFunctions (l.settled root m) = .ok r) ms rs) : rs = ms.map ending := by
    induction each with
    | nil => rfl
    | cons here rest ih => rw [List.map_cons, ends here, ← ih]
  refine ⟨ending, all first, all (checked ▸ second), fun m member message => ?_⟩
  obtain ⟨r, -, own⟩ := exists_right_of_forall₂ first member
  rw [ends own]
  exact mem_checkFunctions own

theorem represents_defineAll (l : Library) (root : Option Path) (mods : List GameMod) :
    Represents (l.defineAll root mods).1.symbols (l.symbols ++ functionsOf mods) := by
  refine SymbolTable.represents_of_find? fun name => ?_
  rw [find?_symbols_defineAll, SymbolTable.find?_append]

/-- Mods that agree with each other and with the library end in the same way, in whatever order they
are taken in: the same functions are needed for them, and an error is recorded on those for which one
is missing. If the program ends at the code of one of them, it does so in every order. -/
theorem register_perm (l : Library) (root : Option Path) {mods others : List GameMod}
    (perm : mods.Perm others) (agree : Agree (l.symbols ++ functionsOf mods)) :
    (l.register root mods = .error .overflow ↔ l.register root others = .error .overflow) ∧
    ((∃ m ∈ mods, ¬ m.IsReadable) → l.register root mods = .error .overflow) ∧
    ((∀ m ∈ mods, m.IsReadable) → (∀ s ∈ l.symbols, Code.IsReadable s.code) →
      ∃ after ended, l.register root mods = .ok (after, ended)) ∧
    ∀ after ended, l.register root mods = .ok (after, ended) →
      ∃ after' ended', l.register root others = .ok (after', ended') ∧
        (∃ ending : GameMod → GameMod, ended = mods.map ending ∧ ended' = others.map ending ∧
          ∀ m ∈ mods, ∀ message, message ∈ (ending m).errors ↔ message ∈ m.errors ∨
            ∃ name, after.requiredFunctions m = .error (.undefined name m.name) ∧
              message = (Symbol.Error.undefined name m.name).message) ∧
        (∀ m, after.requiredFunctions m = after'.requiredFunctions m) ∧
        ∀ m ∈ mods, ∃ roots, m.referencedFunctions = .ok roots ∧
          (∀ name, after.requiredFunctions m = .error (.undefined name m.name) →
            IsMissing (l.symbols ++ functionsOf mods) roots name) ∧
          ((∃ name, IsMissing (l.symbols ++ functionsOf mods) roots name) →
            ∃ name, after.requiredFunctions m = .error (.undefined name m.name)) := by
  have perm' : (l.symbols ++ functionsOf mods).Perm (l.symbols ++ functionsOf others) :=
    (perm.flatMap_right _).append_left _
  have agree' : Agree (l.symbols ++ functionsOf others) :=
    agree.mono fun s member => perm'.mem_iff.mpr member
  have left := represents_defineAll l root mods
  have right := (represents_defineAll l root others).of_perm perm'.symm
  have required (m : GameMod) : (l.defineAll root mods).1.requiredFunctions m =
      (l.defineAll root others).1.requiredFunctions m := by
    unfold requiredFunctions SymbolTable.closure
    simp only [(left.alike right agree).closureFrom_eq]
  have ends_iff : l.register root mods = .error .overflow ↔
      l.register root others = .error .overflow := by
    rw [register_eq_error_iff, register_eq_error_iff]
    simp only [required, perm.mem_iff]
  refine ⟨ends_iff, ?_, exists_register, ?_⟩
  · rintro ⟨m, member, unreadable⟩
    exact register_of_not_isReadable member unreadable
  intro after ended registered
  obtain ⟨same, -⟩ := register_eq_ok_iff.mp registered
  obtain ⟨⟨after', ended'⟩, registered'⟩ : ∃ result, l.register root others = .ok result := by
    cases outcome : l.register root others with
    | ok result => exact ⟨result, rfl⟩
    | error e =>
      rw [e.eq_overflow, ← ends_iff, registered] at outcome
      cases outcome
  obtain ⟨same', -⟩ := register_eq_ok_iff.mp registered'
  rw [← same, ← same'] at required
  refine ⟨after', ended', registered', ?_, required, fun m member => ?_⟩
  · exact exists_ending required (register_of_agree agree registered)
      (register_of_agree agree' registered')
  · have goesOn : after.requiredFunctions m ≠ .error .overflow := fun overflows => by
      rw [same] at overflows
      have ends : l.register root mods = .error .overflow :=
        register_eq_error_iff.mpr ⟨m, member, overflows⟩
      cases registered.symm.trans ends
    unfold requiredFunctions at goesOn ⊢
    cases read : m.referencedFunctions with
    | error e => rw [read] at goesOn; exact absurd rfl goesOn
    | ok roots =>
      rw [read] at goesOn
      rw [← same] at left
      exact ⟨roots, rfl, left.closure_error agree goesOn⟩

def callerMod : GameMod :=
  ((GameMod.new "Caller").setRevision "ALL").addInjection "0x80002000" "bl <Helper>" none

/-- Two mods that bring the same function along, and a third that needs it. The function goes on in
one that nobody defines. -/
def tailMods : List GameMod :=
  [helperMod "First" "b <Tail>", callerMod, helperMod "Second" "# leave\nb <Tail>"]

theorem tailMods_register_perm :
    tailMods.Perm tailMods.reverse ∧ Agree ((empty []).symbols ++ functionsOf tailMods) ∧
    ∃ after after' : Library, ∃ ending : GameMod → GameMod,
      (empty []).register none tailMods = .ok (after, tailMods.map ending) ∧
      (empty []).register none tailMods.reverse = .ok (after', tailMods.reverse.map ending) ∧
      ∃ name, (Symbol.Error.undefined name callerMod.name).message ∈ (ending callerMod).errors := by
  have perm : tailMods.Perm tailMods.reverse := (List.reverse_perm _).symm
  have agree : Agree ((empty []).symbols ++ functionsOf tailMods) := by
    unfold Agree
    decide +kernel
  have missing : IsMissing ((empty []).symbols ++ functionsOf tailMods) ["Helper"] "Tail" := by
    refine ⟨⟨"Helper", List.mem_cons_self, .single ?_⟩, by decide +kernel⟩
    exact ⟨GameMod.symbolOf "First" (.new .standalone "Helper" "b <Tail>"), by decide +kernel,
      by decide +kernel, ["Tail"], by decide +kernel, List.mem_cons_self⟩
  have present : callerMod ∈ tailMods := by decide +kernel
  have readable : ∀ m ∈ tailMods, m.IsReadable := by
    have all : ∀ m ∈ tailMods, ∀ c ∈ m.changes,
        (Code.referencedFunctions c.code).toOption.isSome = true := by decide +kernel
    intro m member c inside
    obtain ⟨names, read⟩ := Option.isSome_iff_exists.mp (all m member c inside)
    exact ⟨names, Fallible.toOption_eq_some_iff.mp read⟩
  obtain ⟨-, -, registers, agreeing⟩ := register_perm (empty []) none perm agree
  obtain ⟨after, ended, registered⟩ := registers readable nofun
  obtain ⟨after', ended', registered', ⟨ending, rfl, rfl, recorded⟩, -, required⟩ :=
    agreeing after ended registered
  obtain ⟨roots, read, -, fails⟩ := required callerMod present
  have own : callerMod.referencedFunctions = .ok ["Helper"] := by decide +kernel
  cases own.symm.trans read
  obtain ⟨name, failed⟩ := fails ⟨_, missing⟩
  exact ⟨perm, agree, after, after', ending, registered, registered', name,
    (recorded callerMod present _).mpr (Or.inr ⟨name, failed, rfl⟩)⟩

/-- A mod with a function that calls itself with the least signed number taken away. Its functions agree
with each other, but there is no library with it. -/
theorem leastDistance_not_registered :
    ¬ ∀ (l : Library) (root : Option Path) (mods : List GameMod),
      Agree (l.symbols ++ functionsOf mods) →
        ∃ after ended, l.register root mods = .ok (after, ended) := by
  intro always
  obtain ⟨after, ended, registered⟩ :=
    always (empty []) none [helperMod "A" "bl <Helper> - -9223372036854775808"] (by
      unfold Agree
      decide +kernel)
  have unreadable : (helperMod "A" "bl <Helper> - -9223372036854775808").referencedFunctions =
      .error .overflow := by decide +kernel
  have ends : (empty []).register none [helperMod "A" "bl <Helper> - -9223372036854775808"] =
      .error .overflow :=
    register_of_not_isReadable List.mem_cons_self
      (GameMod.referencedFunctions_eq_error_iff.mp unreadable)
  cases ends.symm.trans registered

end Library

end GamePatch
