import GamePatch.SymbolTable
import Mathlib.Algebra.Order.BigOperators.Group.List
import Mathlib.Algebra.Order.Ring.Nat
import Mathlib.Data.List.Nodup
import Mathlib.Logic.Relation

set_option autoImplicit false

namespace GamePatch

def Symbol.referenceCount (s : Symbol) : Nat :=
  match Code.referencedFunctions s.code with
  | .ok names => names.length
  | .error _ => 0

namespace SymbolTable

def Refers (table : SymbolTable) (name next : Text) : Prop :=
  ∃ names, table.dependencies name = .ok names ∧ next ∈ names

/-- Whether a name is a root, or is referred to by a function that can be reached. -/
def Reachable (table : SymbolTable) (roots : List Text) (name : Text) : Prop :=
  ∃ root ∈ roots, Relation.ReflTransGen table.Refers root name

/-- A walk through functions in turn, where `met` are those met before and `after` those met at its
end. A function that is met for the first time is followed by what it refers to, and only then by the
functions beside it. -/
inductive Walk (table : SymbolTable) : (met names after : List Text) → Prop
  | done (met : List Text) : Walk table met [] met
  | again {met rest after : List Text} {name : Text} (known : name ∈ met)
      (beside : Walk table met rest after) : Walk table met (name :: rest) after
  | visit {met rest names below after : List Text} {name : Text} (fresh : name ∉ met)
      (references : table.dependencies name = .ok names)
      (inside : Walk table (met ++ [name]) names below)
      (beside : Walk table below rest after) : Walk table met (name :: rest) after

/-- The loop between two turns: the functions met, and the names that are still to be looked at, of
which the first is next. -/
structure Loop where
  met : List Text
  stack : List Text

inductive Turn (table : SymbolTable) : Loop → Loop → Prop
  | skip {met stack : List Text} {name : Text} (known : name ∈ met) :
      Turn table ⟨met, name :: stack⟩ ⟨met, stack⟩
  | expand {met stack names : List Text} {name : Text} {s : Symbol} (fresh : name ∉ met)
      (defined : table.find? name = some s) (references : table.dependencies name = .ok names) :
      Turn table ⟨met, name :: stack⟩ ⟨met ++ [name], names ++ stack⟩

inductive Turns (table : SymbolTable) : Nat → Loop → Loop → Prop
  | none (l : Loop) : Turns table 0 l l
  | more {count : Nat} {l m n : Loop} (first : Turn table l m) (rest : Turns table count m n) :
      Turns table (count + 1) l n

inductive Loop.Ends (table : SymbolTable) (referrer : Text) :
    Loop → Except Symbol.Error (List Text) → Prop
  | complete (met : List Text) : Ends table referrer ⟨met, []⟩ (.ok met)
  | undefined {met stack : List Text} {name : Text} (fresh : name ∉ met)
      (unknown : table.find? name = none) :
      Ends table referrer ⟨met, name :: stack⟩ (.error (.undefined name referrer))
  | overflow {met stack : List Text} {name : Text} (fresh : name ∉ met)
      (unreadable : table.dependencies name = .error .overflow) :
      Ends table referrer ⟨met, name :: stack⟩ (.error .overflow)

variable {table : SymbolTable} {referrer : Text}

/-- The loop turns until it ends. -/
theorem closureFrom_turns (table : SymbolTable) (referrer : Text) (met stack : List Text) :
    ∃ count final, Turns table count ⟨met, stack⟩ final ∧
      final.Ends table referrer (table.closureFrom referrer met stack) := by
  fun_induction closureFrom table referrer met stack with
  | case1 met => exact ⟨0, ⟨met, []⟩, .none _, .complete met⟩
  | case2 met name stack known ih =>
    obtain ⟨count, final, turns, ends⟩ := ih
    exact ⟨count + 1, final, .more (.skip (by simpa using known)) turns, ends⟩
  | case3 met name stack fresh unknown =>
    exact ⟨0, ⟨met, name :: stack⟩, .none _, .undefined (by simpa using fresh) unknown⟩
  | case4 met name stack fresh s defined e unreadable =>
    exact ⟨0, ⟨met, name :: stack⟩, .none _, .overflow (by simpa using fresh) unreadable⟩
  | case5 met name stack fresh s defined names references ih =>
    obtain ⟨count, final, turns, ends⟩ := ih
    exact ⟨count + 1, final, .more (.expand (by simpa using fresh) defined references) turns, ends⟩

/-- The walk from some roots on is a run of the loop. -/
theorem closure_turns (table : SymbolTable) (roots : List Text) (referrer : Text) :
    ∃ count final, Turns table count ⟨[], roots.reverse⟩ final ∧
      final.Ends table referrer (table.closure roots referrer) :=
  closureFrom_turns table referrer [] roots.reverse

def pending (table : SymbolTable) (met : List Text) : Nat :=
  ((table.remaining met).map Symbol.referenceCount).sum

/-- The most turns that a loop can still take. -/
def Loop.weight (table : SymbolTable) (l : Loop) : Nat := l.stack.length + table.pending l.met

theorem Turn.weight_lt {l m : Loop} (turn : Turn table l m) : m.weight table < l.weight table := by
  cases turn with
  | skip known =>
    simp only [Loop.weight, List.length_cons]
    omega
  | @expand met stack names name s fresh defined references =>
    have unmet : met.contains name = false := by simpa using fresh
    obtain ⟨mem, named⟩ := table.mem_remaining met name s defined unmet
    have counted : names.length = s.referenceCount := by
      simp only [dependencies, defined] at references
      rw [Symbol.referenceCount, references]
    have rest : table.pending (met ++ [name]) + s.referenceCount ≤ table.pending met := by
      obtain ⟨above, below, split⟩ := List.append_of_mem mem
      have gone : (s.name != name) = false := by simp [named]
      have kept (l : List Symbol) : ((l.filter fun t => t.name != name).map
          Symbol.referenceCount).sum ≤ (l.map Symbol.referenceCount).sum :=
        (List.filter_sublist.map _).sum_le_sum fun _ _ => Nat.zero_le _
      rw [pending, pending, remaining_append, split, List.filter_append, List.filter_cons, gone]
      simp only [Bool.false_eq_true, ↓reduceIte, List.map_append, List.map_cons, List.sum_append,
        List.sum_cons]
      have := kept above
      have := kept below
      omega
    simp only [Loop.weight, List.length_cons, List.length_append, counted]
    omega

theorem Turns.count_add_weight_le {count : Nat} {l m : Loop} (turns : Turns table count l m) :
    count + m.weight table ≤ l.weight table := by
  induction turns with
  | none l => omega
  | more first rest ih =>
    have := first.weight_lt
    omega

section

variable {roots : List Text}

theorem Reachable.next {name next : Text} (reached : table.Reachable roots name)
    (refers : table.Refers name next) : table.Reachable roots next := by
  obtain ⟨root, member, path⟩ := reached
  exact ⟨root, member, path.tail refers⟩

/-- What every turn keeps: the functions met are different from each other, all that has been seen can
be reached, and what is missing is still on the stack. -/
structure Loop.IsSound (table : SymbolTable) (roots : List Text) (l : Loop) : Prop where
  distinct : l.met.Nodup
  met_defined : ∀ name ∈ l.met, (table.find? name).isSome
  met_reached : ∀ name ∈ l.met, table.Reachable roots name
  stack_reached : ∀ name ∈ l.stack, table.Reachable roots name
  roots_seen : ∀ name ∈ roots, name ∈ l.met ∨ name ∈ l.stack
  met_readable : ∀ name ∈ l.met, ∃ names, table.dependencies name = .ok names
  references_seen : ∀ name ∈ l.met, ∀ next, table.Refers name next → next ∈ l.met ∨ next ∈ l.stack

theorem Loop.isSound_start (table : SymbolTable) (roots : List Text) :
    Loop.IsSound table roots ⟨[], roots.reverse⟩ where
  distinct := List.nodup_nil
  met_defined := by simp
  met_reached := by simp
  stack_reached name member := ⟨name, List.mem_reverse.mp member, .refl⟩
  roots_seen name member := Or.inr (List.mem_reverse.mpr member)
  met_readable := by simp
  references_seen := by simp

theorem Turn.isSound {l m : Loop} (turn : Turn table l m) (sound : l.IsSound table roots) :
    m.IsSound table roots := by
  cases turn with
  | @skip met stack name known =>
    have stays {other : Text} (seen : other ∈ met ∨ other ∈ name :: stack) :
        other ∈ met ∨ other ∈ stack := by
      rcases seen with before | waiting
      · exact Or.inl before
      · rcases List.mem_cons.mp waiting with rfl | waiting
        · exact Or.inl known
        · exact Or.inr waiting
    exact
      { distinct := sound.distinct
        met_defined := sound.met_defined
        met_reached := sound.met_reached
        stack_reached := fun other member => sound.stack_reached other (List.mem_cons_of_mem _ member)
        roots_seen := fun other member => stays (sound.roots_seen other member)
        met_readable := sound.met_readable
        references_seen := fun other member next refers =>
          stays (sound.references_seen other member next refers) }
  | @expand met stack names name s fresh defined references =>
    have reached : table.Reachable roots name := sound.stack_reached name List.mem_cons_self
    have stays {other : Text} (seen : other ∈ met ∨ other ∈ name :: stack) :
        other ∈ met ++ [name] ∨ other ∈ names ++ stack := by
      rcases seen with before | waiting
      · exact Or.inl (List.mem_append_left _ before)
      · rcases List.mem_cons.mp waiting with rfl | waiting
        · exact Or.inl (List.mem_append_right _ List.mem_cons_self)
        · exact Or.inr (List.mem_append_right _ waiting)
    constructor
    · rw [← List.concat_eq_append]
      exact List.Nodup.concat fresh sound.distinct
    · intro other member
      rcases List.mem_append.mp member with before | last
      · exact sound.met_defined other before
      · rw [List.mem_singleton.mp last, defined]
        rfl
    · intro other member
      rcases List.mem_append.mp member with before | last
      · exact sound.met_reached other before
      · exact List.mem_singleton.mp last ▸ reached
    · intro other member
      rcases List.mem_append.mp member with below | waiting
      · exact reached.next ⟨names, references, below⟩
      · exact sound.stack_reached other (List.mem_cons_of_mem _ waiting)
    · exact fun other member => stays (sound.roots_seen other member)
    · intro other member
      rcases List.mem_append.mp member with before | last
      · exact sound.met_readable other before
      · exact ⟨names, List.mem_singleton.mp last ▸ references⟩
    · intro other member next refers
      rcases List.mem_append.mp member with before | last
      · exact stays (sound.references_seen other before next refers)
      · obtain ⟨_, read, inside⟩ := List.mem_singleton.mp last ▸ refers
        cases references.symm.trans read
        exact Or.inr (List.mem_append_left _ inside)

theorem Turns.isSound {count : Nat} {l m : Loop} (turns : Turns table count l m)
    (sound : l.IsSound table roots) : m.IsSound table roots := by
  induction turns with
  | none => exact sound
  | more first _ ih => exact ih (first.isSound sound)

/-- With nothing left on the stack, the functions met are all that can be reached. -/
theorem Loop.IsSound.mem_iff {met : List Text} (sound : Loop.IsSound table roots ⟨met, []⟩)
    (name : Text) : name ∈ met ↔ table.Reachable roots name := by
  refine ⟨sound.met_reached name, ?_⟩
  rintro ⟨root, member, path⟩
  induction path with
  | refl => exact (sound.roots_seen root member).resolve_right List.not_mem_nil
  | tail _ refers ih => exact (sound.references_seen _ ih _ refers).resolve_right List.not_mem_nil

end

theorem walk_nil_iff {met after : List Text} : Walk table met [] after ↔ after = met := by
  constructor
  · rintro ⟨⟩
    rfl
  · rintro rfl
    exact .done _

theorem walk_cons_of_known {met rest after : List Text} {name : Text} (known : name ∈ met) :
    Walk table met (name :: rest) after ↔ Walk table met rest after := by
  constructor
  · rintro (_ | ⟨-, beside⟩ | ⟨fresh, -, -, -⟩)
    · exact beside
    · exact absurd known fresh
  · exact .again known

theorem walk_cons_of_fresh {met rest after : List Text} {name : Text} (fresh : name ∉ met) :
    Walk table met (name :: rest) after ↔
      ∃ names below, table.dependencies name = .ok names ∧ Walk table (met ++ [name]) names below ∧
        Walk table below rest after := by
  constructor
  · rintro (_ | ⟨known, -⟩ | ⟨-, references, inside, beside⟩)
    · exact absurd known fresh
    · exact ⟨_, _, references, inside, beside⟩
  · rintro ⟨names, below, references, inside, beside⟩
    exact .visit fresh references inside beside

/-- A walk through two lists goes through the first, and on from there through the second. -/
theorem walk_append_iff {met front back after : List Text} :
    Walk table met (front ++ back) after ↔
      ∃ between, Walk table met front between ∧ Walk table between back after := by
  constructor
  · intro walk
    induction front generalizing met with
    | nil => exact ⟨met, .done met, walk⟩
    | cons name front ih =>
      by_cases known : name ∈ met
      · obtain ⟨between, first, second⟩ := ih ((walk_cons_of_known known).mp walk)
        exact ⟨between, .again known first, second⟩
      · obtain ⟨names, below, references, inside, beside⟩ := (walk_cons_of_fresh known).mp walk
        obtain ⟨between, first, second⟩ := ih beside
        exact ⟨between, .visit known references inside first, second⟩
  · rintro ⟨between, first, second⟩
    induction first with
    | done met => exact second
    | again known _ ih => exact .again known (ih second)
    | visit fresh references inside _ _ ih => exact .visit fresh references inside (ih second)

/-- A turn leaves the end of the walk where it is. -/
theorem Turn.walk_iff {l m : Loop} (turn : Turn table l m) (after : List Text) :
    Walk table l.met l.stack after ↔ Walk table m.met m.stack after := by
  cases turn with
  | skip known => exact walk_cons_of_known known
  | expand fresh defined references =>
    rw [walk_cons_of_fresh fresh, walk_append_iff, references]
    simp only [Except.ok.injEq, exists_and_left, exists_eq_left']

theorem Turns.walk_iff {count : Nat} {l m : Loop} (turns : Turns table count l m)
    (after : List Text) : Walk table l.met l.stack after ↔ Walk table m.met m.stack after := by
  induction turns with
  | none => rfl
  | more first _ ih => rw [first.walk_iff after, ih]

theorem Loop.weight_start (table : SymbolTable) (roots : List Text) :
    Loop.weight table ⟨[], roots.reverse⟩ =
      roots.length + (table.map Symbol.referenceCount).sum := by
  simp [Loop.weight, pending, remaining]

/-- The loop ends after a number of turns that the roots and the references in the table bound. If all
functions that can be reached are defined, and the references in their code can be read, it gives each
of them once, in the order of the one walk through the roots from the last to the first. Otherwise it
names one that is not defined, or the program ends at the code of one. -/
theorem closure_exact (table : SymbolTable) (roots : List Text) (referrer : Text) :
    ((∀ count l, Turns table count ⟨[], roots.reverse⟩ l →
        count ≤ roots.length + (table.map Symbol.referenceCount).sum) ∧
      ∃ count final, Turns table count ⟨[], roots.reverse⟩ final ∧
        final.Ends table referrer (table.closure roots referrer)) ∧
    ((∀ name, table.Reachable roots name →
        (table.find? name).isSome ∧ ∃ names, table.dependencies name = .ok names) →
      ∃ order, table.closure roots referrer = .ok order ∧ order.Nodup ∧
        (∀ name, name ∈ order ↔ table.Reachable roots name) ∧
        ∀ other, Walk table [] roots.reverse other ↔ other = order) ∧
    ((∃ name, table.Reachable roots name ∧
        (table.find? name = none ∨ table.dependencies name = .error .overflow)) →
      ∃ name, table.Reachable roots name ∧
        ((table.find? name = none ∧
            table.closure roots referrer = .error (.undefined name referrer)) ∨
          (table.dependencies name = .error .overflow ∧
            table.closure roots referrer = .error .overflow))) := by
  have run := closure_turns table roots referrer
  refine ⟨⟨?_, run⟩, ?_⟩
  · intro count l turns
    have bound := turns.count_add_weight_le
    rw [Loop.weight_start] at bound
    omega
  obtain ⟨count, final, turns, ends⟩ := run
  have sound := turns.isSound (Loop.isSound_start table roots)
  generalize table.closure roots referrer = result at ends
  cases ends with
  | complete met =>
    constructor
    · intro usable
      exact ⟨met, rfl, sound.distinct, sound.mem_iff, fun other =>
        (turns.walk_iff other).trans walk_nil_iff⟩
    · rintro ⟨name, reached, unknown | unreadable⟩
      · have known := sound.met_defined name ((sound.mem_iff name).mpr reached)
        rw [unknown] at known
        cases known
      · obtain ⟨names, read⟩ := sound.met_readable name ((sound.mem_iff name).mpr reached)
        cases unreadable.symm.trans read
  | @undefined met stack name fresh unknown =>
    have reached := sound.stack_reached name List.mem_cons_self
    constructor
    · intro usable
      have known := (usable name reached).1
      rw [unknown] at known
      cases known
    · intro _
      exact ⟨name, reached, Or.inl ⟨unknown, rfl⟩⟩
  | @overflow met stack name fresh unreadable =>
    have reached := sound.stack_reached name List.mem_cons_self
    constructor
    · intro usable
      obtain ⟨names, read⟩ := (usable name reached).2
      cases unreadable.symm.trans read
    · intro _
      exact ⟨name, reached, Or.inr ⟨unreadable, rfl⟩⟩

/-- A function that calls itself with the least signed number taken away: it is all that can be reached,
and it is defined, but there is no list of what it needs. -/
theorem leastDistance_has_no_closure :
    ¬ ∀ (table : SymbolTable) (roots : List Text) (referrer : Text),
      (∀ name, table.Reachable roots name → (table.find? name).isSome) →
        ∃ order, table.closure roots referrer = .ok order := by
  intro always
  have unreadable : dependencies [⟨"Wait", "Mod", "bl <Wait> - -9223372036854775808", none⟩] "Wait" =
      .error .overflow := by decide +kernel
  obtain ⟨order, found⟩ := always [⟨"Wait", "Mod", "bl <Wait> - -9223372036854775808", none⟩] ["Wait"]
    "Mod" (by
      rintro name ⟨root, member, path⟩
      rw [List.mem_singleton.mp member] at path
      rcases path.cases_head with rfl | ⟨next, ⟨names, read, -⟩, -⟩
      · decide +kernel
      · cases unreadable.symm.trans read)
  have ends : closure [⟨"Wait", "Mod", "bl <Wait> - -9223372036854775808", none⟩] ["Wait"] "Mod" =
      .error .overflow := by
    rw [closure, List.reverse_singleton, closureFrom, dif_neg (by decide), unreadable]
    rfl
  cases ends.symm.trans found

/-- Two functions that call each other, and a third that calls one of them twice. -/
example :
    closure [⟨"Even", "Mod", "b <Odd>", none⟩, ⟨"Odd", "Mod", "b <Even>", none⟩,
      ⟨"Main", "Mod", "bl <Odd>\nbl <Odd>\nblr", none⟩] ["Even", "Main"] "Mod" =
      .ok ["Main", "Odd", "Even"] := by cbv

end SymbolTable

end GamePatch
