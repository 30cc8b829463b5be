import GamePatch.Change.Resolve
import GamePatch.Configuration.Declaration
import GamePatch.Proofs.Configuration.Packing
import Mathlib.Data.Int.Bitwise
import Mathlib.Data.List.Forall2

set_option autoImplicit false

namespace GamePatch

namespace Configuration

/-- The 64 bits of a number are its own bits. -/
theorem testBit_toBits64 (n : Int) {k : Nat} (low : k < 64) :
    (toBits64 n).testBit k = n.testBit k := by
  cases n with
  | ofNat m =>
    have bits : toBits64 (m : Int) = m % 2 ^ 64 := by
      unfold toBits64
      omega
    change (toBits64 (m : Int)).testBit k = m.testBit k
    rw [bits, Nat.testBit_mod_two_pow, decide_eq_true low, Bool.true_and]
  | negSucc m =>
    have bits : toBits64 (Int.negSucc m) = 2 ^ 64 - (m % 2 ^ 64 + 1) := by
      unfold toBits64
      omega
    rw [bits, Nat.testBit_two_pow_sub_succ (Nat.mod_lt m (Nat.two_pow_pos 64)),
      Nat.testBit_mod_two_pow, decide_eq_true low, Bool.true_and, Bool.true_and]
    rfl

theorem packed_eq_of_int {kind : Kind} {n : Int} {width : Nat} {bytes : Bytes}
    (packed : kind.pack (.int n) width = some bytes) : packInt n width kind.isSigned = some bytes := by
  unfold Kind.pack at packed
  split at packed
  case h_1 value _ same => cases same
  case h_2 => cases packed
  case h_3 value n' _ same =>
    cases same
    exact packed
  case h_4 value _ _ same => cases same

theorem packed_eq_of_float {kind : Kind} {pattern : UInt32} {width : Nat} {bytes : Bytes}
    (packed : kind.pack (.float pattern) width = some bytes) :
    width = 4 ∧ bytes = Bytes.ofWord pattern := by
  unfold Kind.pack at packed
  split at packed
  case h_1 value pattern' same =>
    cases same
    obtain ⟨whole, same⟩ := Option.ite_none_right_eq_some.mp packed
    exact ⟨whole, (Option.some.inj same).symm⟩
  case h_2 value _ same => cases same
  case h_3 value _ _ same => cases same
  case h_4 => cases packed

end Configuration

namespace Change.Context

open GamePatch.Configuration (toBits64 IsPackable)

theorem toBits64_lt (n : Int) : toBits64 n < 2 ^ 64 := by
  unfold toBits64
  omega

theorem toBits64_bmod {bits : Nat} (small : bits < 2 ^ 64) :
    toBits64 (Int.bmod bits 0x10000000000000000) = bits := by
  have same : Int.bmod bits 0x10000000000000000 % 0x10000000000000000 =
      (bits : Int) % 0x10000000000000000 := Int.bmod_emod
  rw [toBits64, same]
  omega

theorem toBits64_orBits (a b : Int) : toBits64 (orBits a b) = toBits64 a ||| toBits64 b :=
  toBits64_bmod (Nat.or_lt_two_pow (toBits64_lt a) (toBits64_lt b))

/-- Of 64 bits, the number has those that one of the values has. -/
def IsUnion (values : List Int) (n : Int) : Prop :=
  ∀ k < 64, n.testBit k = values.any fun value => value.testBit k

theorem testBit_foldl_orBits {values : List Int} (start : Int) {k : Nat} (low : k < 64) :
    (values.foldl orBits start).testBit k =
      (start.testBit k || values.any fun value => value.testBit k) := by
  induction values generalizing start with
  | nil => simp
  | cons value values ih =>
    have step : (orBits start value).testBit k = (start.testBit k || value.testBit k) := by
      rw [← Configuration.testBit_toBits64 _ low, toBits64_orBits, Nat.testBit_or,
        Configuration.testBit_toBits64 _ low, Configuration.testBit_toBits64 _ low]
    rw [List.foldl_cons, ih, step, List.any_cons, Bool.or_assoc]

theorem isUnion_foldl_orBits (values : List Int) : IsUnion values (values.foldl orBits 0) := by
  intro k low
  have zero : (0 : Int).testBit k = false := Nat.zero_testBit k
  rw [testBit_foldl_orBits 0 low, zero, Bool.false_or]

def HasNumbers (options : List Configuration) (values : List Int) : Prop :=
  List.Forall₂ (fun (o : Configuration) n => o.value = .int n) options values

theorem exists_hasNumbers {options : List Configuration}
    (all : ∀ o ∈ options, ∃ n, o.value = .int n) : ∃ values, HasNumbers options values := by
  induction options with
  | nil => exact ⟨[], .nil⟩
  | cons o options ih =>
    rw [List.forall_mem_cons] at all
    obtain ⟨⟨n, value⟩, later⟩ := all
    obtain ⟨values, numbers⟩ := ih later
    exact ⟨n :: values, .cons value numbers⟩

theorem combined?_eq_some_iff {options : List Configuration} {n : Int} :
    combined? options = some n ↔ ∃ values, HasNumbers options values ∧ values.foldl orBits 0 = n := by
  have each (values : List Int) :
      (options.mapM fun (o : Configuration) => o.value.int?) = some values ↔
        HasNumbers options values := by
    induction options generalizing values with
    | nil => simp [HasNumbers, eq_comm]
    | cons o options ih =>
      have own (n : Int) : o.value.int? = some n ↔ o.value = .int n := by
        cases o.value <;> simp [Configuration.Value.int?]
      rw [List.mapM_cons, HasNumbers, List.forall₂_cons_left_iff]
      simp only [Option.bind_eq_bind, Option.bind_eq_some_iff, own, ih, Option.pure_def,
        Option.some.injEq, HasNumbers]
      constructor
      · rintro ⟨n, value, rest, numbers, rfl⟩
        exact ⟨n, rest, value, numbers, rfl⟩
      · rintro ⟨n, rest, value, numbers, rfl⟩
        exact ⟨n, value, rest, numbers, rfl⟩
  rw [combined?, Option.map_eq_some_iff]
  simp only [each]

/-- Bytes that stand for the current values of options. They are the pattern of a single float, or
they write the union of whole numbers, which has to be in range for the width and for the sign that
the first option has. -/
def Packs (options : List Configuration) (width : Nat) (bytes : Bytes) : Prop :=
  (∃ o pattern, options = [o] ∧ o.value = .float pattern ∧ width = 4 ∧
    bytes = Bytes.ofWord pattern) ∨
  ∃ first rest values n, options = first :: rest ∧ HasNumbers options values ∧ IsUnion values n ∧
    (1 ≤ width ∧ width ≤ 8 ∧ IsPackable width first.kind.isSigned n) ∧
    bytes.length = width ∧ (Bytes.toNat bytes : Int) = n % 2 ^ (8 * width)

theorem packs_of_packOptions? {options : List Configuration} {width : Nat} {bytes : Bytes}
    (packed : packOptions? options width = some bytes) : Packs options width bytes := by
  unfold packOptions? at packed
  split at packed
  case h_1 => cases packed
  case h_2 o =>
    cases value : o.value with
    | float pattern =>
      rw [value] at packed
      exact Or.inl ⟨o, pattern, rfl, value, Configuration.packed_eq_of_float packed⟩
    | int n =>
      rw [value] at packed
      have written := Configuration.packInt_eq_some_iff.mp (Configuration.packed_eq_of_int packed)
      have own : IsUnion [n] n := fun k _ => by simp
      exact Or.inr ⟨o, [], [n], n, rfl, .cons value .nil, own, written⟩
  case h_3 first rest _ =>
    obtain ⟨n, found, written⟩ := Option.bind_eq_some_iff.mp packed
    obtain ⟨values, numbers, rfl⟩ := combined?_eq_some_iff.mp found
    exact Or.inr ⟨first, rest, values, _, rfl, numbers, isUnion_foldl_orBits values,
      Configuration.packInt_eq_some_iff.mp written⟩

end Change.Context

end GamePatch
