import GamePatch.Proofs.Bytes
import GamePatch.Proofs.Change.HexInvariants
import GamePatch.Proofs.Change.HexResolution
import GamePatch.Proofs.Configuration.Values
import Mathlib.Data.List.Perm.Basic

set_option autoImplicit false

namespace GamePatch

namespace Configuration

/-- A number that some bytes can write, if they have a sign or if they have none. -/
def InWidth (width : Nat) (n : Int) : Prop :=
  -((Bytes.valueCount width / 2 : Nat) : Int) ≤ n ∧ n < Bytes.valueCount width

theorem InWidth.mono {width width' : Nat} {n : Int} (own : InWidth width n) (le : width ≤ width') :
    InWidth width' n := by
  have more := Bytes.valueCount_mono le
  unfold InWidth at own ⊢
  omega

theorem Width.bytes_le (width : Width) : width.bytes ≤ 4 := by
  cases width <;> decide

theorem Kind.width_le (kind : Kind) : kind.width ≤ 4 := by
  cases kind with
  | int width signed range => exact width.bytes_le
  | mask width allowed => exact width.bytes_le
  | float => exact Nat.le_refl 4

/-- In up to four bytes, a number is packed unless it is negative and there is no sign. -/
theorem packInt_of_inWidth {width : Nat} {n : Int} (pos : 1 ≤ width) (small : width ≤ 4)
    (own : InWidth width n) (signed : Bool) :
    packInt n width signed =
      if 0 ≤ n ∨ signed = true then
        some (Bytes.bigEndian width (n % Bytes.valueCount width).toNat)
      else none := by
  have notEight : width ≠ 8 := by omega
  have fitting : fits width signed n = true ↔ 0 ≤ n ∨ signed = true := by
    unfold InWidth at own
    simp only [fits, if_neg notEight, Bool.and_eq_true, decide_eq_true_eq]
    cases signed with
    | false => simp [own.2]
    | true => simp only [↓reduceIte, or_true, own, and_self]
  have bounds : (1 ≤ width && width ≤ 8) = true := by
    rw [Bool.and_eq_true, decide_eq_true_eq, decide_eq_true_eq]
    omega
  rw [packInt, bounds, Bool.true_and]
  exact if_congr fitting rfl rfl

/-- What is packed in up to four bytes is in their width, and not negative without a sign. -/
theorem inWidth_of_packInt {width : Nat} {n : Int} {signed : Bool} {bytes : Bytes}
    (small : width ≤ 4) (packed : packInt n width signed = some bytes) :
    InWidth width n ∧ (signed = false → 0 ≤ n) := by
  have notEight : width ≠ 8 := by omega
  unfold packInt at packed
  split at packed
  case isFalse => cases packed
  case isTrue fitting =>
    simp only [fits, if_neg notEight, Bool.and_eq_true, decide_eq_true_eq] at fitting
    unfold InWidth
    cases signed with
    | false => simp at fitting ⊢; omega
    | true => simp at fitting ⊢; omega

/-- An allowed number is in the width of its option, and not negative without a sign. -/
theorem inWidth_of_checked {c : Configuration} {n : Int} (checked : c.check c.value = .ok ())
    (value : c.value = .int n) :
    InWidth c.kind.width n ∧ (c.kind.isSigned = false → 0 ≤ n) := by
  obtain ⟨bytes, packed⟩ := pack_of_check checked
  rw [value] at packed
  exact inWidth_of_packInt c.kind.width_le (packed_eq_of_int packed)

end Configuration

namespace Change.Context

open GamePatch.Configuration (toBits64 InWidth packInt)

/-- Numbers may be or-ed in any order. -/
instance : RightCommutative orBits where
  right_comm a b c := by
    change Int.bmod ((toBits64 (orBits a b) ||| toBits64 c : Nat) : Int) 0x10000000000000000 =
      Int.bmod ((toBits64 (orBits a c) ||| toBits64 b : Nat) : Int) 0x10000000000000000
    rw [toBits64_orBits, toBits64_orBits, Nat.or_assoc, Nat.or_comm (toBits64 b), ← Nat.or_assoc]

theorem orBits_comm (a b : Int) : orBits a b = orBits b a := by
  unfold orBits
  rw [Nat.or_comm]

/-- Two numbers without a sign come to a number without a sign. -/
theorem orBits_of_nonneg {width : Nat} {a b : Int} (small : width ≤ 4) (first : InWidth width a)
    (second : InWidth width b) (nonneg : 0 ≤ a) (nonneg' : 0 ≤ b) :
    InWidth width (orBits a b) ∧ 0 ≤ orBits a b := by
  have count : Bytes.valueCount width ≤ 2 ^ 32 := Bytes.valueCount_mono small
  unfold InWidth at first second ⊢
  have left : toBits64 a < 2 ^ (8 * width) := by
    rw [← Bytes.valueCount_eq_pow]
    unfold toBits64
    omega
  have right : toBits64 b < 2 ^ (8 * width) := by
    rw [← Bytes.valueCount_eq_pow]
    unfold toBits64
    omega
  have both := Nat.or_lt_two_pow left right
  rw [← Bytes.valueCount_eq_pow] at both
  have value : orBits a b = (toBits64 a ||| toBits64 b : Nat) := by
    change Int.bmod ((toBits64 a ||| toBits64 b : Nat) : Int) 0x10000000000000000 = _
    exact Int.bmod_eq_of_le_mul_two (by omega) (by omega)
  omega

/-- A negative number stays negative, and gets no lower. -/
theorem orBits_of_neg {width : Nat} {a : Int} (small : width ≤ 4) (first : InWidth width a)
    (negative : a < 0) (b : Int) : InWidth width (orBits a b) ∧ orBits a b < 0 := by
  have count : Bytes.valueCount width ≤ 2 ^ 32 := Bytes.valueCount_mono small
  unfold InWidth at first ⊢
  have bits : (toBits64 a : Int) = a + 2 ^ 64 := by
    unfold toBits64
    omega
  have low : toBits64 a ≤ toBits64 a ||| toBits64 b := Nat.left_le_or
  have high := Nat.or_lt_two_pow (toBits64_lt a) (toBits64_lt b)
  have value : orBits a b = ((toBits64 a ||| toBits64 b : Nat) : Int) - 2 ^ 64 := by
    change Int.bmod ((toBits64 a ||| toBits64 b : Nat) : Int) 0x10000000000000000 = _
    rw [Int.bmod_eq_emod, if_pos (by omega)]
    omega
  omega

/-- What two numbers come to is in their width, and negative exactly if one of them is. -/
theorem orBits_inWidth {width : Nat} {a b : Int} (small : width ≤ 4) (first : InWidth width a)
    (second : InWidth width b) :
    InWidth width (orBits a b) ∧ (orBits a b < 0 ↔ a < 0 ∨ b < 0) := by
  by_cases left : a < 0
  · have result := orBits_of_neg small first left b
    exact ⟨result.1, iff_of_true result.2 (Or.inl left)⟩
  by_cases right : b < 0
  · have result := orBits_of_neg small second right a
    rw [orBits_comm a b]
    exact ⟨result.1, iff_of_true result.2 (Or.inr right)⟩
  have result := orBits_of_nonneg small first second (not_lt.mp left) (not_lt.mp right)
  exact ⟨result.1, iff_of_false (not_lt.mpr result.2) (by simp [left, right])⟩

/-- What some numbers come to is in their width, and negative exactly if one of them is. -/
theorem foldl_orBits_inWidth {width : Nat} (small : width ≤ 4) {values : List Int} {start : Int}
    (first : InWidth width start) (all : ∀ n ∈ values, InWidth width n) :
    InWidth width (values.foldl orBits start) ∧
      (values.foldl orBits start < 0 ↔ start < 0 ∨ ∃ n ∈ values, n < 0) := by
  induction values generalizing start with
  | nil => simpa using first
  | cons n values ih =>
    rw [List.forall_mem_cons] at all
    obtain ⟨step, negative⟩ := orBits_inWidth small first all.1
    obtain ⟨own, sign⟩ := ih step all.2
    rw [List.foldl_cons, sign, negative, List.exists_mem_cons_iff, or_assoc]
    exact ⟨own, Iff.rfl⟩

/-- Options come to the same in any order. -/
theorem combined?_perm {options options' : List Configuration} (perm : options.Perm options') :
    combined? options = combined? options' := by
  have half {a b : List Configuration} (perm : a.Perm b) {n : Int} (found : combined? a = some n) :
      combined? b = some n := by
    obtain ⟨values, numbers, rfl⟩ := combined?_eq_some_iff.mp found
    obtain ⟨values', numbers', moved⟩ := List.perm_comp_forall₂ perm.symm numbers
    exact combined?_eq_some_iff.mpr ⟨values', numbers', moved.foldl_eq 0⟩
  ext n
  exact ⟨half perm, half perm.symm⟩

section

variable {options : List Configuration} {width : Nat}
  (checked : ∀ o ∈ options, o.check o.value = .ok ())
  (widest : (options.map fun o => o.kind.width).max? = some width)

include widest

theorem width_bounds : 1 ≤ width ∧ width ≤ 4 := by
  obtain ⟨o, -, rfl⟩ := List.mem_map.mp (List.max?_mem widest)
  exact ⟨o.kind.width_pos, o.kind.width_le⟩

include checked

theorem numbers_inWidth {values : List Int} (numbers : HasNumbers options values) :
    ∀ n ∈ values, InWidth width n := by
  have bounds := (List.max?_eq_some_iff.mp widest).2
  rw [List.forall_mem_map] at bounds
  intro n member
  obtain ⟨o, inside, value⟩ := exists_left_of_forall₂ numbers member
  exact (Configuration.inWidth_of_checked (checked o inside) value).1.mono (bounds o inside)

/-- What allowed values come to is in the width of the widest option, and negative exactly if one of
them is. -/
theorem combined?_inWidth {n : Int} (found : combined? options = some n) :
    InWidth width n ∧ (n < 0 ↔ ∃ o ∈ options, ∃ n, o.value = .int n ∧ n < 0) := by
  obtain ⟨values, numbers, rfl⟩ := combined?_eq_some_iff.mp found
  have zero : InWidth width 0 := by
    unfold InWidth
    rw [Bytes.valueCount_eq_pow]
    have := Nat.two_pow_pos (8 * width)
    omega
  obtain ⟨own, sign⟩ := foldl_orBits_inWidth (width_bounds widest).2 zero
    (numbers_inWidth checked widest numbers)
  refine ⟨own, sign.trans ?_⟩
  rw [or_iff_right (by decide)]
  constructor
  · rintro ⟨n, member, negative⟩
    obtain ⟨o, inside, value⟩ := exists_left_of_forall₂ numbers member
    exact ⟨o, inside, n, value, negative⟩
  · rintro ⟨o, inside, n, value, negative⟩
    obtain ⟨n', member, value'⟩ := exists_right_of_forall₂ numbers inside
    obtain rfl : n = n' := Configuration.Value.int.inj (value.symm.trans value')
    exact ⟨n, member, negative⟩

/-- A single option has bytes in its own width. -/
theorem packOptions?_single {o : Configuration} (single : options = [o]) :
    ∃ bytes, packOptions? options width = some bytes := by
  subst single
  obtain rfl : o.kind.width = width := Option.some.inj widest
  exact Configuration.pack_of_check (checked o List.mem_cons_self)

/-- A group has bytes if it comes to a number that is not negative, or if its first option has a
sign. -/
theorem packOptions?_group {first second : Configuration} {rest : List Configuration}
    (group : options = first :: second :: rest) :
    packOptions? options width = (combined? options).bind fun n =>
      if 0 ≤ n ∨ first.kind.isSigned = true then
        some (Bytes.bigEndian width (n % Bytes.valueCount width).toNat)
      else none := by
  obtain ⟨pos, small⟩ := width_bounds widest
  have unfolded : packOptions? options width =
      (combined? options).bind fun n => packInt n width first.kind.isSigned := by
    rw [group]
    rfl
  rw [unfolded]
  cases found : combined? options with
  | none => rfl
  | some n =>
    have own := (combined?_inWidth checked widest found).1
    exact Configuration.packInt_of_inWidth pos small own _

end

/-- What some names are packed to, if there are options with all of them. -/
theorem toOption_optionBytes {c : Context} {names : List Text} {group : List Configuration}
    (found : List.Forall₂ (fun name o => Configuration.find? c.options name = some o) names group)
    (nonempty : group ≠ []) (width : Nat) :
    (c.optionBytes names width).toOption = packOptions? group width := by
  have each : names.mapM c.option = .ok group :=
    Fallible.mapM_eq_ok_iff.mpr (found.imp fun _ _ known => by rw [Context.option, known])
  have notEmpty : group.isEmpty = false := List.isEmpty_eq_false_iff.mpr nonempty
  rw [optionBytes, each]
  simp only [bind, Except.bind, notEmpty, Bool.false_eq_true, ↓reduceIte]
  cases packOptions? group width <;> rfl

end Change.Context

end GamePatch
