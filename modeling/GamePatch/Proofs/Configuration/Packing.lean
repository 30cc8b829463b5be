import GamePatch.Configuration.Kind
import GamePatch.Proofs.Bytes
import Mathlib.Algebra.Order.Ring.Int
import Mathlib.Data.Int.ModEq

set_option autoImplicit false

namespace GamePatch.Configuration

/-- The numbers that a width is open to. Signed numbers may have their unsigned spelling as well, and
eight bytes take every 64-bit number. -/
def IsPackable (width : Nat) (signed : Bool) (n : Int) : Prop :=
  if width = 8 then -2 ^ 63 ≤ n ∧ n ≤ 2 ^ 63 - 1
  else (if signed then -2 ^ (8 * width - 1) else 0) ≤ n ∧ n ≤ 2 ^ (8 * width) - 1

theorem natCast_valueCount (width : Nat) : (Bytes.valueCount width : Int) = 2 ^ (8 * width) := by
  rw [Bytes.valueCount_eq_pow, Nat.cast_pow]
  rfl

theorem natCast_half_valueCount {width : Nat} (pos : 1 ≤ width) :
    ((Bytes.valueCount width / 2 : Nat) : Int) = 2 ^ (8 * width - 1) := by
  have halves : 2 ^ (8 * width) = 2 ^ (8 * width - 1) * 2 := by
    rw [← Nat.pow_succ]
    congr 1
    omega
  rw [Bytes.valueCount_eq_pow, halves, Nat.mul_div_cancel _ (by decide), Nat.cast_pow]
  rfl

theorem fits_iff {width : Nat} (pos : 1 ≤ width) (signed : Bool) (n : Int) :
    fits width signed n = true ↔ IsPackable width signed n := by
  unfold fits IsPackable
  split
  · simp only [Text.inInt64, Bool.and_eq_true, decide_eq_true_eq]
    omega
  · simp only [natCast_valueCount, natCast_half_valueCount pos, Bool.and_eq_true, decide_eq_true_eq,
      Int.le_sub_one_iff]

theorem possible_iff {width : Nat} {signed : Bool} {n : Int} :
    (1 ≤ width && width ≤ 8 && fits width signed n) = true ↔
      1 ≤ width ∧ width ≤ 8 ∧ IsPackable width signed n := by
  simp only [Bool.and_eq_true, decide_eq_true_eq, and_assoc]
  exact and_congr_right fun pos => and_congr_right fun _ => fits_iff pos signed n

theorem isSome_packInt_iff {width : Nat} {signed : Bool} {n : Int} :
    (packInt n width signed).isSome = true ↔
      1 ≤ width ∧ width ≤ 8 ∧ IsPackable width signed n := by
  rw [← possible_iff, packInt, Option.isSome_ite]

theorem toNat_bigEndian_residue (width : Nat) (n : Int) :
    (Bytes.toNat (Bytes.bigEndian width (n % Bytes.valueCount width).toNat) : Int) =
      n % 2 ^ (8 * width) := by
  have positive : (0 : Int) < 2 ^ (8 * width) := pow_pos (by decide) _
  have nonneg := Int.emod_nonneg n positive.ne'
  have below := Int.emod_lt_of_pos n positive
  rw [Bytes.toNat_bigEndian, Bytes.pow_byte, natCast_valueCount, Nat.mod_eq_of_lt,
    Int.toNat_of_nonneg nonneg]
  rw [Int.toNat_lt nonneg, Nat.cast_pow]
  exact below

/-- The bytes of a number are as many as the width has, and write its residue. -/
theorem packInt_eq_some_iff {width : Nat} {signed : Bool} {n : Int} {bytes : Bytes} :
    packInt n width signed = some bytes ↔
      (1 ≤ width ∧ width ≤ 8 ∧ IsPackable width signed n) ∧
        bytes.length = width ∧ (Bytes.toNat bytes : Int) = n % 2 ^ (8 * width) := by
  have residue := toNat_bigEndian_residue width n
  rw [← possible_iff, packInt, Option.ite_none_right_eq_some, Option.some_inj]
  apply and_congr_right
  intro
  constructor
  · rintro rfl
    exact ⟨Bytes.length_bigEndian width _, residue⟩
  · intro own
    apply Bytes.eq_of_toNat
    · rw [Bytes.length_bigEndian, own.1]
    · rw [← Int.natCast_inj, residue, own.2]

/-- A wider place is open to more numbers. -/
theorem IsPackable.mono {width wider : Nat} {signed : Bool} {n : Int}
    (own : IsPackable width signed n) (pos : 1 ≤ width) (le : width ≤ wider) (small : wider ≤ 8) :
    IsPackable wider signed n := by
  have more : (2 : Int) ^ (8 * width) ≤ 2 ^ (8 * wider) :=
    pow_le_pow_right₀ (by decide) (by omega)
  have moreHalves : (2 : Int) ^ (8 * width - 1) ≤ 2 ^ (8 * wider - 1) :=
    pow_le_pow_right₀ (by decide) (by omega)
  unfold IsPackable at own ⊢
  by_cases full : width = 8
  · rw [show wider = 8 by omega]
    rwa [full] at own
  · rw [if_neg full] at own
    by_cases widest : wider = 8
    · have seven : (2 : Int) ^ (8 * width) ≤ 2 ^ 56 := pow_le_pow_right₀ (by decide) (by omega)
      have sevenHalves : (2 : Int) ^ (8 * width - 1) ≤ 2 ^ 55 :=
        pow_le_pow_right₀ (by decide) (by omega)
      rw [if_pos widest]
      cases signed with
      | false => simp only [Bool.false_eq_true, ↓reduceIte] at own; omega
      | true => simp only [↓reduceIte] at own; omega
    · rw [if_neg widest]
      cases signed with
      | false => simp only [Bool.false_eq_true, ↓reduceIte] at own ⊢; omega
      | true => simp only [↓reduceIte] at own ⊢; omega

/-- What can be packed is no further below zero than there are numbers of the width. -/
theorem IsPackable.residue_of_neg {width : Nat} {signed : Bool} {n : Int}
    (own : IsPackable width signed n) (negative : n < 0) :
    n % 2 ^ (8 * width) = n + 2 ^ (8 * width) := by
  have least : -2 ^ (8 * width) ≤ n := by
    unfold IsPackable at own
    by_cases full : width = 8
    · rw [if_pos full] at own
      rw [full]
      omega
    · have half : (2 : Int) ^ (8 * width - 1) ≤ 2 ^ (8 * width) :=
        pow_le_pow_right₀ (by decide) (by omega)
      rw [if_neg full] at own
      split at own <;> omega
  rw [← Int.add_emod_right, Int.emod_eq_of_lt (by omega) (by omega)]

theorem IsPackable.residue_of_nonneg {width : Nat} {signed : Bool} {n : Int}
    (own : IsPackable width signed n) (nonneg : 0 ≤ n) : n % 2 ^ (8 * width) = n := by
  apply Int.emod_eq_of_lt nonneg
  unfold IsPackable at own
  by_cases full : width = 8
  · rw [if_pos full] at own
    rw [full]
    omega
  · rw [if_neg full] at own
    omega

/-- Numbers without a sign have residues of their own. -/
theorem IsPackable.eq_of_residue {width : Nat} {m n : Int} (first : IsPackable width false m)
    (second : IsPackable width false n) (same : m % 2 ^ (8 * width) = n % 2 ^ (8 * width)) :
    m = n := by
  by_cases full : width = 8
  · subst full
    simp only [IsPackable, ↓reduceIte] at first second
    omega
  · have nonneg {k : Int} (own : IsPackable width false k) : 0 ≤ k := by
      simp only [IsPackable, if_neg full] at own
      exact own.1
    rwa [first.residue_of_nonneg (nonneg first), second.residue_of_nonneg (nonneg second)] at same

/-- The byte that a number has in front, however wide it is packed. -/
def leadByte (n : Int) : UInt8 := if n < 0 then 0xFF else 0

theorem packInt_of_le {width wider : Nat} {signed : Bool} {n : Int} {bytes : Bytes}
    (packed : packInt n width signed = some bytes) (le : width ≤ wider) (small : wider ≤ 8) :
    packInt n wider signed = some (List.replicate (wider - width) (leadByte n) ++ bytes) := by
  rw [packInt_eq_some_iff] at packed ⊢
  obtain ⟨⟨pos, -, own⟩, length, value⟩ := packed
  have wide := own.mono pos le small
  refine ⟨⟨by omega, small, wide⟩, ?_, ?_⟩
  · rw [List.length_append, List.length_replicate, length]
    omega
  · rw [Bytes.toNat_append, length, Nat.cast_add, value]
    unfold leadByte
    split
    case isTrue negative =>
      have ones := Bytes.toNat_replicate_ones (wider - width)
      have powers : 256 ^ (wider - width) * 256 ^ width = 2 ^ (8 * wider) := by
        rw [← Nat.pow_add, Nat.sub_add_cancel le, Bytes.pow_byte]
      -- The ones in front are one less than the power that they reach up to.
      have total : Bytes.toNat (List.replicate (wider - width) 0xFF) * 256 ^ width +
          2 ^ (8 * width) = 2 ^ (8 * wider) := by
        rw [← Bytes.pow_byte width, ← powers, ← ones, Nat.add_mul, Nat.one_mul]
      have total' := congrArg (Nat.cast : Nat → Int) total
      push_cast at total' ⊢
      rw [own.residue_of_neg negative, wide.residue_of_neg negative]
      omega
    case isFalse nonneg =>
      rw [Bytes.toNat_replicate_zero, own.residue_of_nonneg (by omega),
        wide.residue_of_nonneg (by omega), Nat.zero_mul]
      exact Int.zero_add n

/-- A number is packed exactly if the width is open to it. Its bytes are congruent to it, wider bytes
only have more in front, and different numbers without a sign have different bytes. -/
theorem packInt_exact (signed : Bool) (width : Nat) (n : Int) :
    ((packInt n width signed).isSome = true ↔
        1 ≤ width ∧ width ≤ 8 ∧ IsPackable width signed n) ∧
      (∀ bytes, packInt n width signed = some bytes →
        bytes.length = width ∧ (Bytes.toNat bytes : Int) ≡ n [ZMOD 2 ^ (8 * width)] ∧
          ∀ wider, width ≤ wider → wider ≤ 8 →
            packInt n wider signed =
              some (List.replicate (wider - width) (leadByte n) ++ bytes)) ∧
      ∀ m width' bytes, packInt n width false = some bytes → packInt m width' false = some bytes →
        n = m ∧ width = width' := by
  refine ⟨isSome_packInt_iff, ?_, ?_⟩
  · intro bytes packed
    obtain ⟨-, length, value⟩ := packInt_eq_some_iff.mp packed
    refine ⟨length, ?_, fun wider => packInt_of_le packed⟩
    rw [Int.ModEq, value, Int.emod_emod]
  · intro m width' bytes first second
    obtain ⟨⟨-, -, own⟩, length, value⟩ := packInt_eq_some_iff.mp first
    obtain ⟨⟨-, -, own'⟩, length', value'⟩ := packInt_eq_some_iff.mp second
    obtain rfl : width = width' := length.symm.trans length'
    exact ⟨own.eq_of_residue own' (value.symm.trans value'), rfl⟩

/-- The unsigned spelling of -2 in one byte is packed like -2, but it has zeros in front of it. -/
theorem minusTwo_packed :
    (packInt (-2) 1 true = some [0xFE] ∧ packInt 254 1 true = some [0xFE]) ∧
      packInt (-2) 3 true = some [0xFF, 0xFF, 0xFE] ∧ packInt 254 3 true = some [0, 0, 0xFE] := by
  have negative : packInt (-2) 1 true = some [0xFE] := by decide
  have positive : packInt 254 1 true = some [0xFE] := by decide
  exact ⟨⟨negative, positive⟩, ((packInt_exact true 1 (-2)).2.1 _ negative).2.2 3 (by decide) (by decide),
    ((packInt_exact true 1 254).2.1 _ positive).2.2 3 (by decide) (by decide)⟩

end GamePatch.Configuration
