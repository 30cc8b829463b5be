import GamePatch.Proofs.Change.HexResolution
import GamePatch.Proofs.Configuration.Ranges

set_option autoImplicit false

namespace GamePatch

/-! ### Numbers behind a minus -/

def leastInt64 : Int := -0x8000000000000000

/-- The outcomes of reading a number behind a minus, where `n` is the number in front of which it stands. -/
structure Negates (n : Int) (outcome : Except Overflow (Option Int)) : Prop where
  fits_iff : Text.inInt64 (-n) = true ↔ n ≠ leastInt64
  fits : n ≠ leastInt64 → outcome = .ok (some (-n))
  ends : n = leastInt64 → outcome = .error .overflow

theorem negates_of_readInteger {s : Text} {n : Int} (read : Text.readInteger s = some n) :
    Negates n ((Overflow.negate n).map some) := by
  have bounds := Configuration.inInt64_of_readInteger read
  have exactly : Text.inInt64 (-n) = true ↔ n ≠ leastInt64 := by
    simp only [Text.inInt64, Bool.and_eq_true, decide_eq_true_eq, leastInt64]
    omega
  refine ⟨exactly, fun other => ?_, fun least => ?_⟩
  · rw [Overflow.negate, if_pos (exactly.mpr other)]
    rfl
  · rw [Overflow.negate, if_neg fun inside => exactly.mp inside least]
    rfl

namespace Line.SpecialBranch

theorem readSigned_minus {s digits : Text} {n : Int} (minus : Text.removeBlanks s = '-' :: digits)
    (read : Text.readInteger digits = some n) : readSigned s = (Overflow.negate n).map some := by
  unfold readSigned
  rw [minus]
  simp only [Text.readNegated, read]

theorem bounds_of_readSigned {s : Text} {n : Int} (read : readSigned s = .ok (some n)) :
    -0x8000000000000000 ≤ n ∧ n < 0x8000000000000000 := by
  unfold readSigned at read
  split at read
  case h_1 =>
    obtain ⟨m, -, negated⟩ := Text.readNegated_eq_some_iff.mp read
    obtain ⟨inside, rfl⟩ := Overflow.negate_eq_ok_iff.mp negated
    simpa only [Text.inInt64, Bool.and_eq_true, decide_eq_true_eq] using inside
  case h_2 => exact Configuration.inInt64_of_readInteger (Except.ok.inj read)
  case h_3 => exact Configuration.inInt64_of_readInteger (Except.ok.inj read)

theorem bounds_of_readAdjustment {s : Text} {n : Int} (read : readAdjustment s = .ok (some n)) :
    -0x8000000000000000 ≤ n ∧ n < 0x8000000000000000 := by
  unfold readAdjustment at read
  split at read
  case h_1 =>
    cases read
    decide
  case h_2 => exact bounds_of_readSigned read
  case h_3 => exact bounds_of_readSigned read
  case h_4 => cases read

theorem adjustment_bounds {line : Text} {branch : SpecialBranch}
    (parsed : parse line = .ok (some branch)) :
    -0x8000000000000000 ≤ branch.adjustment ∧ branch.adjustment < 0x8000000000000000 := by
  unfold parse at parsed
  split at parsed
  · cases parsed
  split at parsed
  · cases parsed
  split at parsed
  · cases parsed
  obtain ⟨adjustment, read, made⟩ := Fallible.map_eq_ok_iff.mp parsed
  obtain ⟨n, rfl, rfl⟩ := Option.map_eq_some_iff.mp made
  exact bounds_of_readAdjustment read

end Line.SpecialBranch

theorem Configuration.readInt_minus {s digits : Text} {n : Int} (minus : Text.trim s = '-' :: digits)
    (read : Text.readInteger (Text.trim digits) = some n) :
    Configuration.readInt s = (Overflow.negate n).map some := by
  unfold Configuration.readInt
  rw [minus]
  simp only [Text.readNegated, read]

/-! ### Words -/

namespace Change

namespace Context

/-- The exact numbers on the way to the distance of a branch are signed numbers of 64 bits. -/
def StaysInInt64 (c : Context) (branch : Line.SpecialBranch) (target : Address) (offset : Nat) : Prop :=
  Text.inInt64 (target.toNat + branch.adjustment) = true ∧
    (branch.mnemonic.isAbsolute = false →
      Text.inInt64 (c.installAddress.toNat + offset) = true ∧
        Text.inInt64 (target.toNat + branch.adjustment - (c.installAddress.toNat + offset)) = true)

variable {c : Context} {branch : Line.SpecialBranch} {target : Address} {offset : Nat}

theorem checked_of_inInt64 {n : Int} (inside : Text.inInt64 n = true) : checked n = .ok n := by
  rw [checked, if_pos inside]

theorem checked_of_not_inInt64 {n : Int} (outside : Text.inInt64 n = false) :
    checked n = .error (.toolchain (.branch .overflow)) := by
  rw [checked, outside]
  rfl

theorem destination_of_means (means : c.Means branch.target target) :
    c.destination branch = checked (target.toNat + branch.adjustment) := by
  rw [destination, addressOfTarget_eq_ok_iff.mpr means]

theorem inInt64_place (near : offset < 0x100000000) :
    Text.inInt64 (c.installAddress.toNat + offset) = true := by
  have bound := c.installAddress.toNat_lt
  simp only [Text.inInt64, Bool.and_eq_true, decide_eq_true_eq]
  omega

/-- A branch that stays in the 64 bits goes as far as its displacement. -/
theorem distance_of_stays (means : c.Means branch.target target)
    (stays : c.StaysInInt64 branch target offset) :
    c.distance branch offset = .ok (c.displacement branch target offset) := by
  rw [Context.distance, destination_of_means means, checked_of_inInt64 stays.1]
  simp only [displacement]
  cases absolute : branch.mnemonic.isAbsolute with
  | true => simp
  | false =>
    rw [if_neg (by simp), if_neg (by simp)]
    exact checked_of_inInt64 (stays.2 absolute).2

theorem distance_of_not_stays (means : c.Means branch.target target) (near : offset < 0x100000000)
    (leaves : ¬ c.StaysInInt64 branch target offset) :
    c.distance branch offset = .error (.toolchain (.branch .overflow)) := by
  rw [Context.distance, destination_of_means means]
  cases sum : Text.inInt64 (target.toNat + branch.adjustment) with
  | false => rw [checked_of_not_inInt64 sum]
  | true =>
    rw [checked_of_inInt64 sum]
    simp only
    cases absolute : branch.mnemonic.isAbsolute with
    | true => exact absurd ⟨sum, fun relative => absurd (absolute.symm.trans relative) (by decide)⟩ leaves
    | false =>
      rw [if_neg (by simp)]
      apply checked_of_not_inInt64
      by_contra inside
      rw [Bool.not_eq_false] at inside
      exact leaves ⟨sum, fun _ => ⟨inInt64_place near, inside⟩⟩

end Context

/-- Only the far ends are missed: the sum at the top, and the difference at the bottom. -/
theorem staysInInt64_iff {line : Text} {c : Context} {branch : Line.SpecialBranch} {target : Address}
    {offset : Nat} (parsed : Line.SpecialBranch.parse line = .ok (some branch)) (near : offset < 0x100000000) :
    c.StaysInInt64 branch target offset ↔
      target.toNat + branch.adjustment < 0x8000000000000000 ∧
        (branch.mnemonic.isAbsolute = false →
          -0x8000000000000000 ≤
            target.toNat + branch.adjustment - (c.installAddress.toNat + offset)) := by
  have bounds := Line.SpecialBranch.adjustment_bounds parsed
  have place := c.inInt64_place near
  unfold Context.StaysInInt64
  simp only [place, true_and]
  simp only [Text.inInt64, Bool.and_eq_true, decide_eq_true_eq]
  constructor
  · rintro ⟨sum, difference⟩
    exact ⟨sum.2, fun relative => (difference relative).1⟩
  · rintro ⟨sum, difference⟩
    refine ⟨⟨by omega, sum⟩, fun relative => ⟨difference relative, ?_⟩⟩
    omega

/-- The numbers of branches and options that leave the 64 bits: the negation of the least number, the
sum of an address and an adjustment above the greatest one, and a distance below the least one. There
the program ends. A branch whose numbers stay has a word, or is refused for its distance. -/
theorem branch_numbers_stay_iff (c : Context) :
    (∀ s digits n, Text.removeBlanks s = '-' :: digits → Text.readInteger digits = some n →
      Negates n (Line.SpecialBranch.readSigned s)) ∧
    (∀ s digits n, Text.trim s = '-' :: digits → Text.readInteger (Text.trim digits) = some n →
      Negates n (Configuration.readInt s)) ∧
    ∀ line branch, Line.SpecialBranch.parse line = .ok (some branch) →
      ∀ (target : Address) (offset : Nat), c.Means branch.target target → offset < 0x100000000 →
        (c.StaysInInt64 branch target offset ↔
          target.toNat + branch.adjustment < 0x8000000000000000 ∧
            (branch.mnemonic.isAbsolute = false → -0x8000000000000000 ≤
              target.toNat + branch.adjustment - (c.installAddress.toNat + offset))) ∧
        (c.StaysInInt64 branch target offset → (∃ word, c.branchWord branch offset = .ok word) ∨
          ∃ e, c.branchWord branch offset = .error (.toolchain (.branch e)) ∧
            (e = .misaligned (c.displacement branch target offset) ∨
              e = .outOfRange (c.displacement branch target offset))) ∧
        (¬ c.StaysInInt64 branch target offset →
          c.branchWord branch offset = .error (.toolchain (.branch .overflow))) := by
  refine ⟨?_, ?_, ?_⟩
  · intro s digits n minus read
    exact Line.SpecialBranch.readSigned_minus minus read ▸ negates_of_readInteger read
  · intro s digits n minus read
    exact Configuration.readInt_minus minus read ▸ negates_of_readInteger read
  · intro line branch parsed target offset means near
    refine ⟨staysInInt64_iff parsed near, ?_, ?_⟩
    · intro stays
      rw [Context.branchWord, Context.distance_of_stays means stays]
      simp only
      cases encoded : Branch.encode branch.mnemonic (c.displacement branch target offset) with
      | ok word => exact Or.inl ⟨word, rfl⟩
      | error e => exact Or.inr ⟨e, rfl, Branch.error_of_encode encoded⟩
    · intro leaves
      rw [Context.branchWord, Context.distance_of_not_stays means near leaves]

/-- Code that is placed where a branch of its own goes to, and nothing else. -/
def alone : Context := { installAddress := 0x80001000, symbols := [], options := [], includePaths := [] }

/-- The sum is the greatest number of all, and the branch is refused for its distance. -/
theorem greatestSum_refused :
    ∃ branch, Line.SpecialBranch.parse "ba 0x80001000 + 9223372034707288063" = .ok (some branch) ∧
      alone.Means branch.target 0x80001000 ∧ alone.StaysInInt64 branch 0x80001000 0 ∧
      ((∃ word, alone.branchWord branch 0 = .ok word) ∨
        ∃ e, alone.branchWord branch 0 = .error (.toolchain (.branch e)) ∧
          (e = .misaligned 0x7FFFFFFFFFFFFFFF ∨ e = .outOfRange 0x7FFFFFFFFFFFFFFF)) := by
  have parsed : Line.SpecialBranch.parse "ba 0x80001000 + 9223372034707288063" =
      .ok (some ⟨.ba, .address 0x80001000, 9223372034707288063⟩) := by decide +kernel
  obtain ⟨-, -, each⟩ := branch_numbers_stay_iff alone
  obtain ⟨exactly, answers, -⟩ := each _ _ parsed 0x80001000 0 rfl (by decide)
  have stays := exactly.mpr ⟨by decide, fun relative => absurd relative (by decide)⟩
  exact ⟨_, parsed, rfl, stays, answers stays⟩

/-- An adjustment near the greatest number. The code stands at the target, so the distance is the
adjustment itself, and out of range. The sum with the target has left the 64 bits before. -/
theorem farBranch_overflows :
    ∃ branch, Line.SpecialBranch.parse "b 0x80001000 + 9223372036854775804" = .ok (some branch) ∧
      alone.Means branch.target 0x80001000 ∧ ¬ alone.StaysInInt64 branch 0x80001000 0 ∧
      alone.branchWord branch 0 = .error (.toolchain (.branch .overflow)) ∧
      Branch.encode branch.mnemonic (alone.displacement branch 0x80001000 0) =
        .error (.outOfRange 9223372036854775804) := by
  refine ⟨⟨.b, .address 0x80001000, 9223372036854775804⟩, by decide +kernel, rfl, ?_, by decide, by decide⟩
  intro stays
  exact absurd stays.1 (by decide)

end Change

end GamePatch
