import GamePatch.Overflow

set_option autoImplicit false

namespace GamePatch

namespace Overflow

variable {n m : Int}

theorem eq_overflow (e : Overflow) : e = .overflow := by
  cases e
  rfl

theorem negate_eq_ok_iff : negate n = .ok m ↔ Text.inInt64 (-n) = true ∧ m = -n := by
  unfold negate
  split <;> rename_i bounded
  · rw [and_iff_right bounded, Except.ok.injEq, eq_comm]
  · exact iff_of_false (fun impossible => nomatch impossible) fun both => bounded both.1

end Overflow

namespace Text

variable {s : Text} {m : Int}

theorem readNegated_eq_some_iff :
    readNegated s = .ok (some m) ↔ ∃ n, readInteger s = some n ∧ Overflow.negate n = .ok m := by
  unfold readNegated
  cases readInteger s with
  | none => exact iff_of_false (fun impossible => nomatch impossible) (by simp)
  | some n => cases negated : Overflow.negate n <;> simp [Except.map, negated]

end Text

end GamePatch
