import GamePatch.Text.Basic

set_option autoImplicit false

namespace GamePatch.Text

/-- The characters of a text at positions that are not covered. The first one is at `start`. -/
def uncovered (covered : Nat → Bool) (start : Nat) (s : Text) : Text :=
  ((s.zipIdx start).filter fun x => !covered x.2).map Prod.fst

variable {covered : Nat → Bool}

@[simp] theorem uncovered_nil (start : Nat) : uncovered covered start [] = [] := rfl

theorem uncovered_append (start : Nat) (s t : Text) :
    uncovered covered start (s ++ t) =
      uncovered covered start s ++ uncovered covered (start + s.length) t := by
  rw [uncovered, List.zipIdx_append, List.filter_append, List.map_append, uncovered, uncovered]

/-- A text may be taken apart at any place, also behind its end. -/
theorem uncovered_split (count start : Nat) (s : Text) :
    uncovered covered start s = uncovered covered start (s.take count) ++
      uncovered covered (start + count) (s.drop count) := by
  by_cases inside : count ≤ s.length
  · have parts : uncovered covered start (s.take count ++ s.drop count) = _ :=
      uncovered_append start _ _
    rwa [List.take_append_drop, List.length_take_of_le inside] at parts
  · rw [List.take_of_length_le (by omega), List.drop_eq_nil_of_le (by omega), uncovered_nil,
      List.append_nil]

theorem uncovered_congr {covered' : Nat → Bool} {start : Nat} {s : Text}
    (same : ∀ k, start ≤ k → k < start + s.length → covered k = covered' k) :
    uncovered covered start s = uncovered covered' start s := by
  rw [uncovered, uncovered]
  congr 1
  apply List.filter_congr
  rintro ⟨c, k⟩ member
  have place := List.mem_zipIdx member
  rw [same k place.1 (by omega)]

/-- What is kept of a text does not depend on whether other characters are covered. -/
theorem filter_uncovered_congr {covered' : Nat → Bool} {p : Char → Bool} {start : Nat} {s : Text}
    (same : ∀ k c, s[k]? = some c → p c = true → covered (start + k) = covered' (start + k)) :
    (uncovered covered start s).filter p = (uncovered covered' start s).filter p := by
  rw [uncovered, uncovered, List.filter_map, List.filter_map, List.filter_filter,
    List.filter_filter]
  congr 1
  apply List.filter_congr
  rintro ⟨c, place⟩ member
  obtain ⟨low, here⟩ := List.mk_mem_zipIdx_iff_le_and_getElem?_sub.mp member
  cases kept : p c with
  | false => simp [kept]
  | true =>
    have agree := same (place - start) c here kept
    rw [Nat.add_sub_cancel' low] at agree
    simp [agree]

/-- What is left stands at a position that is not covered. -/
theorem mem_uncovered {start : Nat} {s : Text} {c : Char} :
    c ∈ uncovered covered start s ↔ ∃ k, covered (start + k) = false ∧ s[k]? = some c := by
  rw [uncovered, List.mem_map]
  constructor
  · rintro ⟨⟨c', place⟩, member, rfl⟩
    obtain ⟨found, free⟩ := List.mem_filter.mp member
    obtain ⟨low, here⟩ := List.mk_mem_zipIdx_iff_le_and_getElem?_sub.mp found
    refine ⟨place - start, ?_, here⟩
    rw [Nat.add_sub_cancel' low]
    simpa using free
  · rintro ⟨k, free, here⟩
    refine ⟨(c, start + k), List.mem_filter.mpr ⟨?_, by simpa using free⟩, rfl⟩
    exact List.mk_mem_zipIdx_iff_le_and_getElem?_sub.mpr ⟨Nat.le_add_right start k, by simpa using here⟩

/-- Nothing is taken out where nothing is covered. -/
theorem uncovered_of_free {start : Nat} {s : Text}
    (free : ∀ k, start ≤ k → k < start + s.length → covered k = false) :
    uncovered covered start s = s := by
  rw [uncovered, List.filter_eq_self.mpr, List.zipIdx_map_fst]
  rintro ⟨c, k⟩ member
  have place := List.mem_zipIdx member
  simp [free k place.1 (by omega)]

/-- Nothing is left where all is covered. -/
theorem uncovered_of_full {start : Nat} {s : Text}
    (full : ∀ k, start ≤ k → k < start + s.length → covered k = true) :
    uncovered covered start s = [] := by
  rw [uncovered, List.filter_eq_nil_iff.mpr, List.map_nil]
  rintro ⟨c, k⟩ member
  have place := List.mem_zipIdx member
  simp [full k place.1 (by omega)]

end GamePatch.Text
