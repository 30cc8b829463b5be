import GamePatch.Proofs.Configuration.Packing
import GamePatch.Proofs.Configuration.Readings
import GamePatch.Proofs.Overflow

set_option autoImplicit false

namespace GamePatch.Configuration

/-! ### Numbers -/

/-- Only a number with a minus is negative. -/
theorem exists_minus_of_readSigned {base : Nat} {s : Text} {n : Int}
    (read : Text.readSigned base s = some n) (negative : n < 0) : ∃ rest, s = '-' :: rest := by
  unfold Text.readSigned at read
  split at read
  case h_1 rest => exact ⟨rest, rfl⟩
  all_goals
    obtain ⟨digits, -, rfl⟩ := Option.map_eq_some_iff.mp read
    exact absurd negative (by simp)

theorem readInt64_eq_some_iff {base : Nat} {s : Text} {n : Int} :
    Text.readInt64 base s = some n ↔ Text.readSigned base s = some n ∧ Text.inInt64 n = true :=
  Option.filter_eq_some_iff

theorem inInt64_of_readInteger {s : Text} {n : Int} (read : Text.readInteger s = some n) :
    -0x8000000000000000 ≤ n ∧ n < 0x8000000000000000 := by
  have inside : Text.inInt64 n = true := by
    unfold Text.readInteger at read
    split at read
    · exact (readInt64_eq_some_iff.mp read).2
    · exact (readInt64_eq_some_iff.mp read).2
  simpa [Text.inInt64] using inside

theorem bounds_of_readInt {s : Text} {n : Int} (read : readInt s = .ok (some n)) :
    -0x8000000000000000 ≤ n ∧ n < 0x8000000000000000 := by
  unfold readInt at read
  split at read
  · obtain ⟨m, -, negated⟩ := Text.readNegated_eq_some_iff.mp read
    obtain ⟨inside, rfl⟩ := Overflow.negate_eq_ok_iff.mp negated
    simpa [Text.inInt64] using inside
  · exact inInt64_of_readInteger (Except.ok.inj read)

/-- The least number is read behind a mark of hexadecimal digits at most. -/
theorem marked_of_readInt {s : Text} (read : readInt s = .ok (some (-0x8000000000000000))) :
    ∃ x rest, x ∈ ['x', 'X'] ∧ Text.trim s = '0' :: x :: '-' :: rest := by
  unfold readInt at read
  split at read
  case h_1 rest =>
    obtain ⟨n, inner, negated⟩ := Text.readNegated_eq_some_iff.mp read
    have same := (Overflow.negate_eq_ok_iff.mp negated).2
    have bound := (inInt64_of_readInteger inner).2
    omega
  case h_2 unsigned =>
    replace read := Except.ok.inj read
    unfold Text.readInteger at read
    split at read
    case h_1 digits marked =>
      obtain ⟨signed, -⟩ := readInt64_eq_some_iff.mp read
      obtain ⟨rest, rfl⟩ := exists_minus_of_readSigned signed (by decide)
      unfold Text.hexMarked? at marked
      split at marked
      · cases marked
        exact ⟨'x', rest, by decide, by assumption⟩
      · cases marked
        exact ⟨'X', rest, by decide, by assumption⟩
      · cases marked
    case h_2 =>
      obtain ⟨signed, -⟩ := readInt64_eq_some_iff.mp read
      obtain ⟨rest, minus⟩ := exists_minus_of_readSigned signed (by decide)
      exact absurd minus (unsigned rest)

/-! ### Ranges -/

theorem eq_of_cutAtDash {passed s left right : Text} (cut : cutAtDash passed s = some (left, right)) :
    passed.reverse ++ s = left ++ '-' :: right := by
  induction s generalizing passed with
  | nil => cases cut
  | cons c s ih =>
    rw [cutAtDash] at cut
    split at cut
    case isTrue dash =>
      cases cut
      rw [Bool.and_eq_true, Bool.and_eq_true, beq_iff_eq] at dash
      rw [dash.1.1]
    case isFalse =>
      have rest := ih cut
      rwa [List.reverse_cons, List.append_assoc, List.singleton_append] at rest

/-- A dash behind a character that is none ends the first number. -/
theorem cutAtDash_at {front : Text} {x : Char} (clean : '-' ∉ front) (solid : Text.isBlank x = false)
    (other : x ≠ '-') (rest : Text) :
    cutAtDash [] (front ++ [x] ++ '-' :: rest) = some (front ++ [x], rest) := by
  have clean' : '-' ∉ front ++ [x] := by
    rw [List.mem_append, List.mem_singleton, not_or]
    exact ⟨clean, fun same => other same.symm⟩
  rw [cutAtDash_append clean', List.append_nil, List.reverse_append, List.reverse_singleton,
    List.singleton_append, cutAtDash, List.dropWhile_cons_of_neg (by simpa using solid)]
  have ends : ('-' == '-' && !(x :: front.reverse).isEmpty &&
      (x :: front.reverse).head? != some '-') = true := by simpa using other
  rw [if_pos ends, List.reverse_cons, List.reverse_reverse]

/-- So the first number has no such dash in it. -/
theorem not_cutAtDash {s front rest right : Text} {x : Char} (clean : '-' ∉ front)
    (solid : Text.isBlank x = false) (other : x ≠ '-') :
    cutAtDash [] s ≠ some (front ++ [x] ++ '-' :: rest, right) := by
  intro cut
  have whole : s = front ++ [x] ++ '-' :: (rest ++ '-' :: right) := by
    simpa using eq_of_cutAtDash cut
  rw [whole, cutAtDash_at clean solid other] at cut
  simp at cut

theorem parts_of_readRange {s : Text} {low high : Int} (read : readRange s = .ok (some (low, high))) :
    ∃ left right, cutAtDash [] (Text.trim s) = some (left, right) ∧ readInt left = .ok (some low) ∧
      readInt right = .ok (some high) := by
  unfold readRange at read
  split at read
  · cases read
  case h_2 left right cut =>
    obtain ⟨first, lowRead, read⟩ := Fallible.bind_eq_ok_iff.mp read
    cases first with
    | none => cases read
    | some l =>
      obtain ⟨second, highRead, made⟩ := Fallible.bind_eq_ok_iff.mp read
      obtain ⟨h, rfl, same⟩ := Option.map_eq_some_iff.mp (Except.ok.inj made)
      cases same
      exact ⟨left, right, cut, lowRead, highRead⟩

/-- The lower bound of a range is above the least number. -/
theorem low_of_readRange {s : Text} {low high : Int} (read : readRange s = .ok (some (low, high))) :
    -0x8000000000000000 < low := by
  obtain ⟨left, right, cut, lowRead, -⟩ := parts_of_readRange read
  apply lt_of_le_of_ne (bounds_of_readInt lowRead).1
  rintro rfl
  obtain ⟨x, rest, mark, marked⟩ := marked_of_readInt lowRead
  have other : Text.isBlank x = false ∧ x ≠ '-' := by
    rw [List.mem_cons, List.mem_singleton] at mark
    rcases mark with rfl | rfl <;> decide
  obtain ⟨back, -, ends⟩ := Text.exists_blank_end (Text.trimStart left)
  have trimmed : Text.trimStart left = Text.trim left ++ back := ends
  have whole : left = (left.takeWhile Text.isBlank ++ ['0']) ++ [x] ++ '-' :: (rest ++ back) := by
    have split : left.takeWhile Text.isBlank ++ Text.trimStart left = left :=
      List.takeWhile_append_dropWhile
    rw [trimmed, marked] at split
    simpa using split.symm
  have clean : '-' ∉ left.takeWhile Text.isBlank ++ ['0'] := by
    rw [List.mem_append, not_or]
    refine ⟨fun dash => ?_, by decide⟩
    exact absurd (List.mem_takeWhile_imp dash) (by decide)
  rw [whole] at cut
  exact not_cutAtDash clean other.1 other.2 cut

theorem high_of_readRange {s : Text} {low high : Int} (read : readRange s = .ok (some (low, high))) :
    high < 0x8000000000000000 := by
  obtain ⟨left, right, -, -, highRead⟩ := parts_of_readRange read
  exact (bounds_of_readInt highRead).2

/-! ### Values that fit -/

/-- A number that fits an option is far within 64 bits. -/
theorem isReadable_of_packed {kind : Kind} {n : Int} {bytes : Bytes}
    (packed : kind.pack (.int n) kind.width = some bytes) : IsReadable n := by
  have narrow (width : Width) (signed : Bool) (packed : packInt n width.bytes signed = some bytes) :
      IsReadable n := by
    obtain ⟨⟨-, -, own⟩, -⟩ := packInt_eq_some_iff.mp packed
    rw [IsReadable]
    cases width <;> cases signed <;> simp [IsPackable, Width.bytes] at own <;> omega
  cases kind with
  | int width signed range => exact narrow width signed packed
  | mask width allowed => exact narrow width false packed
  | float => cases packed

theorem isReadable_of_check {c : Configuration} {n : Int} (checked : c.check (.int n) = .ok ()) :
    IsReadable n := by
  obtain ⟨bytes, packed⟩ := pack_of_check checked
  exact isReadable_of_packed packed

theorem Value.isReadable_of_check {c : Configuration} {v : Value} (whole : c.kind ≠ .float)
    (admits : c.kind.Admits v) (checked : c.check v = .ok ()) : v.IsReadable := by
  cases v with
  | int n => exact Configuration.isReadable_of_check checked
  | float bits => exact absurd admits whole

theorem range_of_check {c : Configuration} {width : Width} {signed : Bool} {low high n : Int}
    (kind : c.kind = .int width signed (some (low, high))) (checked : c.check (.int n) = .ok ()) :
    low ≤ n ∧ n ≤ high := by
  unfold check at checked
  split at checked
  · cases checked
  · rw [kind] at checked
    simp only at checked
    split at checked
    case isTrue => cases checked
    case isFalse inside =>
      rw [Bool.or_eq_true, decide_eq_true_eq, decide_eq_true_eq, not_or] at inside
      omega

/-! ### Declarations -/

theorem range_of_restrict {base : Kind} {restriction : Text} {width : Width} {signed : Bool}
    {low high : Int} (unrestricted : base.unrestricted = base)
    (read : restrict base restriction = .ok (some (.int width signed (some (low, high))))) :
    ∃ s, readRange s = .ok (some (low, high)) := by
  unfold restrict at read
  split at read
  · cases read
    cases unrestricted
  · split at read
    · obtain ⟨allowed, -, impossible⟩ := exists_of_map_eq_some read
      cases impossible
    · obtain ⟨range, found, same⟩ := exists_of_map_eq_some read
      cases same
      exact ⟨_, found⟩
    · cases read

theorem unrestricted_of_ofName? {name : Text} {base : Kind} (known : Kind.ofName? name = some base) :
    base.unrestricted = base := by
  obtain ⟨entry, found, rfl⟩ := Option.map_eq_some_iff.mp known
  have all : ∀ entry ∈ Kind.named, entry.2.unrestricted = entry.2 := by decide
  exact all entry (List.mem_of_find?_eq_some found)

/-- The kind of a declaration is a named one with its restriction. -/
theorem kind_of_parse {line : Text} {c : Configuration} (read : parse line = .ok c) :
    ∃ base restriction, base.unrestricted = base ∧
      restrict base restriction = .ok (some c.kind) := by
  rw [parse] at read
  simp only at read
  split at read
  · cases read
  · split at read
    · cases read
    · split at read
      · cases read
      case h_2 base known =>
        split at read
        · cases read
        · split at read
          · cases read
          case h_2 kind restricted =>
            obtain ⟨done, checked, rfl⟩ := Fallible.map_eq_ok_iff.mp read
            exact ⟨base, _, unrestricted_of_ofName? known, required_eq_ok_iff.mp restricted⟩

/-- A kind of whole numbers. A mask does not have the highest of its 64 bits. -/
def Kind.IsWhole : Kind → Prop
  | .int _ _ _ => True
  | .mask _ (some allowed) => allowed < 0x8000000000000000
  | .mask _ none => True
  | .float => False

instance : DecidablePred Kind.IsWhole
  | .int _ _ _ => inferInstanceAs (Decidable True)
  | .mask _ (some allowed) => inferInstanceAs (Decidable (allowed < 0x8000000000000000))
  | .mask _ none => inferInstanceAs (Decidable True)
  | .float => inferInstanceAs (Decidable False)

theorem Kind.IsWhole.ne_float {kind : Kind} (whole : kind.IsWhole) : kind ≠ .float := by
  rintro rfl
  exact whole

/-- All numbers of a declaration of whole numbers are read back. -/
theorem isReadable_of_parse {line : Text} {c : Configuration} (read : parse line = .ok c)
    (whole : c.kind.IsWhole) : c.default.IsReadable ∧ c.kind.IsReadable := by
  obtain ⟨declared, -⟩ := isDeclared_of_parse read
  have admits := declared.admits
  have checked := declared.checked
  cases value : c.default with
  | float bits =>
    rw [value] at admits
    exact absurd admits whole.ne_float
  | int n =>
    rw [value] at checked
    have inside : IsReadable n := isReadable_of_check checked
    refine ⟨inside, ?_⟩
    cases kind : c.kind with
    | float => trivial
    | mask width allowed =>
      rw [kind] at whole
      cases allowed with
      | none => trivial
      | some allowed => exact whole
    | int width signed range =>
      cases range with
      | none => trivial
      | some range =>
        obtain ⟨low, high⟩ := range
        obtain ⟨base, restriction, unrestricted, restricted⟩ := kind_of_parse read
        rw [kind] at restricted
        obtain ⟨s, written⟩ := range_of_restrict unrestricted restricted
        have bounds := range_of_check kind checked
        have least := low_of_readRange written
        have most := high_of_readRange written
        obtain ⟨above, below⟩ := inside
        exact ⟨⟨by omega, by omega⟩, by omega, most⟩

end GamePatch.Configuration
