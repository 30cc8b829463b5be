import GamePatch.Proofs.FileSystem.Places
import GamePatch.Proofs.FileSystem.Writes

set_option autoImplicit false

namespace GamePatch.FileSystem

def HasFile (fs : FileSystem) (place : Location) : Prop :=
  ∃ bytes modified, fs.entryAt? place = some (.file bytes modified)

instance (fs : FileSystem) (place : Location) : Decidable (fs.HasFile place) :=
  match found : fs.entryAt? place with
  | some (.file bytes modified) => isTrue ⟨bytes, modified, found⟩
  | some .directory => isFalse fun ⟨_, _, other⟩ => by rw [found] at other; cases other
  | none => isFalse fun ⟨_, _, other⟩ => by rw [found] at other; cases other

/-- The file at a place is from a write behind the first ones. -/
def WrittenSince (fs : FileSystem) (first : Nat) (place : Location) : Prop :=
  ∃ bytes n, first ≤ n ∧ n < fs.writes ∧ fs.entryAt? place = some (.file bytes (fs.clock n))

/-- Nothing but files at certain places is written. -/
structure WritesOnly (fs fs' : FileSystem) (places : List Location) : Prop where
  workingDirectory : fs'.workingDirectory = fs.workingDirectory
  clock : fs'.clock = fs.clock
  writes : fs.writes ≤ fs'.writes
  written : ∀ place bytes modified, fs'.entryAt? place = some (.file bytes modified) →
    fs.entryAt? place = some (.file bytes modified) ∨
      place ∈ places ∧ fs'.WrittenSince fs.writes place
  kept : ∀ place, fs.HasFile place → fs'.HasFile place

variable {fs fs' fs'' : FileSystem} {p : Path} {place : Location} {places more : List Location}
  {first : Nat}

theorem WrittenSince.mono {later : Nat} (written : fs.WrittenSince later place) (before : first ≤ later) :
    fs.WrittenSince first place := by
  obtain ⟨bytes, n, low, high, file⟩ := written
  exact ⟨bytes, n, before.trans low, high, file⟩

namespace WritesOnly

theorem refl (fs : FileSystem) : WritesOnly fs fs [] :=
  ⟨rfl, rfl, Nat.le_refl _, fun _ _ _ file => Or.inl file, fun _ file => file⟩

/-- A file that was written stays, or is written again. -/
theorem writtenSince (only : WritesOnly fs fs' places) (written : fs.WrittenSince first place) :
    fs'.WrittenSince first place := by
  obtain ⟨bytes, n, low, high, file⟩ := written
  obtain ⟨bytes', modified, file'⟩ := only.kept place ⟨bytes, _, file⟩
  rcases only.written place bytes' modified file' with same | ⟨-, again⟩
  · refine ⟨bytes, n, low, Nat.lt_of_lt_of_le high only.writes, ?_⟩
    rw [file', ← same, file, only.clock]
  · exact again.mono (by omega)

theorem trans (before : WritesOnly fs fs' places) (after : WritesOnly fs' fs'' more) :
    WritesOnly fs fs'' (places ++ more) where
  workingDirectory := after.workingDirectory.trans before.workingDirectory
  clock := after.clock.trans before.clock
  writes := before.writes.trans after.writes
  written place bytes modified file := by
    rw [List.mem_append]
    rcases after.written place bytes modified file with same | ⟨inside, new⟩
    · rcases before.written place bytes modified same with old | ⟨inside, new⟩
      · exact Or.inl old
      · exact Or.inr ⟨Or.inl inside, after.writtenSince new⟩
    · exact Or.inr ⟨Or.inr inside, new.mono before.writes⟩
  kept place file := after.kept place (before.kept place file)

theorem mono (only : WritesOnly fs fs' places) (inside : places ⊆ more) : WritesOnly fs fs' more where
  workingDirectory := only.workingDirectory
  clock := only.clock
  writes := only.writes
  written place bytes modified file :=
    (only.written place bytes modified file).imp_right (And.imp_left (@inside place))
  kept := only.kept

end WritesOnly

/-! ### Directories -/

theorem writesOnly_put_directory (absent : fs.entryAt? place = none) :
    WritesOnly fs (fs.put place .directory) [] := by
  have nonempty : place ≠ [] := by
    rintro rfl
    cases absent
  refine ⟨rfl, rfl, Nat.le_refl _, ?_, ?_⟩
  · intro other bytes modified file
    rw [entryAt?_put fs nonempty] at file
    split at file
    · cases file
    · exact Or.inl file
  · rintro other ⟨bytes, modified, file⟩
    refine ⟨bytes, modified, ?_⟩
    rw [entryAt?_put fs nonempty, if_neg, file]
    rintro rfl
    rw [absent] at file
    cases file

theorem writesOnly_createDirectory (made : fs.createDirectory p = .ok fs') : WritesOnly fs fs' [] := by
  obtain ⟨place, -, made⟩ := Fallible.bind_eq_ok_iff.mp made
  obtain ⟨found, looked, made⟩ := Fallible.bind_eq_ok_iff.mp made
  cases found with
  | some entry => cases made
  | none =>
    cases made
    exact writesOnly_put_directory (lookUp_eq_ok_iff.mp looked).2

theorem writesOnly_ensureDirectory (fs : FileSystem) (p : Path) :
    WritesOnly fs (fs.ensureDirectory p).2 [] := by
  rw [ensureDirectory]
  split
  case h_1 fs' made => exact writesOnly_createDirectory made
  case h_2 => exact WritesOnly.refl fs

theorem writesOnly_createDirectoriesWithin (steps : Nat) (fs : FileSystem) (p : Path) :
    WritesOnly fs (createDirectoriesWithin steps fs p).2 [] := by
  induction steps generalizing fs p with
  | zero => exact WritesOnly.refl fs
  | succ steps ih =>
    rw [createDirectoriesWithin]
    split
    case isTrue => exact WritesOnly.refl fs
    case isFalse =>
      split
      case h_1 parent _ _ =>
        have above := ih fs parent
        split
        case h_1 fs' made =>
          rw [made] at above
          exact above.trans (writesOnly_ensureDirectory fs' p)
        case h_2 => exact above
      case h_2 => exact writesOnly_ensureDirectory fs p

theorem writesOnly_createDirectories (fs : FileSystem) (p : Path) :
    WritesOnly fs (fs.createDirectories p).2 [] :=
  writesOnly_createDirectoriesWithin (p.text.length + 1) fs p

/-! ### Files -/

theorem write_eq_ok {bytes : Bytes} (done : fs.write p bytes = .ok fs') :
    ∃ place, fs.locate p = .ok place ∧ fs.entryAt? place ≠ some .directory ∧
      fs' = fs.writeAt place bytes := by
  obtain ⟨place, located, done⟩ := Fallible.bind_eq_ok_iff.mp done
  split at done
  case isTrue => cases done
  case isFalse =>
    obtain ⟨found, looked, done⟩ := Fallible.bind_eq_ok_iff.mp done
    split at done
    case isTrue => cases done
    case isFalse other =>
      cases done
      exact ⟨place, located, (lookUp_eq_ok_iff.mp looked).2 ▸ other, rfl⟩

/-- A write changes the file at the place of its path. -/
theorem writesOnly_write {bytes : Bytes} (done : fs.write p bytes = .ok fs') :
    WritesOnly fs fs' [p.placeFrom fs.workingDirectory] ∧
      fs'.WrittenSince fs.writes (p.placeFrom fs.workingDirectory) := by
  obtain ⟨place, located, other, rfl⟩ := write_eq_ok done
  have nonempty : place ≠ [] := by
    rintro rfl
    exact other rfl
  have entry (asked : Location) : (fs.writeAt place bytes).entryAt? asked =
      if place = asked then some (.file bytes (fs.clock fs.writes)) else fs.entryAt? asked :=
    entryAt?_put fs nonempty _ asked
  have new : (fs.writeAt place bytes).WrittenSince fs.writes place :=
    ⟨bytes, fs.writes, Nat.le_refl _, Nat.lt_succ_self _, (entry place).trans (if_pos rfl)⟩
  rw [← place_of_locate located]
  refine ⟨⟨rfl, rfl, Nat.le_succ _, ?_, ?_⟩, new⟩
  · intro asked found modified file
    rw [entry] at file
    split at file
    case isTrue same =>
      cases same
      exact Or.inr ⟨List.mem_singleton_self place, new⟩
    case isFalse => exact Or.inl file
  · rintro asked ⟨found, modified, file⟩
    by_cases same : place = asked
    · exact ⟨bytes, _, (entry asked).trans (if_pos same)⟩
    · exact ⟨found, modified, ((entry asked).trans (if_neg same)).trans file⟩

end GamePatch.FileSystem
