import GamePatch.Proofs.FileSystem.Folder

set_option autoImplicit false

namespace GamePatch

namespace Path

open FileSystem (stepFrom)

variable {name : Text}

def placeFrom (start : Location) (p : Path) : Location := p.parts.foldl stepFrom start

def followPieces (start : Location) (pieces : List Text) : Location :=
  (pieces.filterMap innerPart?).foldl stepFrom start

theorem followPieces_append (start : Location) (front back : List Text) :
    followPieces start (front ++ back) = followPieces (followPieces start front) back := by
  rw [followPieces, List.filterMap_append, List.foldl_append]
  rfl

/-- Only a slash at the start of a path counts otherwise than its pieces. -/
theorem placeFrom_eq (start : Location) (p : Path) :
    p.placeFrom start =
      followPieces (if p.isAbsolute then [] else start) (Text.splitAt '/' p.text) := by
  rw [placeFrom, parts]
  by_cases absolute : p.isAbsolute = true
  · rw [if_pos absolute, if_pos absolute]
    rfl
  · rw [if_neg absolute, if_neg absolute]
    split
    · rfl
    · rfl

theorem placeFrom_absolute {p : Path} (absolute : p.isAbsolute = true) (start other : Location) :
    p.placeFrom start = p.placeFrom other := by
  rw [placeFrom_eq, placeFrom_eq, if_pos absolute, if_pos absolute]

theorem placeFrom_plain (plain : IsPlain name) (start : Location) :
    (⟨name⟩ : Path).placeFrom start = start ++ [name] := by
  rw [placeFrom, parts_plain plain]
  rfl

theorem isAbsolute_append {p : Path} (some : p.text ≠ []) (rest : Text) :
    (⟨p.text ++ rest⟩ : Path).isAbsolute = p.isAbsolute := by
  obtain ⟨c, text, shape⟩ := List.exists_cons_of_ne_nil some
  rw [isAbsolute, isAbsolute, shape]
  rfl

/-- The second path leads on from the place of the first. -/
theorem placeFrom_join (start : Location) (p q : Path) :
    (p.join q).placeFrom start = q.placeFrom (p.placeFrom start) := by
  rw [join]
  by_cases absolute : q.isAbsolute = true
  case pos =>
    rw [if_pos (by simp [absolute])]
    exact placeFrom_absolute absolute start (p.placeFrom start)
  case neg =>
    have relative (place : Location) : q.placeFrom place = followPieces place (Text.splitAt '/' q.text) := by
      rw [placeFrom_eq, if_neg absolute]
    by_cases empty : p.text = []
    case pos =>
      rw [if_pos (by simp [empty]), relative, relative, placeFrom_eq, isAbsolute, empty]
      rfl
    case neg =>
      rw [if_neg (by simp [absolute, empty])]
      by_cases slash : p.endsInSlash = true
      case pos =>
        obtain ⟨front, shape, split⟩ := splitAt_of_endsInSlash slash
        have pieces : Text.splitAt '/' (p.text ++ q.text) =
            Text.splitAt '/' front ++ Text.splitAt '/' q.text := by
          rw [shape, List.append_assoc, List.singleton_append, Text.splitAt_append_mark]
        rw [if_pos slash, relative, placeFrom_eq, placeFrom_eq, isAbsolute_append empty, pieces, split,
          followPieces_append, followPieces_append]
        rfl
      case neg =>
        have pieces : Text.splitAt '/' (p.text ++ ['/'] ++ q.text) =
            Text.splitAt '/' p.text ++ Text.splitAt '/' q.text := by
          rw [List.append_assoc, List.singleton_append, Text.splitAt_append_mark]
        have start' : (⟨p.text ++ ['/'] ++ q.text⟩ : Path).isAbsolute = p.isAbsolute := by
          rw [List.append_assoc]
          exact isAbsolute_append empty _
        rw [if_neg slash, relative, placeFrom_eq, placeFrom_eq, start', pieces, followPieces_append]

end Path

namespace FileSystem

variable {fs : FileSystem} {p : Path} {place : Location}

theorem place_of_follow {start : Location} {parts : List Path.Part}
    (reached : fs.follow start parts = .ok place) : place = parts.foldl stepFrom start := by
  induction parts generalizing start with
  | nil =>
    rw [follow] at reached
    exact (Except.ok.inj reached).symm
  | cons part parts ih =>
    rw [follow_cons, Fallible.bind_eq_ok_iff] at reached
    obtain ⟨_, -, rest⟩ := reached
    exact ih rest

/-- What a path names is at its place. -/
theorem place_of_locate (located : fs.locate p = .ok place) :
    place = p.placeFrom fs.workingDirectory := by
  obtain ⟨-, -, -, reached, -⟩ := locate_eq_ok_iff.mp located
  exact place_of_follow reached

end FileSystem

/-! ### Places below another -/

namespace Location

def IsBelow (base place : Location) : Prop := base <+: place ∧ place ≠ base

instance (base place : Location) : Decidable (IsBelow base place) :=
  inferInstanceAs (Decidable (base <+: place ∧ place ≠ base))

/-- What is right in a directory is below all that the directory is at or below. -/
theorem isBelow_concat_iff {base place : Location} {name : Text} :
    IsBelow base (place ++ [name]) ↔ base <+: place := by
  rw [IsBelow, List.prefix_concat_iff]
  constructor
  · rintro ⟨same | inside, other⟩
    · exact absurd same.symm other
    · exact inside
  · intro inside
    refine ⟨Or.inr inside, ?_⟩
    rintro rfl
    have short := inside.length_le
    rw [List.length_append, List.length_singleton] at short
    omega

end Location

end GamePatch
