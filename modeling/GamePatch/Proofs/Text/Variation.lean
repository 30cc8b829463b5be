import GamePatch.Proofs.Fallible
import GamePatch.Proofs.Line.Segments

set_option autoImplicit false

namespace GamePatch.Text

/-- Two texts that are the same but for pieces of one in the places of pieces of the other. -/
inductive Varies (swap : Text → Text → Prop) : Text → Text → Prop
  | nil : Varies swap [] []
  | keep (c : Char) {s t : Text} (rest : Varies swap s t) : Varies swap (c :: s) (c :: t)
  | piece {old new s t : Text} (swapped : swap old new) (rest : Varies swap s t) :
      Varies swap (old ++ s) (new ++ t)

/-- A piece that is not empty and has no character of a kind. -/
def IsClear (p : Char → Prop) (piece : Text) : Prop := piece ≠ [] ∧ ∀ c ∈ piece, ¬ p c

/-- Neither of two pieces that may stand for each other has a character of a kind. -/
def Avoids (swap : Text → Text → Prop) (p : Char → Prop) : Prop :=
  ∀ old new, swap old new → IsClear p old ∧ IsClear p new

theorem IsClear.exists_cons {p : Char → Prop} {piece : Text} (clear : IsClear p piece) :
    ∃ c rest, piece = c :: rest ∧ ¬ p c := by
  obtain ⟨c, rest, rfl⟩ := List.exists_cons_of_ne_nil clear.1
  exact ⟨c, rest, rfl, clear.2 c List.mem_cons_self⟩

theorem cut_append_of_clear {mark piece : Text} (nonempty : mark ≠ [])
    (clear : ∀ c ∈ piece, c ∉ mark) (s : Text) :
    cut mark (piece ++ s) = (cut mark s).map fun found => (piece ++ found.1, found.2) := by
  induction piece with
  | nil => cases h : cut mark s <;> simp [h]
  | cons c piece ih =>
    rw [List.forall_mem_cons] at clear
    have noLead : dropLeading? mark (c :: (piece ++ s)) = none := by
      obtain ⟨l, mark, rfl⟩ := List.exists_cons_of_ne_nil nonempty
      have differs : l ≠ c := fun same => clear.1 (by rw [same]; exact List.mem_cons_self)
      rw [dropLeading?, if_neg differs]
    rw [List.cons_append, cut, noLead]
    simp only [ih clear.2, Option.map_map]
    rfl

theorem cutWhere_append_of_clear {p : Char → Bool} {piece : Text}
    (clear : ∀ c ∈ piece, ¬ p c = true) (s : Text) :
    cutWhere p (piece ++ s) = (cutWhere p s).map fun found => (piece ++ found.1, found.2) := by
  induction piece with
  | nil => cases h : cutWhere p s <;> simp [h]
  | cons c piece ih =>
    rw [List.forall_mem_cons] at clear
    rw [List.cons_append, cutWhere, if_neg clear.1]
    simp only [ih clear.2, Option.map_map]
    rfl

theorem dropWhile_append_of_clear {p : Char → Bool} {piece : Text}
    (clear : IsClear (p · = true) piece) (s : Text) : (piece ++ s).dropWhile p = piece ++ s := by
  obtain ⟨c, rest, rfl, solid⟩ := clear.exists_cons
  rw [List.cons_append, List.dropWhile_cons_of_neg solid]

theorem forall₂_modifyHead {R : Text → Text → Prop} {f g : Text → Text}
    (related : ∀ s t, R s t → R (f s) (g t)) {ss ts : List Text} (all : List.Forall₂ R ss ts) :
    List.Forall₂ R (ss.modifyHead f) (ts.modifyHead g) := by
  cases all with
  | nil => exact .nil
  | cons first rest => exact .cons (related _ _ first) rest

namespace Varies

variable {swap : Text → Text → Prop} {s t : Text}

theorem refl (s : Text) : Varies swap s s := by
  induction s with
  | nil => exact .nil
  | cons c s ih => exact .keep c ih

theorem append {s' t' : Text} (front : Varies swap s t) (back : Varies swap s' t') :
    Varies swap (s ++ s') (t ++ t') := by
  induction front with
  | nil => exact back
  | keep c rest ih => exact .keep c ih
  | piece swapped rest ih =>
    rw [List.append_assoc, List.append_assoc]
    exact .piece swapped ih

theorem reverse (varies : Varies swap s t) :
    Varies (fun old new => swap old.reverse new.reverse) s.reverse t.reverse := by
  induction varies with
  | nil => exact .nil
  | keep c rest ih =>
    rw [List.reverse_cons, List.reverse_cons]
    exact ih.append (.keep c .nil)
  | @piece old new s t swapped rest ih =>
    rw [List.reverse_append, List.reverse_append]
    have last : Varies (fun old new => swap old.reverse new.reverse) (old.reverse ++ [])
        (new.reverse ++ []) :=
      .piece (by rwa [List.reverse_reverse, List.reverse_reverse]) .nil
    rw [List.append_nil, List.append_nil] at last
    exact ih.append last

/-- A text without a character that all replaced pieces have is not changed. -/
theorem eq_of_not_mem {c : Char} (marked : ∀ old new, swap old new → c ∈ old)
    (varies : Varies swap s t) (absent : c ∉ s) : s = t := by
  induction varies with
  | nil => rfl
  | keep d rest ih =>
    rw [List.mem_cons, not_or] at absent
    rw [ih absent.2]
  | piece swapped rest ih =>
    exact absurd (List.mem_append_left _ (marked _ _ swapped)) absent

/-- Pieces that agree on whether they have a character do not change whether the text has it. -/
theorem mem_iff {c : Char} (same : ∀ old new, swap old new → (c ∈ old ↔ c ∈ new))
    (varies : Varies swap s t) : c ∈ s ↔ c ∈ t := by
  induction varies with
  | nil => exact Iff.rfl
  | keep d rest ih => rw [List.mem_cons, List.mem_cons, ih]
  | piece swapped rest ih => rw [List.mem_append, List.mem_append, same _ _ swapped, ih]

theorem dropWhile {p : Char → Bool} (avoids : Avoids swap (p · = true)) (varies : Varies swap s t) :
    Varies swap (s.dropWhile p) (t.dropWhile p) := by
  induction varies with
  | nil => exact .nil
  | keep c rest ih =>
    by_cases dropped : p c = true
    · rw [List.dropWhile_cons_of_pos dropped, List.dropWhile_cons_of_pos dropped]
      exact ih
    · rw [List.dropWhile_cons_of_neg dropped, List.dropWhile_cons_of_neg dropped]
      exact .keep c rest
  | piece swapped rest ih =>
    obtain ⟨old, new⟩ := avoids _ _ swapped
    rw [dropWhile_append_of_clear old, dropWhile_append_of_clear new]
    exact .piece swapped rest

theorem dropEndWhile {p : Char → Bool} (avoids : Avoids swap (p · = true))
    (varies : Varies swap s t) : Varies swap (dropEndWhile p s) (dropEndWhile p t) := by
  have reversed : Avoids (fun old new => swap old.reverse new.reverse) (p · = true) := by
    intro old new swapped
    have clear := avoids _ _ swapped
    simpa only [IsClear, ne_eq, List.reverse_eq_nil_iff, List.mem_reverse] using clear
  have twice := (varies.reverse.dropWhile reversed).reverse
  simp only [List.reverse_reverse] at twice
  exact twice

theorem trim (avoids : Avoids swap (isBlank · = true)) (varies : Varies swap s t) :
    Varies swap (trim s) (trim t) :=
  (varies.dropWhile avoids).dropEndWhile avoids

/-- Two parts of a text that vary each on its own. -/
def Both (swap : Text → Text → Prop) (a b : Text × Text) : Prop :=
  Varies swap a.1 b.1 ∧ Varies swap a.2 b.2

theorem dropLeading? {mark : Text} (avoids : Avoids swap (· ∈ mark)) (varies : Varies swap s t) :
    Option.Rel (Varies swap) (dropLeading? mark s) (dropLeading? mark t) := by
  induction mark generalizing s t with
  | nil => exact .some varies
  | cons l mark ih =>
    have avoids' : Avoids swap (· ∈ mark) := fun old new swapped =>
      (avoids old new swapped).imp
        (fun clear => ⟨clear.1, fun c member inside =>
          clear.2 c member (List.mem_cons_of_mem l inside)⟩)
        (fun clear => ⟨clear.1, fun c member inside =>
          clear.2 c member (List.mem_cons_of_mem l inside)⟩)
    cases varies with
    | nil => exact .none
    | keep c rest =>
      rw [Text.dropLeading?, Text.dropLeading?]
      split
      · exact ih avoids' rest
      · exact .none
    | piece swapped rest =>
      obtain ⟨old, new⟩ := avoids _ _ swapped
      obtain ⟨c, old, rfl, apart⟩ := old.exists_cons
      obtain ⟨d, new, rfl, apart'⟩ := new.exists_cons
      rw [List.mem_cons, not_or] at apart apart'
      rw [List.cons_append, List.cons_append, Text.dropLeading?, Text.dropLeading?,
        if_neg (Ne.symm apart.1), if_neg (Ne.symm apart'.1)]
      exact .none

theorem both_map {f g : Text → Text} {a b : Option (Text × Text)}
    (related : ∀ s t, Varies swap s t → Varies swap (f s) (g t))
    (parts : Option.Rel (Both swap) a b) :
    Option.Rel (Both swap) (a.map fun found => (f found.1, found.2))
      (b.map fun found => (g found.1, found.2)) := by
  cases parts with
  | none => exact .none
  | some both => exact .some ⟨related _ _ both.1, both.2⟩

/-- A mark that shares no character with the pieces is at the same place in both texts. -/
theorem cut {mark : Text} (nonempty : mark ≠ []) (avoids : Avoids swap (· ∈ mark))
    (varies : Varies swap s t) : Option.Rel (Both swap) (cut mark s) (cut mark t) := by
  induction varies with
  | nil =>
    obtain ⟨l, mark, rfl⟩ := List.exists_cons_of_ne_nil nonempty
    exact .none
  | @keep c s t rest ih =>
    have lead := Varies.dropLeading? avoids (.keep c rest)
    rw [Text.cut, Text.cut]
    generalize Text.dropLeading? mark (c :: s) = a at lead
    generalize Text.dropLeading? mark (c :: t) = b at lead
    cases lead with
    | some behind => exact .some ⟨.nil, behind⟩
    | none => exact both_map (fun s t varies => .keep c varies) ih
  | piece swapped rest ih =>
    obtain ⟨old, new⟩ := avoids _ _ swapped
    rw [cut_append_of_clear nonempty old.2, cut_append_of_clear nonempty new.2]
    exact both_map (fun s t varies => .piece swapped varies) ih

theorem cutWhere {p : Char → Bool} (avoids : Avoids swap (p · = true)) (varies : Varies swap s t) :
    Option.Rel (Both swap) (cutWhere p s) (cutWhere p t) := by
  induction varies with
  | nil => exact .none
  | keep c rest ih =>
    rw [Text.cutWhere, Text.cutWhere]
    split
    · exact .some ⟨.nil, rest⟩
    · exact both_map (fun s t varies => .keep c varies) ih
  | piece swapped rest ih =>
    obtain ⟨old, new⟩ := avoids _ _ swapped
    rw [cutWhere_append_of_clear old.2, cutWhere_append_of_clear new.2]
    exact both_map (fun s t varies => .piece swapped varies) ih

theorem splitAt {mark : Char} (avoids : Avoids swap (· = mark)) (varies : Varies swap s t) :
    List.Forall₂ (Varies swap) (splitAt mark s) (splitAt mark t) := by
  induction varies with
  | nil => exact .cons .nil .nil
  | keep c rest ih =>
    unfold Text.splitAt at ih ⊢
    rw [List.splitOnP_cons_eq_if_modifyHead, List.splitOnP_cons_eq_if_modifyHead]
    split
    · exact .cons .nil ih
    · exact forall₂_modifyHead (fun s t varies => .keep c varies) ih
  | piece swapped rest ih =>
    obtain ⟨old, new⟩ := avoids _ _ swapped
    rw [splitAt_append_of_clear old.2, splitAt_append_of_clear new.2]
    exact forall₂_modifyHead (fun s t varies => .piece swapped varies) ih

end Varies

end GamePatch.Text

namespace GamePatch.Line

open Text (Varies Avoids)

/-- The text of a marked name begins behind its opening mark. -/
theorem Enclosed.length_after_lt {opening closing s after : Text} {e : Enclosed}
    (nonempty : opening ≠ []) (found : first? opening closing s = some (e, after)) :
    after.length < s.length := by
  have positive := List.length_pos_iff.mpr nonempty
  rw [eq_of_first? found]
  simp only [List.length_append]
  omega

theorem Enclosed.all_of_first? {opening closing s after : Text} {e : Enclosed}
    (nonempty : opening ≠ []) (found : first? opening closing s = some (e, after)) :
    all opening closing s = (e :: (all opening closing after).1, (all opening closing after).2) := by
  rw [all, found]
  simp only [Enclosed.length_after_lt nonempty found, ↓reduceIte]

theorem Enclosed.all_of_none {opening closing s : Text} (none : first? opening closing s = none) :
    all opening closing s = ([], s) := by
  rw [all, none]

def Enclosed.Varies (swap : Text → Text → Prop) (e e' : Enclosed) : Prop :=
  Text.Varies swap e.before e'.before

section

variable {swap : Text → Text → Prop} {opening closing s t : Text}

theorem Enclosed.varies_first? (opens : opening ≠ []) (closes : closing ≠ [])
    (avoidsOpening : Avoids swap (· ∈ opening)) (avoidsClosing : Avoids swap (· ∈ closing))
    (varies : Text.Varies swap s t) :
    Option.Rel (fun a b => Enclosed.Varies swap a.1 b.1 ∧ Text.Varies swap a.2 b.2)
      (first? opening closing s) (first? opening closing t) := by
  have opened := varies.cut opens avoidsOpening
  unfold first?
  generalize Text.cut opening s = a at opened
  generalize Text.cut opening t = b at opened
  cases opened with
  | none => exact .none
  | @some a b parts =>
    have closed := parts.2.cut closes avoidsClosing
    simp only
    generalize Text.cut closing a.2 = x at closed
    generalize Text.cut closing b.2 = y at closed
    cases closed with
    | none => exact .none
    | some inside => exact .some ⟨parts.1, inside.2⟩

/-- Marked names stand at the same places of texts that vary elsewhere. -/
theorem Enclosed.varies_all (opens : opening ≠ []) (closes : closing ≠ [])
    (avoidsOpening : Avoids swap (· ∈ opening)) (avoidsClosing : Avoids swap (· ∈ closing))
    (varies : Text.Varies swap s t) :
    List.Forall₂ (Enclosed.Varies swap) (all opening closing s).1 (all opening closing t).1 ∧
      Text.Varies swap (all opening closing s).2 (all opening closing t).2 := by
  induction length : s.length using Nat.strong_induction_on generalizing s t with
  | _ n ih =>
    have found := varies_first? opens closes avoidsOpening avoidsClosing varies
    cases left : first? opening closing s with
    | none =>
      cases right : first? opening closing t with
      | none =>
        rw [all_of_none left, all_of_none right]
        exact ⟨.nil, varies⟩
      | some b =>
        rw [left, right] at found
        cases found
    | some a =>
      cases right : first? opening closing t with
      | none =>
        rw [left, right] at found
        cases found
      | some b =>
        rw [left, right] at found
        cases found with
        | some parts =>
          have shorter := length_after_lt opens left
          obtain ⟨names, rest⟩ := ih a.2.length (length ▸ shorter) parts.2 rfl
          rw [all_of_first? opens left, all_of_first? opens right]
          exact ⟨.cons parts.1 names, rest⟩

end

theorem varies_replaceIn {ε ε' : Type} {swap : Text → Text → Prop}
    {replace : Text → Except ε Text} {replace' : Text → Except ε' Text}
    (swapped : ∀ name old name' new, replace name = .ok old → replace' name' = .ok new → swap old new)
    {found found' : List Enclosed} (varies : List.Forall₂ (Enclosed.Varies swap) found found')
    {out out' : Text} (first : Enclosed.replaceIn replace found = .ok out)
    (second : Enclosed.replaceIn replace' found' = .ok out') : Varies swap out out' := by
  induction varies generalizing out out' with
  | nil =>
    cases first
    cases second
    exact .nil
  | @cons e e' found found' before rest ih =>
    obtain ⟨old, value, chain⟩ := Fallible.bind_eq_ok_iff.mp first
    obtain ⟨later, tail, same⟩ := Fallible.bind_eq_ok_iff.mp chain
    obtain ⟨new, value', chain'⟩ := Fallible.bind_eq_ok_iff.mp second
    obtain ⟨later', tail', same'⟩ := Fallible.bind_eq_ok_iff.mp chain'
    cases same
    cases same'
    rw [List.append_assoc, List.append_assoc]
    exact Varies.append before (.piece (swapped _ _ _ _ value value') (ih tail tail'))

/-- Names that are replaced by pieces which may stand for each other leave texts that vary. -/
theorem varies_replaceEnclosed {ε ε' : Type} {swap : Text → Text → Prop}
    {opening closing s t out out' : Text} {replace : Text → Except ε Text}
    {replace' : Text → Except ε' Text} (opens : opening ≠ []) (closes : closing ≠ [])
    (avoidsOpening : Avoids swap (· ∈ opening)) (avoidsClosing : Avoids swap (· ∈ closing))
    (swapped : ∀ name old name' new, replace name = .ok old → replace' name' = .ok new → swap old new)
    (varies : Varies swap s t) (first : replaceEnclosed opening closing replace s = .ok out)
    (second : replaceEnclosed opening closing replace' t = .ok out') : Varies swap out out' := by
  obtain ⟨text, replaced, rfl⟩ := Fallible.map_eq_ok_iff.mp first
  obtain ⟨text', replaced', rfl⟩ := Fallible.map_eq_ok_iff.mp second
  obtain ⟨names, rest⟩ :=
    Enclosed.varies_all opens closes avoidsOpening avoidsClosing varies
  exact (varies_replaceIn swapped names replaced replaced').append rest

end GamePatch.Line
