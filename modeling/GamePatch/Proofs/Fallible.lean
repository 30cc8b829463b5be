import Mathlib.Data.List.Forall2

set_option autoImplicit false

namespace GamePatch

section

variable {α β : Type} {R : α → β → Prop} {xs : List α} {ys : List β}

theorem exists_left_of_forall₂ (all : List.Forall₂ R xs ys) {y : β} (member : y ∈ ys) :
    ∃ x ∈ xs, R x y := by
  induction all with
  | nil => cases member
  | cons here rest ih =>
    rcases List.mem_cons.mp member with rfl | later
    · exact ⟨_, List.mem_cons_self, here⟩
    · obtain ⟨x, inside, related⟩ := ih later
      exact ⟨x, List.mem_cons_of_mem _ inside, related⟩

theorem exists_right_of_forall₂ (all : List.Forall₂ R xs ys) {x : α} (member : x ∈ xs) :
    ∃ y ∈ ys, R x y :=
  exists_left_of_forall₂ all.flip member

theorem getElem?_of_forall₂ (all : List.Forall₂ R xs ys) {k : Nat} {x : α} (here : xs[k]? = some x) :
    ∃ y, ys[k]? = some y ∧ R x y := by
  induction all generalizing k with
  | nil => cases here
  | cons first rest ih =>
    cases k with
    | zero =>
      cases here
      exact ⟨_, rfl, first⟩
    | succ k => exact ih here

end

namespace Fallible

variable {ε α β γ : Type}

theorem bind_eq_ok_iff {x : Except ε α} {f : α → Except ε β} {b : β} :
    (x >>= f) = .ok b ↔ ∃ a, x = .ok a ∧ f a = .ok b := by
  cases x with
  | ok a => simp [bind, Except.bind]
  | error e => simp [bind, Except.bind]

theorem bind_eq_error_iff {x : Except ε α} {f : α → Except ε β} {e : ε} :
    (x >>= f) = .error e ↔ x = .error e ∨ ∃ a, x = .ok a ∧ f a = .error e := by
  cases x with
  | ok a => simp [bind, Except.bind]
  | error e => simp [bind, Except.bind]

/-- Two steps in a row, with a result that is made of what both of them give. -/
theorem bind_bind_eq_ok_iff {x : Except ε α} {f : α → Except ε β} {g : α → β → γ} {c : γ} :
    (x >>= fun a => f a >>= fun b => .ok (g a b)) = .ok c ↔
      ∃ a b, x = .ok a ∧ f a = .ok b ∧ g a b = c := by
  rw [bind_eq_ok_iff]
  constructor
  · rintro ⟨a, first, chain⟩
    obtain ⟨b, second, same⟩ := bind_eq_ok_iff.mp chain
    exact ⟨a, b, first, second, Except.ok.inj same⟩
  · rintro ⟨a, b, first, second, rfl⟩
    exact ⟨a, first, bind_eq_ok_iff.mpr ⟨b, second, rfl⟩⟩

theorem map_eq_ok_iff {x : Except ε α} {f : α → β} {b : β} :
    x.map f = .ok b ↔ ∃ a, x = .ok a ∧ f a = b := by
  cases x <;> simp [Except.map]

theorem map_eq_error_iff {x : Except ε α} {f : α → β} {e : ε} :
    x.map f = .error e ↔ x = .error e := by
  cases x <;> simp [Except.map]

/-- Two computations that agree in what is seen of their results fail alike or succeed alike. -/
theorem map_eq_map_iff {α' : Type} {x : Except ε α} {y : Except ε α'} {f : α → β} {g : α' → β} :
    x.map f = y.map g ↔
      (∃ e, x = .error e ∧ y = .error e) ∨ ∃ a b, x = .ok a ∧ y = .ok b ∧ f a = g b := by
  cases x <;> cases y <;> simp [Except.map]
  exact eq_comm

/-- Computations in two steps agree in what is seen of their results, if each of their steps does. -/
theorem map_bind_congr {δ : Type} {x x' : Except ε α} {f : α → γ} {next next' : α → Except ε β}
    {g : β → δ} (first : x.map f = x'.map f)
    (second : ∀ a a', f a = f a' → (next a).map g = (next' a').map g) :
    (x >>= next).map g = (x' >>= next').map g := by
  rcases map_eq_map_iff.mp first with ⟨e, rfl, rfl⟩ | ⟨a, a', rfl, rfl, agree⟩
  · rfl
  · exact second a a' agree

/-- Each element has a result, and they are the results in order. -/
theorem mapM_eq_ok_iff {f : α → Except ε β} {xs : List α} {ys : List β} :
    xs.mapM f = .ok ys ↔ List.Forall₂ (fun x y => f x = .ok y) xs ys := by
  induction xs generalizing ys with
  | nil =>
    rw [List.forall₂_nil_left_iff, List.mapM_nil, eq_comm]
    exact ⟨fun same => Except.ok.inj same, congrArg Except.ok⟩
  | cons x xs ih =>
    rw [List.mapM_cons, List.forall₂_cons_left_iff]
    refine bind_bind_eq_ok_iff.trans ?_
    simp only [ih, eq_comm (b := ys)]

/-- The error of a list is the error of one of its elements. -/
theorem mapM_eq_error {f : α → Except ε β} {xs : List α} {e : ε} (failed : xs.mapM f = .error e) :
    ∃ x ∈ xs, f x = .error e := by
  induction xs with
  | nil => rw [List.mapM_nil] at failed; cases failed
  | cons x xs ih =>
    rw [List.mapM_cons, bind_eq_error_iff] at failed
    rcases failed with head | ⟨y, -, chain⟩
    · exact ⟨x, List.mem_cons_self, head⟩
    · rcases bind_eq_error_iff.mp chain with tail | ⟨rest, -, impossible⟩
      · obtain ⟨z, member, error⟩ := ih tail
        exact ⟨z, List.mem_cons_of_mem x member, error⟩
      · cases impossible

theorem toOption_eq_some_iff {x : Except ε α} {a : α} : x.toOption = some a ↔ x = .ok a := by
  cases x <;> simp [Except.toOption]

/-- Two computations have a result in the same cases, and the same one. -/
theorem toOption_congr {ε' : Type} {x : Except ε α} {y : Except ε' α}
    (same : ∀ a, x = .ok a ↔ y = .ok a) : x.toOption = y.toOption := by
  ext a
  rw [toOption_eq_some_iff, toOption_eq_some_iff, same]

/-- Two computations fail both, each with an error of its own, or have related results. -/
inductive Both {ε' β : Type} (R : α → β → Prop) : Except ε α → Except ε' β → Prop where
  | error (e : ε) (e' : ε') : Both R (.error e) (.error e')
  | ok {a : α} {b : β} (related : R a b) : Both R (.ok a) (.ok b)

namespace Both

variable {ε' α' β' : Type} {R : α → α' → Prop} {S : β → β' → Prop}
  {x : Except ε α} {y : Except ε' α'}

theorem refl (x : Except ε α) : Both Eq x x := by
  cases x with
  | error e => exact .error e e
  | ok a => exact .ok rfl

theorem eq_or_eq (both : Both R x y) :
    (∃ e e', x = .error e ∧ y = .error e') ∨ ∃ a b, x = .ok a ∧ y = .ok b ∧ R a b := by
  cases both with
  | error e e' => exact Or.inl ⟨e, e', rfl, rfl⟩
  | ok related => exact Or.inr ⟨_, _, rfl, rfl, related⟩

theorem mono {R' : α → α' → Prop} (both : Both R x y) (weaker : ∀ a b, R a b → R' a b) :
    Both R' x y := by
  cases both with
  | error e e' => exact .error e e'
  | ok related => exact .ok (weaker _ _ related)

/-- Computations in two steps are alike, if each of their steps is. -/
theorem bind {f : α → Except ε β} {g : α' → Except ε' β'} (first : Both R x y)
    (second : ∀ a b, R a b → Both S (f a) (g b)) : Both S (x >>= f) (y >>= g) := by
  cases first with
  | error e e' => exact .error e e'
  | ok related => exact second _ _ related

theorem map {f : α → β} {g : α' → β'} (both : Both R x y) (kept : ∀ a b, R a b → S (f a) (g b)) :
    Both S (x.map f) (y.map g) := by
  cases both with
  | error e e' => exact .error e e'
  | ok related => exact .ok (kept _ _ related)

theorem mapM {f : α → Except ε β} {g : α' → Except ε' β'} {xs : List α} {ys : List α'}
    (all : List.Forall₂ R xs ys) (each : ∀ a b, R a b → Both S (f a) (g b)) :
    Both (List.Forall₂ S) (xs.mapM f) (ys.mapM g) := by
  induction all with
  | nil => exact .ok .nil
  | cons here rest ih =>
    rw [List.mapM_cons, List.mapM_cons]
    exact (each _ _ here).bind fun _ _ head => ih.bind fun _ _ tail => .ok (.cons head tail)

theorem eq_iff {y : Except ε' α} : Both Eq x y ↔ x.toOption = y.toOption := by
  constructor
  · rintro (⟨e, e'⟩ | ⟨⟨⟩⟩)
    · rfl
    · rfl
  · intro same
    cases x with
    | error e =>
      cases y with
      | error e' => exact .error e e'
      | ok b => cases same
    | ok a =>
      cases y with
      | error e' => cases same
      | ok b => exact .ok (Option.some.inj same)

end Both

end Fallible

end GamePatch
