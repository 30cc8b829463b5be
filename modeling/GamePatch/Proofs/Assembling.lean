import GamePatch.Assembling

set_option autoImplicit false

namespace GamePatch.Assembling

variable {α β : Type}

@[simp] theorem yields_done_iff {a result : α} :
    (done a).Yields result ↔ result = a := by
  constructor
  · rintro ⟨⟩
    rfl
  · rintro rfl
    exact .done _

@[simp] theorem yields_ask_iff {source : Text} {paths : List Path}
    {next : Toolchain.Reply → Assembling α} {result : α} :
    (ask source paths next).Yields result ↔ ∃ reply, (next reply).Yields result := by
  constructor
  · rintro (_ | ⟨reply, rest⟩)
    exact ⟨reply, rest⟩
  · rintro ⟨reply, rest⟩
    exact .ask reply rest

theorem run_yields (toolchain : Toolchain) (x : Assembling α) : x.Yields (x.run toolchain) := by
  induction x with
  | done a => exact .done a
  | ask source paths next ih => exact .ask _ (ih _)

theorem yields_of_run {toolchain : Toolchain} {x : Assembling α} {result : α}
    (run : x.run toolchain = result) : x.Yields result :=
  run ▸ run_yields toolchain x

/-- A chain has the results that its second part has for a result of its first part. -/
theorem yields_bind_iff {x : Assembling α} {f : α → Assembling β} {result : β} :
    (x >>= f).Yields result ↔ ∃ a, x.Yields a ∧ (f a).Yields result := by
  change (x.bind f).Yields result ↔ _
  induction x with
  | done a => simp [bind]
  | ask source paths next ih =>
    rw [bind, yields_ask_iff]
    constructor
    · intro ⟨reply, rest⟩
      obtain ⟨a, first, second⟩ := (ih reply).mp rest
      exact ⟨a, .ask reply first, second⟩
    · intro ⟨a, first, second⟩
      obtain ⟨reply, first⟩ := yields_ask_iff.mp first
      exact ⟨reply, (ih reply).mpr ⟨a, first, second⟩⟩

@[simp] theorem yields_pure_iff {a result : α} :
    (pure a : Assembling α).Yields result ↔ result = a := yields_done_iff

theorem run_bind (toolchain : Toolchain) (x : Assembling α) (f : α → Assembling β) :
    (x >>= f).run toolchain = (f (x.run toolchain)).run toolchain := by
  change (x.bind f).run toolchain = _
  induction x with
  | done a => rfl
  | ask source paths next ih => exact ih _

end GamePatch.Assembling
