import GamePatch.Toolchain

set_option autoImplicit false

namespace GamePatch

open Toolchain (Reply)

/-- A computation that may ask the assembler any number of times. -/
inductive Assembling (α : Type) where
  | done (result : α)
  | ask (source : Text) (includePaths : List Path) (next : Reply → Assembling α)

namespace Assembling

/-- The second computation, for the result of the first. -/
def bind {α β : Type} : Assembling α → (α → Assembling β) → Assembling β
  | .done a, f => f a
  | .ask source paths next, f => .ask source paths fun reply => (next reply).bind f

instance : Monad Assembling where
  pure := .done
  bind := bind

def assemble (source : Text) (includePaths : List Path) : Assembling Reply :=
  .ask source includePaths .done

/-- The result with the replies of a toolchain. -/
def run {α : Type} (toolchain : Toolchain) : Assembling α → α
  | .done a => a
  | .ask source paths next => (next (toolchain.assemble source paths)).run toolchain

/-- The result, and the state after it, with an assembler that has a state. -/
def runWith {α σ : Type} (reply : Text → List Path → σ → Reply × σ) : Assembling α → σ → α × σ
  | .done a, s => (a, s)
  | .ask source paths next, s =>
    let (answer, s') := reply source paths s
    (next answer).runWith reply s'

/-- The results that some replies lead to. -/
inductive Yields {α : Type} : Assembling α → α → Prop where
  | done (a : α) : Yields (.done a) a
  | ask {source : Text} {paths : List Path} {next : Reply → Assembling α} (reply : Reply) {a : α}
      (rest : Yields (next reply) a) : Yields (.ask source paths next) a

/-- A result that does not hang on the assembler. -/
def AsksNothing {α : Type} : Assembling α → Prop
  | .done _ => True
  | .ask .. => False

end Assembling

end GamePatch
