import GamePatch.Change.Basic

set_option autoImplicit false

namespace GamePatch

/-- The memory that a change writes. -/
structure Region where
  kind : ChangeKind
  target : Text
  address : Address
  length : Nat
deriving DecidableEq, Repr

/-- How a change conflicts with another one, or with the game. -/
inductive ConflictKind where
  | sharedAddress
  | overlap
  | vanillaMismatch
deriving DecidableEq, Repr

/-- A conflict. The second region is the other change, if there is one. -/
structure Conflict where
  kind : ConflictKind
  first : Region
  second : Option Region
deriving DecidableEq, Repr

namespace Region

/-- The first address behind a region. -/
def stop (r : Region) : Except Overflow Nat := Overflow.add r.address.toNat r.length

/-- Whether two regions have a byte in common. -/
def Meets (r s : Region) : Prop :=
  ∃ a : Nat, r.address.toNat ≤ a ∧ a < r.address.toNat + r.length ∧
    s.address.toNat ≤ a ∧ a < s.address.toNat + s.length

/-- By address, then by length, then by target. -/
def le (r s : Region) : Bool :=
  if r.address ≠ s.address then decide (r.address.toNat ≤ s.address.toNat)
  else if r.length ≠ s.length then decide (r.length ≤ s.length)
  else Text.le r.target s.target

/-- The conflict of two regions that meet. -/
def conflict (first second : Region) : Conflict :=
  ⟨if first.address = second.address then .sharedAddress else .overlap, first, some second⟩

/-- The conflicts of a region with those behind it in order, up to the first that starts behind
its end. -/
def conflictsWith (first : Region) : List Region → Except Overflow (List Conflict)
  | [] => .ok []
  | second :: behind => do
    let stop ← first.stop
    if second.address.toNat < stop then
      let more ← first.conflictsWith behind
      .ok (first.conflict second :: more)
    else .ok []

def conflictsAmong : List Region → Except Overflow (List Conflict)
  | [] => .ok []
  | first :: behind => do
    let own ← first.conflictsWith behind
    let others ← conflictsAmong behind
    .ok (own ++ others)

/-- The conflicts among regions. Empty regions have none. -/
def overlaps (regions : List Region) : Except Overflow (List Conflict) :=
  conflictsAmong ((regions.filter fun r => decide (0 < r.length)).mergeSort le)

def write (r : Region) : Text :=
  r.kind.name ++ " at " ++ Hex.address r.address.toNat ++ " (0x" ++ Text.hexLower r.length
    ++ " bytes)"

end Region

def Conflict.write (c : Conflict) : Text :=
  match c.kind, c.second with
  | .sharedAddress, some second =>
    "Conflict: " ++ c.first.write ++ " and " ++ second.write ++ " share an address"
  | .overlap, some second => "Conflict: " ++ c.first.write ++ " overlaps " ++ second.write
  | _, _ => "Conflict: original code at " ++ c.first.write ++ " does not match the game"

end GamePatch
