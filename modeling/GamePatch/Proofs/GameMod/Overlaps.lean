import GamePatch.GameMod.Conflict
import Mathlib.Data.Char
import Mathlib.Data.List.Forall2
import Mathlib.Data.List.Lex
import Mathlib.Data.List.Permutation
import Mathlib.Data.Prod.Lex

set_option autoImplicit false

namespace GamePatch

theorem Text.le_iff (s t : Text) : Text.le s t = true ↔ s ≤ t := by
  induction s generalizing t with
  | nil => simp [Text.le, ← not_lt]
  | cons a s ih =>
    cases t with
    | nil => simp [Text.le, ← not_lt]
    | cons b t =>
      have first : a :: s ≤ b :: t ↔ ¬ (b < a ∨ b = a ∧ t < s) := by
        rw [← not_lt, List.cons_lt_cons_iff]
      rw [first, Text.le]
      split
      case isTrue same => simp [same, ih]
      case isFalse other =>
        have later : ¬ b < a ↔ a.toNat ≤ b.toNat := Nat.not_lt
        simp [later, Ne.symm other]

/-- The pairs of an element of a list and one behind it. -/
def pairs {α : Type} : List α → List (α × α)
  | [] => []
  | a :: behind => behind.map (a, ·) ++ pairs behind

section

variable {α β : Type}

theorem mem_pairs_cons {a b c : α} {behind : List α} :
    (b, c) ∈ pairs (a :: behind) ↔ (b = a ∧ c ∈ behind) ∨ (b, c) ∈ pairs behind := by
  simp only [pairs, List.mem_append, List.mem_map, Prod.mk.injEq]
  constructor
  · rintro (⟨_, inside, rfl, rfl⟩ | later)
    · exact Or.inl ⟨rfl, inside⟩
    · exact Or.inr later
  · rintro (⟨rfl, inside⟩ | later)
    · exact Or.inl ⟨c, inside, rfl, rfl⟩
    · exact Or.inr later

theorem mem_of_mem_pairs {a b : α} {l : List α} (pair : (a, b) ∈ pairs l) : a ∈ l ∧ b ∈ l := by
  induction l with
  | nil => cases pair
  | cons c behind ih =>
    rcases mem_pairs_cons.mp pair with ⟨rfl, inside⟩ | later
    · exact ⟨List.mem_cons_self, List.mem_cons_of_mem a inside⟩
    · exact ⟨List.mem_cons_of_mem c (ih later).1, List.mem_cons_of_mem c (ih later).2⟩

theorem mem_pairs_iff {a b : α} {l : List α} : (a, b) ∈ pairs l ↔ [a, b].Sublist l := by
  induction l with
  | nil => simp [pairs]
  | cons c behind ih =>
    rw [mem_pairs_cons, ih, List.sublist_cons_iff, or_comm]
    simp

end

def ascending (p : Nat × Nat) : Nat × Nat := (min p.1 p.2, max p.1 p.2)

namespace Region

/-- What regions are put in order by. -/
def key (r : Region) : ℕ ×ₗ ℕ ×ₗ Text := toLex (r.address.toNat, toLex (r.length, r.target))

theorem key_eq_iff {r s : Region} :
    r.key = s.key ↔ r.address = s.address ∧ r.length = s.length ∧ r.target = s.target := by
  simp [key, UInt32.toNat_inj]

theorem le_iff (r s : Region) : le r s = true ↔ r.key ≤ s.key := by
  have address : r.address = s.address ↔ r.address.toNat = s.address.toNat := UInt32.toNat_inj.symm
  rw [key, key, Prod.Lex.toLex_le_toLex, Prod.Lex.toLex_le_toLex, le]
  split
  case isTrue other =>
    have other : r.address.toNat ≠ s.address.toNat := mt address.mpr other
    simp only [decide_eq_true_eq, other, false_and, or_false]
    omega
  case isFalse same =>
    rw [not_not, address] at same
    split
    case isTrue other =>
      simp only [decide_eq_true_eq, same, lt_irrefl, true_and, false_or, other, false_and, or_false]
      omega
    case isFalse same' =>
      rw [not_not] at same'
      simp only [same, same', lt_irrefl, true_and, false_or, Text.le_iff]

theorem le_trans (r s t : Region) (first : le r s = true) (second : le s t = true) :
    le r t = true := by
  rw [le_iff] at *
  exact first.trans second

theorem le_total (r s : Region) : (le r s || le s r) = true := by
  rw [Bool.or_eq_true, le_iff, le_iff]
  exact LinearOrder.le_total r.key s.key

/-- The regions in which overlaps are looked for, in the order in which they are looked at. -/
def inOrder (regions : List Region) : List Region :=
  (regions.filter fun r => decide (0 < r.length)).mergeSort le

theorem pairwise_inOrder (regions : List Region) :
    (inOrder regions).Pairwise fun r s => r.key ≤ s.key := by
  have sorted := List.pairwise_mergeSort le_trans le_total
    (regions.filter fun r => decide (0 < r.length))
  exact sorted.imp fun {r s} first => (le_iff r s).mp first

theorem address_le_of_key_le {r s : Region} (first : r.key ≤ s.key) :
    r.address.toNat ≤ s.address.toNat := by
  rw [key, key, Prod.Lex.toLex_le_toLex] at first
  rcases first with before | ⟨same, -⟩
  · exact Nat.le_of_lt before
  · exact Nat.le_of_eq same

/-- Whether a region goes on to the start of another one that does not start before it. -/
def reaches (r s : Region) : Bool := decide (s.address.toNat < r.address.toNat + r.length)

def IsBounded (r : Region) : Prop := r.address.toNat + r.length < 0x10000000000000000

theorem stop_of_isBounded {r : Region} (bounded : r.IsBounded) :
    r.stop = .ok (r.address.toNat + r.length) :=
  if_pos bounded

theorem stop_of_not_isBounded {r : Region} (unbounded : ¬ r.IsBounded) : r.stop = .error .overflow :=
  if_neg unbounded

theorem Meets.symm {r s : Region} (meet : r.Meets s) : s.Meets r := by
  obtain ⟨a, above, below, above', below'⟩ := meet
  exact ⟨a, above', below', above, below⟩

/-- Behind a region, those that it reaches are in front of those that it does not reach. -/
theorem conflictsWith_eq {first : Region} {behind : List Region} (bounded : first.IsBounded)
    (sorted : behind.Pairwise fun r s => r.address.toNat ≤ s.address.toNat) :
    first.conflictsWith behind = .ok ((behind.filter first.reaches).map first.conflict) := by
  induction behind with
  | nil => rfl
  | cons s behind ih =>
    obtain ⟨least, rest⟩ := List.pairwise_cons.mp sorted
    rw [conflictsWith, stop_of_isBounded bounded]
    by_cases reached : s.address.toNat < first.address.toNat + first.length
    · simp [bind, Except.bind, reaches, reached, ih rest]
    · have beyond : ∀ t ∈ behind, ¬ first.reaches t = true := by
        intro t inside goesOn
        have := least t inside
        rw [reaches, decide_eq_true_eq] at goesOn
        omega
      simp [bind, Except.bind, reaches, reached, List.filter_eq_nil_iff.mpr beyond]

theorem conflictsWith_of_not_isBounded {first : Region} {behind : List Region}
    (unbounded : ¬ first.IsBounded) (some : behind ≠ []) :
    first.conflictsWith behind = .error .overflow := by
  cases behind with
  | nil => exact absurd rfl some
  | cons s behind => rw [conflictsWith, stop_of_not_isBounded unbounded]; rfl

/-- The conflicts among regions in order are those of the pairs that reach each other. The ends of all
regions but the last are looked at. -/
theorem conflictsAmong_eq {regions : List Region} (bounded : ∀ p ∈ pairs regions, p.1.IsBounded)
    (sorted : regions.Pairwise fun r s => r.address.toNat ≤ s.address.toNat) :
    conflictsAmong regions =
      .ok (((pairs regions).filter fun p => p.1.reaches p.2).map fun p => p.1.conflict p.2) := by
  induction regions with
  | nil => rfl
  | cons first behind ih =>
    rw [pairs, List.forall_mem_append] at bounded
    obtain ⟨-, rest⟩ := List.pairwise_cons.mp sorted
    have own : first.conflictsWith behind = .ok ((behind.filter first.reaches).map first.conflict) := by
      cases behind with
      | nil => rfl
      | cons s behind =>
        exact conflictsWith_eq (bounded.1 (first, s) (List.mem_map_of_mem List.mem_cons_self)) rest
    rw [conflictsAmong, own, ih bounded.2 rest, pairs, List.filter_append, List.map_append,
      List.filter_map, List.map_map]
    rfl

theorem conflictsAmong_of_not_isBounded {regions : List Region} {p : Region × Region}
    (inside : p ∈ pairs regions) (unbounded : ¬ p.1.IsBounded) :
    conflictsAmong regions = .error .overflow := by
  induction regions with
  | nil => cases inside
  | cons first behind ih =>
    rw [conflictsAmong]
    rcases mem_pairs_cons.mp inside with ⟨rfl, member⟩ | later
    · rw [conflictsWith_of_not_isBounded unbounded (List.ne_nil_of_mem member)]
      rfl
    · rw [ih later]
      cases first.conflictsWith behind <;> rfl

theorem overlaps_eq {regions : List Region} (bounded : ∀ p ∈ pairs (inOrder regions), p.1.IsBounded) :
    overlaps regions = .ok
      (((pairs (inOrder regions)).filter fun p => p.1.reaches p.2).map fun p => p.1.conflict p.2) :=
  conflictsAmong_eq bounded ((pairwise_inOrder regions).imp address_le_of_key_le)

theorem overlaps_eq_overflow_iff (regions : List Region) :
    overlaps regions = .error .overflow ↔ ∃ p ∈ pairs (inOrder regions), ¬ p.1.IsBounded := by
  constructor
  · intro overflow
    by_contra bounded
    push Not at bounded
    rw [overlaps_eq bounded] at overflow
    cases overflow
  · rintro ⟨p, inside, unbounded⟩
    exact conflictsAmong_of_not_isBounded inside unbounded

theorem eq_of_overlaps {regions : List Region} {conflicts : List Conflict}
    (found : overlaps regions = .ok conflicts) :
    ((pairs (inOrder regions)).filter fun p => p.1.reaches p.2).map (fun p => p.1.conflict p.2) =
      conflicts := by
  have bounded : ∀ p ∈ pairs (inOrder regions), p.1.IsBounded := by
    intro p inside
    by_contra unbounded
    rw [(overlaps_eq_overflow_iff regions).mpr ⟨p, inside, unbounded⟩] at found
    cases found
  rw [overlaps_eq bounded] at found
  exact Except.ok.inj found

end Region

namespace Region

theorem mem_inOrder {regions : List Region} {r : Region} :
    r ∈ inOrder regions ↔ r ∈ regions ∧ 0 < r.length := by
  rw [inOrder, List.mem_mergeSort, List.mem_filter, decide_eq_true_eq]

/-- Which of two regions comes first does not hang on the order in which all are given, unless they
have the same key, and then they have the same end. -/
theorem exists_unbounded_pair_iff (regions : List Region) :
    (∃ p ∈ pairs (inOrder regions), ¬ p.1.IsBounded) ↔
      ∃ r s, [r, s].Subperm regions ∧ 0 < r.length ∧ 0 < s.length ∧ le r s = true ∧
        0x10000000000000000 ≤ r.address.toNat + r.length := by
  have sorted : ∀ {r s}, [r, s].Sublist (inOrder regions) → le r s = true := fun pair =>
    (le_iff _ _).mpr (List.pairwise_iff_forall_sublist.mp (pairwise_inOrder regions) pair)
  constructor
  · rintro ⟨⟨r, s⟩, inside, unbounded⟩
    have pair := mem_pairs_iff.mp inside
    obtain ⟨left, right⟩ := mem_of_mem_pairs inside
    refine ⟨r, s, ?_, (mem_inOrder.mp left).2, (mem_inOrder.mp right).2, sorted pair, not_lt.mp unbounded⟩
    exact (pair.subperm.trans (List.mergeSort_perm _ _).subperm).trans List.filter_sublist.subperm
  · rintro ⟨r, s, two, solid, solid', first, long⟩
    have kept : [r, s].filter (fun r => decide (0 < r.length)) = [r, s] := by simp [solid, solid']
    have inside : [r, s].Subperm (inOrder regions) := by
      have filtered := two.filter fun r => decide (0 < r.length)
      rw [kept] at filtered
      exact filtered.trans (List.mergeSort_perm _ _).symm.subperm
    obtain ⟨l, perm, sub⟩ := inside
    rcases List.perm_pair.mp perm with rfl | rfl
    · exact ⟨(r, s), mem_pairs_iff.mpr sub, not_lt.mpr long⟩
    · have key : s.key = r.key :=
        le_antisymm ((le_iff s r).mp (sorted sub)) ((le_iff r s).mp first)
      obtain ⟨address, length, -⟩ := key_eq_iff.mp key
      refine ⟨(s, r), mem_pairs_iff.mpr sub, not_lt.mpr ?_⟩
      rwa [address, length]

/-- A function that is overwritten, and a region in front of it that has no end in 64 bits. -/
def overwritten : Region := ⟨.overwrite, "0x80002000", 0x80002000, 4⟩

theorem eq_of_key_eq {r s : Region} (key : r.key = s.key) (kind : r.kind = s.kind) : r = s := by
  obtain ⟨address, length, target⟩ := key_eq_iff.mp key
  cases r
  cases s
  simp_all

/-- Two lists with the same regions are put in the same order if no two regions differ in their kinds
alone. -/
theorem inOrder_eq_of_perm {regions others : List Region} (perm : others.Perm regions)
    (apart : ∀ r ∈ regions, ∀ s ∈ regions, 0 < r.length → r.key = s.key → r.kind = s.kind) :
    inOrder others = inOrder regions := by
  have same : (inOrder others).Perm (inOrder regions) :=
    ((List.mergeSort_perm _ _).trans (perm.filter _)).trans (List.mergeSort_perm _ _).symm
  refine List.Perm.eq_of_pairwise ?_ (pairwise_inOrder others) (pairwise_inOrder regions) same
  intro r s left right forth back
  have key : r.key = s.key := le_antisymm forth back
  obtain ⟨inside, longer⟩ := mem_inOrder.mp left
  exact eq_of_key_eq key (apart r (perm.mem_iff.mp inside) s (mem_inOrder.mp right).1 longer key)

/-- The conflicts of regions with another key say nothing about those with this one. -/
theorem find?_pairs_append {k : ℕ ×ₗ ℕ ×ₗ Text} {front : List Region} (back : List Region)
    (other : ∀ t ∈ front, t.key ≠ k) :
    ((pairs (front ++ back)).find? fun p => p.1.reaches p.2 && decide (p.1.key = k)) =
      (pairs back).find? fun p => p.1.reaches p.2 && decide (p.1.key = k) := by
  induction front with
  | nil => rfl
  | cons t front ih =>
    obtain ⟨here, rest⟩ := List.forall_mem_cons.mp other
    have none : ((front ++ back).map (t, ·)).find? (fun p => p.1.reaches p.2 && decide (p.1.key = k)) =
        none := by
      rw [List.find?_eq_none]
      rintro p member
      obtain ⟨s, -, rfl⟩ := List.mem_map.mp member
      simp [here]
    rw [List.cons_append, pairs, List.find?_append, none, Option.none_or, ih rest]

/-- Regions with equal keys stay in the order in which they are given. -/
theorem exists_inOrder_cons {r : Region} (behind : List Region) (solid : 0 < r.length) :
    ∃ front back, inOrder (r :: behind) = front ++ r :: back ∧ inOrder behind = front ++ back ∧
      ∀ t ∈ front, t.key ≠ r.key := by
  obtain ⟨front, back, whole, rest, before⟩ :=
    List.mergeSort_cons le_trans le_total r (behind.filter fun r => decide (0 < r.length))
  refine ⟨front, back, ?_, rest, ?_⟩
  · rw [inOrder, List.filter_cons, if_pos (decide_eq_true solid), whole]
  · intro t inside same
    have behind : le r t = true := (le_iff r t).mpr (le_of_eq same.symm)
    have := before t inside
    simp [behind] at this

/-- If a region stands in front of another one with an equal key, the first conflict that is reported
for their key is its own. -/
theorem first_overlap_cons {r s : Region} {behind : List Region} {conflicts : List Conflict}
    (reported : overlaps (r :: behind) = .ok conflicts) (solid : 0 < r.length) (later : s ∈ behind)
    (alike : s.key = r.key) :
    (conflicts.find? fun c => decide (c.first.key = r.key)).map Conflict.first = some r := by
  obtain ⟨front, back, whole, rest, other⟩ := exists_inOrder_cons behind solid
  obtain ⟨address, length, -⟩ := key_eq_iff.mp alike
  have inBack : s ∈ back := by
    have inside : s ∈ inOrder behind := mem_inOrder.mpr ⟨later, length ▸ solid⟩
    rw [rest] at inside
    exact (List.mem_append.mp inside).resolve_left fun before => other s before alike
  have reached : r.reaches s = true := by
    rw [reaches, decide_eq_true_eq, address]
    omega
  have own : ∃ t, (back.map (r, ·)).find? (fun p => p.1.reaches p.2 && decide (p.1.key = r.key)) =
      some (r, t) := by
    have some : ((back.map (r, ·)).find? fun p => p.1.reaches p.2 && decide (p.1.key = r.key)).isSome := by
      rw [List.find?_isSome]
      exact ⟨(r, s), List.mem_map_of_mem inBack, by simp [reached]⟩
    obtain ⟨p, found⟩ := Option.isSome_iff_exists.mp some
    obtain ⟨t, -, rfl⟩ := List.mem_map.mp (List.mem_of_find?_eq_some found)
    exact ⟨t, found⟩
  obtain ⟨t, found⟩ := own
  rw [← eq_of_overlaps reported, List.find?_map, List.find?_filter, whole]
  simp only [Function.comp_def, Bool.decide_and, Bool.decide_eq_true]
  change (((pairs (front ++ r :: back)).find? fun p =>
    p.1.reaches p.2 && decide (p.1.key = r.key)).map _).map _ = _
  rw [find?_pairs_append _ other, pairs, List.find?_append, found]
  rfl

/-- The report is the same for every order of the regions exactly if the program ends instead of giving
one, or if no two regions that are not empty differ in their kinds alone. -/
theorem overlaps_eq_of_perm_iff (regions : List Region) :
    (∀ others : List Region, others.Perm regions → overlaps others = overlaps regions) ↔
      overlaps regions = .error .overflow ∨
        ∀ r ∈ regions, ∀ s ∈ regions, 0 < r.length → r.address = s.address → r.length = s.length →
          r.target = s.target → r.kind = s.kind := by
  constructor
  · intro stable
    cases reported : overlaps regions with
    | error e => exact Or.inl rfl
    | ok conflicts =>
      refine Or.inr fun r left s right solid address length target => ?_
      by_contra other
      have apart : r ≠ s := fun same => other (congrArg Region.kind same)
      have key : s.key = r.key := key_eq_iff.mpr ⟨address.symm, length.symm, target.symm⟩
      -- Each of the two can be put in front of all others.
      have ahead (t u : Region) (inside : t ∈ regions) (inside' : u ∈ regions) (solid : 0 < t.length)
          (differ : u ≠ t) (alike : u.key = t.key) :
          (conflicts.find? fun c => decide (c.first.key = t.key)).map Conflict.first = some t := by
        have moved := stable (t :: regions.erase t) (List.perm_cons_erase inside).symm
        exact first_overlap_cons (moved.trans reported) solid
          ((List.mem_erase_of_ne differ).mpr inside') alike
      have one := ahead r s left right solid apart.symm key
      have two := ahead s r right left (length ▸ solid) apart key.symm
      rw [key] at two
      exact apart (Option.some.inj (one.symm.trans two))
  · rintro (overflow | apart) others perm
    · rw [overflow, overlaps_eq_overflow_iff, exists_unbounded_pair_iff]
      obtain ⟨r, s, two, long⟩ :=
        (exists_unbounded_pair_iff regions).mp ((overlaps_eq_overflow_iff regions).mp overflow)
      exact ⟨r, s, two.trans perm.symm.subperm, long⟩
    · refine congrArg conflictsAmong (inOrder_eq_of_perm perm ?_)
      intro r left s right solid key
      obtain ⟨address, length, target⟩ := key_eq_iff.mp key
      exact apart r left s right solid address length target

def injected : Region := ⟨.injection, "0x80002000", 0x80002000, 4⟩

theorem swapped_kinds_overlaps_ne :
    [injected, overwritten].Perm [overwritten, injected] ∧
      overlaps [injected, overwritten] ≠ overlaps [overwritten, injected] := by
  have one : overlaps [overwritten, injected] = .ok [⟨.sharedAddress, overwritten, some injected⟩] := by
    cbv
  have two : overlaps [injected, overwritten] = .ok [⟨.sharedAddress, injected, some overwritten⟩] := by
    cbv
  refine ⟨List.Perm.swap _ _ _, ?_⟩
  rw [one, two, ne_eq, Except.ok.injEq]
  decide

end Region

end GamePatch
