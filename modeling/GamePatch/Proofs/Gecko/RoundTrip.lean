import GamePatch.Proofs.Gecko.Records
import Mathlib.Data.List.SplitBy

set_option autoImplicit false

namespace List

variable {α : Type} {r : α → α → Bool} {a b : α} {l : List α}

/-- An element that is not related to the next one is a run of its own. -/
theorem splitBy_cons_of_not_rel (apart : r a b = false) :
    (a :: b :: l).splitBy r = [a] :: (b :: l).splitBy r :=
  splitBy_append_cons (l := [a]) l (by simpa using apart)

theorem exists_splitBy_cons (r : α → α → Bool) (a : α) (l : List α) :
    ∃ group groups, (a :: l).splitBy r = (a :: group) :: groups := by
  have whole := flatten_splitBy r (a :: l)
  have nonempty := nil_notMem_splitBy r (a :: l)
  obtain ⟨first, groups, split⟩ := exists_cons_of_ne_nil (splitBy_ne_nil.mpr (cons_ne_nil a l))
  rw [split, mem_cons, not_or] at nonempty
  obtain ⟨c, group, rfl⟩ := exists_cons_of_ne_nil (Ne.symm nonempty.1)
  rw [split, flatten_cons] at whole
  obtain rfl : c = a := (cons.inj whole).1
  exact ⟨group, groups, split⟩

/-- An element that is related to the next one belongs to its run. -/
theorem splitBy_cons_of_rel (related : r a b = true) {group : List α} {groups : List (List α)}
    (rest : (b :: l).splitBy r = (b :: group) :: groups) :
    (a :: b :: l).splitBy r = (a :: b :: group) :: groups := by
  obtain ⟨whole, nonempty, chains, breaks⟩ := splitBy_eq_iff.mp rest
  rw [mem_cons, not_or] at nonempty
  rw [forall_mem_cons] at chains
  rw [isChain_cons] at breaks
  refine splitBy_eq_iff.mpr ⟨by rw [whole]; rfl, by simpa using nonempty.2, ?_, ?_⟩
  · exact forall_mem_cons.mpr ⟨isChain_cons_cons.mpr ⟨related, chains.1⟩, chains.2⟩
  · refine isChain_cons.mpr ⟨fun next first => ?_, breaks.2⟩
    obtain ⟨_, found, apart⟩ := breaks.1 next first
    exact ⟨cons_ne_nil _ _, found, by rwa [getLast_cons_cons]⟩

end List

namespace GamePatch

namespace GeckoRecord

def followedBy : GeckoRecord → GeckoRecord → Bool
  | .write address bytes, .write next _ => address.toNat + bytes.length == next.toNat
  | _, _ => false

/-- The record that a run of records becomes: a write with the bytes of all of them, or an injection
with the same lines. -/
inductive JoinOf : List GeckoRecord → GeckoRecord → Prop
  | writes (address : Address) (bytes : Bytes) (rest : List (Address × Bytes)) :
      JoinOf (.write address bytes :: rest.map fun w => .write w.1 w.2)
        (.write address (bytes ++ rest.flatMap Prod.snd))
  | inject (address : Address) {code code' : Bytes}
      (same : toBytes (.inject address code') = toBytes (.inject address code)) :
      JoinOf [.inject address code] (.inject address code')

/-- The record that a change is read as: the address of its target and the bytes of its code. -/
def ofChange? (c : Change) : Option GeckoRecord :=
  match c.kind, Address.parse? c.target, Hex.decode c.code with
  | .overwrite, some address, .ok bytes => some (.write address bytes)
  | .injection, some address, .ok code => some (.inject address code)
  | _, _, _ => none

theorem Restored.joinOf {r back : GeckoRecord} (restored : Restored r back) : JoinOf [r] back := by
  cases restored with
  | write address bytes =>
    have alone := JoinOf.writes address bytes []
    rwa [List.flatMap_nil, List.append_nil] at alone
  | inject address same => exact .inject address same

theorem mergeInto_nil (r : GeckoRecord) : mergeInto r [] = [r] := by
  cases r <;> rfl

theorem mergeInto_of_not_followedBy {r back next first : GeckoRecord}
    {group merged : List GeckoRecord} (restored : Restored r back)
    (joined : JoinOf (next :: group) first) (apart : followedBy r next = false) :
    mergeInto back (first :: merged) = back :: first :: merged := by
  cases restored with
  | inject address same => rfl
  | write address bytes =>
    cases joined with
    | inject other same => rfl
    | writes other more rest =>
      have gap : address.toNat + bytes.length ≠ other.toNat := by
        simpa only [followedBy, beq_eq_false_iff_ne] using apart
      rw [mergeInto, if_neg gap]

theorem mergeInto_of_followedBy {r back next first : GeckoRecord} {group merged : List GeckoRecord}
    (restored : Restored r back) (joined : JoinOf (next :: group) first)
    (follows : followedBy r next = true) :
    ∃ whole, mergeInto back (first :: merged) = whole :: merged ∧
      JoinOf (r :: next :: group) whole := by
  cases restored with
  | inject address same => cases follows
  | write address bytes =>
    cases joined with
    | inject other same => cases follows
    | writes other more rest =>
      have touching : address.toNat + bytes.length = other.toNat := by
        simpa only [followedBy, beq_iff_eq] using follows
      refine ⟨.write address (bytes ++ (more ++ rest.flatMap Prod.snd)), ?_, ?_⟩
      · rw [mergeInto, if_pos touching]
      · exact .writes address bytes ((other, more) :: rest)

/-- Each run of records becomes one. -/
theorem mergeWrites_joinOf {rs backs : List GeckoRecord}
    (restored : List.Forall₂ Restored rs backs) :
    List.Forall₂ JoinOf (rs.splitBy followedBy) (mergeWrites backs) := by
  induction restored with
  | nil => exact .nil
  | @cons r back rs backs first rest ih =>
    have step : mergeWrites (back :: backs) = mergeInto back (mergeWrites backs) := rfl
    rw [step]
    cases rest with
    | nil =>
      rw [mergeWrites, List.foldr_nil, mergeInto_nil]
      exact .cons first.joinOf .nil
    | @cons next _ rs backs _ _ =>
      -- The run of the next record is the first one behind this record.
      obtain ⟨group, groups, split⟩ := List.exists_splitBy_cons followedBy next rs
      rw [split, List.forall₂_cons_left_iff] at ih
      obtain ⟨whole, merged, joined, more, same⟩ := ih
      rw [same]
      cases follows : followedBy r next with
      | false =>
        rw [List.splitBy_cons_of_not_rel follows, split,
          mergeInto_of_not_followedBy first joined follows]
        exact .cons first.joinOf (.cons joined more)
      | true =>
        obtain ⟨longer, put, run⟩ := mergeInto_of_followedBy first joined follows
        rw [List.splitBy_cons_of_rel follows split, put]
        exact .cons run more

/-- The place of a change is the address of its record. -/
theorem parse?_targetOf (address : Address) :
    Address.parse? (Text.trim (targetOf address)) = some address := by
  rw [targetOf, Hex.trim_marked, Address.parse?_encodeWord]

/-- A record is read back from its change. -/
theorem ofChange?_toChange {r : GeckoRecord} (ordinary : r.IsOrdinary) :
    ofChange? r.toChange = some r ∧ r.toChange.kind ≠ .gecko := by
  cases r with
  | write address bytes =>
    refine ⟨?_, ChangeKind.noConfusion⟩
    simp only [ofChange?, toChange, Change.new, parse?_targetOf, Hex.decode_formatWords]
  | inject address code =>
    refine ⟨?_, ChangeKind.noConfusion⟩
    simp only [ofChange?, toChange, Change.new, parse?_targetOf, Hex.decode_formatWords]
  | raw bytes => exact ordinary.elim

theorem mapM_ofChange? {records : List GeckoRecord} (ordinary : ∀ r ∈ records, r.IsOrdinary) :
    (records.map toChange).mapM ofChange? = some records ∧
      ∀ c ∈ records.map toChange, c.kind ≠ .gecko := by
  induction records with
  | nil => exact ⟨rfl, by simp⟩
  | cons r records ih =>
    rw [List.forall_mem_cons] at ordinary
    have back := ofChange?_toChange ordinary.1
    obtain ⟨rest, kinds⟩ := ih ordinary.2
    rw [List.map_cons, List.mapM_cons, back.1, rest, List.forall_mem_cons]
    exact ⟨rfl, back.2, kinds⟩

/-- Writes and injections are read back from their text: the writes that follow on each other as
one, and every other record as one with the same lines. -/
theorem parse_toText {rs : List GeckoRecord} (plain : ∀ r ∈ rs, r.IsPlain) :
    ∃ changes records, parse (Text.joinLines (rs.map toText)) = .ok changes ∧
      (∀ c ∈ changes, c.kind ≠ .gecko) ∧ changes.mapM ofChange? = some records ∧
        List.Forall₂ JoinOf (rs.splitBy followedBy) records := by
  obtain ⟨backs, blocks, restored, bytes, nonempty, read⟩ := exists_blocks plain
  have joined := mergeWrites_joinOf restored
  have ordinary := isOrdinary_mergeWrites (isOrdinary_of_readLines _ _ read)
  obtain ⟨records, kinds⟩ := mapM_ofChange? ordinary
  refine ⟨(mergeWrites backs).map toChange, mergeWrites backs, ?_, kinds, records, joined⟩
  rw [parse, joinLines_toText bytes nonempty, GeckoLine.readAll_write]
  simp only [read]

/-- Two writes one behind the other, code with a filler of its own, and a write of five bytes. -/
def mixedRecords : List GeckoRecord :=
  [.write 0x80001000 [0x12, 0x34], .write 0x80001002 [0x56],
    .inject 0x81002000 [0x38, 0x60, 0, 1, 0x38, 0x80, 0, 1, 0x60, 0, 0, 0],
    .write 0x80003000 [1, 2, 3, 4, 5]]

theorem mixedRecords_parse :
    ∃ changes records, parse (Text.joinLines (mixedRecords.map toText)) = .ok changes ∧
      (∀ c ∈ changes, c.kind ≠ .gecko) ∧ changes.mapM ofChange? = some records ∧
        List.Forall₂ JoinOf (mixedRecords.splitBy followedBy) records := by
  refine parse_toText fun r member => ?_
  simp only [mixedRecords, List.mem_cons, List.not_mem_nil, or_false] at member
  rcases member with rfl | rfl | rfl | rfl
  · exact ⟨by decide, by decide, by decide⟩
  · exact ⟨by decide, by decide, by decide⟩
  · exact ⟨by decide, by decide⟩
  · exact ⟨by decide, by decide, by decide⟩

end GeckoRecord

end GamePatch
