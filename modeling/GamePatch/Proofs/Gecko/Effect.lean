import GamePatch.Proofs.Gecko.RoundTrip
import Mathlib.Logic.Function.Basic

set_option autoImplicit false

namespace GamePatch

open GeckoLine (Pair payload readAll)

abbrev Memory := Address → UInt8

/-- Bytes to be written at a place. -/
structure Overwrite where
  place : Address
  bytes : Bytes
deriving DecidableEq, Repr

namespace Memory

/-- The memory with bytes from an address on, written one by one. -/
def write : Memory → Address → Bytes → Memory
  | memory, _, [] => memory
  | memory, address, b :: bytes => write (Function.update memory address b) (address + 1) bytes

def apply (memory : Memory) (w : Overwrite) : Memory := memory.write w.place w.bytes

@[simp] theorem write_nil (memory : Memory) (address : Address) : memory.write address [] = memory :=
  rfl

/-- Bytes one behind another are written one after another. -/
theorem write_append (memory : Memory) (address : Address) (front back : Bytes) :
    memory.write address (front ++ back) =
      (memory.write address front).write (address + UInt32.ofNat front.length) back := by
  induction front generalizing memory address with
  | nil =>
    have none : address + UInt32.ofNat 0 = address := UInt32.add_zero address
    rw [List.nil_append, write_nil, List.length_nil, none]
  | cons b front ih =>
    have next : address + 1 + UInt32.ofNat front.length =
        address + UInt32.ofNat (front.length + 1) := by
      rw [UInt32.ofNat_add, UInt32.add_assoc, UInt32.add_comm 1]
      rfl
    rw [List.cons_append, write, ih, next]
    rfl

end Memory

/-- A console between two lines: its memory, where the next payload goes, and how many bytes of
payload are missing. -/
structure Console where
  memory : Memory
  next : Address
  missing : Nat

namespace GeckoLine

/-- The place that a code writes at: the low bits of its first word in the range of RAM. -/
def Pair.place (p : Pair) : Address := 0x80000000 ||| p.first &&& 0x1FFFFFF

theorem Pair.place_eq (p : Pair) : p.place = p.address := by
  have low : p.first.toNat % 0x2000000 < 2 ^ 31 := by omega
  have joined := Nat.two_pow_add_eq_or_of_lt low 1
  have masked : p.first.toNat &&& 0x1FFFFFF = p.first.toNat % 0x2000000 :=
    Nat.and_two_pow_sub_one_eq_mod p.first.toNat 25
  have sum : 0x80000000 ||| p.first.toNat % 0x2000000 = 0x80000000 + p.first.toNat % 0x2000000 :=
    joined.symm
  have constant : (0x80000000 : UInt32).toNat = 0x80000000 := rfl
  have mask : (0x1FFFFFF : UInt32).toNat = 0x1FFFFFF := rfl
  rw [Pair.place, Pair.address, ← UInt32.toNat_inj, UInt32.toNat_or, UInt32.toNat_and, constant,
    mask, masked, sum, UInt32.toNat_ofNat', Address.ramStart]
  omega

/-- The number of a code: its first byte, of which the lowest bit belongs to the address. -/
def Pair.code (p : Pair) : Nat := (p.first >>> 24 &&& 0xFE).toNat

theorem Pair.code_eq (p : Pair) : p.code = p.type := by
  have cleared : ∀ n < 256, n &&& 0xFE = n / 2 * 2 := by decide +kernel
  have byte : (p.first >>> 24).toNat = p.first.toNat / 0x1000000 := by
    rw [UInt32.toNat_shiftRight]
    exact Nat.shiftRight_eq_div_pow _ 24
  have small := p.first.toNat_lt
  have mask : (0xFE : UInt32).toNat = 0xFE := rfl
  rw [Pair.code, Pair.type, UInt32.toNat_and, byte, mask, cleared _ (by omega)]
  omega

end GeckoLine

namespace Console

/-- The first line of a code. None for a code that does not write, or more than once. -/
def start (s : Console) (line : Pair) : Option Console :=
  let second := line.second.toNat
  match line.code with
  | 0x00 =>
    if second < 0x10000 then
      some { s with memory := s.memory.write line.place (Bytes.bigEndian 1 second) }
    else none
  | 0x02 =>
    if second < 0x10000 then
      some { s with memory := s.memory.write line.place (Bytes.bigEndian 2 second) }
    else none
  | 0x04 => some { s with memory := s.memory.write line.place (Bytes.bigEndian 4 second) }
  | 0x06 => some { s with next := line.place, missing := second }
  | _ => none

/-- A line of payload, of which no more is written than is missing. -/
def fill (s : Console) (line : Pair) : Console :=
  { memory := s.memory.write s.next (line.bytes.take s.missing)
    next := s.next + 8
    missing := s.missing - 8 }

def step (s : Console) (line : Pair) : Option Console :=
  if s.missing = 0 then s.start line else some (s.fill line)

/-- The memory behind some lines. None if payload is missing in the end. -/
def run (lines : List Pair) (memory : Memory) : Option Memory :=
  match lines.foldlM step ⟨memory, 0, 0⟩ with
  | some ⟨after, _, 0⟩ => some after
  | _ => none

/-- The lines of a payload are written as one. -/
theorem run_payload (s : Console) {body : List Pair} (whole : body.length = (s.missing + 7) / 8) :
    ∃ next, body.foldlM step s =
      some ⟨s.memory.write s.next ((payload body).take s.missing), next, 0⟩ := by
  induction body generalizing s with
  | nil =>
    have filled : s.missing = 0 := by
      rw [List.length_nil] at whole
      omega
    refine ⟨s.next, ?_⟩
    rw [filled, List.take_zero, Memory.write_nil, ← filled]
    rfl
  | cons p body ih =>
    rw [List.length_cons] at whole
    have waiting : s.missing ≠ 0 := by omega
    have more : body.length = ((s.fill p).missing + 7) / 8 := by
      change _ = (s.missing - 8 + 7) / 8
      omega
    obtain ⟨next, run⟩ := ih (s.fill p) more
    refine ⟨next, ?_⟩
    have joined : (s.fill p).memory.write (s.fill p).next
        ((payload body).take (s.fill p).missing) =
          s.memory.write s.next ((payload (p :: body)).take s.missing) := by
      change (s.memory.write s.next (p.bytes.take s.missing)).write (s.next + 8)
        ((payload body).take (s.missing - 8)) = _
      rw [GeckoLine.payload_cons, List.take_append, p.length_bytes, Memory.write_append]
      by_cases full : 8 ≤ s.missing
      · have length : (p.bytes.take s.missing).length = 8 := by
          rw [List.length_take, p.length_bytes]
          omega
        rw [length]
        rfl
      · have nothing : s.missing - 8 = 0 := by omega
        rw [nothing, List.take_zero, Memory.write_nil, Memory.write_nil]
    rw [List.foldlM_cons, step, if_neg waiting, ← joined]
    exact run

end Console

namespace GeckoRecord

/-- The lines of a code that writes once, and what it writes. -/
inductive WriteCode : List Pair → Overwrite → Prop
  /-- One, two or four bytes, which are the low ones of the second word. -/
  | short {p : Pair} {width : Nat} (known : (p.code, width) ∈ shortTypes)
      (once : width < 4 → p.second.toNat < 0x10000) :
      WriteCode [p] ⟨p.place, Bytes.bigEndian width p.second.toNat⟩
  /-- As many bytes as the second word says, in lines of their own. -/
  | long {p : Pair} {body : List Pair} (kind : p.code = 0x06)
      (whole : body.length = (p.second.toNat + 7) / 8) :
      WriteCode (p :: body) ⟨p.place, (payload body).take p.second.toNat⟩

def ofOverwrite (w : Overwrite) : GeckoRecord := .write w.place w.bytes

/-- The lines of a code are read as what it writes, whatever stands behind them. -/
theorem readLines_writeCode {lines : List Pair} {w : Overwrite} (code : WriteCode lines w)
    (rest : List Pair) :
    readLines (lines ++ rest) =
      (readLines rest).map fun records => records.map (ofOverwrite w :: ·) := by
  cases code with
  | @short p width known once =>
    rw [p.code_eq] at known
    rw [ofOverwrite, p.place_eq]
    exact readLines_short known once rest
  | @long p body kind whole =>
    have enough : (p.second.toNat + 7) / 8 ≤ (body ++ rest).length := by
      rw [List.length_append]
      omega
    have read := readLines_long (p.code_eq ▸ kind) enough
    rw [List.take_left' whole, List.drop_left' whole] at read
    rw [ofOverwrite, p.place_eq]
    exact read

/-- Codes one under another are read one by one. -/
theorem readLines_writeCodes {blocks : List (List Pair)} {ws : List Overwrite}
    (codes : List.Forall₂ WriteCode blocks ws) :
    readLines blocks.flatten = .ok (some (ws.map ofOverwrite)) := by
  induction codes with
  | nil => rw [List.flatten_nil, readLines, List.map_nil]
  | cons first _ ih =>
    rw [List.flatten_cons, readLines_writeCode first, ih]
    rfl

/-- The console writes what a code says, and then waits for the next one. -/
theorem run_writeCode {lines : List Pair} {w : Overwrite} (code : WriteCode lines w)
    (memory : Memory) (next : Address) :
    ∃ next', lines.foldlM Console.step ⟨memory, next, 0⟩ = some ⟨memory.apply w, next', 0⟩ := by
  cases code with
  | @short p width known once =>
    refine ⟨next, ?_⟩
    have step : Console.step ⟨memory, next, 0⟩ p =
        some ⟨memory.write p.place (Bytes.bigEndian width p.second.toNat), next, 0⟩ := by
      simp only [shortTypes, List.mem_cons, Prod.mk.injEq, List.not_mem_nil, or_false] at known
      rw [Console.step, if_pos rfl, Console.start]
      rcases known with ⟨kind, rfl⟩ | ⟨kind, rfl⟩ | ⟨kind, rfl⟩
      · simp only [kind, once (by decide), ↓reduceIte]
      · simp only [kind, once (by decide), ↓reduceIte]
      · simp only [kind]
    rw [List.foldlM_cons, step]
    rfl
  | @long p body kind whole =>
    have step : Console.step ⟨memory, next, 0⟩ p = some ⟨memory, p.place, p.second.toNat⟩ := by
      rw [Console.step, if_pos rfl, Console.start]
      simp only [kind]
    obtain ⟨next', run⟩ := Console.run_payload ⟨memory, p.place, p.second.toNat⟩ whole
    refine ⟨next', ?_⟩
    rw [List.foldlM_cons, step]
    exact run

theorem run_writeCodes {blocks : List (List Pair)} {ws : List Overwrite}
    (codes : List.Forall₂ WriteCode blocks ws) (memory : Memory) (next : Address) :
    ∃ next', blocks.flatten.foldlM Console.step ⟨memory, next, 0⟩ =
      some ⟨ws.foldl Memory.apply memory, next', 0⟩ := by
  induction codes generalizing memory next with
  | nil => exact ⟨next, rfl⟩
  | cons first _ ih =>
    obtain ⟨between, run⟩ := run_writeCode first memory next
    obtain ⟨next', more⟩ := ih (memory.apply _) between
    refine ⟨next', ?_⟩
    rw [List.flatten_cons, List.foldlM_append, run]
    exact more

/-- A write takes in the write that begins where it ends, and the two leave the same memory. -/
theorem mergeInto_overwrites (w : Overwrite) (ws : List Overwrite) :
    ∃ merged : List Overwrite,
      mergeInto (ofOverwrite w) (ws.map ofOverwrite) = merged.map ofOverwrite ∧
        ∀ memory, merged.foldl Memory.apply memory = (w :: ws).foldl Memory.apply memory := by
  cases ws with
  | nil => exact ⟨[w], mergeInto_nil _, fun _ => rfl⟩
  | cons first ws =>
    by_cases touching : w.place.toNat + w.bytes.length = first.place.toNat
    · refine ⟨⟨w.place, w.bytes ++ first.bytes⟩ :: ws, ?_, fun memory => ?_⟩
      · rw [List.map_cons, ofOverwrite, ofOverwrite, mergeInto, if_pos touching]
        rfl
      · have behind : first.place = w.place + UInt32.ofNat w.bytes.length := by
          rw [← UInt32.toNat_inj, UInt32.toNat_add, UInt32.toNat_ofNat', Nat.add_mod_mod, touching,
            Nat.mod_eq_of_lt first.place.toNat_lt]
        have both : memory.apply ⟨w.place, w.bytes ++ first.bytes⟩ =
            (memory.apply w).apply first := by
          rw [Memory.apply, Memory.write_append, ← behind]
          rfl
        rw [List.foldl_cons, both]
        rfl
    · refine ⟨w :: first :: ws, ?_, fun _ => rfl⟩
      rw [List.map_cons, ofOverwrite, ofOverwrite, mergeInto, if_neg touching]
      rfl

theorem mergeWrites_overwrites (ws : List Overwrite) :
    ∃ merged : List Overwrite, mergeWrites (ws.map ofOverwrite) = merged.map ofOverwrite ∧
      ∀ memory, merged.foldl Memory.apply memory = ws.foldl Memory.apply memory := by
  induction ws with
  | nil => exact ⟨[], rfl, fun _ => rfl⟩
  | cons w ws ih =>
    obtain ⟨rest, merged, same⟩ := ih
    obtain ⟨whole, first, effect⟩ := mergeInto_overwrites w rest
    refine ⟨whole, ?_, fun memory => ?_⟩
    · rw [← first, ← merged]
      rfl
    · rw [effect, List.foldl_cons, List.foldl_cons, same]

/-- A block of codes that write, and whose payload is all there, becomes overwrites that leave the
same memory as its lines. Each code is read once, from lines of its own. -/
theorem parse_writes {code : Text} {blocks : List (List Pair)} {ws : List Overwrite}
    (read : readAll code = .ok blocks.flatten) (codes : List.Forall₂ WriteCode blocks ws) :
    readLines blocks.flatten = .ok (some (ws.map ofOverwrite)) ∧
      ∃ (changes : List Change) (merged : List Overwrite), parse code = .ok changes ∧
        (∀ c ∈ changes, c.kind = .overwrite) ∧
        changes.mapM ofChange? = some (merged.map ofOverwrite) ∧
        ∀ memory, Console.run blocks.flatten memory = some (merged.foldl Memory.apply memory) := by
  have known := readLines_writeCodes codes
  obtain ⟨merged, records, effect⟩ := mergeWrites_overwrites ws
  have ordinary : ∀ r ∈ merged.map ofOverwrite, r.IsOrdinary := by
    intro r member
    obtain ⟨w, -, rfl⟩ := List.mem_map.mp member
    trivial
  refine ⟨known, (merged.map ofOverwrite).map toChange, merged, ?_, ?_,
    (mapM_ofChange? ordinary).1, fun memory => ?_⟩
  · rw [parse, read]
    simp only [known, records]
  · intro c member
    obtain ⟨r, inside, rfl⟩ := List.mem_map.mp member
    obtain ⟨w, -, rfl⟩ := List.mem_map.mp inside
    rfl
  · obtain ⟨next, ran⟩ := run_writeCodes codes memory 0
    rw [Console.run, ran, effect]
    rfl

/-- A word, nine bytes behind it whose lines look like codes, a byte in the midst of them, and two
bytes in the upper half of memory. -/
def patchBlock : Text :=
  "04001000 38600001\n06001004 00000009\n04001000 00000000\n05000000 00000000\n" ++
    "00001006 00001FFF\n03001010 00001234"

theorem patchBlock_parse :
    ∃ (changes : List Change) (merged : List Overwrite), parse patchBlock = .ok changes ∧
      (∀ c ∈ changes, c.kind = .overwrite) ∧
      changes.mapM ofChange? = some (merged.map ofOverwrite) ∧
      ∀ memory, Console.run [⟨0x04001000, 0x38600001⟩, ⟨0x06001004, 9⟩, ⟨0x04001000, 0⟩,
        ⟨0x05000000, 0⟩, ⟨0x00001006, 0x1FFF⟩, ⟨0x03001010, 0x1234⟩] memory =
          some (merged.foldl Memory.apply memory) := by
  have word := @WriteCode.short ⟨0x04001000, 0x38600001⟩ 4 (by decide) (by decide)
  have long := @WriteCode.long ⟨0x06001004, 9⟩ [⟨0x04001000, 0⟩, ⟨0x05000000, 0⟩] (by decide)
    (by decide)
  have byte := @WriteCode.short ⟨0x00001006, 0x1FFF⟩ 1 (by decide) (by decide)
  have half := @WriteCode.short ⟨0x03001010, 0x1234⟩ 2 (by decide) (by decide)
  have read : readAll patchBlock = .ok [⟨0x04001000, 0x38600001⟩, ⟨0x06001004, 9⟩, ⟨0x04001000, 0⟩,
      ⟨0x05000000, 0⟩, ⟨0x00001006, 0x1FFF⟩, ⟨0x03001010, 0x1234⟩] := by decide +kernel
  exact (parse_writes read (.cons word (.cons long (.cons byte (.cons half .nil))))).2

end GeckoRecord

end GamePatch
