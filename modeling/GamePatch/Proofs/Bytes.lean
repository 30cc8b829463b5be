import GamePatch.Bytes
import Mathlib.Algebra.Group.Nat.Defs
import Mathlib.Data.List.Induction

set_option autoImplicit false

namespace GamePatch

theorem chunks_flatten {α : Type} (size : Nat) (l : List α) : (chunks size l).flatten = l := by
  fun_induction chunks size l with
  | case1 => rfl
  | case2 x r ih => rw [List.flatten_cons, ih, List.cons_append, List.take_append_drop]

theorem length_of_mem_chunks {α : Type} {size : Nat} (positive : 0 < size) {l chunk : List α}
    (member : chunk ∈ chunks size l) : 1 ≤ chunk.length ∧ chunk.length ≤ size := by
  fun_induction chunks size l with
  | case1 => cases member
  | case2 x r ih =>
    rcases List.mem_cons.mp member with rfl | later
    · simp only [List.length_cons, List.length_take]
      omega
    · exact ih later

/-- All chunks are whole but the last one. -/
theorem length_chunks {α : Type} {size : Nat} (positive : 0 < size) (l : List α) :
    (chunks size l).length = (l.length + (size - 1)) / size := by
  fun_induction chunks size l with
  | case1 =>
    rw [List.length_nil, List.length_nil, Nat.zero_add, Nat.div_eq_of_lt (by omega)]
  | case2 x r ih =>
    have whole : (x :: r).length + (size - 1) = r.length + size := by
      rw [List.length_cons]
      omega
    rw [List.length_cons, ih, whole, Nat.add_div_right _ positive, List.length_drop]
    by_cases full : size - 1 ≤ r.length
    · rw [Nat.sub_add_cancel full]
    · rw [Nat.div_eq_of_lt (by omega), Nat.div_eq_of_lt (by omega)]

theorem chunks_append {α : Type} {size : Nat} {front : List α} (positive : 0 < size)
    (full : front.length = size) (back : List α) :
    chunks size (front ++ back) = front :: chunks size back := by
  cases front with
  | nil =>
    rw [List.length_nil] at full
    omega
  | cons x r =>
    obtain rfl : r.length + 1 = size := full
    rw [List.cons_append, chunks, Nat.add_sub_cancel, List.take_left, List.drop_left]

theorem chunks_map {α β : Type} (f : α → β) (size : Nat) (l : List α) :
    chunks size (l.map f) = (chunks size l).map (List.map f) := by
  fun_induction chunks size l with
  | case1 => rw [List.map_nil, chunks, List.map_nil]
  | case2 x r ih =>
    rw [List.map_cons, chunks, ← List.map_drop, ih, ← List.map_take, List.map_cons, List.map_cons]

/-- A list no longer than a chunk is one. -/
theorem chunks_eq_singleton {α : Type} {size : Nat} {l : List α} (nonempty : l ≠ [])
    (short : l.length ≤ size) : chunks size l = [l] := by
  cases l with
  | nil => exact absurd rfl nonempty
  | cons x r =>
    rw [List.length_cons] at short
    rw [chunks, List.take_of_length_le (by omega), List.drop_eq_nil_of_le (by omega), chunks]

namespace Bytes

theorem toNat_concat (bytes : Bytes) (b : UInt8) :
    toNat (bytes ++ [b]) = toNat bytes * 256 + b.toNat := by
  rw [toNat, List.foldl_append]
  rfl

/-- Bytes are the digits of their number. -/
theorem bigEndian_toNat (bytes : Bytes) : bigEndian bytes.length (toNat bytes) = bytes := by
  induction bytes using List.reverseRecOn with
  | nil => rfl
  | append_singleton bytes b ih =>
    have small := b.toNat_lt
    have high : (toNat bytes * 256 + b.toNat) / 256 = toNat bytes := by omega
    have low : UInt8.ofNat (toNat bytes * 256 + b.toNat) = b := by
      rw [← UInt8.toNat_inj, UInt8.toNat_ofNat']
      omega
    rw [toNat_concat, List.length_append, List.length_singleton, bigEndian, high, ih, low]

theorem toNat_lt (bytes : Bytes) : toNat bytes < 256 ^ bytes.length := by
  induction bytes using List.reverseRecOn with
  | nil => exact Nat.one_pos
  | append_singleton bytes b ih =>
    have small := b.toNat_lt
    rw [toNat_concat, List.length_append, List.length_singleton, Nat.pow_succ]
    omega

/-- Only the low bytes of a number are kept. -/
theorem toNat_bigEndian (width n : Nat) : toNat (bigEndian width n) = n % 256 ^ width := by
  induction width generalizing n with
  | zero => rw [bigEndian, Nat.pow_zero, Nat.mod_one]; rfl
  | succ width ih =>
    have split : n % 256 ^ (width + 1) = n % 256 + 256 * (n / 256 % 256 ^ width) := by
      rw [Nat.pow_succ, Nat.mul_comm, Nat.mod_mul]
    rw [bigEndian, toNat_concat, ih, UInt8.toNat_ofNat', split]
    omega

@[simp] theorem toNat_ofWord (w : UInt32) : toNat (ofWord w) = w.toNat := by
  rw [ofWord, toNat_bigEndian]
  exact Nat.mod_eq_of_lt w.toNat_lt

theorem ofWord_injective {v w : UInt32} (same : ofWord v = ofWord w) : v = w := by
  have values := congrArg toNat same
  rw [toNat_ofWord, toNat_ofWord] at values
  exact UInt32.toNat_inj.mp values

@[simp] theorem length_bigEndian (width n : Nat) : (bigEndian width n).length = width := by
  induction width generalizing n with
  | zero => rfl
  | succ width ih => rw [bigEndian, List.length_append, ih, List.length_singleton]

@[simp] theorem length_ofWord (w : UInt32) : (ofWord w).length = 4 := length_bigEndian 4 w.toNat

@[simp] theorem length_zeros (count : Nat) : (zeros count).length = count :=
  List.length_replicate

theorem valueCount_eq_pow (width : Nat) : valueCount width = 2 ^ (8 * width) := by
  induction width with
  | zero => rfl
  | succ width ih =>
    rw [valueCount, ih, Nat.mul_succ, Nat.pow_add, Nat.mul_comm]

/-- A larger width has more numbers. -/
theorem valueCount_mono {width width' : Nat} (le : width ≤ width') :
    valueCount width ≤ valueCount width' := by
  rw [valueCount_eq_pow, valueCount_eq_pow]
  exact Nat.pow_le_pow_right (by decide) (by omega)

theorem pow_byte (count : Nat) : 256 ^ count = 2 ^ (8 * count) := (Nat.pow_mul 2 8 count).symm

theorem toNat_append (front back : Bytes) :
    toNat (front ++ back) = toNat front * 256 ^ back.length + toNat back := by
  induction back using List.reverseRecOn with
  | nil => simp [toNat]
  | append_singleton back b ih =>
    rw [← List.append_assoc, toNat_concat, ih, toNat_concat, List.length_append,
      List.length_singleton, Nat.pow_succ, Nat.add_mul, Nat.mul_assoc, Nat.add_assoc]

/-- Bytes in front that are zero do not count. -/
theorem toNat_replicate_zero (count : Nat) : toNat (List.replicate count 0) = 0 := by
  induction count with
  | zero => rfl
  | succ count ih => rw [List.replicate_succ', toNat_concat, ih]; rfl

theorem toNat_replicate_ones (count : Nat) :
    toNat (List.replicate count 0xFF) + 1 = 256 ^ count := by
  induction count with
  | zero => rfl
  | succ count ih =>
    have last : (0xFF : UInt8).toNat = 255 := rfl
    rw [List.replicate_succ', toNat_concat, last, Nat.pow_succ]
    omega

/-- Bytes of one length are told apart by their number. -/
theorem eq_of_toNat {a b : Bytes} (lengths : a.length = b.length) (values : toNat a = toNat b) :
    a = b := by
  rw [← bigEndian_toNat a, lengths, values, bigEndian_toNat]

end Bytes

end GamePatch
