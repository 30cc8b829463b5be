import GamePatch.Proofs.Branch.Encode
import Mathlib.Algebra.Group.Int.Defs
import Mathlib.Algebra.Group.Nat.Defs

set_option autoImplicit false

namespace GamePatch.Branch

/-! ### Bits -/

/-- A mask without the lowest two bits keeps the multiple of four below. -/
theorem and_fieldMask (n width : Nat) (wide : 2 ≤ width) :
    n &&& (2 ^ width - 4) = n % 2 ^ width / 4 * 4 := by
  have split : 2 ^ width = 2 ^ (width - 2) * 2 ^ 2 := by
    rw [← Nat.pow_add]
    congr 1
    omega
  have mask : 2 ^ width - 4 = (2 ^ (width - 2) - 1) * 2 ^ 2 := by omega
  apply Nat.eq_of_testBit_eq
  intro i
  rw [mask, show 4 = 2 ^ 2 by rfl, Nat.testBit_and, Nat.testBit_mul_two_pow,
    Nat.testBit_mul_two_pow, Nat.testBit_div_two_pow, Nat.testBit_mod_two_pow,
    Nat.testBit_two_pow_sub_one]
  by_cases high : 2 ≤ i
  · have back : i - 2 + 2 = i := by omega
    have bound : i - 2 < width - 2 ↔ i < width := by omega
    simp [high, back, bound, Bool.and_comm]
  · simp [high]

/-- The opcode, the field of the distance and the two flags have no bit in common. -/
theorem or_fields {field flags : Nat} (aligned : field % 4 = 0) (small : field < 0x4000000)
    (low : flags < 4) :
    0x48000000 ||| field ||| flags = opcode * 0x4000000 + field + flags := by
  have top : 0x48000000 ||| field = 0x48000000 + field :=
    (Nat.two_pow_add_eq_or_of_lt (i := 26) small 18).symm
  have bottom : 4 * (0x12000000 + field / 4) ||| flags = 4 * (0x12000000 + field / 4) + flags :=
    (Nat.two_pow_add_eq_or_of_lt (i := 2) low _).symm
  have whole : 0x48000000 + field = 4 * (0x12000000 + field / 4) := by omega
  rw [top, whole, bottom, opcode]
  omega

/-- The low 32 bits of a signed number of 64 bits. -/
theorem toNat_truncated (d : Int64) : d.toUInt64.toUInt32.toNat = (d.toInt % 2 ^ 32).toNat := by
  have signed := BitVec.toInt_eq_toNat_bmod d.toBitVec
  have bound := d.toBitVec.isLt
  rw [Int.bmod_def] at signed
  rw [UInt64.toNat_toUInt32]
  change d.toBitVec.toNat % 2 ^ 32 = (d.toBitVec.toInt % 2 ^ 32).toNat
  omega

theorem Mnemonic.flags_lt (m : Mnemonic) : m.flags < 4 := by
  cases m <;> decide

/-- The encoder puts the word together from bits. -/
theorem encode_eq_bits (m : Mnemonic) (d : Int64) :
    encode m d.toInt =
      if d % 4 ≠ 0 then .error (.misaligned d.toInt)
      else if ¬(-0x2000000 ≤ d ∧ d < 0x2000000) then .error (.outOfRange d.toInt)
      else
        .ok (0x48000000 ||| (d.toUInt64.toUInt32 &&& 0x03FFFFFC)
          ||| ((if m.isAbsolute then 2 else 0) ||| if m.links then 1 else 0)) := by
  have aligned : d % 4 = 0 ↔ d.toInt % 4 = 0 := by
    rw [← Int64.toInt_inj, Int64.toInt_mod]
    exact Int.dvd_iff_tmod_eq_zero.symm.trans Int.dvd_iff_emod_eq_zero
  have near : -0x2000000 ≤ d ∧ d < 0x2000000 ↔ -reach ≤ d.toInt ∧ d.toInt < reach := by
    rw [Int64.le_iff_toInt_le, Int64.lt_iff_toInt_lt]
    rfl
  by_cases straight : d.toInt % 4 = 0
  · by_cases inside : -reach ≤ d.toInt ∧ d.toInt < reach
    · rw [if_neg (fun odd => odd (aligned.mpr straight)), if_neg (fun far => far (near.mpr inside)),
        encode_eq_ok_iff]
      refine ⟨straight, inside.1, inside.2, ?_⟩
      have field : d.toUInt64.toUInt32.toNat &&& 0x03FFFFFC = (d.toInt % 0x4000000).toNat := by
        have masked : d.toUInt64.toUInt32.toNat &&& 0x03FFFFFC =
            d.toUInt64.toUInt32.toNat % 0x4000000 / 4 * 4 := and_fieldMask _ 26 (by decide)
        rw [masked, toNat_truncated]
        omega
      have flags : ((if m.isAbsolute then 2 else 0 : UInt32) ||| if m.links then 1 else 0).toNat =
          m.flags := by
        cases m <;> rfl
      apply UInt32.toNat_inj.mp
      rw [UInt32.toNat_or, UInt32.toNat_or, UInt32.toNat_and, flags]
      change 0x48000000 ||| (d.toUInt64.toUInt32.toNat &&& 0x03FFFFFC) ||| m.flags = _
      have low := m.flags_lt
      rw [field, or_fields (by omega) (by omega) low, UInt32.toNat_ofNat', opcode]
      omega
    · rw [if_neg (fun odd => odd (aligned.mpr straight)), if_pos (mt near.mp inside), encode,
        if_neg (fun odd => odd straight), if_pos]
      simp only [Bool.or_eq_true, decide_eq_true_eq]
      omega
  · rw [if_pos (mt aligned.mp straight), encode, if_pos straight]

/-- A number in the low bits of a word with its sign, shifted to the top and back. -/
def signExtended (width : Nat) (v : BitVec 32) : Int :=
  ((v <<< (32 - width)).sshiftRight (32 - width)).toInt

theorem signExtended_eq {width : Nat} (some : 0 < width) (narrow : width ≤ 32) {v : BitVec 32}
    (small : v.toNat < 2 ^ width) :
    signExtended width v =
      if v.toNat < 2 ^ width / 2 then (v.toNat : Int) else v.toNat - (2 ^ width : Nat) := by
  obtain ⟨half, whole⟩ : ∃ half, 2 ^ width = 2 * half :=
    ⟨2 ^ (width - 1), by rw [← Nat.pow_succ', Nat.succ_eq_add_one, Nat.sub_add_cancel some]⟩
  have power : 2 ^ 32 = 2 * (half * 2 ^ (32 - width)) := by
    rw [← Nat.mul_assoc, ← whole, ← Nat.pow_add, Nat.add_sub_cancel' narrow]
  have positive : 0 < 2 ^ (32 - width) := Nat.two_pow_pos _
  rw [signExtended, BitVec.toInt_sshiftRight, BitVec.toInt_eq_toNat_bmod, BitVec.toNat_shiftLeft,
    Int.shiftRight_eq_div_pow, Nat.shiftLeft_eq, power, whole]
  rw [whole] at small
  generalize 2 ^ (32 - width) = count at *
  have back (n : Int) : n * count / count = n := Int.mul_ediv_cancel n (by omega)
  have bound : v.toNat * count < 2 * (half * count) := by
    rw [← Nat.mul_assoc]
    exact Nat.mul_lt_mul_of_pos_right small positive
  rw [Nat.mod_eq_of_lt bound, Int.bmod_def]
  by_cases low : v.toNat < half
  · have below : v.toNat * count < half * count := Nat.mul_lt_mul_of_pos_right low positive
    have kept : ((v.toNat * count : Nat) : Int) % (2 * (half * count) : Nat) = v.toNat * count := by
      rw [Int.emod_eq_of_lt (by omega) (by omega), Int.natCast_mul]
    rw [kept, if_pos (by omega), if_pos (by omega), back]
  · have above : half * count ≤ v.toNat * count := Nat.mul_le_mul_right count (by omega)
    have kept : ((v.toNat * count : Nat) : Int) % (2 * (half * count) : Nat) = v.toNat * count := by
      rw [Int.emod_eq_of_lt (by omega) (by omega), Int.natCast_mul]
    have less : (v.toNat * count : Int) - (2 * (half * count) : Nat) =
        (v.toNat - (2 * half : Nat)) * count := by
      rw [Int.sub_mul, ← Int.natCast_mul (2 * half), Nat.mul_assoc]
    rw [kept, if_neg (by omega), if_neg (by omega), less, back]

/-- The opcode is in the six highest bits. -/
theorem primary_eq_iff {w : UInt32} {n : Nat} (small : n < 64) :
    w >>> 26 = UInt32.ofNat n ↔ w.toNat / 0x4000000 = n := by
  have primary : (w >>> 26).toNat = w.toNat / 0x4000000 := by
    rw [UInt32.toNat_shiftRight]
    exact Nat.shiftRight_eq_div_pow w.toNat 26
  rw [← UInt32.toNat_inj, primary, UInt32.toNat_ofNat', Nat.mod_eq_of_lt (by omega)]

theorem signedField_eq_bits (w mask : UInt32) (width : Nat) (wide : 2 ≤ width) (narrow : width ≤ 32)
    (shape : mask.toNat = 2 ^ width - 4) :
    signedField (2 ^ width) w.toNat = signExtended width (w &&& mask).toBitVec := by
  have masked : (w &&& mask).toBitVec.toNat = w.toNat % 2 ^ width / 4 * 4 := by
    rw [← and_fieldMask w.toNat width wide, ← shape]
    exact UInt32.toNat_and w mask
  have below : w.toNat % 2 ^ width < 2 ^ width := Nat.mod_lt _ (Nat.two_pow_pos _)
  rw [signExtended_eq (by omega) narrow (by omega), masked]
  rfl

/-- The decoder takes the number out of its bits. -/
theorem displacement?_eq_bits (w : UInt32) :
    displacement? w =
      if w >>> 26 = 18 then some (signExtended 26 (w &&& 0x03FFFFFC).toBitVec)
      else if w >>> 26 = 16 then some (signExtended 16 (w &&& 0x0000FFFC).toBitVec)
      else none := by
  have long : signedField 0x4000000 w.toNat = signExtended 26 (w &&& 0x03FFFFFC).toBitVec :=
    signedField_eq_bits w 0x03FFFFFC 26 (by decide) (by decide) (by decide)
  have short : signedField 0x10000 w.toNat = signExtended 16 (w &&& 0x0000FFFC).toBitVec :=
    signedField_eq_bits w 0x0000FFFC 16 (by decide) (by decide) (by decide)
  have eighteen : w >>> 26 = 18 ↔ w.toNat / 0x4000000 = 18 := primary_eq_iff (by decide)
  have sixteen : w >>> 26 = 16 ↔ w.toNat / 0x4000000 = 16 := primary_eq_iff (by decide)
  rw [← long, ← short]
  simp only [eighteen, sixteen]
  unfold displacement?
  split
  case h_1 primary => rw [if_pos primary]
  case h_2 primary => rw [if_neg (by omega), if_pos primary]
  case h_3 other other' => rw [if_neg other, if_neg other']

/-! ### The branch of a word -/

def mnemonicOf (w : UInt32) : Mnemonic :=
  if absoluteBit w then (if linkBit w then .bla else .ba)
  else if linkBit w then .bl else .b

theorem flags_mnemonicOf (w : UInt32) : (mnemonicOf w).flags = w.toNat % 4 := by
  by_cases absolute : w.toNat / 2 % 2 = 1
  · by_cases link : w.toNat % 2 = 1
    · have said : mnemonicOf w = .bla := by simp [mnemonicOf, absoluteBit, linkBit, absolute, link]
      rw [said]
      change 3 = _
      omega
    · have said : mnemonicOf w = .ba := by simp [mnemonicOf, absoluteBit, linkBit, absolute, link]
      rw [said]
      change 2 = _
      omega
  · by_cases link : w.toNat % 2 = 1
    · have said : mnemonicOf w = .bl := by simp [mnemonicOf, absoluteBit, linkBit, absolute, link]
      rw [said]
      change 1 = _
      omega
    · have said : mnemonicOf w = .b := by simp [mnemonicOf, absoluteBit, linkBit, absolute, link]
      rw [said]
      change 0 = _
      omega

structure IsWordOf (m : Mnemonic) (distance : Int) (w : UInt32) : Prop where
  primary : w >>> 26 = 18
  absolute : absoluteBit w = m.isAbsolute
  link : linkBit w = m.links
  displacement : displacement? w = some distance

theorem isWordOf_of_encode {m : Mnemonic} {distance : Int} {w : UInt32}
    (encoded : encode m distance = .ok w) : IsWordOf m distance w :=
  { primary := (primary_eq_iff (by decide)).mpr (opcode_of_encode encoded)
    absolute := absoluteBit_of_encode encoded
    link := linkBit_of_encode encoded
    displacement := displacement?_of_encode encoded }

/-- A word of the opcode is the one of the branch that it says. -/
theorem encode_signedField {w : UInt32} (primary : w.toNat / 0x4000000 = opcode) :
    encode (mnemonicOf w) (signedField 0x4000000 w.toNat) = .ok w := by
  have flags := flags_mnemonicOf w
  have field : signedField 0x4000000 w.toNat % 0x4000000 = w.toNat % 0x4000000 / 4 * 4 := by
    simp only [signedField]
    split <;> omega
  have range : -reach ≤ signedField 0x4000000 w.toNat ∧ signedField 0x4000000 w.toNat < reach := by
    simp only [signedField, reach]
    split <;> omega
  have bound := w.toNat_lt
  rw [encode_eq_ok_iff]
  refine ⟨by omega, range.1, range.2, ?_⟩
  apply UInt32.toNat_inj.mp
  rw [UInt32.toNat_ofNat', flags, field]
  simp only [opcode] at primary ⊢
  omega

/-! ### Errors -/

theorem encode_eq_misaligned_iff {m : Mnemonic} {d d' : Int} :
    encode m d = .error (.misaligned d') ↔ d % 4 ≠ 0 ∧ d = d' := by
  unfold encode
  by_cases aligned : d % 4 = 0
  · rw [if_neg (fun odd => odd aligned)]
    split <;> simp [aligned]
  · rw [if_pos aligned]
    simp [aligned]

theorem encode_eq_outOfRange_iff {m : Mnemonic} {d d' : Int} :
    encode m d = .error (.outOfRange d') ↔ d % 4 = 0 ∧ ¬(-reach ≤ d ∧ d < reach) ∧ d = d' := by
  have far : (d < -reach || reach ≤ d) = true ↔ ¬(-reach ≤ d ∧ d < reach) := by
    rw [Bool.or_eq_true, decide_eq_true_eq, decide_eq_true_eq]
    omega
  unfold encode
  by_cases aligned : d % 4 = 0
  · rw [if_neg (fun odd => odd aligned)]
    simp only [far]
    by_cases near : -reach ≤ d ∧ d < reach
    · simp [near]
    · simp [near, aligned]
  · rw [if_pos aligned]
    simp [aligned]

/-- Branches and words of primary opcode 18 correspond. A distance is refused as misaligned before
it is refused as out of reach, and no other one is refused. -/
theorem encode_displacement_inverse :
    (∀ (m : Mnemonic) (d : Int),
      ((∃ w, encode m d = .ok w) ↔ 4 ∣ d ∧ -2 ^ 25 ≤ d ∧ d < 2 ^ 25) ∧
      (encode m d = .error (.misaligned d) ↔ ¬4 ∣ d) ∧
      (encode m d = .error (.outOfRange d) ↔ 4 ∣ d ∧ ¬(-2 ^ 25 ≤ d ∧ d < 2 ^ 25)) ∧
      ∀ w, encode m d = .ok w → IsWordOf m d w) ∧
    ∀ w : UInt32, w >>> 26 = 18 →
      ∃ d, displacement? w = some d ∧ encode (mnemonicOf w) d = .ok w := by
  have bound : (2 : Int) ^ 25 = reach := by decide
  refine ⟨fun m d => ⟨?_, ?_, ?_, fun w encoded => isWordOf_of_encode encoded⟩, fun w said => ?_⟩
  · rw [bound, Int.dvd_iff_emod_eq_zero]
    constructor
    · rintro ⟨w, encoded⟩
      obtain ⟨aligned, low, high, -⟩ := encode_eq_ok_iff.mp encoded
      exact ⟨aligned, low, high⟩
    · rintro ⟨aligned, low, high⟩
      exact ⟨_, encode_eq_ok_iff.mpr ⟨aligned, low, high, rfl⟩⟩
  · rw [encode_eq_misaligned_iff, Int.dvd_iff_emod_eq_zero]
    simp
  · rw [encode_eq_outOfRange_iff, bound, Int.dvd_iff_emod_eq_zero]
    simp
  · have primary : w.toNat / 0x4000000 = opcode := (primary_eq_iff (by decide)).mp said
    refine ⟨signedField 0x4000000 w.toNat, ?_, encode_signedField primary⟩
    rw [displacement?, primary]
    rfl

/-- The call that reaches farthest back. -/
theorem farthestCall_encode_displacement :
    (∃ w, encode .bl (-0x2000000) = .ok w ∧ IsWordOf .bl (-0x2000000) w) ∧
      (0x4A000001 : UInt32) >>> 26 = 18 ∧
        ∃ d, displacement? 0x4A000001 = some d ∧ encode (mnemonicOf 0x4A000001) d = .ok 0x4A000001 := by
  obtain ⟨forth, back⟩ := encode_displacement_inverse
  obtain ⟨⟨-, some⟩, -, -, said⟩ := forth .bl (-0x2000000)
  obtain ⟨w, encoded⟩ := some (by decide)
  exact ⟨⟨w, encoded, said w encoded⟩, by decide, back 0x4A000001 (by decide)⟩

end GamePatch.Branch
