import GamePatch.Branch

set_option autoImplicit false

namespace GamePatch.Branch

def linkBit (w : UInt32) : Bool := w.toNat % 2 == 1

def absoluteBit (w : UInt32) : Bool := w.toNat / 2 % 2 == 1

def Mnemonic.flags (m : Mnemonic) : Nat := (if m.isAbsolute then 2 else 0) + if m.links then 1 else 0

theorem encode_eq_ok_iff {m : Mnemonic} {distance : Int} {w : UInt32} :
    encode m distance = .ok w ↔
      distance % 4 = 0 ∧ -reach ≤ distance ∧ distance < reach ∧
        w = UInt32.ofNat (opcode * 0x4000000 + (distance % 0x4000000).toNat + m.flags) := by
  unfold encode
  by_cases aligned : distance % 4 = 0
  · by_cases inReach : -reach ≤ distance ∧ distance < reach
    · have kept : (distance < -reach || reach ≤ distance) = false := by
        simp only [Bool.or_eq_false_iff, decide_eq_false_iff_not]
        omega
      simp only [aligned, ne_eq, not_true_eq_false, ↓reduceIte, kept, Bool.false_eq_true,
        Except.ok.injEq, inReach.1, inReach.2, true_and, Mnemonic.flags, Nat.add_assoc]
      exact eq_comm
    · have refused : (distance < -reach || reach ≤ distance) = true := by
        simp only [Bool.or_eq_true, decide_eq_true_eq]
        omega
      simp only [aligned, ne_eq, not_true_eq_false, ↓reduceIte, refused, reduceCtorEq, true_and,
        false_iff]
      rintro ⟨low, high, -⟩
      exact inReach ⟨low, high⟩
  · simp [aligned]

/-- No other error comes of a distance. -/
theorem error_of_encode {m : Mnemonic} {distance : Int} {e : Error}
    (refused : encode m distance = .error e) : e = .misaligned distance ∨ e = .outOfRange distance := by
  unfold encode at refused
  split at refused
  · exact Or.inl (Except.error.inj refused).symm
  · split at refused
    · exact Or.inr (Except.error.inj refused).symm
    · cases refused

theorem encode_toNat {m : Mnemonic} {distance : Int} {w : UInt32}
    (encoded : encode m distance = .ok w) :
    w.toNat = opcode * 0x4000000 + (distance % 0x4000000).toNat + m.flags := by
  obtain ⟨aligned, -, -, rfl⟩ := encode_eq_ok_iff.mp encoded
  have flags : m.flags < 4 := by cases m <;> decide
  have small : (distance % 0x4000000).toNat < 0x4000000 := by omega
  rw [UInt32.toNat_ofNat', opcode]
  omega

theorem opcode_of_encode {m : Mnemonic} {distance : Int} {w : UInt32}
    (encoded : encode m distance = .ok w) : w.toNat / 0x4000000 = opcode := by
  obtain ⟨aligned, -, -, -⟩ := encode_eq_ok_iff.mp encoded
  have value := encode_toNat encoded
  have flags : m.flags < 4 := by cases m <;> decide
  simp only [opcode] at value ⊢
  omega

/-- The distance is read back from the word. -/
theorem displacement?_of_encode {m : Mnemonic} {distance : Int} {w : UInt32}
    (encoded : encode m distance = .ok w) : displacement? w = some distance := by
  obtain ⟨aligned, low, high, -⟩ := encode_eq_ok_iff.mp encoded
  have value := encode_toNat encoded
  have primary : w.toNat / 0x4000000 = 18 := opcode_of_encode encoded
  have flags : m.flags < 4 := by cases m <;> decide
  simp only [reach, opcode] at low high value
  have field : w.toNat % 0x4000000 / 4 * 4 = (distance % 0x4000000).toNat := by omega
  rw [displacement?, primary]
  simp only [signedField, field]
  split
  · congr 1
    omega
  · congr 1
    omega

theorem linkBit_of_encode {m : Mnemonic} {distance : Int} {w : UInt32}
    (encoded : encode m distance = .ok w) : linkBit w = m.links := by
  obtain ⟨aligned, -, -, -⟩ := encode_eq_ok_iff.mp encoded
  have value := encode_toNat encoded
  have low : w.toNat % 2 = m.flags % 2 := by
    simp only [opcode] at value
    omega
  rw [linkBit, low]
  cases m <;> decide

theorem absoluteBit_of_encode {m : Mnemonic} {distance : Int} {w : UInt32}
    (encoded : encode m distance = .ok w) : absoluteBit w = m.isAbsolute := by
  obtain ⟨aligned, -, -, -⟩ := encode_eq_ok_iff.mp encoded
  have value := encode_toNat encoded
  have low : w.toNat / 2 % 2 = m.flags / 2 % 2 := by
    simp only [opcode] at value
    omega
  rw [absoluteBit, low]
  cases m <;> decide

end GamePatch.Branch
