import GamePatch.Proofs.Gecko.RoundTrip

set_option autoImplicit false

namespace GamePatch

namespace GeckoRecord

/-- A filler at the end of the code makes no difference to the text. -/
theorem toText_inject_withoutFiller (address : Address) (code : Bytes) :
    toText (.inject address (withoutFiller code)) = toText (.inject address code) := by
  simp only [toText, toBytes, injectPayload_withoutFiller]

theorem parse_toText_inject_eq {address : Address} {code : Bytes} (ram : address.isRam = true)
    (whole : code.length % 4 = 0) (small : code.length < 0x100000000) :
    parse (toText (.inject address code)) = .ok [toChange (.inject address (withoutFiller code))] := by
  obtain ⟨lines, delimited⟩ := delimited_inject ram small
  rw [codeOfPayload_injectPayload whole] at delimited
  have read : readLines lines = .ok (some [.inject address (withoutFiller code)]) := by
    have alone := delimited.read []
    rw [List.append_nil, readLines] at alone
    exact alone
  rw [parse, toText_eq delimited.bytes, GeckoLine.readAll_write]
  simp only [read]
  rfl

theorem decode_code_toChange (address : Address) (code : Bytes) :
    Hex.decode (toChange (.inject address code)).code = .ok code :=
  Hex.decode_formatWords code

/-- An injection is read from its text at its address, without an instruction at its end that looks
like a filler. The code without it has the same text. -/
theorem parse_toText_inject {address : Address} {code : Bytes} (ram : address.isRam = true)
    (whole : code.length % 4 = 0) (small : code.length < 0x100000000) :
    (∃ c, parse (toText (.inject address code)) = .ok [c] ∧ c.kind = .injection ∧
      Address.parse? c.target = some address ∧ Hex.decode c.code = .ok (withoutFiller code)) ∧
    toText (.inject address (withoutFiller code)) = toText (.inject address code) :=
  ⟨⟨_, parse_toText_inject_eq ram whole small, rfl, parse?_targetOf address,
    decode_code_toChange address (withoutFiller code)⟩, toText_inject_withoutFiller address code⟩

/-- Two injections at one address have the same text exactly if they have the same code up to a
filler. -/
theorem toText_inject_inj_iff {address : Address} {code code' : Bytes}
    (ram : address.isRam = true) (whole : code.length % 4 = 0) (small : code.length < 0x100000000)
    (whole' : code'.length % 4 = 0) (small' : code'.length < 0x100000000) :
    toText (.inject address code) = toText (.inject address code') ↔
      withoutFiller code = withoutFiller code' := by
  constructor
  · intro same
    have read := parse_toText_inject_eq ram whole small
    rw [same, parse_toText_inject_eq ram whole' small'] at read
    obtain ⟨change, -⟩ := List.cons.inj (Except.ok.inj read)
    have decoded := decode_code_toChange address (withoutFiller code)
    rw [← change, decode_code_toChange] at decoded
    exact (Except.ok.inj decoded).symm
  · intro same
    rw [← toText_inject_withoutFiller, same, toText_inject_withoutFiller]

/-- Code of two words, the second of which looks like a filler without being one. -/
def idleCode : Bytes := [0x38, 0x60, 0, 1] ++ nop

theorem idleCode_parse_toText :
    ∃ c, parse (toText (.inject 0x80002000 idleCode)) = .ok [c] ∧ c.kind = .injection ∧
      Address.parse? c.target = some 0x80002000 ∧ Hex.decode c.code = .ok idleCode :=
  (parse_toText_inject (by decide) (by decide) (by decide)).1

/-- The instruction that does nothing is not read back alone. -/
theorem nop_not_read_back :
    Address.isRam 0x80002000 = true ∧ nop.length % 4 = 0 ∧ nop.length < 0x100000000 ∧
      parse (toText (.inject 0x80002000 nop)) = .ok [Change.new .injection "0x80002000" []] ∧
        Hex.decode (Change.new .injection "0x80002000" []).code ≠ .ok nop ∧
          toText (.inject 0x80002000 nop) = toText (.inject 0x80002000 []) := by
  decide +kernel

end GeckoRecord

end GamePatch
