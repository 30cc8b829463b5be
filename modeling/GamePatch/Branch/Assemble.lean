import GamePatch.Assembling

set_option autoImplicit false

namespace GamePatch.Branch

def source (mnemonic : Text) (distance : Int) : Text :=
  mnemonic ++ " " ++ Text.signedHex distance ++ "\n"

/-- The digits of a branch over a distance. -/
def assemble (mnemonic : Text) (distance : Int) : Assembling (Except Toolchain.Error Text) :=
  match Mnemonic.ofName? (Text.trim mnemonic) with
  | some m =>
    match encode m distance with
    | .ok word => .done (.ok (Hex.encodeWord word))
    | .error e => .done (.error (.branch e))
  | none =>
    .ask (source (Text.trim mnemonic) distance) [] fun reply =>
      .done (reply.map fun assembly => Hex.encode assembly.bytes)

end GamePatch.Branch
