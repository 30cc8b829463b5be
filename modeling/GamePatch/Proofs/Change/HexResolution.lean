import GamePatch.Assembler
import GamePatch.Proofs.Branch.Encode
import GamePatch.Proofs.Change.PackedOptions
import GamePatch.Proofs.Change.Pending

set_option autoImplicit false

namespace GamePatch.Change

namespace Context

def Means (c : Context) : Line.Target → Address → Prop
  | .address a, target => target = a
  | .symbol name, target => c.symbols.addressOf? name = some target

def displacement (c : Context) (branch : Line.SpecialBranch) (target : Address) (offset : Nat) :
    Int :=
  if branch.mnemonic.isAbsolute then target.toNat + branch.adjustment
  else target.toNat + branch.adjustment - (c.installAddress.toNat + offset)

/-- What the bytes of a span are: the address of a function, the values that options have now, or the
word of a branch to its target. -/
def Places (c : Context) (s : Span) (bytes : Bytes) : Prop :=
  match s.placeholder with
  | .symbols names =>
    ∃ name a, names = [name] ∧ c.symbols.addressOf? name = some a ∧ bytes = Bytes.ofWord a
  | .options names =>
    ∃ options, List.Forall₂ (fun name o => Configuration.find? c.options name = some o) names options ∧
      Packs options s.width bytes
  | .branch branch =>
    ∃ target word, c.Means branch.target target ∧ bytes = Bytes.ofWord word ∧
      Branch.linkBit word = branch.mnemonic.links ∧
      Branch.absoluteBit word = branch.mnemonic.isAbsolute ∧
      Branch.displacement? word = some (c.displacement branch target s.offset)

theorem addressOf_eq_ok {c : Context} {name : Text} {a : Address} (found : c.addressOf name = .ok a) :
    c.symbols.addressOf? name = some a := by
  unfold Context.addressOf at found
  split at found
  case h_1 a' known =>
    cases found
    exact known
  case h_2 => cases found

theorem option_eq_ok {c : Context} {name : Text} {o : Configuration} (found : c.option name = .ok o) :
    Configuration.find? c.options name = some o := by
  unfold Context.option at found
  split at found
  case h_1 o' known =>
    cases found
    exact known
  case h_2 => cases found

theorem addressOfTarget_eq_ok_iff {c : Context} {target : Line.Target} {a : Address} :
    c.addressOfTarget target = .ok a ↔ c.Means target a := by
  cases target with
  | address a' =>
    unfold Means addressOfTarget
    rw [Except.ok.injEq]
    exact eq_comm
  | symbol name =>
    refine ⟨addressOf_eq_ok, fun known => ?_⟩
    change c.symbols.addressOf? name = some a at known
    rw [addressOfTarget, Context.addressOf, known]

theorem checked_eq_ok {n m : Int} (found : checked n = .ok m) : m = n := by
  unfold checked at found
  split at found
  · exact (Except.ok.inj found).symm
  · cases found

theorem destination_eq_ok {c : Context} {branch : Line.SpecialBranch} {goal : Int}
    (found : c.destination branch = .ok goal) :
    ∃ target, c.Means branch.target target ∧ goal = target.toNat + branch.adjustment := by
  unfold destination at found
  split at found
  · cases found
  case h_2 target known => exact ⟨target, addressOfTarget_eq_ok_iff.mp known, checked_eq_ok found⟩

theorem distance_eq_ok {c : Context} {branch : Line.SpecialBranch} {offset : Nat} {distance : Int}
    (found : c.distance branch offset = .ok distance) :
    ∃ target, c.Means branch.target target ∧ distance = c.displacement branch target offset := by
  unfold Context.distance at found
  split at found
  · cases found
  case h_2 goal known =>
    obtain ⟨target, means, rfl⟩ := destination_eq_ok known
    refine ⟨target, means, ?_⟩
    unfold displacement
    split at found
    case isTrue absolute => rw [if_pos absolute, Except.ok.inj found]
    case isFalse relative => rw [if_neg relative, checked_eq_ok found]

/-- The word of a branch is the encoding of its displacement. -/
theorem branchWord_eq_ok {c : Context} {branch : Line.SpecialBranch} {offset : Nat} {word : UInt32}
    (found : c.branchWord branch offset = .ok word) :
    ∃ target, c.Means branch.target target ∧
      Branch.encode branch.mnemonic (c.displacement branch target offset) = .ok word := by
  unfold branchWord at found
  split at found
  · cases found
  case h_2 distance known =>
    obtain ⟨target, means, rfl⟩ := distance_eq_ok known
    refine ⟨target, means, ?_⟩
    split at found
    case h_1 word' encoded =>
      cases found
      exact encoded
    case h_2 => cases found

theorem symbolBytes_singleton {c : Context} {name : Text} {bytes : Bytes}
    (found : c.symbolBytes [name] = .ok bytes) :
    ∃ a, c.symbols.addressOf? name = some a ∧ bytes = Bytes.ofWord a := by
  obtain ⟨addresses, each, same⟩ := Fallible.bind_eq_ok_iff.mp found
  obtain ⟨a, rest, known, none, rfl⟩ := List.forall₂_cons_left_iff.mp (Fallible.mapM_eq_ok_iff.mp each)
  rw [List.forall₂_nil_left_iff.mp none] at same
  exact ⟨a, addressOf_eq_ok known, by simpa using (Except.ok.inj same).symm⟩

theorem optionBytes_eq_ok {c : Context} {names : List Text} {width : Nat} {bytes : Bytes}
    (found : c.optionBytes names width = .ok bytes) :
    ∃ options, List.Forall₂ (fun name o => Configuration.find? c.options name = some o) names options ∧
      Packs options width bytes := by
  obtain ⟨options, each, packing⟩ := Fallible.bind_eq_ok_iff.mp found
  refine ⟨options, (Fallible.mapM_eq_ok_iff.mp each).imp fun _ _ => option_eq_ok, ?_⟩
  split at packing
  · cases packing
  · split at packing
    case h_1 bytes' packed =>
      cases packing
      exact packs_of_packOptions? packed
    case h_2 => cases packing

theorem places_of_spanBytes {c : Context} {s : Span} {bytes : Bytes}
    (single : ∀ names, s.placeholder = .symbols names → ∃ name, names = [name])
    (found : c.spanBytes s = .ok bytes) : c.Places s bytes := by
  unfold spanBytes at found
  unfold Places
  split at found
  case h_1 branch shape =>
    rw [shape]
    obtain ⟨word, known, rfl⟩ := Fallible.map_eq_ok_iff.mp found
    obtain ⟨target, means, encoded⟩ := branchWord_eq_ok known
    exact ⟨target, word, means, rfl, Branch.linkBit_of_encode encoded,
      Branch.absoluteBit_of_encode encoded, Branch.displacement?_of_encode encoded⟩
  case h_2 names shape =>
    rw [shape]
    obtain ⟨name, rfl⟩ := single names shape
    obtain ⟨a, known, same⟩ := symbolBytes_singleton found
    exact ⟨name, a, rfl, known, same⟩
  case h_3 names shape =>
    rw [shape]
    exact optionBytes_eq_ok found

end Context

/-- A line that is no assembly has one function for each of its symbol placeholders. -/
theorem single_of_mem_placeholdersOf {line : Text} {names : List Text}
    (plain : Line.classify line ≠ .assembly) (member : .symbols names ∈ placeholdersOf line) :
    ∃ name, names = [name] := by
  unfold placeholdersOf at member
  split at member
  case h_1 => cases member
  case h_2 branch _ => cases List.mem_singleton.mp member
  case h_3 segments _ =>
    obtain ⟨segment, -, shape⟩ := List.mem_filterMap.mp member
    cases segment with
    | hex digits => cases shape
    | symbol name =>
      cases shape
      exact ⟨name, rfl⟩
    | options more => cases shape
  case h_4 kind => exact absurd kind plain
  case h_5 => cases member

/-- Complete code without assembly has been made by no tool. It is as long as the code before, has
the same bytes outside the spans, and at each span the bytes that the span stands for. -/
theorem complete_hex_places_spans {includes : Includes} {options : KnownOptions} {code hex : Text}
    {i : Intermediate} {c : Context} (plain : Code.isAssembly code = .ok false)
    (evaluated : (evaluateCode includes options code).Yields (.ok i))
    (resolved : (resolveCode c i code).Yields (.ok (.complete hex))) :
    (evaluateCode includes options code).AsksNothing ∧ (resolveCode c i code).AsksNothing ∧
      hex.length = i.hex.length ∧
      ∃ before after : Bytes, i.hex = Hex.encode before ∧ hex = Hex.encode after ∧
        (∀ k, (∀ s ∈ i.spans, k < s.offset ∨ s.stop ≤ k) → after[k]? = before[k]?) ∧
        ∀ s ∈ i.spans, s.stop ≤ after.length ∧
          c.Places s ((after.drop s.offset).take s.width) := by
  have pass : evaluateCode includes options code = .done (evaluateHex options code) := by
    simp [evaluateCode, plain]
  have placed := evaluateCode_located evaluated
  rw [pass] at evaluated
  have hexPass := (Assembling.yields_done_iff.mp evaluated).symm
  obtain ⟨before, text, spaced⟩ := evaluateHex_eq_encode hexPass
  have spliced : needsReassembly i (Text.lines code) = .ok false := by
    unfold evaluateHex at hexPass
    split at hexPass
    · cases hexPass
    · split at hexPass <;> cases hexPass
      rfl
  have second := resolveCode_of_spliced (outstanding_of_complete resolved) spliced
  rw [second] at resolved
  obtain ⟨after, spans, same⟩ :=
    fill_eq_ok text (Assembling.yields_done_iff.mp resolved).symm
  have filled := fillSpans_filled spaced spans
  refine ⟨by rw [pass]; trivial, by rw [second]; trivial, ?_, before, after, text, same,
    filled.outside, fun s member => ⟨?_, ?_⟩⟩
  · rw [same, text, Hex.length_encode, Hex.length_encode, filled.length]
  · exact filled.length ▸ (spaced.inside member).2
  · refine Context.places_of_spanBytes (fun names shape => ?_) (filled.inside s member)
    have inside : s.located ∈ placedFrom 0 (Text.lines code) :=
      placed ▸ List.mem_map_of_mem member
    obtain ⟨-, line, onLine, -, found⟩ := line_of_mem_placedFrom inside
    have kind : Line.classify line ≠ .assembly := fun assembly =>
      (Line.anyAssembly_eq_false_iff.mp plain).2 (assembly ▸ List.mem_map_of_mem onLine)
    exact single_of_mem_placeholdersOf kind (shape ▸ found)

/-- An immediate value that two options share, the address of a function, and a call of it. -/
def loadTableAndCall : Text := "3860[[Lives]]|[[Flags]]\n<<Table>>\nbl <Table> + 4"

/-- The code after its first pass, in which nothing is known of the options. -/
def loadTableAndCallEvaluated : Intermediate :=
  { hex := "386000000000000000000000"
    spans :=
      [⟨2, 2, .options ["Lives", "Flags"], "3860[[Lives]]|[[Flags]]", 0⟩,
        ⟨4, 4, .symbols ["Table"], "<<Table>>", 1⟩,
        ⟨8, 4, .branch ⟨.bl, .symbol "Table", 4⟩, "bl <Table> + 4", 2⟩]
    isAssembly := false }

/-- A context with the function in its place and with options whose values have a bit in common. -/
def tablePlaced : Context :=
  { installAddress := 0x80002000
    symbols := [⟨"Table", "Mod", "4E800020", some 0x80001000⟩]
    options := [⟨"Lives", .int .two true none, .int 3, .int 0x63, [], none, false⟩,
      ⟨"Flags", .mask .two none, .int 0, .int 0x1C0, [], none, false⟩]
    includePaths := [] }

theorem loadTableAndCall_placed :
    ∃ before after : Bytes, Hex.encode before = "386000000000000000000000".toList ∧
      Hex.encode after = "386001E3800010004BFFEFFD".toList ∧
        (∀ k, (∀ s ∈ loadTableAndCallEvaluated.spans, k < s.offset ∨ s.stop ≤ k) →
          after[k]? = before[k]?) ∧
        ∀ s ∈ loadTableAndCallEvaluated.spans, s.stop ≤ after.length ∧
          tablePlaced.Places s ((after.drop s.offset).take s.width) := by
  have plain : Code.isAssembly loadTableAndCall = .ok false := by decide +kernel
  have first : (evaluateCode ⟨fun _ => false, []⟩ none loadTableAndCall).run Assembler.toolchain =
      .ok loadTableAndCallEvaluated := by decide +kernel
  have second : (resolveCode tablePlaced loadTableAndCallEvaluated loadTableAndCall).run
      Assembler.toolchain = .ok (.complete "386001E3800010004BFFEFFD") := by decide +kernel
  obtain ⟨-, -, -, before, after, text, same, outside, inside⟩ := complete_hex_places_spans plain
    (Assembling.yields_of_run first) (Assembling.yields_of_run second)
  exact ⟨before, after, text.symm, same.symm, outside, inside⟩

end GamePatch.Change
