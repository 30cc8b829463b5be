import GamePatch.GameMod.Evaluate
import GamePatch.Proofs.Change.Groups
import GamePatch.Proofs.Change.Reassembly

set_option autoImplicit false

namespace GamePatch

def Configuration.Kind.IsUnsigned : Configuration.Kind → Prop
  | .int _ signed _ => signed = false
  | .mask _ _ => True
  | .float => False

namespace Configuration

/-- The value of an option without a sign is a number that is not negative. -/
theorem exists_nonneg_of_unsigned {c : Configuration} (checked : c.check c.value = .ok ())
    (unsigned : c.kind.IsUnsigned) : ∃ n, c.value = .int n ∧ 0 ≤ n := by
  have noSign : c.kind.isSigned = false := by
    cases kind : c.kind with
    | int width signed range =>
      rw [kind] at unsigned
      exact unsigned
    | mask width allowed => rfl
    | float => rfl
  cases value : c.value with
  | int n => exact ⟨n, rfl, (inWidth_of_checked checked value).2 noSign⟩
  | float bits =>
    -- A float has no bytes as a whole number.
    obtain ⟨bytes, packed⟩ := pack_of_check checked
    rw [value] at packed
    cases kind : c.kind with
    | int width signed range =>
      rw [kind] at packed
      cases packed
    | mask width allowed =>
      rw [kind] at packed
      cases packed
    | float =>
      rw [kind] at unsigned
      exact unsigned.elim

end Configuration

namespace Change

open GamePatch.Configuration (IsSettingOf)

/-- Bytes for a span, unless it is a branch that cannot reach its target. -/
def Context.Serves (c : Context) (s : Span) : Prop :=
  (∃ value, c.spanBytes s = .ok value ∧ value.length = s.width) ∨
    ∃ e, c.spanBytes s = .error e ∧ e.IsBranch

/-- Where all spans are served, filling them fails at a branch or not at all. -/
theorem fillSpans_of_served {c : Context} {bytes : Bytes} {spans : List Span}
    (inside : ∀ s ∈ spans, s.stop ≤ bytes.length) (served : ∀ s ∈ spans, c.Serves s) :
    (∃ out, fillSpans c bytes spans = .ok out) ∨
      ∃ e, fillSpans c bytes spans = .error e ∧ e.IsBranch := by
  induction spans generalizing bytes with
  | nil => exact Or.inl ⟨bytes, rfl⟩
  | cons s spans ih =>
    rw [List.forall_mem_cons] at inside served
    rcases served.1 with ⟨value, found, width⟩ | ⟨e, failed, branch⟩
    · have fits : s.offset + value.length ≤ bytes.length := width ▸ inside.1
      have same := Bytes.length_splice bytes value s.offset fits
      have step : fillSpans c bytes (s :: spans) =
          fillSpans c (bytes.splice s.offset value) spans := by
        simp [fillSpans, found, width, not_lt.mpr inside.1]
      rw [step]
      apply ih _ served.2
      rw [same]
      exact inside.2
    · right
      exact ⟨e, by rw [fillSpans, failed], branch⟩

theorem mem_functions_of_span {i : Intermediate} {s : Span} (member : s ∈ i.spans) :
    s.placeholder.functions ⊆ i.functions := fun _ inside =>
  Text.mem_dedup.mpr (List.mem_flatMap.mpr ⟨s, member, inside⟩)

namespace Context

variable {c : Context}

theorem Allocates.addressOf {names : List Text} (allocated : c.Allocates names) {name : Text}
    (member : name ∈ names) : ∃ a, c.addressOf name = .ok a := by
  obtain ⟨a, found⟩ := allocated name member
  exact ⟨a, by rw [Context.addressOf, found]⟩

theorem branchWord_of_allocated {branch : Line.SpecialBranch} (offset : Nat)
    (allocated : c.Allocates (Placeholder.branch branch).functions) :
    (∃ word, c.branchWord branch offset = .ok word) ∨
      ∃ e, c.branchWord branch offset = .error e ∧ e.IsBranch := by
  cases written : c.branchWord branch offset with
  | ok word => exact Or.inl ⟨word, rfl⟩
  | error e =>
    rcases branchWord_error_cases written with ⟨name, member, missing⟩ | branch
    · obtain ⟨a, found⟩ := allocated.addressOf member
      rw [found] at missing
      cases missing
    · exact Or.inr ⟨e, rfl, branch⟩

theorem symbolBytes_of_allocated {name : Text} (allocated : c.Allocates [name]) :
    ∃ value, c.symbolBytes [name] = .ok value ∧ value.length = 4 := by
  obtain ⟨a, found⟩ := allocated.addressOf List.mem_cons_self
  refine ⟨Bytes.ofWord a, ?_, Bytes.length_ofWord a⟩
  rw [symbolBytes, List.mapM_cons, found, List.mapM_nil]
  simp [bind, Except.bind, pure, Except.pure]

/-- Options that are allowed have bytes together, if there is one of them or none has a sign. -/
theorem packOptions?_of_unsigned {options : List Configuration} {width : Nat}
    (checked : ∀ o ∈ options, o.check o.value = .ok ())
    (widest : (options.map fun o => o.kind.width).max? = some width)
    (unsigned : 2 ≤ options.length → ∀ o ∈ options, o.kind.IsUnsigned) :
    ∃ bytes, packOptions? options width = some bytes := by
  match options, widest with
  | [o], widest => exact packOptions?_single checked widest rfl
  | first :: second :: rest, widest =>
    have each := unsigned (by simp)
    have numbered : ∀ o ∈ first :: second :: rest, ∃ n, o.value = .int n := by
      intro o member
      obtain ⟨n, value, -⟩ :=
        Configuration.exists_nonneg_of_unsigned (checked o member) (each o member)
      exact ⟨n, value⟩
    obtain ⟨values, numbers⟩ := exists_hasNumbers numbered
    have found := combined?_eq_some_iff.mpr ⟨values, numbers, rfl⟩
    have nonneg : 0 ≤ values.foldl orBits 0 := by
      rw [← not_lt, (combined?_inWidth checked widest found).2]
      rintro ⟨o, member, n, value, negative⟩
      obtain ⟨n', value', bound⟩ :=
        Configuration.exists_nonneg_of_unsigned (checked o member) (each o member)
      obtain rfl : n = n' := Configuration.Value.int.inj (value.symm.trans value')
      omega
    rw [packOptions?_group checked widest rfl, found, Option.bind_some, if_pos (Or.inl nonneg)]
    exact ⟨_, rfl⟩

end Context

def UnsignedGroups (options : List Configuration) (code : Text) : Prop :=
  ∀ line ∈ Text.lines code, ∀ names, .options names ∈ placeholdersOf line → 2 ≤ names.length →
    ∀ name ∈ names, ∀ o, Configuration.find? options name = some o → o.kind.IsUnsigned

section

variable {options : List Configuration} {c : Context}
  (settings : List.Forall₂ IsSettingOf options c.options)

include settings

/-- The options of a place, as they are set now, have bytes in the width of the place. -/
theorem Context.optionBytes_of_settings {names : List Text} {width : Nat}
    (own : IsWidest options names width)
    (unsigned : 2 ≤ names.length →
      ∀ name ∈ names, ∀ o, Configuration.find? options name = some o → o.kind.IsUnsigned) :
    ∃ value, c.optionBytes names width = .ok value ∧ value.length = width := by
  obtain ⟨first, found, widest⟩ := own
  obtain ⟨group, found', each⟩ := Configuration.group_of_settings settings found
  have kinds : group.map (fun o => o.kind.width) = first.map fun o => o.kind.width := by
    clear found found' widest
    induction each with
    | nil => rfl
    | cons setting rest ih => rw [List.map_cons, List.map_cons, ih, setting.kind]
  have checked : ∀ o ∈ group, o.check o.value = .ok () := by
    intro o member
    obtain ⟨o', -, setting⟩ := exists_left_of_forall₂ each member
    exact setting.checked
  have noSign : 2 ≤ group.length → ∀ o ∈ group, o.kind.IsUnsigned := by
    intro two o member
    rw [← found'.length_eq] at two
    obtain ⟨o', inside, setting⟩ := exists_left_of_forall₂ each member
    obtain ⟨name, named, known⟩ := exists_left_of_forall₂ found inside
    rw [setting.kind]
    exact unsigned two name named o' known
  rw [← kinds] at widest
  have nonempty : group ≠ [] := by
    rintro rfl
    cases widest
  obtain ⟨bytes, packed⟩ := packOptions?_of_unsigned checked widest noSign
  have whole := Fallible.toOption_eq_some_iff.mp
    ((toOption_optionBytes found' nonempty width).trans packed)
  exact ⟨bytes, whole, (length_of_optionBytes whole).1⟩

/-- Every place of accepted code is served, whatever its options are set to. -/
theorem serves_of_evaluateHex {code : Text} {i : Intermediate} (plain : Code.isAssembly code = .ok false)
    (evaluated : evaluateHex (some options) code = .ok i) (allocated : c.Allocates i.functions)
    (unsigned : UnsignedGroups options code) : ∀ s ∈ i.spans, c.Serves s := by
  intro s member
  have own := isSpanWidth_of_evaluateHex evaluated s member
  have named := allocated.of_subset (mem_functions_of_span member)
  have inside : s.located ∈ placedFrom 0 (Text.lines code) :=
    evaluateHex_located evaluated ▸ List.mem_map_of_mem member
  obtain ⟨-, line, onLine, -, found⟩ := line_of_mem_placedFrom inside
  change s.placeholder ∈ placeholdersOf line at found
  have kind : Line.classify line ≠ .assembly := fun assembly =>
    (Line.anyAssembly_eq_false_iff.mp plain).2 (assembly ▸ List.mem_map_of_mem onLine)
  unfold Context.Serves Context.spanBytes
  cases shape : s.placeholder with
  | branch branch =>
    rw [shape] at own named
    rcases Context.branchWord_of_allocated s.offset named with ⟨word, encoded⟩ | ⟨e, failed, far⟩
    · left
      exact ⟨Bytes.ofWord word, by simp only [encoded, Except.map], own.symm ▸ Bytes.length_ofWord word⟩
    · right
      exact ⟨e, by simp only [failed, Except.map], far⟩
  | symbols names =>
    rw [shape] at own named found
    obtain ⟨name, rfl⟩ := single_of_mem_placeholdersOf kind found
    left
    obtain ⟨value, known, four⟩ := Context.symbolBytes_of_allocated named
    exact ⟨value, known, four.trans own.symm⟩
  | options names =>
    rw [shape] at own found
    left
    exact Context.optionBytes_of_settings settings own (unsigned line onLine names found)

end

/-- What the first pass accepts can be filled. After any attempts to set the options, and with an
address for each function, the second pass comes to the complete code, unless a branch in it cannot
reach its target. -/
theorem accepted_code_fills {m : GameMod} {includes : Includes} {code : Text} {i : Intermediate}
    (built : ∀ o ∈ m.options, o.IsBuilt) (plain : Code.isAssembly code = .ok false)
    (evaluated : (evaluateCode includes (some m.options) code).Yields (.ok i))
    (unsigned : UnsignedGroups m.options code)
    (attempts : List (Text × Configuration.Value)) {c : Context}
    (options : c.options = (m.trySetOptions attempts).options)
    (allocated : ∀ names, Code.referencedFunctions code = .ok names → c.Allocates names) :
    ∃ result, resolveCode c i code = .done result ∧
      ((∃ hex, result = .ok (.complete hex)) ∨ ∃ e, result = .error (.toolchain (.branch e))) := by
  have settings : List.Forall₂ IsSettingOf m.options c.options :=
    options ▸ GameMod.settings_of_built built attempts
  have allocated := allocated i.functions (evaluateCode_functions evaluated)
  have pass : evaluateCode includes (some m.options) code = .done (evaluateHex (some m.options) code) := by
    simp [evaluateCode, plain]
  rw [pass] at evaluated
  have hexPass := (Assembling.yields_done_iff.mp evaluated).symm
  have settled : c.outstanding i = [] := by
    rw [Context.outstanding, List.filter_eq_nil_iff]
    intro name member
    obtain ⟨a, known⟩ := allocated name member
    simp [known]
  have spliced : needsReassembly i (Text.lines code) = .ok false := by
    rw [needsReassembly, evaluateHex_isAssembly hexPass]
    rfl
  refine ⟨fill c i, resolveCode_of_spliced settled spliced, ?_⟩
  obtain ⟨bytes, text, spaced⟩ := evaluateHex_eq_encode hexPass
  have served := serves_of_evaluateHex settings plain hexPass allocated unsigned
  have inside : ∀ s ∈ i.spans, s.stop ≤ bytes.length := fun s member => (spaced.inside member).2
  rw [fill, text, Hex.decode_encode]
  simp only
  rcases fillSpans_of_served inside served with ⟨out, filled⟩ | ⟨e, failed, far⟩
  · left
    exact ⟨Hex.encode out, by rw [filled]; rfl⟩
  · right
    rw [failed]
    cases e with
    | toolchain e =>
      cases e with
      | branch e => exact ⟨e, rfl⟩
      | _ => exact far.elim
    | _ => exact far.elim

/-- Two masks in one place, a number that is at most ninety-nine, and a call. -/
def maskedCall : Text := "[[Easy]]|[[Wide]]0000\n3860[[Lives]]\nbl <Table>"

def maskedMod : GameMod :=
  { GameMod.new "Masked" with
    options :=
      [⟨"Easy", .mask .one (some 0x0F), .int 1, .int 1, [], none, false⟩,
        ⟨"Wide", .mask .two none, .int 0, .int 0, [], none, false⟩,
        ⟨"Lives", .int .two true (some (-1, 99)), .int 3, .int 3, [], none, false⟩] }

def maskedCallEvaluated : Intermediate :=
  { hex := "000000003860000000000000"
    spans :=
      [⟨0, 2, .options ["Easy", "Wide"], "[[Easy]]|[[Wide]]0000", 0⟩,
        ⟨6, 2, .options ["Lives"], "3860[[Lives]]", 1⟩,
        ⟨8, 4, .branch ⟨.bl, .symbol "Table", 0⟩, "bl <Table>", 2⟩]
    isAssembly := false }

/-- A number below its range and a mask with a bit too many are refused, a negative number and a wide
mask are not. -/
def maskedAttempts : List (Text × Configuration.Value) :=
  [("Lives", .int (-2)), ("Lives", .int (-1)), ("Easy", .int 0x10), ("Wide", .int 0x8000)]

def maskedPlaced : Context :=
  { tablePlaced with options := (maskedMod.trySetOptions maskedAttempts).options }

theorem maskedCall_fills :
    (resolveCode maskedPlaced maskedCallEvaluated maskedCall).run Assembler.toolchain =
        .ok (.complete "800100003860FFFF4BFFEFF9") ∧
      ∃ result, resolveCode maskedPlaced maskedCallEvaluated maskedCall = .done result ∧
        ((∃ hex, result = .ok (.complete hex)) ∨ ∃ e, result = .error (.toolchain (.branch e))) := by
  refine ⟨by decide +kernel, ?_⟩
  have built : ∀ o ∈ maskedMod.options, o.IsBuilt := by
    simp only [maskedMod, List.forall_mem_cons, List.not_mem_nil, false_implies, implies_true, and_true]
    exact ⟨.declared "mask8 Easy = 1; (15)" (by decide +kernel),
      .declared "mask16 Wide = 0" (by decide +kernel),
      .declared "int16 Lives = 3; -1-99" (by decide +kernel)⟩
  have evaluated : (evaluateCode ⟨fun _ => false, []⟩ (some maskedMod.options) maskedCall).run
      Assembler.toolchain = .ok maskedCallEvaluated := by decide +kernel
  have placeholders : (Text.lines maskedCall).flatMap placeholdersOf =
      [.options ["Easy", "Wide"], .options ["Lives"], .branch ⟨.bl, .symbol "Table", 0⟩] := by
    decide +kernel
  have unsigned : UnsignedGroups maskedMod.options maskedCall := by
    intro line onLine names found two
    have member := List.mem_flatMap.mpr ⟨line, onLine, found⟩
    rw [placeholders] at member
    simp only [List.mem_cons, Placeholder.options.injEq, reduceCtorEq, List.not_mem_nil, or_false]
      at member
    rcases member with rfl | rfl
    · intro name named o known
      rcases List.mem_pair.mp named with rfl | rfl
      · cases known
        exact trivial
      · cases known
        exact trivial
    · exact absurd two (by decide)
  have functions : Code.referencedFunctions maskedCall = .ok ["Table"] := by decide +kernel
  refine accepted_code_fills built (by decide +kernel) (Assembling.yields_of_run evaluated) unsigned
    maskedAttempts rfl fun names referred => ?_
  cases functions.symm.trans referred
  exact fun name member => ⟨0x80001000, by rw [List.mem_singleton.mp member]; decide +kernel⟩

end Change

end GamePatch
