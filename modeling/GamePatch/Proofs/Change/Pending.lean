import GamePatch.Assembler
import GamePatch.Proofs.Change.HexCode
import GamePatch.Proofs.Change.ResolveErrors

set_option autoImplicit false

namespace GamePatch.Change

def Context.Allocates (c : Context) (names : List Text) : Prop :=
  ∀ name ∈ names, ∃ a, c.symbols.addressOf? name = some a

namespace Context.Allocates

variable {c : Context} {names more : List Text}

theorem of_subset (allocated : c.Allocates more) (part : names ⊆ more) : c.Allocates names :=
  fun name member => allocated name (part member)

/-- With an address for each of the functions, an error for a value is not for want of one. -/
theorem not_isUnready (allocated : c.Allocates names) {e : ResolveError}
    (own : e.IsForValue c names) : ¬ e.IsUnready := by
  cases e with
  | unallocated name =>
    obtain ⟨a, found⟩ := allocated name own.1
    exact absurd (found.symm.trans own.2) (Option.some_ne_none a)
  | notEvaluated => exact own.elim
  | invalidHex error => exact own.elim
  | _ => exact id

end Context.Allocates

def Decodes (line : Text) : Prop :=
  ∀ segments, Line.classify line = .hex segments →
    ∀ digits, .hex digits ∈ segments → ∃ bytes, Hex.decode digits = .ok bytes

theorem Expansion.ofSegments_decode {text : Text} {index : Nat}
    {parts : List (Line.Segment × Nat)} {expansion : Expansion}
    (expanded : ofSegments text index parts = .ok expansion) :
    ∀ digits, .hex digits ∈ parts.map Prod.fst → ∃ bytes, Hex.decode digits = .ok bytes := by
  induction parts generalizing index expansion with
  | nil => simp
  | cons part parts ih =>
    obtain ⟨first, more, head, tail, -⟩ := ofSegments_cons_eq_ok_iff.mp expanded
    intro digits member
    rw [List.map_cons, List.mem_cons] at member
    rcases member with here | later
    · rw [← here, ofSegment] at head
      split at head
      case h_1 bytes decoded => exact ⟨bytes, decoded⟩
      case h_2 => cases head
    · exact ih tail digits later

theorem Expansion.ofLines_decode {options : KnownOptions} {index : Nat} {lines : List Text}
    {expansions : List Expansion} (expanded : ofLines options index lines = .ok expansions) :
    ∀ line ∈ lines, Decodes line := by
  intro line member segments kind
  obtain ⟨_, e, here⟩ := exists_ofLine expanded line member
  rw [ofLine, kind] at here
  obtain ⟨widths, found, parts⟩ := Fallible.bind_eq_ok_iff.mp here
  have decode := ofSegments_decode parts
  rwa [map_fst_zip_widths found] at decode

theorem segmentDirectives_error {c : Context} {spans : List Span} {segments : List Line.Segment}
    {e : ResolveError} (spanned : spans.map Span.placeholder =
      segments.filterMap Placeholder.ofSegment?)
    (decode : ∀ digits, .hex digits ∈ segments → ∃ bytes, Hex.decode digits = .ok bytes)
    (allocated : ∀ s ∈ spans, c.Allocates s.placeholder.functions)
    (failed : segmentDirectives c spans segments = .error e) : ¬ e.IsUnready := by
  fun_induction segmentDirectives c spans segments with
  | case1 => cases failed
  | case2 spans digits rest error undecoded =>
    obtain ⟨bytes, decoded⟩ := decode digits List.mem_cons_self
    rw [undecoded] at decoded
    cases decoded
  | case3 spans digits rest bytes decoded ih =>
    rcases Fallible.bind_eq_error_iff.mp failed with later | ⟨more, -, impossible⟩
    · exact ih spanned (fun hex member => decode hex (List.mem_cons_of_mem _ member)) allocated later
    · cases impossible
  | case4 segment rest notHex =>
    cases segment with
    | hex digits => exact absurd rfl (notHex digits)
    | symbol name => cases spanned
    | options names => cases spanned
  | case5 s spans segment rest notHex ih =>
    have tail : spans.map Span.placeholder = rest.filterMap Placeholder.ofSegment? := by
      cases segment with
      | hex digits => exact absurd rfl (notHex digits)
      | symbol name => exact (List.cons.inj spanned).2
      | options names => exact (List.cons.inj spanned).2
    rcases Fallible.bind_eq_error_iff.mp failed with here | ⟨bytes, -, chain⟩
    · exact (allocated s List.mem_cons_self).not_isUnready (Context.isForValue_of_spanBytes here)
    · rcases Fallible.bind_eq_error_iff.mp chain with later | ⟨more, -, impossible⟩
      · exact ih tail (fun hex member => decode hex (List.mem_cons_of_mem _ member))
          (fun s' member => allocated s' (List.mem_cons_of_mem _ member)) later
      · cases impossible

theorem symbolNames_subset_functions {line : Text} {names : List Text}
    (read : Line.functions line = .ok names) : Line.symbolNames line ⊆ names := by
  unfold Line.functions at read
  split at read
  · cases read
  · cases read
    exact List.subset_cons_self _ _
  · cases read
    exact List.Subset.refl _

theorem resolvedLines_error {c : Context} {i : Intermediate} {ix : Nat} {line : Text}
    {names : List Text} {e : ResolveError} (spanned : (spansOnLine i ix).map Span.located =
      (placeholdersOf line).map fun p => ⟨p, Line.stripComment line, ix⟩)
    (decode : Decodes line) (readable : Line.IsReadable line)
    (read : Line.functions line = .ok names) (allocated : c.Allocates names)
    (failed : resolvedLines c i ix line = .error e) : ¬ e.IsUnready := by
  have own := Except.ok.inj ((functions_eq readable).symm.trans read)
  have named : ∀ s ∈ spansOnLine i ix,
      s.text = Line.stripComment line ∧ c.Allocates s.placeholder.functions := by
    intro s member
    obtain ⟨found, text, -⟩ := span_of_onLine spanned s member
    refine ⟨text, allocated.of_subset ?_⟩
    rw [← own]
    intro name inside
    exact List.mem_flatMap.mpr ⟨s.placeholder, found, inside⟩
  rcases resolvedLines_error_cases readable failed with
    ⟨segments, kind, stopped⟩ | ⟨-, s, member, stopped⟩
  · have placeholders := placeholders_of_onLine spanned
    rw [placeholdersOf, kind] at placeholders
    exact segmentDirectives_error placeholders (decode segments kind)
      (fun s member => (named s member).2) stopped
  · obtain ⟨text, functions⟩ := named s member
    refine Context.Allocates.not_isUnready ?_ (isForValue_of_resolvedLine stopped)
    rw [text]
    intro name inside
    rcases List.mem_append.mp inside with inSpan | onLine
    · exact functions name inSpan
    · exact allocated name (symbolNames_subset_functions read onLine)

theorem resolvedSource_error {c : Context} {i : Intermediate} {lines : List Text} {e : ResolveError}
    (located : i.spans.map Span.located = placedFrom 0 lines) (decode : ∀ line ∈ lines, Decodes line)
    (readable : ∀ line ∈ lines, Line.IsReadable line)
    (allocated : ∀ line ∈ lines, ∃ names, Line.functions line = .ok names ∧ c.Allocates names)
    (failed : resolvedSource c i 0 lines = .error e) : ¬ e.IsUnready := by
  obtain ⟨k, line, here, stopped⟩ := resolvedSource_error_cases failed
  rw [Nat.zero_add] at stopped
  have member : line ∈ lines := List.mem_of_getElem? here
  obtain ⟨names, read, known⟩ := allocated line member
  exact resolvedLines_error (onLine_of_located located here) (decode line member)
    (readable line member) read known stopped

theorem fill_error {c : Context} {i : Intermediate} {e : ResolveError} {bytes : Bytes}
    (text : i.hex = Hex.encode bytes) (allocated : c.Allocates i.functions)
    (failed : fill c i = .error e) : ¬ e.IsUnready := by
  rw [fill, text, Hex.decode_encode] at failed
  refine Context.Allocates.not_isUnready (fun name member => allocated name ?_)
    (isForValue_of_fillSpans (Fallible.map_eq_error_iff.mp failed))
  exact Text.mem_dedup.mpr member

/-- The spans name the functions that the code refers to. -/
theorem evaluateCode_functions {includes : Includes} {options : KnownOptions} {code : Text}
    {i : Intermediate} (evaluated : (evaluateCode includes options code).Yields (.ok i)) :
    Code.referencedFunctions code = .ok i.functions := by
  rw [referencedFunctions_eq (isReadable_of_yields evaluated) 0, ← evaluateCode_located evaluated,
    List.flatMap_map]
  rfl

theorem functions_of_mem_lines {code line : Text} {names : List Text}
    (read : Code.referencedFunctions code = .ok names) (member : line ∈ Text.lines code) :
    ∃ own, Line.functions line = .ok own ∧ own ⊆ names := by
  obtain ⟨each, found, rfl⟩ := Fallible.map_eq_ok_iff.mp read
  obtain ⟨own, inside, here⟩ := exists_right_of_forall₂ (Fallible.mapM_eq_ok_iff.mp found) member
  exact ⟨own, here, fun name first => Text.mem_dedup.mpr (List.mem_flatten.mpr ⟨own, inside, first⟩)⟩

/-- The names on the spans that do not stand for options. -/
theorem names_addressSpans (i : Intermediate) :
    (i.addressSpans.flatMap fun s => s.placeholder.names) =
      i.spans.flatMap fun s => s.placeholder.functions := by
  rw [Intermediate.addressSpans]
  induction i.spans with
  | nil => rfl
  | cons s spans ih =>
    rw [List.filter_cons, List.flatMap_cons, Placeholder.functions]
    cases s.placeholder.isOptions with
    | true => simpa using ih
    | false => simpa using ih

/-- Assembly that the first pass accepts has no line of digits that cannot be decoded. -/
theorem evaluateCode_decodes {includes : Includes} {options : KnownOptions} {code : Text}
    {i : Intermediate} (evaluated : (evaluateCode includes options code).Yields (.ok i))
    (assembly : i.isAssembly = true) : ∀ line ∈ Text.lines code, Decodes line := by
  rcases evaluateCode_yields evaluated with ⟨-, digits⟩ | ⟨-, expanded⟩
  · rw [evaluateHex_isAssembly digits] at assembly
    cases assembly
  · obtain ⟨expansions, _, _, lines, -⟩ := evaluateAssembly_yields expanded
    exact Expansion.ofLines_decode lines

/-- With an address for each function, no result of the second pass is for want of an address, a
span or a digit, whatever the assembler replies. -/
theorem resolveCode_ready {includes : Includes} {options : KnownOptions} {code : Text}
    {i : Intermediate} {c : Context} {e : ResolveError}
    (evaluated : (evaluateCode includes options code).Yields (.ok i))
    (resolved : (resolveCode c i code).Yields (.error e)) : ¬ e.IsUnready := by
  by_cases settled : c.outstanding i = []
  · have allocated : c.Allocates i.functions := by
      intro name member
      have known := List.filter_eq_nil_iff.mp settled name member
      rw [Option.isNone_iff_eq_none, ← ne_eq, Option.ne_none_iff_exists'] at known
      exact known
    have readable := isReadable_of_yields evaluated
    rcases needsReassembly_cases i readable with again | spliced
    · have assembly : i.isAssembly = true := by
        by_contra plain
        rw [needsReassembly, if_neg plain] at again
        cases again
      rcases yields_of_reassembled settled again resolved with
        ⟨e', failed, same⟩ | ⟨source, reply, -, answer⟩
      · cases same
        apply resolvedSource_error (evaluateCode_located evaluated)
          (evaluateCode_decodes evaluated assembly) readable _ failed
        intro line member
        obtain ⟨own, read, part⟩ := functions_of_mem_lines (evaluateCode_functions evaluated) member
        exact ⟨own, read, allocated.of_subset part⟩
      · rcases ofSecondReply_cases i reply with ⟨_, -, same⟩ | ⟨_, -, -, same⟩ | ⟨_, -, -, same⟩
        · cases answer.trans same
          exact id
        · cases answer.trans same
          exact id
        · cases answer.trans same
    · rw [resolveCode_of_spliced settled spliced] at resolved
      obtain ⟨bytes, text⟩ := evaluateCode_eq_encode evaluated
      exact fill_error text allocated (Assembling.yields_done_iff.mp resolved).symm
  · rw [resolveCode_of_outstanding code settled] at resolved
    cases Assembling.yields_done_iff.mp resolved

/-- The functions that the code refers to are the names on the spans that do not stand for options, each
of them once and in the order of their first appearance. Code is left pending exactly while one of them
has no address, and names just those. Otherwise it does not fail for want of an address, a span or a
digit. -/
theorem pending_iff_unallocated {includes : Includes} {options : KnownOptions} {code : Text}
    {i : Intermediate} (evaluated : (evaluateCode includes options code).Yields (.ok i)) :
    ∃ names, Code.referencedFunctions code = .ok names ∧ i.functions = names ∧
      Text.AreFirsts (i.addressSpans.flatMap fun s => s.placeholder.names) names ∧
      ∀ (c : Context) (result : Except ResolveError Finalized),
        (resolveCode c i code).Yields result →
          ((∃ hex outstanding, result = .ok (.pending hex outstanding)) ↔
            ∃ name ∈ names, c.symbols.addressOf? name = none) ∧
          (∀ hex outstanding, result = .ok (.pending hex outstanding) →
            hex = i.hex ∧
              outstanding = names.filter fun name => (c.symbols.addressOf? name).isNone) ∧
          (∀ name, result ≠ .error (.unallocated name)) ∧
          result ≠ .error .notEvaluated ∧
          ∀ e, result ≠ .error (.invalidHex e) := by
  refine ⟨i.functions, evaluateCode_functions evaluated, rfl, ?_, fun c result resolved => ?_⟩
  · rw [names_addressSpans]
    exact Text.areFirsts_dedup _
  have unallocated : c.outstanding i ≠ [] ↔
      ∃ name ∈ i.functions, c.symbols.addressOf? name = none := by
    rw [Context.outstanding, ne_eq, List.filter_eq_nil_iff]
    simp
  have ready : ∀ e, result = .error e → ¬ e.IsUnready := by
    rintro e rfl
    exact resolveCode_ready evaluated resolved
  refine ⟨?_, ?_, fun name failed => ready _ failed trivial, fun failed => ready _ failed trivial,
    fun e failed => ready _ failed trivial⟩
  · rw [← unallocated]
    constructor
    · rintro ⟨hex, names, rfl⟩ none
      exact resolveCode_not_pending none resolved
    · intro some
      rw [resolveCode_of_outstanding code some] at resolved
      exact ⟨_, _, Assembling.yields_done_iff.mp resolved⟩
  · rintro hex names rfl
    have some : c.outstanding i ≠ [] := fun none => resolveCode_not_pending none resolved
    rw [resolveCode_of_outstanding code some] at resolved
    cases Assembling.yields_done_iff.mp resolved
    exact ⟨rfl, rfl⟩

/-- Code that loads the address of one function, calls another one, and then calls the first one. -/
def loadAndCall : Text := "lis r3, <<Bar>>@h\nbl <Foo>\nbl <Bar>"

def loadAndCallEvaluated : Intermediate :=
  { hex := "000000000000000000000000"
    spans :=
      [⟨0, 4, .symbols ["Bar"], "lis r3, <<Bar>>@h", 0⟩,
        ⟨4, 4, .branch ⟨.bl, .symbol "Foo", 0⟩, "bl <Foo>", 1⟩,
        ⟨8, 4, .branch ⟨.bl, .symbol "Bar", 0⟩, "bl <Bar>", 2⟩]
    isAssembly := true }

def onlyFooPlaced : Context := ⟨0x80005000, [⟨"Foo", "Mod", "blr", some 0x80001234⟩], [], []⟩

/-- The function that is named twice is outstanding once. -/
theorem loadAndCall_pending :
    (evaluateCode ⟨fun _ => false, []⟩ none loadAndCall).Yields (.ok loadAndCallEvaluated) ∧
      Code.referencedFunctions loadAndCall = .ok ["Bar", "Foo"] ∧
        ∀ result, (resolveCode onlyFooPlaced loadAndCallEvaluated loadAndCall).Yields result →
          result = .ok (.pending "000000000000000000000000" ["Bar"]) := by
  have run : (evaluateCode ⟨fun _ => false, []⟩ none loadAndCall).run Assembler.toolchain =
      .ok loadAndCallEvaluated := by decide +kernel
  have evaluated := Assembling.yields_of_run run
  obtain ⟨names, read, rfl, -, each⟩ := pending_iff_unallocated evaluated
  refine ⟨evaluated, read, fun result resolved => ?_⟩
  obtain ⟨waits, outstanding, -⟩ := each onlyFooPlaced result resolved
  obtain ⟨hex, missing, rfl⟩ := waits.mpr ⟨"Bar", by decide, by decide⟩
  obtain ⟨rfl, rfl⟩ := outstanding hex missing rfl
  rfl

end GamePatch.Change
