import GamePatch.Proofs.Change.SecondPass

set_option autoImplicit false

namespace GamePatch.Change

/-- The errors of code that is not ready for the second pass. -/
def ResolveError.IsUnready : ResolveError → Prop
  | .notEvaluated => True
  | .unallocated _ => True
  | .invalidHex _ => True
  | _ => False

def ResolveError.IsBranch : ResolveError → Prop
  | .toolchain (.branch _) => True
  | _ => False

/-- The error is for a value of the code: one of some functions has no address, an option is not there
or does not fit, or a branch cannot reach its target. -/
def ResolveError.IsForValue (c : Context) (names : List Text) : ResolveError → Prop
  | .unallocated name => name ∈ names ∧ c.symbols.addressOf? name = none
  | .optionNotFound _ => True
  | .optionDoesNotFit _ _ => True
  | e => e.IsBranch

theorem ResolveError.IsForValue.of_subset {c : Context} {names more : List Text} {e : ResolveError}
    (own : e.IsForValue c names) (part : names ⊆ more) : e.IsForValue c more := by
  cases e with
  | unallocated name => exact ⟨part own.1, own.2⟩
  | _ => exact own

theorem ResolveError.IsBranch.isForValue {c : Context} {names : List Text} {e : ResolveError}
    (branch : e.IsBranch) : e.IsForValue c names := by
  cases e with
  | toolchain error => exact branch
  | _ => exact branch.elim

namespace Context

variable {c : Context} {e : ResolveError}

theorem addressOf_error_iff {name : Text} :
    c.addressOf name = .error e ↔ c.symbols.addressOf? name = none ∧ e = .unallocated name := by
  unfold Context.addressOf
  cases c.symbols.addressOf? name with
  | some a => simp
  | none => simp [eq_comm]

theorem option_error_iff {name : Text} :
    c.option name = .error e ↔
      Configuration.find? c.options name = none ∧ e = .optionNotFound name := by
  unfold Context.option
  cases Configuration.find? c.options name with
  | some o => simp
  | none => simp [eq_comm]

theorem isForValue_of_addressOf {name : Text} {names : List Text} (member : name ∈ names)
    (failed : c.addressOf name = .error e) : e.IsForValue c names := by
  obtain ⟨missing, rfl⟩ := addressOf_error_iff.mp failed
  exact ⟨member, missing⟩

theorem isForValue_of_option {name : Text} {names : List Text} (failed : c.option name = .error e) :
    e.IsForValue c names := by
  obtain ⟨-, rfl⟩ := option_error_iff.mp failed
  trivial

theorem isBranch_of_checked {n : Int} (failed : checked n = .error e) : e.IsBranch := by
  unfold checked at failed
  split at failed
  · cases failed
  · cases failed
    trivial

theorem addressOfTarget_error {branch : Line.SpecialBranch}
    (failed : c.addressOfTarget branch.target = .error e) :
    ∃ name ∈ (Placeholder.branch branch).functions, c.addressOf name = .error e := by
  obtain ⟨mnemonic, target, adjustment⟩ := branch
  cases target with
  | address a => cases failed
  | symbol name => exact ⟨name, List.mem_cons_self, failed⟩

/-- A branch is left without a distance for want of its target's address, or at a number of its own. -/
theorem distance_error_cases {branch : Line.SpecialBranch} {offset : Nat}
    (failed : c.distance branch offset = .error e) :
    c.addressOfTarget branch.target = .error e ∨ e.IsBranch := by
  unfold distance at failed
  split at failed
  case h_1 e' failed' =>
    cases failed
    unfold destination at failed'
    split at failed'
    case h_1 e'' missing =>
      cases failed'
      exact Or.inl missing
    case h_2 => exact Or.inr (isBranch_of_checked failed')
  case h_2 =>
    split at failed
    · cases failed
    · exact Or.inr (isBranch_of_checked failed)

theorem branchWord_error_cases {branch : Line.SpecialBranch} {offset : Nat}
    (failed : c.branchWord branch offset = .error e) :
    (∃ name ∈ (Placeholder.branch branch).functions, c.addressOf name = .error e) ∨ e.IsBranch := by
  unfold branchWord at failed
  split at failed
  case h_1 e' failed' =>
    cases failed
    exact (distance_error_cases failed').imp_left addressOfTarget_error
  case h_2 =>
    split at failed
    · cases failed
    · cases failed
      exact Or.inr trivial

theorem symbolBytes_error {names : List Text} (failed : c.symbolBytes names = .error e) :
    ∃ name ∈ names, c.addressOf name = .error e := by
  rcases Fallible.bind_eq_error_iff.mp failed with missing | ⟨addresses, -, impossible⟩
  · exact Fallible.mapM_eq_error missing
  · cases impossible

theorem optionBytes_error_cases {names : List Text} {width : Nat}
    (failed : c.optionBytes names width = .error e) :
    (∃ name ∈ names, c.option name = .error e) ∨ names = [] ∧ e = .optionNotFound [] ∨
      e = .optionDoesNotFit (Text.join ['|'] names) width := by
  rcases Fallible.bind_eq_error_iff.mp failed with missing | ⟨options, found, packing⟩
  · exact Or.inl (Fallible.mapM_eq_error missing)
  right
  split at packing
  case isTrue none =>
    cases packing
    rw [List.isEmpty_iff.mp none] at found
    exact Or.inl ⟨List.forall₂_nil_right_iff.mp (Fallible.mapM_eq_ok_iff.mp found), rfl⟩
  case isFalse =>
    split at packing
    · cases packing
    · cases packing
      exact Or.inr rfl

theorem isForValue_of_branchWord {branch : Line.SpecialBranch} {offset : Nat}
    (failed : c.branchWord branch offset = .error e) :
    e.IsForValue c (Placeholder.branch branch).functions := by
  rcases branchWord_error_cases failed with ⟨name, member, missing⟩ | branch
  · exact isForValue_of_addressOf member missing
  · exact branch.isForValue

theorem isForValue_of_optionBytes {names more : List Text} {width : Nat}
    (failed : c.optionBytes names width = .error e) : e.IsForValue c more := by
  rcases optionBytes_error_cases failed with ⟨name, -, missing⟩ | ⟨-, rfl⟩ | rfl
  · exact isForValue_of_option missing
  · trivial
  · trivial

/-- The bytes of a span are missing only for its own value. -/
theorem isForValue_of_spanBytes {s : Span} (failed : c.spanBytes s = .error e) :
    e.IsForValue c s.placeholder.functions := by
  unfold spanBytes at failed
  split at failed
  case h_1 branch shape =>
    rw [shape]
    exact isForValue_of_branchWord (Fallible.map_eq_error_iff.mp failed)
  case h_2 names shape =>
    rw [shape]
    obtain ⟨name, member, missing⟩ := symbolBytes_error failed
    exact isForValue_of_addressOf member missing
  case h_3 => exact isForValue_of_optionBytes failed

end Context

theorem replaceIn_error {ε : Type} {replace : Text → Except ε Text} {found : List Line.Enclosed}
    {e : ε} (failed : Line.Enclosed.replaceIn replace found = .error e) :
    ∃ x ∈ found, replace x.name = .error e := by
  induction found with
  | nil => cases failed
  | cons x found ih =>
    rcases Fallible.bind_eq_error_iff.mp failed with head | ⟨text, -, chain⟩
    · exact ⟨x, List.mem_cons_self, head⟩
    · rcases Fallible.bind_eq_error_iff.mp chain with tail | ⟨rest, -, impossible⟩
      · obtain ⟨y, member, error⟩ := ih tail
        exact ⟨y, List.mem_cons_of_mem x member, error⟩
      · cases impossible

theorem replaceEnclosed_error {ε : Type} {opening closing line : Text}
    {replace : Text → Except ε Text} {e : ε}
    (failed : Line.replaceEnclosed opening closing replace line = .error e) :
    ∃ name ∈ (Line.Enclosed.all opening closing line).1.map Line.Enclosed.name,
      replace name = .error e := by
  obtain ⟨x, member, error⟩ := replaceIn_error (Fallible.map_eq_error_iff.mp failed)
  exact ⟨x.name, List.mem_map_of_mem member, error⟩

section

variable {c : Context} {e : ResolveError}

/-- An instruction is left without a value at one of its symbols, or at an option that is on the line
with the addresses in it. -/
theorem substitute_error_cases {line : Text}
    (failed : substitute c.symbolText c.optionText line = .error e) :
    (∃ name ∈ (Line.Enclosed.all Line.symbolOpening Line.symbolClosing line).1.map Line.Enclosed.name,
      c.addressOf name = .error e) ∨
    ∃ text, Line.replaceEnclosed Line.symbolOpening Line.symbolClosing c.symbolText line = .ok text ∧
      ∃ name ∈ (Line.Enclosed.all Line.optionOpening Line.optionClosing text).1.map Line.Enclosed.name,
        c.option name = .error e := by
  unfold substitute at failed
  split at failed
  case h_1 text replaced =>
    obtain ⟨name, member, missing⟩ := replaceEnclosed_error failed
    exact Or.inr ⟨text, replaced, name, member, Fallible.map_eq_error_iff.mp missing⟩
  case h_2 e' replaced =>
    cases failed
    obtain ⟨name, member, missing⟩ := replaceEnclosed_error replaced
    exact Or.inl ⟨name, member, Fallible.map_eq_error_iff.mp missing⟩

/-- The line of a span is missing only for the value of the span or of another placeholder on it. -/
theorem isForValue_of_resolvedLine {s : Span} (failed : resolvedLine c s = .error e) :
    e.IsForValue c (s.placeholder.functions ++
      (Line.Enclosed.all Line.symbolOpening Line.symbolClosing s.text).1.map Line.Enclosed.name) := by
  unfold resolvedLine at failed
  split at failed
  case h_1 branch shape =>
    rw [shape]
    exact (Context.isForValue_of_branchWord (Fallible.map_eq_error_iff.mp failed)).of_subset
      (List.subset_append_left _ _)
  case h_2 =>
    rcases substitute_error_cases failed with ⟨name, member, missing⟩ | ⟨_, -, name, -, missing⟩
    · exact Context.isForValue_of_addressOf (List.mem_append_right _ member) missing
    · exact Context.isForValue_of_option missing

theorem segmentDirectives_error_cases {spans : List Span} {segments : List Line.Segment}
    (failed : segmentDirectives c spans segments = .error e) :
    (∃ s ∈ spans, c.spanBytes s = .error e) ∨ e.IsUnready := by
  fun_induction segmentDirectives c spans segments with
  | case1 => cases failed
  | case2 =>
    cases failed
    exact Or.inr trivial
  | case3 spans digits rest bytes decoded ih =>
    rcases Fallible.bind_eq_error_iff.mp failed with later | ⟨more, -, impossible⟩
    · exact ih later
    · cases impossible
  | case4 =>
    cases failed
    exact Or.inr trivial
  | case5 s spans segment rest notHex ih =>
    rcases Fallible.bind_eq_error_iff.mp failed with here | ⟨bytes, -, chain⟩
    · exact Or.inl ⟨s, List.mem_cons_self, here⟩
    · rcases Fallible.bind_eq_error_iff.mp chain with later | ⟨more, -, impossible⟩
      · rcases ih later with ⟨s', member, reason⟩ | unready
        · exact Or.inl ⟨s', List.mem_cons_of_mem s member, reason⟩
        · exact Or.inr unready
      · cases impossible

/-- A line fails at a part of its digits, or at a span on it if it has none. -/
theorem resolvedLines_error_cases {i : Intermediate} {ix : Nat} {line : Text}
    (readable : Line.IsReadable line) (failed : resolvedLines c i ix line = .error e) :
    (∃ segments, Line.classify line = .hex segments ∧
      segmentDirectives c (spansOnLine i ix) segments = .error e) ∨
    (∀ segments, Line.classify line ≠ .hex segments) ∧
      ∃ s ∈ spansOnLine i ix, resolvedLine c s = .error e := by
  by_cases notHex : ∀ segments, Line.classify line ≠ .hex segments
  · refine Or.inr ⟨notHex, ?_⟩
    cases onLine : spansOnLine i ix with
    | nil =>
      rw [resolvedLines_of_no_span readable notHex onLine] at failed
      cases failed
    | cons s more =>
      rw [resolvedLines_of_span readable notHex onLine] at failed
      exact ⟨s, List.mem_cons_self, Fallible.map_eq_error_iff.mp failed⟩
  · obtain ⟨segments, kind⟩ : ∃ segments, Line.classify line = .hex segments := by
      simpa using notHex
    rw [resolvedLines_of_hex kind] at failed
    exact Or.inl ⟨segments, kind, failed⟩

/-- The second source fails at one of the lines. -/
theorem resolvedSource_error_cases {i : Intermediate} {ix : Nat} {lines : List Text}
    (failed : resolvedSource c i ix lines = .error e) :
    ∃ k line, lines[k]? = some line ∧ resolvedLines c i (ix + k) line = .error e := by
  induction lines generalizing ix with
  | nil => cases failed
  | cons line lines ih =>
    rcases Fallible.bind_eq_error_iff.mp failed with here | ⟨first, -, chain⟩
    · exact ⟨0, line, rfl, here⟩
    rcases Fallible.bind_eq_error_iff.mp chain with later | ⟨more, -, impossible⟩
    · obtain ⟨k, line', onLine, reason⟩ := ih later
      exact ⟨k + 1, line', onLine, by rwa [Nat.add_comm k 1, ← Nat.add_assoc]⟩
    · cases impossible

/-- Filling fails for want of a value, or because a value does not fit. -/
theorem fillSpans_error_cases {bytes : Bytes} {spans : List Span}
    (failed : fillSpans c bytes spans = .error e) :
    ∃ s ∈ spans, c.spanBytes s = .error e ∨ e = .optionDoesNotFit s.text s.width := by
  induction spans generalizing bytes with
  | nil => cases failed
  | cons s spans ih =>
    rw [fillSpans] at failed
    split at failed
    case h_1 e' here =>
      cases failed
      exact ⟨s, List.mem_cons_self, Or.inl here⟩
    case h_2 =>
      split at failed
      · cases failed
        exact ⟨s, List.mem_cons_self, Or.inr rfl⟩
      · obtain ⟨s', member, reason⟩ := ih failed
        exact ⟨s', List.mem_cons_of_mem s member, reason⟩

/-- Filling fails only for the value of one of the spans. -/
theorem isForValue_of_fillSpans {bytes : Bytes} {spans : List Span}
    (failed : fillSpans c bytes spans = .error e) :
    e.IsForValue c (spans.flatMap fun s => s.placeholder.functions) := by
  obtain ⟨s, member, missing | rfl⟩ := fillSpans_error_cases failed
  · exact (Context.isForValue_of_spanBytes missing).of_subset fun _ inside =>
      List.mem_flatMap.mpr ⟨s, member, inside⟩
  · trivial

end

end GamePatch.Change
