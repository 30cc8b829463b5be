import GamePatch.Proofs.Change.HexCode

set_option autoImplicit false

namespace GamePatch

theorem Configuration.Kind.width_pos (kind : Configuration.Kind) : 1 ≤ kind.width := by
  cases kind with
  | int w signed range => cases w <;> exact Nat.succ_pos _
  | mask w allowed => cases w <;> exact Nat.succ_pos _
  | float => exact Nat.succ_pos _

namespace Change

def IsWidest (options : List Configuration) (names : List Text) (width : Nat) : Prop :=
  ∃ group : List Configuration,
    List.Forall₂ (fun name c => Configuration.find? options name = some c) names group ∧
      (group.map fun c => c.kind.width).max? = some width

/-- The number of bytes of what belongs at a place of the code. -/
def IsSpanWidth (options : List Configuration) : Placeholder → Nat → Prop
  | .branch _, width => width = 4
  | .symbols _, width => width = 4
  | .options names, width => IsWidest options names width

def isSpanned (spans : List Span) (k : Nat) : Bool :=
  spans.any fun s => decide (s.offset ≤ k / 2) && decide (k / 2 < s.stop)

/-- The code of a change whose digits and placeholders lie one behind another. -/
structure HexForm (options : List Configuration) (code : Text) (i : Intermediate) : Prop where
  digits : Hex.IsDigits i.hex
  even : i.hex.length % 2 = 0
  increasing : i.spans.Pairwise fun s t => s.offset < t.offset
  apart : i.spans.Pairwise fun s t => s.stop ≤ t.offset
  inside : ∀ s ∈ i.spans, s.stop ≤ i.length
  positive : ∀ s ∈ i.spans, 1 ≤ s.width
  widths : ∀ s ∈ i.spans, IsSpanWidth options s.placeholder s.width
  zeros : ∀ k, isSpanned i.spans k = true → i.hex[k]? = some '0'
  /-- Without the digits of its spans, the code is the digits of its lines. -/
  rest : Text.uncovered (isSpanned i.spans) 0 i.hex = (Text.lines code).flatMap Line.hexDigits

theorem widestOption_group {options : List Configuration} {names : List Text} {width : Nat}
    (found : widestOption options names = .ok width) :
    ∃ group : List Configuration,
      List.Forall₂ (fun name c => Configuration.find? options name = some c) names group ∧
        width = (group.map fun c => c.kind.width).max?.getD 0 := by
  induction names generalizing width with
  | nil =>
    cases found
    exact ⟨[], .nil, rfl⟩
  | cons name names ih =>
    rw [widestOption] at found
    split at found
    case h_1 => cases found
    case h_2 c known =>
      obtain ⟨widest, rest, rfl⟩ := Fallible.map_eq_ok_iff.mp found
      obtain ⟨group, all, rfl⟩ := ih rest
      refine ⟨c :: group, .cons known all, ?_⟩
      rw [List.map_cons, List.max?_cons, Option.getD_some]
      cases (group.map fun c => c.kind.width).max? with
      | none => exact Nat.max_zero _
      | some widest => rfl

theorem isWidest_of_widestOption {options : List Configuration} {names : List Text} {width : Nat}
    (nonempty : names ≠ []) (found : widestOption options names = .ok width) :
    IsWidest options names width := by
  obtain ⟨group, all, rfl⟩ := widestOption_group found
  refine ⟨group, all, ?_⟩
  cases all with
  | nil => exact absurd rfl nonempty
  | cons known all => rw [List.map_cons, List.max?_cons, Option.getD_some]

theorem isSpanWidth_of_isHoleWidth {options : List Configuration} {placeholder : Placeholder}
    {width : Nat} (own : IsHoleWidth (some options) placeholder width) :
    IsSpanWidth options placeholder width := by
  cases placeholder with
  | branch branch => exact own
  | symbols names => exact own
  | options names => exact isWidest_of_widestOption own.1 (own.2 options rfl)

theorem IsSpanWidth.pos {options : List Configuration} {placeholder : Placeholder} {width : Nat}
    (own : IsSpanWidth options placeholder width) : 1 ≤ width := by
  cases placeholder with
  | branch branch => exact own.symm ▸ by decide
  | symbols names => exact own.symm ▸ by decide
  | options names =>
    obtain ⟨group, -, widest⟩ := own
    obtain ⟨c, -, rfl⟩ := List.mem_map.mp (List.max?_mem widest)
    exact c.kind.width_pos

theorem isSpanned_of_behind {spans : List Span} {k : Nat} (behind : ∀ s ∈ spans, s.stop ≤ k / 2) :
    isSpanned spans k = false := by
  rw [isSpanned, List.any_eq_false]
  intro s member
  have := behind s member
  simp only [Bool.and_eq_true, decide_eq_true_eq]
  omega

theorem isSpanned_concat (spans : List Span) (s : Span) (k : Nat) :
    isSpanned (spans ++ [s]) k =
      (isSpanned spans k || (decide (s.offset ≤ k / 2) && decide (k / 2 < s.stop))) := by
  rw [isSpanned, List.any_append, List.any_cons, List.any_nil, Bool.or_false]
  rfl

namespace Draft

/-- A draft that keeps some digits between its placeholders. -/
structure Keeps (options : List Configuration) (kept : Text) (d : Draft) : Prop where
  tidy : d.Tidy
  widths : ∀ s ∈ d.spans, IsSpanWidth options s.placeholder s.width
  zeros : ∀ k, isSpanned d.spans k = true → d.digits[k]? = some '0'
  rest : Text.uncovered (isSpanned d.spans) 0 d.digits = kept

variable {options : List Configuration} {kept : Text} {d d' : Draft}

theorem Tidy.isSpanned_behind (tidy : d.Tidy) {k : Nat} (behind : d.digits.length ≤ k) :
    isSpanned d.spans k = false :=
  isSpanned_of_behind fun _ member =>
    Nat.le_trans (tidy.spaced.inside member).2 (Nat.div_le_div_right behind)

theorem Keeps.zeros_append (keeps : d.Keeps options kept) {k : Nat}
    (spanned : isSpanned d.spans k = true) (more : Text) : (d.digits ++ more)[k]? = some '0' := by
  have zero := keeps.zeros k spanned
  obtain ⟨inside, -⟩ := List.getElem?_eq_some_iff.mp zero
  rw [List.getElem?_append_left inside, zero]

theorem Keeps.addDigits {digits : Text} (keeps : d.Keeps options kept)
    (more : Hex.IsDigits digits) :
    Keeps options (kept ++ digits) { d with digits := d.digits ++ digits } where
  tidy := keeps.tidy.addDigits more
  widths := keeps.widths
  zeros _ spanned := keeps.zeros_append spanned digits
  rest := by
    have free : Text.uncovered (isSpanned d.spans) (0 + d.digits.length) digits = digits :=
      Text.uncovered_of_free fun k behind _ => keeps.tidy.isSpanned_behind (by omega)
    rw [Text.uncovered_append, keeps.rest, free]

/-- A placeholder at the end takes in its own zeros and nothing else. -/
theorem Keeps.concat {s : Span} (keeps : d.Keeps options kept)
    (tidy : Tidy ⟨d.digits ++ List.replicate (2 * s.width) '0', d.spans ++ [s]⟩)
    (start : 2 * s.offset = d.digits.length) (own : IsSpanWidth options s.placeholder s.width) :
    Keeps options kept ⟨d.digits ++ List.replicate (2 * s.width) '0', d.spans ++ [s]⟩ where
  tidy := tidy
  widths := List.forall_mem_append.mpr ⟨keeps.widths, List.forall_mem_singleton.mpr own⟩
  zeros k spanned := by
    rw [isSpanned_concat, Bool.or_eq_true] at spanned
    rcases spanned with old | new
    · exact keeps.zeros_append old _
    · rw [Bool.and_eq_true, decide_eq_true_eq, decide_eq_true_eq, Span.stop] at new
      rw [List.getElem?_append_right (by omega), List.getElem?_replicate_of_lt (by omega)]
  rest := by
    have front : Text.uncovered (isSpanned (d.spans ++ [s])) 0 d.digits = kept := by
      rw [← keeps.rest]
      refine Text.uncovered_congr fun k _ before => ?_
      rw [isSpanned_concat, decide_eq_false (by omega : ¬ s.offset ≤ k / 2), Bool.false_and,
        Bool.or_false]
    have back : Text.uncovered (isSpanned (d.spans ++ [s])) (0 + d.digits.length)
        (List.replicate (2 * s.width) '0') = [] := by
      refine Text.uncovered_of_full fun k low high => ?_
      rw [List.length_replicate] at high
      rw [isSpanned_concat, decide_eq_true (by omega : s.offset ≤ k / 2),
        decide_eq_true (by rw [Span.stop]; omega : k / 2 < s.stop), Bool.and_true, Bool.or_true]
    rw [Text.uncovered_append, front, back, List.append_nil]

theorem Keeps.addPlaceholder {placeholder : Placeholder} {width line : Nat} {text : Text}
    (keeps : d.Keeps options kept) (own : IsSpanWidth options placeholder width)
    (added : d.addPlaceholder placeholder width text line = .ok d') : d'.Keeps options kept := by
  have tidy := keeps.tidy.addPlaceholder added
  unfold Draft.addPlaceholder at added
  split at added
  case isTrue => cases added
  case isFalse even =>
    cases added
    have start : 2 * (d.digits.length / 2) = d.digits.length :=
      Nat.mul_div_cancel' (Nat.dvd_of_mod_eq_zero (not_not.mp even))
    exact Keeps.concat (s := ⟨_, width, placeholder, text, line⟩) keeps tidy start own

theorem keeps_isInvariant (options : List Configuration) :
    IsInvariant (some options) (Keeps options) where
  empty := ⟨(tidy_isInvariant (some options)).empty, by simp, by simp [isSpanned], rfl⟩
  digits keeps more := keeps.addDigits more
  placeholder keeps own added := keeps.addPlaceholder (isSpanWidth_of_isHoleWidth own) added

end Draft

theorem isSpanWidth_of_evaluateHex {options : List Configuration} {code : Text} {i : Intermediate}
    (evaluated : evaluateHex (some options) code = .ok i) :
    ∀ s ∈ i.spans, IsSpanWidth options s.placeholder s.width := by
  obtain ⟨d, rfl, -, keeps⟩ := (Draft.keeps_isInvariant options).evaluateHex evaluated
  exact keeps.widths

/-- The first pass over code without assembly leaves its digits and placeholders in order. -/
theorem evaluateHex_form {options : List Configuration} {code : Text} {i : Intermediate}
    (evaluated : evaluateHex (some options) code = .ok i) : HexForm options code i := by
  obtain ⟨d, rfl, even, keeps⟩ := (Draft.keeps_isInvariant options).evaluateHex evaluated
  have apart := keeps.tidy.spaced.apart
  have positive : ∀ s ∈ d.spans, 1 ≤ s.width := fun s member => (keeps.widths s member).pos
  have increasing : d.spans.Pairwise fun s t => s.offset < t.offset := by
    refine apart.imp_of_mem fun {s t} member _ behind => ?_
    have := positive s member
    simp only [Span.stop] at behind
    omega
  exact ⟨keeps.tidy.digits, even, increasing, apart,
    fun s member => (keeps.tidy.spaced.inside member).2, positive, keeps.widths, keeps.zeros,
    keeps.rest⟩

/-- A line that ends in half a byte, two options in one place, the address of a function, and a call
of it. -/
def halvedLine : Text := "386\n0[[Lives]] | [[Speed]]\n# The table\n<<Table>>\nbl <Table>"

def livesAndSpeed : List Configuration :=
  [⟨"Lives", .int .two true none, .int 3, .int 3, [], none, false⟩,
    ⟨"Speed", .int .one false none, .int 5, .int 5, [], none, false⟩]

def halvedLineEvaluated : Intermediate :=
  { hex := "386000000000000000000000"
    spans :=
      [⟨2, 2, .options ["Lives", "Speed"], "0[[Lives]] | [[Speed]]", 1⟩,
        ⟨4, 4, .symbols ["Table"], "<<Table>>", 3⟩,
        ⟨8, 4, .branch ⟨.bl, .symbol "Table", 0⟩, "bl <Table>", 4⟩]
    isAssembly := false }

theorem halvedLine_form :
    evaluateHex (some livesAndSpeed) halvedLine = .ok halvedLineEvaluated ∧
      HexForm livesAndSpeed halvedLine halvedLineEvaluated := by
  have evaluated : evaluateHex (some livesAndSpeed) halvedLine = .ok halvedLineEvaluated := by
    decide +kernel
  exact ⟨evaluated, evaluateHex_form evaluated⟩

end Change

end GamePatch
