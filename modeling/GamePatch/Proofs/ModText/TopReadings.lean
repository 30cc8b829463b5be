import GamePatch.Proofs.ModText.Top

set_option autoImplicit false

namespace GamePatch

namespace ModText

open Header (isStart)
open Text (trim trimEnd)

theorem IsPlainLine.trimEnd {line : Text} (plain : IsPlainLine line) : IsPlainLine (trimEnd line) := by
  obtain ⟨start, block, header, authors, link⟩ := plain
  rw [← Text.trim_trimEnd] at start block header authors link
  exact ⟨start, block, header, authors, link⟩

/-- A link that is read is a link, unless its line starts a function. -/
theorem isLink_of_readLink {line : Text} {link : WebLink} (clean : '\n' ∉ line)
    (noStart : isStart line = false) (read : readLink line = some link) : IsLink link := by
  have noFunction : Header.parseStandalone? line = none := by
    rw [isStart, Bool.or_eq_false_iff, Bool.or_eq_false_iff] at noStart
    exact Option.isNone_iff_eq_none.mp (Option.isSome_eq_false_iff.mp noStart.1.2)
  rw [readLink] at read
  split at read
  · cases read
  case h_2 url after found =>
    rw [Header.parseStandalone?, found] at noFunction
    obtain ⟨⟨trimmed, inside, part⟩, trimmed', part'⟩ := isInfix_of_angleBracketed found
    split at read
    case isFalse => cases read
    case isTrue marked =>
      obtain rfl := Option.some.inj read
      have behind : (if after.isEmpty then none else some after).getD [] = after := by
        cases after <;> rfl
      refine ⟨trimmed, inside, fun feed => clean (part.subset feed), marked, fun c noted => ?_, ?_⟩
      · split at noted
        · cases noted
        case isFalse some =>
          obtain rfl := Option.some.inj noted
          rw [List.isEmpty_iff] at some
          exact ⟨some, trimmed', fun feed => clean (part'.subset feed)⟩
      · have nonempty : url.isEmpty = false := by
          rw [List.isEmpty_eq_false_iff]
          rintro rfl
          revert marked
          decide
        simp only [nonempty, Bool.false_or] at noFunction
        split at noFunction
        case isFalse => cases noFunction
        case isTrue plain =>
          rw [behind]
          rw [Bool.or_eq_true, Bool.not_eq_true'] at plain
          exact plain

theorem isAuthor_of_readAuthors {line : Text} {authors : List Text} (clean : '\n' ∉ line)
    (read : readAuthors line = some authors) : ∀ a ∈ authors, IsAuthor a := by
  rw [readAuthors] at read
  split at read
  · cases read
  case h_2 rest lead =>
    obtain ⟨inner, tail, rfl⟩ := Option.map_eq_some_iff.mp read
    have part : inner <:+: line := by
      rw [Text.dropLeading?_eq_some_iff.mp lead, Text.dropTrailing?_eq_some_iff.mp tail]
      exact (List.prefix_append _ _).isInfix.trans (List.suffix_append _ _).isInfix
    intro a member
    obtain ⟨inside, some⟩ := List.mem_filter.mp member
    obtain ⟨s, own, rfl⟩ := List.mem_map.mp inside
    obtain ⟨within, noComma⟩ := Text.mem_splitAt own
    have own' := Text.trim_isInfix s
    exact ⟨by simpa using some, Text.trim_trim s, fun comma => noComma (own'.subset comma),
      fun feed => clean (((own'.trans within).trans part).subset feed)⟩

variable {m : GameMod}

theorem IsTop.recordError (top : IsTop m) (message : Text) (isAssembly : Bool) :
    IsTop (m.recordError message isAssembly) :=
  ⟨top.title, top.description, top.links, top.authors, top.options⟩

/-- The lines of a block keep what stands above the changes. -/
theorem IsTop.addOption (top : IsTop m) {line : Text} (clean : '\n' ∉ line) :
    IsTop (addOption m line) ∧ (ModText.addOption m line).revisions = m.revisions := by
  rw [ModText.addOption]
  split
  · exact ⟨top, rfl⟩
  · split
    case h_1 options read =>
      have clean' : '\n' ∉ trim line := fun feed => clean ((Text.trim_isInfix line).subset feed)
      exact ⟨⟨top.title, top.description, top.links, top.authors,
        isWrittenOption_addOptionLine top.options clean' read⟩, rfl⟩
    case h_2 => exact ⟨top.recordError _ _, rfl⟩

theorem IsTop.foldl_addOption (top : IsTop m) {lines : List Text} (clean : ∀ l ∈ lines, '\n' ∉ l) :
    IsTop (lines.foldl ModText.addOption m) ∧
      (lines.foldl ModText.addOption m).revisions = m.revisions := by
  induction lines generalizing m with
  | nil => exact ⟨top, rfl⟩
  | cons l lines ih =>
    rw [List.forall_mem_cons] at clean
    obtain ⟨first, same⟩ := top.addOption clean.1
    obtain ⟨rest, same'⟩ := ih first clean.2
    rw [List.foldl_cons]
    exact ⟨rest, same'.trans same⟩

/-- The lines of the description are found again in it. -/
theorem IsTop.withDescription (top : IsTop m) {description : List Text}
    (plain : ∀ l ∈ description, IsPlainLine l ∧ '\n' ∉ l) :
    IsTop { m with description := bodyText description } := by
  refine ⟨top.title, ?_, top.links, top.authors, top.options⟩
  refine (bodyText_cases fun l member => (plain l member).2).imp_right ?_
  rintro ⟨tidy, lines⟩
  refine ⟨tidy, fun l member => ?_⟩
  obtain ⟨line, inside, rfl⟩ := lines l member
  exact (plain line inside).1.trimEnd

/-- The lines above the changes leave nothing but what has lines of its own. -/
theorem isTop_readTop {description lines : List Text} (top : IsTop m)
    (plain : ∀ l ∈ description, IsPlainLine l ∧ '\n' ∉ l) (clean : ∀ l ∈ lines, '\n' ∉ l) :
    IsTop (readTop m description lines).1 ∧ (readTop m description lines).1.revisions = m.revisions ∧
      (readTop m description lines).2 <:+ lines := by
  fun_induction readTop m description lines with
  | case1 m description => exact ⟨top.withDescription plain, rfl, List.suffix_rfl⟩
  | case2 => exact ⟨top.withDescription plain, rfl, List.suffix_rfl⟩
  | case3 m description line rest text noStart block ih =>
    rw [List.forall_mem_cons] at clean
    obtain ⟨read, same⟩ := top.foldl_addOption fun l member =>
      clean.2 l ((List.takeWhile_sublist isIndented).subset member)
    obtain ⟨top', same', part⟩ := ih read plain fun l member =>
      clean.2 l ((List.dropWhile_sublist isIndented).subset member)
    exact ⟨top', same'.trans same, (part.trans (List.dropWhile_suffix isIndented)).trans
      (List.suffix_cons line rest)⟩
  | case4 m description line rest text noStart noBlock header ih =>
    rw [List.forall_mem_cons] at clean
    obtain ⟨top', same, part⟩ := ih top plain clean.2
    exact ⟨top', same, part.trans (List.suffix_cons line rest)⟩
  | case5 m description line rest text noStart noBlock noHeader authors read ih =>
    rw [List.forall_mem_cons] at clean
    have clean' : '\n' ∉ trim line := fun feed => clean.1 ((Text.trim_isInfix line).subset feed)
    have all : ∀ a ∈ m.authors ++ authors, IsAuthor a := by
      rw [List.forall_mem_append]
      exact ⟨top.authors, isAuthor_of_readAuthors clean' read⟩
    obtain ⟨top', same, part⟩ :=
      ih ⟨top.title, top.description, top.links, all, top.options⟩ plain clean.2
    exact ⟨top', same, part.trans (List.suffix_cons line rest)⟩
  | case6 m description line rest text noStart noBlock noHeader noAuthors link read ih =>
    rw [List.forall_mem_cons] at clean
    have clean' : '\n' ∉ trim line := fun feed => clean.1 ((Text.trim_isInfix line).subset feed)
    have all : ∀ l ∈ m.links ++ [link], IsLink l := by
      rw [List.forall_mem_append, List.forall_mem_singleton]
      exact ⟨top.links, isLink_of_readLink clean' (Bool.eq_false_iff.mpr noStart) read⟩
    obtain ⟨top', same, part⟩ :=
      ih ⟨top.title, top.description, all, top.authors, top.options⟩ plain clean.2
    exact ⟨top', same, part.trans (List.suffix_cons line rest)⟩
  | case7 m description line rest text noStart noBlock noHeader noAuthors noLink ih =>
    rw [List.forall_mem_cons] at clean
    have all : ∀ l ∈ description ++ [line], IsPlainLine l ∧ '\n' ∉ l := by
      rw [List.forall_mem_append, List.forall_mem_singleton]
      exact ⟨plain, ⟨Bool.eq_false_iff.mpr noStart, noBlock, Bool.eq_false_iff.mpr noHeader, noAuthors,
        noLink⟩, clean.1⟩
    obtain ⟨top', same, part⟩ := ih top all clean.2
    exact ⟨top', same, part.trans (List.suffix_cons line rest)⟩

end ModText

end GamePatch
