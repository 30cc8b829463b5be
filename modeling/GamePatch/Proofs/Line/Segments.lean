import GamePatch.Proofs.Hex.RoundTrip
import GamePatch.Line.Kind
import GamePatch.Proofs.Text.Search

set_option autoImplicit false

namespace GamePatch.Line

def Segment.digits : Segment → Option Text
  | .hex digits => some digits
  | .symbol _ => none
  | .options _ => none

def Segment.isOptions : Segment → Bool
  | .options _ => true
  | _ => false

theorem Segment.isOptions_iff {segment : Segment} :
    segment.isOptions = true ↔ ∃ names, segment = .options names := by
  cases segment <;> simp [isOptions]

/-- The stretches of digits on a line of digits. -/
def stretches (line : Text) : List Text :=
  match classify line with
  | .hex segments => segments.filterMap Segment.digits
  | _ => []

theorem mem_stretches {line digits : Text} {segments : List Segment}
    (kind : classify line = .hex segments) (member : .hex digits ∈ segments) :
    digits ∈ stretches line := by
  rw [stretches, kind]
  exact List.mem_filterMap.mpr ⟨.hex digits, member, rfl⟩

theorem Enclosed.eq_of_first? {opening closing s after : Text} {e : Enclosed}
    (found : first? opening closing s = some (e, after)) :
    s = e.before ++ (opening ++ e.inner ++ closing) ++ after := by
  unfold first? at found
  split at found
  · cases found
  case h_2 before rest opened =>
    obtain ⟨⟨inner, after'⟩, closed, same⟩ := Option.map_eq_some_iff.mp found
    cases same
    rw [Text.eq_of_cut opened, Text.eq_of_cut closed]
    simp only [List.append_assoc]

/-- A name that is marked at the start of a text is behind the mark. -/
theorem Enclosed.before_ne_nil {opening closing s after : Text} {e : Enclosed} {c : Char}
    (found : first? opening closing s = some (e, after)) (start : s.head? = some c)
    (foreign : opening.head? ≠ some c) (nonempty : opening ≠ []) : e.before ≠ [] := by
  intro empty
  rw [eq_of_first? found, empty, List.nil_append, List.append_assoc, List.append_assoc,
    List.head?_append_of_ne_nil _ nonempty] at start
  exact foreign start

namespace Segment

/-- A part that is not empty: some upper case digits, or a placeholder that has a name. -/
def IsSound : Segment → Prop
  | .hex digits => Hex.IsDigits digits ∧ digits ≠ []
  | .symbol _ => True
  | .options names => names ≠ []

/-- What the text between two placeholders is read as. -/
theorem digits?_eq_some {s : Text} {segments : List Segment} (read : digits? s = some segments) :
    (∀ c ∈ Text.removeBlanks s, Text.isHexDigit c = true) ∧
      (Text.removeBlanks s = [] ∧ segments = [] ∨
        Text.removeBlanks s ≠ [] ∧ segments = [.hex (Text.upper (Text.removeBlanks s))]) := by
  unfold digits? at read
  simp only at read
  split at read
  case isTrue empty =>
    cases read
    rw [List.isEmpty_iff.mp empty]
    exact ⟨by simp, Or.inl ⟨rfl, rfl⟩⟩
  case isFalse nonempty =>
    split at read
    case isTrue allHex =>
      cases read
      refine ⟨fun c inside => ?_, Or.inr ⟨by simpa using nonempty, rfl⟩⟩
      have kind := List.all_eq_true.mp allHex c inside
      have solid : Text.isBlank c = false := by simpa using (List.mem_filter.mp inside).2
      simpa [solid] using kind
    case isFalse => cases read

theorem digits?_isSound {s : Text} {segments : List Segment} (read : digits? s = some segments) :
    ∀ segment ∈ segments, segment.IsSound := by
  obtain ⟨allHex, ⟨-, rfl⟩ | ⟨nonempty, rfl⟩⟩ := digits?_eq_some read
  · simp
  · rw [List.forall_mem_singleton]
    exact ⟨Hex.isDigits_upper allHex, by simpa [Text.upper] using nonempty⟩

/-- Only placeholders for options are joined, and all of their names are kept. -/
theorem joined?_eq_some {done joined : List Segment} {between : Text} {next : Segment}
    (join : joined? done between next = some joined) :
    Text.trim between = ['|'] ∧ ∃ front names more, done = front ++ [.options names] ∧
      next = .options more ∧ joined = front ++ [.options (names ++ more)] := by
  unfold joined? at join
  split at join
  case isFalse => cases join
  case isTrue bar =>
    split at join
    case h_2 => cases join
    case h_1 names more last =>
      cases join
      have split : done = done.dropLast ++ [.options names] := by
        rw [← List.dropLast_append_getLast? _ (Option.mem_def.mpr last), List.dropLast_concat]
      exact ⟨bar, done.dropLast, names, more, split, rfl, rfl⟩

/-- A place for options is joined with the one in front of it if a bar stands between them. -/
theorem isSome_joined?_iff {done : List Segment} {between : Text} {next : Segment} :
    (joined? done between next).isSome = true ↔ Text.trim between = ['|'] ∧
      (∃ last, done.getLast? = some last ∧ last.isOptions = true) ∧ next.isOptions = true := by
  unfold joined?
  split
  case isTrue bar =>
    split
    case h_1 names more last => simp [bar, last, isOptions]
    case h_2 other =>
      simp only [Option.isSome_none, Bool.false_eq_true, false_iff]
      rintro ⟨-, ⟨last, here, isOptions⟩, joins⟩
      obtain ⟨names, rfl⟩ := isOptions_iff.mp isOptions
      obtain ⟨more, shape⟩ := isOptions_iff.mp joins
      exact other names more here shape
  case isFalse noBar => simp [noBar]

theorem collect_isSound {line : Text} {done segments : List Segment} {position : Nat}
    {found : List Marker} (read : collect line done position found = some segments)
    (sound : ∀ segment ∈ done, segment.IsSound) (marks : ∀ m ∈ found, m.segment.IsSound) :
    ∀ segment ∈ segments, segment.IsSound := by
  fun_induction collect line done position found with
  | case1 done position =>
    obtain ⟨tail, last, rfl⟩ := Option.map_eq_some_iff.mp read
    exact List.forall_mem_append.mpr ⟨sound, digits?_isSound last⟩
  | case2 => cases read
  | case3 done position m more inOrder between joined join ih =>
    obtain ⟨-, front, names, others, rfl, -, rfl⟩ := joined?_eq_some join
    rw [List.forall_mem_append, List.forall_mem_singleton] at sound
    refine ih read (List.forall_mem_append.mpr ⟨sound.1, ?_⟩) (List.forall_mem_cons.mp marks).2
    rw [List.forall_mem_singleton]
    exact List.append_ne_nil_of_left_ne_nil sound.2 others
  | case4 => cases read
  | case5 done position m more inOrder between apart middle found ih =>
    rw [List.forall_mem_cons] at marks
    refine ih read ?_ marks.2
    rw [List.forall_mem_append, List.forall_mem_append, List.forall_mem_singleton]
    exact ⟨⟨sound, digits?_isSound found⟩, marks.1⟩

/-- Each marker is that of a marked name, with its marks around it. -/
theorem exists_of_mem_markers {markLength position : Nat} {make : Text → Segment}
    {found : List Enclosed} {m : Marker} (member : m ∈ markers markLength make position found) :
    ∃ e ∈ found, m.segment = make e.name ∧
      m.stop = m.start + markLength + e.inner.length + markLength := by
  induction found generalizing position with
  | nil => cases member
  | cons e found ih =>
    rw [markers, List.mem_cons] at member
    rcases member with rfl | later
    · exact ⟨e, List.mem_cons_self, rfl, rfl⟩
    · obtain ⟨own, inside, marker⟩ := ih later
      exact ⟨own, List.mem_cons_of_mem e inside, marker⟩

/-- The markers of both kinds are merged by their places. -/
theorem mergeMarkers_eq_merge (left right : List Marker) :
    mergeMarkers left right = left.merge right fun m n => m.start ≤ n.start := by
  induction left generalizing right with
  | nil => rw [List.nil_merge]; rfl
  | cons m left ih =>
    rw [mergeMarkers]
    induction right with
    | nil => rw [putMarker, ih, List.merge_right, List.merge_right]
    | cons n right ih' =>
      rw [putMarker, List.cons_merge_cons, ih, ih']
      simp only [decide_eq_true_eq]

theorem mem_mergeMarkers {n : Marker} {left right : List Marker} :
    n ∈ mergeMarkers left right ↔ n ∈ left ∨ n ∈ right := by
  rw [mergeMarkers_eq_merge, List.mem_merge]

theorem allMarkers_isSound {line : Text} : ∀ m ∈ allMarkers line, m.segment.IsSound := by
  intro m member
  rcases mem_mergeMarkers.mp member with symbol | option
  · obtain ⟨e, -, shape, -⟩ := exists_of_mem_markers symbol
    rw [shape]
    trivial
  · obtain ⟨e, -, shape, -⟩ := exists_of_mem_markers option
    rw [shape]
    exact List.cons_ne_nil _ _

theorem ofLine?_isSound {line : Text} {segments : List Segment}
    (read : ofLine? line = some segments) : ∀ segment ∈ segments, segment.IsSound :=
  collect_isSound read (by simp) allMarkers_isSound

/-- What is left of a line stays a part of it. -/
theorem collect_ne_nil {line : Text} {done segments : List Segment} {position : Nat}
    {found : List Marker} (read : collect line done position found = some segments)
    (some : done ≠ [] ∨ found ≠ [] ∨ Text.removeBlanks (line.drop position) ≠ []) : segments ≠ [] := by
  fun_induction collect line done position found with
  | case1 done position =>
    obtain ⟨digits, more, rfl⟩ := Option.map_eq_some_iff.mp read
    rcases some with old | none | rest
    · exact List.append_ne_nil_of_left_ne_nil old _
    · exact absurd rfl none
    · rcases (digits?_eq_some more).2 with ⟨empty, -⟩ | ⟨-, rfl⟩
      · exact absurd empty rest
      · simp
  | case2 => cases read
  | case3 done position m more ahead between joined join ih =>
    obtain ⟨-, front, names, others, -, -, rfl⟩ := joined?_eq_some join
    exact ih read (Or.inl (by simp))
  | case4 => cases read
  | case5 done position m more ahead between alone digits own ih => exact ih read (Or.inl (by simp))

theorem start_pos_of_mem_markers {markLength position : Nat} {make : Text → Segment}
    {found : List Enclosed} {m : Marker} (first : ∀ e ∈ found.head?, 0 < position + e.before.length)
    (marked : 0 < markLength) (member : m ∈ markers markLength make position found) : 0 < m.start := by
  induction found generalizing position with
  | nil => cases member
  | cons e found ih =>
    rw [markers, List.mem_cons] at member
    rcases member with rfl | later
    · exact first e rfl
    · exact ih (fun _ _ => by omega) later

theorem digits?_chars {s : Text} {segments : List Segment} (read : digits? s = some segments) :
    ∀ c ∈ s, Text.isBlank c = true ∨ Text.isHexDigit c = true := by
  intro c member
  by_cases blank : Text.isBlank c = true
  · exact Or.inl blank
  · exact Or.inr ((digits?_eq_some read).1 c (List.mem_filter.mpr ⟨member, by simpa using blank⟩))

/-- A text is read if it has nothing but digits and blanks. -/
theorem isSome_digits?_iff {s : Text} :
    (digits? s).isSome = true ↔ ∀ c ∈ s, Text.isBlank c = true ∨ Text.isHexDigit c = true := by
  constructor
  · intro read
    obtain ⟨segments, found⟩ := Option.isSome_iff_exists.mp read
    exact digits?_chars found
  · intro clean
    have allHex : Hex.isHex (Text.removeBlanks s) = true := by
      rw [Hex.isHex, List.all_eq_true]
      intro c member
      simpa using clean c (List.mem_filter.mp member).1
    unfold digits?
    simp only [allHex, ↓reduceIte]
    split <;> rfl

/-- A line of digits begins with a digit or a mark. -/
theorem ofLine?_of_foreign {line rest : Text} {c : Char} (shape : stripComment line = c :: rest)
    (solid : Text.isBlank c = false) (noDigit : Text.isHexDigit c = false)
    (noMark : symbolOpening.head? ≠ some c ∧ optionOpening.head? ≠ some c) : ofLine? line = none := by
  have starts : ∀ m ∈ allMarkers (stripComment line), 0 < m.start := by
    have first {opening closing : Text} (foreign : opening.head? ≠ some c) (nonempty : opening ≠ []) :
        ∀ e ∈ (Enclosed.all opening closing (stripComment line)).1.head?,
          0 < 0 + e.before.length := by
      intro e head
      rw [Enclosed.all] at head
      split at head
      · cases head
      case h_2 e' after found =>
        split at head
        · cases head
          rw [Nat.zero_add, List.length_pos_iff]
          exact Enclosed.before_ne_nil found (by rw [shape]; rfl) foreign nonempty
        · cases head
    intro m member
    rcases mem_mergeMarkers.mp member with symbol | option
    · exact start_pos_of_mem_markers (first noMark.1 (by decide)) (by decide) symbol
    · exact start_pos_of_mem_markers (first noMark.2 (by decide)) (by decide) option
  have refused {s : Text} (member : c ∈ s) : digits? s = none := by
    rw [Option.eq_none_iff_forall_ne_some]
    intro segments read
    rcases digits?_chars read c member with blank | digit
    · rw [solid] at blank
      cases blank
    · rw [noDigit] at digit
      cases digit
  unfold ofLine?
  simp only
  generalize allMarkers (stripComment line) = found at starts
  rw [shape]
  cases found with
  | nil => rw [collect, refused (by simp)]; rfl
  | cons m more =>
    have behind := starts m List.mem_cons_self
    have inside : c ∈ ((c :: rest).drop 0).take (m.start - 0) := by
      obtain ⟨n, positive⟩ := Nat.exists_eq_add_of_lt behind
      simp [positive]
    have apart (between : Text) : joined? [] between m.segment = none := by
      unfold joined?
      split <;> rfl
    rw [collect, if_neg (Nat.not_lt_zero _)]
    simp only [apart, refused inside]

end Segment

end GamePatch.Line
