import GamePatch.Proofs.Assembler.Items
import GamePatch.Proofs.Bytes
import GamePatch.Proofs.Fallible
import GamePatch.Proofs.Listing.Rows

set_option autoImplicit false

namespace GamePatch.Listing

open Toolchain (Reply Error)

/-- What a row stands for: its address and its bytes, and the label that its source line defines. -/
structure Entry where
  address : Option Nat
  data : Bytes
  label : Option Text
deriving DecidableEq, Repr

namespace Entry

/-- Where the bytes start, behind `before` bytes that have been read. -/
def start (e : Entry) (before : Nat) : Nat := e.address.getD before

def stop (e : Entry) (before : Nat) : Nat := e.start before + e.data.length

end Entry

def readAddress? : Option Text → Option (Option Nat)
  | none => some none
  | some digits => (Text.readNat64 16 digits).map some

def readData? : Option Text → Option Bytes
  | none => some []
  | some digits => (Hex.decode digits).toOption

/-- The entry of a row, if its columns are hexadecimal. -/
def Row.entry? (row : Row) : Option Entry := do
  let address ← readAddress? row.address
  let data ← readData? row.data
  some ⟨address, data, row.label⟩

/-- The part of a line that is looked at. -/
def cleanLine (line : Text) : Text := Text.trimEnd (line.dropWhile (· == '\x0c'))

/-- The entries of a line: one if it is a row, and otherwise none. Some lines cannot be read. -/
def lineEntries? (line : Text) : Option (List Entry) :=
  match Row.read (cleanLine line) with
  | .error _ => none
  | .ok none => some []
  | .ok (some row) => row.entry?.map fun e => [e]

def entries? : List Text → Option (List Entry)
  | [] => some []
  | line :: rest => do
    let here ← lineEntries? line
    let more ← entries? rest
    some (here ++ more)

/-- The one entry of a line has the numbers in its columns and the label of its source line. -/
theorem lineEntries?_eq_singleton_iff {line : Text} {e : Entry} :
    lineEntries? line = some [e] ↔ ∃ number columns source address data,
      IsNumbered (cleanLine line) number columns source ∧ Text.readNat64 10 number ≠ none ∧
        AreColumns columns address data ∧ readAddress? address = some e.address ∧
          readData? data = some e.data ∧ e.label = labelOf? source := by
  obtain ⟨offset, bytes, label⟩ := e
  have here : lineEntries? line = some [⟨offset, bytes, label⟩] ↔
      ∃ row, Row.read (cleanLine line) = .ok (some row) ∧ row.entry? = some ⟨offset, bytes, label⟩ := by
    unfold lineEntries?
    cases Row.read (cleanLine line) with
    | error e => simp
    | ok found => cases found <;> simp
  rw [here]
  simp only [read_eq_some_iff, Row.entry?, Option.bind_eq_bind, Option.bind_eq_some_iff,
    Option.some.injEq, Entry.mk.injEq]
  constructor
  · rintro ⟨row, ⟨number, columns, source, numbered, counted, shape, labelled⟩,
      _, place, _, decoded, rfl, rfl, rfl⟩
    exact ⟨number, columns, source, _, _, numbered, counted, shape, place, decoded, labelled⟩
  · rintro ⟨number, columns, source, address, data, numbered, counted, shape, place, decoded, labelled⟩
    exact ⟨⟨address, data, label⟩, ⟨number, columns, source, numbered, counted, shape, labelled⟩,
      offset, place, bytes, decoded, rfl, rfl, rfl⟩

/-- A line without an entry is a heading, or does not start with a line number. -/
theorem lineEntries?_eq_nil_iff {line : Text} :
    lineEntries? line = some [] ↔ ∀ number columns source,
      IsNumbered (cleanLine line) number columns source → Text.readNat64 10 number = none := by
  rw [← read_eq_none_iff]
  unfold lineEntries?
  cases Row.read (cleanLine line) with
  | error e => simp
  | ok found => cases found <;> simp

theorem eq_listing_of_read {line : Text} {error : Error} (refused : Row.read line = .error error) :
    error = .listing line := by
  unfold Row.read at refused
  split at refused
  · cases refused
  · simp only at refused
    split at refused
    · cases refused
    · split at refused
      · exact (Except.error.inj refused).symm
      · cases refused

theorem entries?_append_eq_some_iff {front back : List Text} {es : List Entry} :
    entries? (front ++ back) = some es ↔
      ∃ above below, entries? front = some above ∧ entries? back = some below ∧ es = above ++ below := by
  induction front generalizing es with
  | nil => simp [entries?, eq_comm]
  | cons line front ih =>
    cases here : lineEntries? line with
    | none => simp [entries?, here]
    | some e =>
      simp only [List.cons_append, entries?, here, Option.bind_eq_bind, Option.bind_some,
        Option.bind_eq_some_iff, ih, Option.some.injEq]
      constructor
      · rintro ⟨_, ⟨above, below, first, second, rfl⟩, rfl⟩
        exact ⟨e ++ above, below, ⟨above, first, rfl⟩, second, (List.append_assoc e above below).symm⟩
      · rintro ⟨_, below, ⟨above, first, rfl⟩, second, rfl⟩
        exact ⟨above ++ below, ⟨above, below, first, second, rfl⟩, (List.append_assoc e above below).symm⟩

/-- How many bytes have been read behind some entries, if there were `before` in front of them. -/
def endFrom (before : Nat) (es : List Entry) : Nat := es.foldl (fun stop e => e.stop stop) before

/-- What holds at each entry, given the number of bytes read in front of it and the entries behind. -/
def AtEach (P : Nat → Entry → List Entry → Prop) (before : Nat) (es : List Entry) : Prop :=
  ∀ above e below, es = above ++ e :: below → P (endFrom before above) e below

/-- No address goes back behind the bytes that have been read. -/
def IsAscending (before : Nat) (es : List Entry) : Prop :=
  AtEach (fun before e _ => before ≤ e.start before) before es

def firstAddress? (es : List Entry) : Option Nat := es.findSome? Entry.address

section

variable {P Q : Nat → Entry → List Entry → Prop} {before : Nat} {e : Entry} {es : List Entry}

theorem atEach_nil : AtEach P before [] := by
  intro above e below shape
  simp at shape

theorem atEach_cons_iff : AtEach P before (e :: es) ↔ P before e es ∧ AtEach P (e.stop before) es := by
  constructor
  · intro each
    exact ⟨each [] e es rfl, fun above e' below shape => each (e :: above) e' below (by rw [shape]; rfl)⟩
  · rintro ⟨here, each⟩ above e' below shape
    cases above with
    | nil =>
      obtain ⟨rfl, rfl⟩ := List.cons.inj shape
      exact here
    | cons e'' above =>
      obtain ⟨rfl, rfl⟩ := List.cons.inj shape
      exact each above e' below rfl

theorem isAscending_cons_iff :
    IsAscending before (e :: es) ↔ before ≤ e.start before ∧ IsAscending (e.stop before) es :=
  atEach_cons_iff

theorem isAscending_append_iff {front back : List Entry} :
    IsAscending before (front ++ back) ↔
      IsAscending before front ∧ IsAscending (endFrom before front) back := by
  induction front generalizing before with
  | nil => exact (and_iff_right atEach_nil).symm
  | cons e front ih =>
    rw [List.cons_append, isAscending_cons_iff, isAscending_cons_iff, ih, and_assoc]
    rfl

/-- Behind bytes that end at some place, nothing in ascending order starts in front of it. -/
theorem IsAscending.bound {bound : Nat} (ascending : IsAscending before es) (below : bound ≤ before) :
    AtEach (fun before e _ => bound ≤ e.start before) before es := by
  induction es generalizing before with
  | nil => exact atEach_nil
  | cons e es ih =>
    obtain ⟨here, rest⟩ := isAscending_cons_iff.mp ascending
    refine atEach_cons_iff.mpr ⟨Nat.le_trans below here, ih rest ?_⟩
    unfold Entry.stop
    omega

/-- The parts of entries in ascending order do not meet. -/
theorem IsAscending.apart (ascending : IsAscending before es) :
    AtEach (fun before e below => AtEach (fun before' e' _ => e.stop before ≤ e'.start before')
      (e.stop before) below) before es := by
  induction es generalizing before with
  | nil => exact atEach_nil
  | cons e es ih =>
    obtain ⟨-, rest⟩ := isAscending_cons_iff.mp ascending
    exact atEach_cons_iff.mpr ⟨rest.bound (Nat.le_refl _), ih rest⟩

end

namespace Progress

variable {p q : Progress} {e : Entry} {es : List Entry}

def place (p : Progress) (e : Entry) : Progress :=
  let p := { p with waiting := p.waiting ++ e.label.toList }
  let p :=
    match e.address with
    | none => p
    | some offset => { p with bytes := Bytes.extendTo offset p.bytes }.settle offset
  { p with bytes := p.bytes ++ e.data }

def placeAll (p : Progress) (es : List Entry) : Progress := es.foldl place p

/-- A row is added by its entry, unless its address goes back. -/
theorem add_eq (p : Progress) (row : Row) :
    p.add row = row.entry?.bind fun e =>
      if p.bytes.length ≤ e.start p.bytes.length then some (p.place e) else none := by
  obtain ⟨address, data, label⟩ := row
  cases address with
  | none =>
    cases data with
    | none => simp [add, Row.entry?, readAddress?, readData?, place, Entry.start]
    | some text =>
      cases decoded : Hex.decode text <;>
        simp [add, Row.entry?, readAddress?, readData?, decoded, Except.toOption, place, Entry.start]
  | some digits =>
    cases number : Text.readNat64 16 digits with
    | none => simp [add, Row.entry?, readAddress?, number]
    | some offset =>
      -- A row is refused in one way, so it does not matter which of its columns is at fault.
      have behind : p.bytes.length ≤ offset ↔ ¬ offset < p.bytes.length := Nat.not_lt.symm
      cases data with
      | none =>
        by_cases back : offset < p.bytes.length <;>
          simp [add, Row.entry?, readAddress?, readData?, number, moveTo, place, Entry.start, behind, back]
      | some text =>
        cases decoded : Hex.decode text <;> by_cases back : offset < p.bytes.length <;>
          simp [add, Row.entry?, readAddress?, readData?, number, decoded, Except.toOption, moveTo, place,
            Entry.start, behind, back]

/-- An entry puts its bytes behind those that are there, with zeros up to its address. -/
theorem bytes_place (p : Progress) (e : Entry) :
    (p.place e).bytes =
      p.bytes ++ Bytes.zeros (e.start p.bytes.length - p.bytes.length) ++ e.data := by
  unfold place Entry.start
  cases e.address with
  | none => simp [Bytes.zeros]
  | some offset => rfl

theorem length_bytes_place (ahead : p.bytes.length ≤ e.start p.bytes.length) :
    (p.place e).bytes.length = e.stop p.bytes.length := by
  rw [bytes_place, List.length_append, List.length_append, Bytes.length_zeros]
  unfold Entry.stop
  omega

/-- What has been read stays. -/
theorem bytes_isPrefix_placeAll (p : Progress) (es : List Entry) :
    p.bytes <+: (p.placeAll es).bytes := by
  induction es generalizing p with
  | nil => exact List.prefix_rfl
  | cons e es ih =>
    have here : p.bytes <+: (p.place e).bytes := by
      rw [bytes_place, List.append_assoc]
      exact List.prefix_append _ _
    exact here.trans (ih (p.place e))

theorem length_bytes_placeAll (ascending : IsAscending p.bytes.length es) :
    (p.placeAll es).bytes.length = endFrom p.bytes.length es := by
  induction es generalizing p with
  | nil => rfl
  | cons e es ih =>
    obtain ⟨here, rest⟩ := isAscending_cons_iff.mp ascending
    have length := length_bytes_place here
    rw [← length] at rest
    have whole := ih rest
    rw [length] at whole
    exact whole

/-- Each entry has its bytes in the output at its place. -/
theorem data_placeAll (ascending : IsAscending p.bytes.length es) :
    AtEach (fun before e _ =>
      ((p.placeAll es).bytes.drop (e.start before)).take e.data.length = e.data)
      p.bytes.length es := by
  induction es generalizing p with
  | nil => exact atEach_nil
  | cons e es ih =>
    obtain ⟨here, rest⟩ := isAscending_cons_iff.mp ascending
    have length := length_bytes_place here
    rw [← length] at rest
    have later := ih rest
    rw [length] at later
    refine atEach_cons_iff.mpr ⟨?_, later⟩
    obtain ⟨back, whole⟩ := bytes_isPrefix_placeAll (p.place e) es
    rw [bytes_place, List.append_assoc _ e.data] at whole
    have front : (p.bytes ++ Bytes.zeros (e.start p.bytes.length - p.bytes.length)).length =
        e.start p.bytes.length := by
      rw [List.length_append, Bytes.length_zeros]
      omega
    change (((p.place e).placeAll es).bytes.drop _).take _ = _
    rw [← whole, List.drop_left' front, List.take_left]

/-- A byte that no entry has put there is zero. -/
theorem gap_placeAll (ascending : IsAscending p.bytes.length es) {i : Nat}
    (behind : p.bytes.length ≤ i) (inside : i < (p.placeAll es).bytes.length)
    (free : AtEach (fun before e _ => i < e.start before ∨ e.stop before ≤ i) p.bytes.length es) :
    (p.placeAll es).bytes[i]? = some 0 := by
  induction es generalizing p with
  | nil =>
    have : i < p.bytes.length := inside
    omega
  | cons e es ih =>
    obtain ⟨here, rest⟩ := isAscending_cons_iff.mp ascending
    obtain ⟨freeHere, freeRest⟩ := atEach_cons_iff.mp free
    have length := length_bytes_place here
    rw [← length] at rest freeRest
    by_cases later : (p.place e).bytes.length ≤ i
    · exact ih rest later inside freeRest
    · -- The place is in front of the bytes of the entry, among the zeros up to its address.
      rw [length] at later
      have ahead : i - p.bytes.length < e.start p.bytes.length - p.bytes.length := by omega
      obtain ⟨back, whole⟩ := bytes_isPrefix_placeAll (p.place e) es
      change ((p.place e).placeAll es).bytes[i]? = some 0
      rw [← whole, bytes_place, List.append_assoc, List.append_assoc,
        List.getElem?_append_right behind, List.getElem?_append_left (by simpa using ahead),
        Bytes.zeros, List.getElem?_replicate, if_pos ahead]

theorem offset?_foldl_insert (names : List Text) (labels : Labels) (offset : Nat) (name : Text) :
    (names.foldl (fun labels name => labels.insert name offset) labels).offset? name =
      if name ∈ names then some offset else labels.offset? name := by
  induction names generalizing labels with
  | nil => simp
  | cons first names ih =>
    rw [List.foldl_cons, ih]
    by_cases later : name ∈ names
    · simp [later]
    · by_cases same : first = name
      · simp [same]
      · simp [later, Ne.symm same, Labels.offset?_insert_of_ne same]

theorem offset?_settle (p : Progress) (offset : Nat) (name : Text) :
    (p.settle offset).labels.offset? name =
      if name ∈ p.waiting then some offset else p.labels.offset? name :=
  offset?_foldl_insert p.waiting p.labels offset name

/-- At an entry with an address the labels that wait get it, and those without one wait on. -/
theorem offset?_place (p : Progress) (e : Entry) (name : Text) :
    (p.place e).labels.offset? name =
      match e.address with
      | none => p.labels.offset? name
      | some offset =>
        if name ∈ p.waiting ++ e.label.toList then some offset else p.labels.offset? name := by
  unfold place
  cases e.address with
  | none => rfl
  | some offset => exact offset?_settle _ offset name

theorem waiting_place (p : Progress) (e : Entry) :
    (p.place e).waiting = if e.address.isSome then [] else p.waiting ++ e.label.toList := by
  unfold place
  cases e.address <;> rfl

/-- A label that no more entry defines is where it was, or waits for the first address. -/
theorem offset?_placeAll {name : Text} (absent : ∀ e ∈ es, e.label ≠ some name) (p : Progress)
    (total : Nat) :
    ((p.placeAll es).settle total).labels.offset? name =
      if name ∈ p.waiting then some ((firstAddress? es).getD total) else p.labels.offset? name := by
  induction es generalizing p with
  | nil => exact offset?_settle p total name
  | cons e es ih =>
    rw [List.forall_mem_cons] at absent
    have other : name ∉ e.label.toList := by simpa using absent.1
    change (((p.place e).placeAll es).settle total).labels.offset? name = _
    rw [ih absent.2, offset?_place, waiting_place]
    cases found : e.address with
    | none => simp [firstAddress?, found, other]
    | some offset => simp [firstAddress?, found, other]

/-- A label is where the first address is, from the last entry on that defines it. -/
theorem offset?_placeAll_of_last {name : Text} (label : e.label = some name)
    (absent : ∀ e ∈ es, e.label ≠ some name) (p : Progress) (total : Nat) :
    ((p.placeAll (e :: es)).settle total).labels.offset? name =
      some ((firstAddress? (e :: es)).getD total) := by
  change (((p.place e).placeAll es).settle total).labels.offset? name = _
  rw [offset?_placeAll absent, offset?_place, waiting_place]
  cases found : e.address with
  | none => simp [firstAddress?, found, label]
  | some offset => simp [firstAddress?, found, label]

/-- A line is taken if it can be read and its address, if it has one, does not go back. -/
theorem addLine_eq_ok_iff {line : Text} :
    p.addLine line = .ok q ↔
      ∃ es, lineEntries? line = some es ∧ IsAscending p.bytes.length es ∧ q = p.placeAll es := by
  unfold addLine lineEntries? cleanLine
  generalize Text.trimEnd (line.dropWhile (· == '\x0c')) = clean
  cases read : Row.read clean with
  | error e => simp [read]
  | ok found =>
    cases found with
    | none =>
      have idle : IsAscending p.bytes.length [] := atEach_nil
      simp [read, idle, placeAll, eq_comm]
    | some row =>
      cases entry : row.entry? with
      | none => simp [read, add_eq, entry]
      | some e =>
        have alone : IsAscending p.bytes.length [e] ↔ p.bytes.length ≤ e.start p.bytes.length := by
          rw [isAscending_cons_iff]
          exact and_iff_left atEach_nil
        by_cases ahead : p.bytes.length ≤ e.start p.bytes.length
        · simp [read, add_eq, entry, alone, ahead, placeAll, eq_comm]
        · simp [read, add_eq, entry, alone, ahead]

/-- The error names the line that is refused. -/
theorem eq_listing_of_addLine {line : Text} {error : Error} (refused : p.addLine line = .error error) :
    error = .listing (cleanLine line) := by
  unfold addLine at refused
  unfold cleanLine
  generalize Text.trimEnd (line.dropWhile (· == '\x0c')) = clean at refused ⊢
  simp only at refused
  split at refused
  case h_1 e read =>
    cases refused
    exact eq_listing_of_read read
  case h_2 => cases refused
  case h_3 =>
    split at refused
    · cases refused
    · exact (Except.error.inj refused).symm

theorem addLines_eq_ok_iff {lines : List Text} :
    p.addLines lines = .ok q ↔
      ∃ es, entries? lines = some es ∧ IsAscending p.bytes.length es ∧ q = p.placeAll es := by
  induction lines generalizing p with
  | nil =>
    have idle : IsAscending p.bytes.length [] := atEach_nil
    simp [addLines, entries?, idle, placeAll, eq_comm]
  | cons line lines ih =>
    constructor
    · intro taken
      rw [addLines] at taken
      split at taken
      case h_1 p' first =>
        obtain ⟨here, read, ahead, rfl⟩ := addLine_eq_ok_iff.mp first
        obtain ⟨more, readMore, aheadMore, rfl⟩ := ih.mp taken
        rw [length_bytes_placeAll ahead] at aheadMore
        refine ⟨here ++ more, by simp [entries?, read, readMore], isAscending_append_iff.mpr ⟨ahead, aheadMore⟩, ?_⟩
        rw [placeAll, placeAll, placeAll, List.foldl_append]
      case h_2 => cases taken
    · rintro ⟨es, read, ascending, rfl⟩
      obtain ⟨here, readHere, rest⟩ := Option.bind_eq_some_iff.mp read
      obtain ⟨more, readMore, same⟩ := Option.bind_eq_some_iff.mp rest
      obtain rfl := Option.some.inj same
      obtain ⟨ahead, aheadMore⟩ := isAscending_append_iff.mp ascending
      have first : p.addLine line = .ok (p.placeAll here) :=
        addLine_eq_ok_iff.mpr ⟨here, readHere, ahead, rfl⟩
      rw [addLines, first]
      simp only
      rw [ih]
      refine ⟨more, readMore, ?_, ?_⟩
      · rwa [length_bytes_placeAll ahead]
      · rw [placeAll, placeAll, placeAll, List.foldl_append]

theorem eq_listing_of_addLines {lines : List Text} {error : Error}
    (refused : p.addLines lines = .error error) :
    ∃ line ∈ lines, error = .listing (cleanLine line) := by
  induction lines generalizing p with
  | nil => cases refused
  | cons line lines ih =>
    rw [addLines] at refused
    split at refused
    · obtain ⟨line', member, named⟩ := ih refused
      exact ⟨line', List.mem_cons_of_mem line member, named⟩
    case h_2 e first =>
      cases refused
      exact ⟨line, List.mem_cons_self, eq_listing_of_addLine first⟩

end Progress

/-- The bytes and the labels of an assembly are those of some entries, each at its place. -/
structure Places (x : Assembly) (es : List Entry) : Prop where
  length : x.bytes.length = endFrom 0 es
  /-- The bytes of an entry are at its address, or behind the bytes in front of it. -/
  data : AtEach (fun before e _ => (x.bytes.drop (e.start before)).take e.data.length = e.data) 0 es
  /-- A byte that belongs to no entry is zero. -/
  gaps : ∀ i < x.bytes.length,
    AtEach (fun before e _ => i < e.start before ∨ e.stop before ≤ i) 0 es → x.bytes[i]? = some 0
  /-- No later entry starts in front of the end of an earlier one. -/
  apart : AtEach (fun before e below =>
    AtEach (fun before' e' _ => e.stop before ≤ e'.start before') (e.stop before) below) 0 es
  /-- A label is at the first address from the last entry on that defines it, or at the end. -/
  labels : AtEach (fun _ e below => ∀ name, e.label = some name →
    (∀ e' ∈ below, e'.label ≠ some name) →
      x.labels.offset? name = some ((firstAddress? (e :: below)).getD x.bytes.length)) 0 es
  others : ∀ name, (∀ e ∈ es, e.label ≠ some name) → x.labels.offset? name = none

/-- What has been read of entries in ascending order has everything at its place. -/
theorem places_finish {es : List Entry} (ascending : IsAscending 0 es) :
    Places (Progress.placeAll ⟨[], [], []⟩ es).finish es := by
  have length := Progress.length_bytes_placeAll (p := ⟨[], [], []⟩) ascending
  refine ⟨length, ?_, ?_, ascending.apart, ?_, ?_⟩
  · exact Progress.data_placeAll (p := ⟨[], [], []⟩) ascending
  · intro i inside free
    exact Progress.gap_placeAll (p := ⟨[], [], []⟩) ascending (Nat.zero_le i) inside free
  · rintro above e below rfl name label absent
    have split : Progress.placeAll ⟨[], [], []⟩ (above ++ e :: below) =
        (Progress.placeAll ⟨[], [], []⟩ above).placeAll (e :: below) := List.foldl_append
    rw [split]
    exact Progress.offset?_placeAll_of_last label absent _ _
  · intro name absent
    exact Progress.offset?_placeAll absent _ _

/-- A listing whose lines can be read is accepted exactly if no address goes back, and then everything is
at its place. Otherwise it is refused for one of its lines. -/
theorem parse_places (listing : Text) :
    (∀ x, parse listing = .ok x →
      ∃ es, entries? (Text.lines listing) = some es ∧ IsAscending 0 es ∧ Places x es) ∧
    (∀ es, entries? (Text.lines listing) = some es → IsAscending 0 es → ∃ x, parse listing = .ok x) ∧
    ∀ above line below es e, Text.lines listing = above ++ line :: below → entries? above = some es →
      lineEntries? line = some [e] → e.start (endFrom 0 es) < endFrom 0 es →
        ∃ refused ∈ Text.lines listing, parse listing = .error (.listing (cleanLine refused)) := by
  refine ⟨?_, ?_, ?_⟩
  · intro x accepted
    obtain ⟨p, taken, rfl⟩ := Fallible.map_eq_ok_iff.mp accepted
    obtain ⟨es, read, ascending, rfl⟩ := Progress.addLines_eq_ok_iff.mp taken
    exact ⟨es, read, ascending, places_finish ascending⟩
  · intro es read ascending
    exact ⟨_, Fallible.map_eq_ok_iff.mpr
      ⟨_, Progress.addLines_eq_ok_iff.mpr ⟨es, read, ascending, rfl⟩, rfl⟩⟩
  · intro above line below es e split readAbove readLine back
    cases outcome : parse listing with
    | error error =>
      obtain ⟨refused, member, rfl⟩ :=
        Progress.eq_listing_of_addLines (Fallible.map_eq_error_iff.mp outcome)
      exact ⟨refused, member, rfl⟩
    | ok x =>
      obtain ⟨p, taken, -⟩ := Fallible.map_eq_ok_iff.mp outcome
      obtain ⟨all, read, ascending, -⟩ := Progress.addLines_eq_ok_iff.mp taken
      rw [split] at read
      obtain ⟨es', later, same, behind, rfl⟩ := entries?_append_eq_some_iff.mp read
      obtain ⟨here, readHere, rest⟩ := Option.bind_eq_some_iff.mp behind
      obtain ⟨more, -, whole⟩ := Option.bind_eq_some_iff.mp rest
      obtain rfl := Option.some.inj whole
      rw [readAbove, Option.some.injEq] at same
      rw [readLine, Option.some.injEq] at readHere
      subst same readHere
      -- The entry whose address goes back is one of those that are read.
      have ahead : endFrom 0 es ≤ e.start (endFrom 0 es) := ascending es e more (by simp)
      omega

/-- Rows in all four shapes, with a label in front of an instruction and one in a line of its own. -/
def shapesListing : Text :=
  "1 0000 38600001\tstart: li r3, 1\n1      60000000\n2\tend:\n3 000C\n4 0010 4E800020\tblr\n"

def shapesEntries : List Entry :=
  [⟨some 0, [0x38, 0x60, 0x00, 0x01], some "start"⟩, ⟨none, [0x60, 0x00, 0x00, 0x00], none⟩,
    ⟨none, [], some "end"⟩, ⟨some 12, [], none⟩, ⟨some 16, [0x4E, 0x80, 0x00, 0x20], none⟩]

def shapesAssembly : Assembly :=
  ⟨[0x38, 0x60, 0, 1, 0x60, 0, 0, 0, 0, 0, 0, 0, 0, 0, 0, 0, 0x4E, 0x80, 0, 0x20],
    [("start", 0), ("end", 12)]⟩

theorem shapes_placed :
    parse shapesListing = .ok shapesAssembly ∧
      entries? (Text.lines shapesListing) = some shapesEntries ∧ IsAscending 0 shapesEntries ∧
      Places shapesAssembly shapesEntries := by
  have accepted : parse shapesListing = .ok shapesAssembly := by decide +kernel
  have rows : entries? (Text.lines shapesListing) = some shapesEntries := by decide +kernel
  obtain ⟨es, read, ascending, placed⟩ := (parse_places shapesListing).1 _ accepted
  obtain rfl := Option.some.inj (rows.symm.trans read)
  exact ⟨accepted, rows, ascending, placed⟩

end GamePatch.Listing
