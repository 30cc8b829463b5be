import GamePatch.Proofs.Configuration.Numbers
import GamePatch.Proofs.Fallible
import GamePatch.Proofs.Text.Search

set_option autoImplicit false

namespace GamePatch.Configuration

open Text (trim trimEnd isAllBlank)

/-- A remark that is found again behind a line. -/
def IsRemark (note : Option Text) : Prop := ∀ r ∈ note, r ≠ [] ∧ trim r = r

theorem remark?_eq {r : Text} (remark : r ≠ [] ∧ trim r = r) : remark? (' ' :: r) = some r := by
  have some : r.isEmpty = false := List.isEmpty_eq_false_iff.mpr remark.1
  rw [remark?, Text.trim_cons_blank _ ' ' (by decide), remark.2, some]
  rfl

/-- A line and its remark are found again. At most blanks of the line are gone, or have come. -/
theorem splitRemark_writeRemark {body : Text} {note : Option Text} (clean : '#' ∉ body)
    (remark : IsRemark note) : ∃ gap, isAllBlank gap = true ∧
      splitRemark (trimEnd (body ++ writeRemark note)) = (trimEnd body ++ gap, note) := by
  cases noted : note with
  | none =>
    have none : Text.cutAt '#' (trimEnd body) = none :=
      Text.cutAt_eq_none fun hash => clean ((Text.trimEnd_isPrefix body).subset hash)
    refine ⟨[], rfl, ?_⟩
    rw [writeRemark, List.append_nil, List.append_nil, splitRemark, none]
  | some r =>
    obtain ⟨some, trimmed⟩ := remark r noted
    obtain ⟨back, blank, whole⟩ := Text.exists_blank_end body
    have line : trimEnd (body ++ writeRemark (Option.some r)) = (body ++ [' ']) ++ '#' :: ' ' :: r := by
      have written : body ++ writeRemark (Option.some r) = (body ++ " # ") ++ r := by
        rw [writeRemark, List.append_assoc]
      rw [written, Text.trimEnd_append _ (Text.isAllBlank_eq_false_of_trim some trimmed),
        (Text.trim_eq_self_iff.mp trimmed).2, List.append_assoc, List.append_assoc]
      rfl
    have clean' : '#' ∉ body ++ [' '] := by
      rw [List.mem_append, not_or]
      exact ⟨clean, by decide⟩
    refine ⟨back ++ [' '], ?_, ?_⟩
    · rw [isAllBlank, List.all_append, ← isAllBlank, blank]
      decide
    · rw [line, splitRemark, Text.cutAt_append clean', ← List.append_assoc, ← whole]
      simp only [remark?_eq (remark r noted)]

namespace Kind

def unrestricted : Kind → Kind
  | .int width signed _ => .int width signed none
  | .mask width _ => .mask width none
  | .float => .float

theorem ofName?_name (kind : Kind) : ofName? kind.name = some kind.unrestricted := by
  cases kind with
  | int width signed range => cases width <;> cases signed <;> rfl
  | mask width allowed => cases width <;> rfl
  | float => rfl

def nameLetters : List Char := "intumaskflo12368".toList

theorem mem_nameLetters (kind : Kind) : ∀ c ∈ kind.name, c ∈ nameLetters := by
  have all (name : Text) (known : name.all (nameLetters.contains ·) = true) :
      ∀ c ∈ name, c ∈ nameLetters := by
    intro c member
    exact List.contains_iff_mem.mp (List.all_eq_true.mp known c member)
  refine all kind.name ?_
  cases kind with
  | int width signed range => cases width <;> cases signed <;> rfl
  | mask width allowed => cases width <;> rfl
  | float => rfl

theorem name_ne_nil (kind : Kind) : kind.name ≠ [] := by
  rw [← List.isEmpty_eq_false_iff]
  cases kind with
  | int width signed range => cases width <;> cases signed <;> rfl
  | mask width allowed => cases width <;> rfl
  | float => rfl

theorem not_mem_name {mark : Char} (other : mark ∉ nameLetters) (kind : Kind) : mark ∉ kind.name :=
  fun member => other (kind.mem_nameLetters mark member)

theorem solid_name (kind : Kind) : ∀ c ∈ kind.name, Text.isBlank c = false := by
  have all : ∀ c ∈ nameLetters, Text.isBlank c = false := List.all_iff_forall_prop.mp (by decide)
  exact fun c member => all c (kind.mem_nameLetters c member)

end Kind

/-- The type and the name are found again before the equals sign. -/
theorem splitName_eq (kind : Kind) {name : Text} (nonempty : name ≠ []) (trimmed : trim name = name) :
    splitName (kind.name ++ ' ' :: name ++ [' ']) = some (kind.name, name) := by
  obtain ⟨first, rest, shape⟩ := List.exists_cons_of_ne_nil kind.name_ne_nil
  have solid : Text.isBlank first = false :=
    kind.solid_name first (by rw [shape]; exact List.mem_cons_self)
  have whole : trim (kind.name ++ ' ' :: name ++ [' ']) = kind.name ++ ' ' :: name := by
    rw [Text.trim_append_blank _ ' ' (by decide)]
    refine Text.trim_eq_self _ ?_ fun c last => ?_
    · rw [shape]
      rintro c ⟨⟩
      exact solid
    · rw [List.getLast?_append, List.getLast?_cons] at last
      obtain ⟨l, found⟩ := Option.ne_none_iff_exists'.mp (mt List.getLast?_eq_none_iff.mp nonempty)
      rw [found] at last
      rw [← Option.some.inj last]
      exact Text.trimEnd_eq_self_iff.mp (Text.trim_eq_self_iff.mp trimmed).2 l found
  have cut : Text.cutWhere Text.isBlank (kind.name ++ ' ' :: name) = some (kind.name, name) :=
    Text.cutWhere_append kind.solid_name (by decide)
  have some : name.isEmpty = false := List.isEmpty_eq_false_iff.mpr nonempty
  rw [splitName, whole, cut]
  simp only [trimmed, some, Bool.false_eq_true, if_false]

/-- A dash is passed over as long as nothing but the characters before it has been passed. -/
theorem cutAtDash_append {t : Text} (clean : '-' ∉ t) (passed rest : Text) :
    cutAtDash passed (t ++ rest) = cutAtDash (t.reverse ++ passed) rest := by
  induction t generalizing passed with
  | nil => rfl
  | cons c t ih =>
    rw [List.mem_cons, not_or] at clean
    have other : (c == '-') = false := beq_eq_false_iff_ne.mpr (Ne.symm clean.1)
    rw [List.cons_append, cutAtDash, other, ih clean.2, List.reverse_cons, List.append_assoc]
    rfl

/-- The first number of a range ends at the dash behind its digits. -/
theorem cutAtDash_write (hexadecimal : Bool) (n : Int) (rest : Text) :
    cutAtDash [] ((Value.int n).write hexadecimal ++ '-' :: rest) =
      some ((Value.int n).write hexadecimal, rest) := by
  have clean : '-' ∉ magnitudeText hexadecimal n.natAbs :=
    not_mem_magnitudeText (by decide) hexadecimal n.natAbs
  have last (passed : Text) : cutAtDash
      ((magnitudeText hexadecimal n.natAbs).reverse ++ passed) ('-' :: rest) =
        some (passed.reverse ++ magnitudeText hexadecimal n.natAbs, rest) := by
    obtain ⟨front, c, shape⟩ : ∃ front c, magnitudeText hexadecimal n.natAbs = front ++ [c] :=
      ⟨_, _, (List.dropLast_concat_getLast (magnitudeText_ne_nil hexadecimal n.natAbs)).symm⟩
    have inside : c ∈ magnitudeText hexadecimal n.natAbs := by simp [shape]
    have written : c ∈ (Value.int n).write hexadecimal := by
      rw [write_int]
      exact List.mem_append_right _ inside
    have solid : Text.isBlank c = false := solid_write c written
    have noDash : c ≠ '-' := by
      rintro rfl
      exact clean inside
    have back : (magnitudeText hexadecimal n.natAbs).reverse ++ passed =
        c :: (front.reverse ++ passed) := by simp [shape]
    rw [back, cutAtDash, List.dropWhile_cons_of_neg (by rw [solid]; simp)]
    simp [noDash, shape]
  rw [write_int, List.append_assoc]
  split
  · rw [List.singleton_append, cutAtDash]
    rw [if_neg (by simp), cutAtDash_append clean, last]
    rfl
  · rw [List.nil_append, cutAtDash_append clean, last]
    rfl

/-- Values that are read back from their texts, floats apart. -/
def Value.IsReadable : Value → Prop
  | .int n => Configuration.IsReadable n
  | .float _ => True

/-- Restrictions that are read back from their texts. -/
def Kind.IsReadable : Kind → Prop
  | .int _ _ (some (low, high)) => Configuration.IsReadable low ∧ Configuration.IsReadable high
  | .mask _ (some allowed) => allowed < 0x8000000000000000
  | _ => True

instance : DecidablePred Value.IsReadable
  | .int n => inferInstanceAs (Decidable (Configuration.IsReadable n))
  | .float _ => inferInstanceAs (Decidable True)

instance : DecidablePred Kind.IsReadable
  | .int _ _ (some (low, high)) =>
    inferInstanceAs (Decidable (Configuration.IsReadable low ∧ Configuration.IsReadable high))
  | .int _ _ none => inferInstanceAs (Decidable True)
  | .mask _ (some allowed) => inferInstanceAs (Decidable (allowed < 0x8000000000000000))
  | .mask _ none => inferInstanceAs (Decidable True)
  | .float => inferInstanceAs (Decidable True)

/-- A range is cut where it was put together, and each bound is read from its own text. -/
theorem readRange_write (hexadecimal : Bool) (low high : Int) :
    readRange ((Value.int low).write hexadecimal ++ '-' :: (Value.int high).write hexadecimal) =
      .ok (if IsReadable low ∧ IsReadable high then some (low, high) else none) := by
  have solid : ∀ c ∈ (Value.int low).write hexadecimal ++ '-' :: (Value.int high).write hexadecimal,
      Text.isBlank c = false := by
    rw [List.forall_mem_append, List.forall_mem_cons]
    exact ⟨solid_write, by decide, solid_write⟩
  rw [readRange, Text.trim_eq_self_of_forall _ solid, cutAtDash_write]
  simp only [readInt_write_eq]
  by_cases lower : IsReadable low
  · by_cases upper : IsReadable high
    · simp [lower, upper, bind, Except.bind]
    · simp [lower, upper, bind, Except.bind]
  · simp [lower, bind, Except.bind]

/-- A mask is written as it stands in 64 bits, and read as a signed number. -/
theorem readMask_write (allowed : Nat) :
    readMask ('(' :: ((Value.int allowed).write true ++ [')'])) =
      .ok (if allowed < 0x8000000000000000 then some allowed else none) := by
  have tail : Text.dropTrailing? [')'] ((Value.int allowed).write true ++ [')']) =
      some ((Value.int allowed).write true) := Text.dropTrailing?_eq_some_iff.mpr rfl
  have lead : Text.dropLeading? ['('] ('(' :: ((Value.int allowed).write true ++ [')'])) =
      some ((Value.int allowed).write true ++ [')']) := Text.dropLeading?_eq_some_iff.mpr rfl
  rw [readMask, lead]
  simp only [tail, readInt_write_eq, isReadable_natCast, Except.map]
  split
  · rw [Option.map_some, toBits64]
    congr 2
    omega
  · rfl

def restrictionLetters : List Char := '(' :: ')' :: writtenLetters

/-- What stands behind the semicolon of a declaration: one word, from which the restriction is read
if all its numbers are. -/
structure IsRestriction (kind : Kind) (word : Text) : Prop where
  nonempty : word ≠ []
  letters : ∀ c ∈ word, c ∈ restrictionLetters
  read : restrict kind.unrestricted word = .ok (if kind.IsReadable then some kind else none)

theorem IsRestriction.solid {kind : Kind} {word : Text} (restriction : IsRestriction kind word) :
    ∀ c ∈ word, Text.isBlank c = false := by
  have all : ∀ c ∈ restrictionLetters, Text.isBlank c = false := List.all_iff_forall_prop.mp (by decide)
  exact fun c member => all c (restriction.letters c member)

/-- A restriction is nothing, or one word behind a semicolon. -/
theorem writeRestriction_cases (hexadecimal : Bool) (kind : Kind) :
    writeRestriction hexadecimal kind = [] ∧ kind.unrestricted = kind ∧ kind.IsReadable ∨
      ∃ word, writeRestriction hexadecimal kind = ';' :: ' ' :: word ∧ IsRestriction kind word := by
  have letter {v : Value} {hexadecimal : Bool} :
      ∀ c ∈ v.write hexadecimal, c ∈ restrictionLetters := fun c member =>
    List.mem_cons_of_mem _ (List.mem_cons_of_mem _ (mem_writtenLetters member))
  cases kind with
  | float => exact Or.inl ⟨rfl, rfl, trivial⟩
  | int width signed range =>
    cases range with
    | none => exact Or.inl ⟨rfl, rfl, trivial⟩
    | some bounds =>
      obtain ⟨low, high⟩ := bounds
      have some : (Value.int low).write hexadecimal ++ '-' :: (Value.int high).write hexadecimal ≠ [] :=
        List.append_ne_nil_of_right_ne_nil _ (List.cons_ne_nil _ _)
      have written : writeRestriction hexadecimal (.int width signed (.some (low, high))) =
          "; " ++ (Value.int low).write hexadecimal ++ "-" ++ (Value.int high).write hexadecimal := rfl
      refine Or.inr ⟨_, ?_, some, ?_, ?_⟩
      · rw [written, List.append_assoc, List.append_assoc]
        rfl
      · rw [List.forall_mem_append, List.forall_mem_cons]
        exact ⟨letter, by decide, letter⟩
      · rw [Kind.unrestricted, restrict, List.isEmpty_eq_false_iff.mpr some, if_neg (by simp)]
        simp only [readRange_write, Except.map, apply_ite (Option.map _), Option.map_some,
          Option.map_none]
        rfl
  | mask width allowed =>
    cases allowed with
    | none => exact Or.inl ⟨rfl, rfl, trivial⟩
    | some allowed =>
      have some : '(' :: ((Value.int allowed).write true ++ [')']) ≠ [] := List.cons_ne_nil _ _
      have written : writeRestriction hexadecimal (.mask width (.some allowed)) =
          "; (0x" ++ Text.hexUpper allowed ++ ")" := rfl
      refine Or.inr ⟨_, ?_, some, ?_, ?_⟩
      · rw [written, write_hex_natCast, List.append_assoc, List.append_assoc]
        rfl
      · rw [List.forall_mem_cons, List.forall_mem_append, List.forall_mem_singleton]
        exact ⟨by decide, letter, by decide⟩
      · rw [Kind.unrestricted, restrict, if_neg (by simp)]
        simp only [readMask_write, Except.map, apply_ite (Option.map _), Option.map_some,
          Option.map_none]
        rfl

def Kind.Admits (kind : Kind) : Value → Prop
  | .int _ => kind ≠ .float
  | .float _ => kind = .float

theorem Kind.read_unrestricted (kind : Kind) : kind.unrestricted.read = kind.read := by
  cases kind <;> rfl

theorem Kind.read_of_ne_float {kind : Kind} (whole : kind ≠ .float) (s : Text) :
    kind.read s = (readInt (trim s)).map fun n => n.map .int := by
  cases kind with
  | int => rfl
  | mask => rfl
  | float => exact absurd rfl whole

/-- A value is read back from its text, or another one if it is a float. -/
theorem Kind.read_write {kind : Kind} {v : Value} (admits : kind.Admits v) (readable : v.IsReadable)
    (hexadecimal : Bool) : ∃ v', kind.read (v.write hexadecimal) = .ok (some v') ∧ kind.Admits v' ∧
      (kind ≠ .float → v' = v) := by
  cases v with
  | int n =>
    refine ⟨.int n, ?_, admits, fun _ => rfl⟩
    rw [Kind.read_of_ne_float admits, trim_write, readInt_write readable]
    rfl
  | float bits =>
    have float : kind = .float := admits
    obtain ⟨pattern, read⟩ := Option.isSome_iff_exists.mp (isSome_read?_writeFloat bits)
    have written : (Value.float bits).write hexadecimal = Value.writeFloat bits := rfl
    have trimmed : trim (Value.writeFloat bits) = Value.writeFloat bits :=
      trim_write hexadecimal (.float bits)
    refine ⟨.float (UInt32.ofNat pattern), ?_, float, fun whole => absurd float whole⟩
    rw [float, Kind.read, written, trimmed, read]
    rfl

theorem Kind.admits_of_read {kind : Kind} {s : Text} {v : Value} (read : kind.read s = .ok (some v)) :
    kind.Admits v := by
  by_cases float : kind = .float
  · rw [float, Kind.read] at read
    obtain ⟨bits, -, rfl⟩ := Option.map_eq_some_iff.mp (Except.ok.inj read)
    exact float
  · rw [Kind.read_of_ne_float float] at read
    obtain ⟨_, -, made⟩ := Fallible.map_eq_ok_iff.mp read
    obtain ⟨n, -, rfl⟩ := Option.map_eq_some_iff.mp made
    exact float

structure IsDeclared (c : Configuration) : Prop where
  nonempty : c.name ≠ []
  trimmed : trim c.name = c.name
  clean : '=' ∉ c.name ∧ '#' ∉ c.name
  note : IsRemark c.note
  admits : c.kind.Admits c.default
  value : c.value = c.default
  checked : c.check c.default = .ok ()

/-- What is read of an option after it was written: the option, unless it is a float. -/
structure IsReadAs (c c' : Configuration) : Prop where
  name : c'.name = c.name
  kind : c'.kind = c.kind
  whole : c.kind ≠ .float → c' = c

variable {c : Configuration}

/-- The default and the restriction are found again behind the equals sign. -/
theorem exists_cut_semicolon (hexadecimal : Bool) (kind : Kind) (v : Value) {gap : Text}
    (blank : isAllBlank gap = true) :
    ∃ front back, (Text.cutAt ';' (' ' :: v.write hexadecimal ++ writeRestriction hexadecimal kind ++ gap)).getD
        (' ' :: v.write hexadecimal ++ writeRestriction hexadecimal kind ++ gap, []) = (front, back) ∧
      trim front = v.write hexadecimal ∧
        restrict kind.unrestricted (trim back) = .ok (if kind.IsReadable then some kind else none) := by
  have clean : ';' ∉ ' ' :: v.write hexadecimal := by
    rw [List.mem_cons, not_or]
    exact ⟨by decide, not_mem_write (by decide) hexadecimal v⟩
  have space : isAllBlank [' '] = true := by decide
  rcases writeRestriction_cases hexadecimal kind with
    ⟨none, free, readable⟩ | ⟨word, written, restriction⟩
  · have noMark : ';' ∉ ' ' :: v.write hexadecimal ++ gap := by
      rw [List.mem_append, not_or]
      exact ⟨clean, Text.not_mem_of_isAllBlank blank (by decide)⟩
    refine ⟨' ' :: v.write hexadecimal ++ gap, [], ?_, ?_, ?_⟩
    · rw [none, List.append_nil, Text.cutAt_eq_none noMark]
      rfl
    · have around := Text.trim_between_blanks (s := v.write hexadecimal) space blank
      rw [List.singleton_append] at around
      rw [around, trim_write]
    · rw [free, if_pos readable]
      rfl
  · refine ⟨' ' :: v.write hexadecimal, ' ' :: word ++ gap, ?_, ?_, ?_⟩
    · have line : ' ' :: v.write hexadecimal ++ writeRestriction hexadecimal kind ++ gap =
          (' ' :: v.write hexadecimal) ++ ';' :: (' ' :: word ++ gap) := by simp [written]
      rw [line, Text.cutAt_append clean]
      rfl
    · rw [Text.trim_cons_blank _ ' ' (by decide), trim_write]
    · have around := Text.trim_between_blanks (s := word) space blank
      rw [List.singleton_append] at around
      rw [around, Text.trim_eq_self_of_forall _ restriction.solid]
      exact restriction.read

/-- A default and its restriction end as they are written. -/
theorem trimEnd_append_write (front : Text) (hexadecimal : Bool) (kind : Kind) (v : Value) :
    trimEnd (front ++ v.write hexadecimal ++ writeRestriction hexadecimal kind) =
      front ++ v.write hexadecimal ++ writeRestriction hexadecimal kind := by
  have whole {s t : Text} (some : t ≠ []) (solid : ∀ c ∈ t, Text.isBlank c = false) :
      trimEnd (s ++ t) = s ++ t := by
    have trimmed := Text.trim_eq_self_of_forall t solid
    rw [Text.trimEnd_append s (Text.isAllBlank_eq_false_of_trim some trimmed),
      (Text.trim_eq_self_iff.mp trimmed).2]
  rcases writeRestriction_cases hexadecimal kind with ⟨none, -⟩ | ⟨word, written, restriction⟩
  · rw [none, List.append_nil]
    exact whole (write_ne_nil hexadecimal v) solid_write
  · have line : front ++ v.write hexadecimal ++ writeRestriction hexadecimal kind =
        (front ++ v.write hexadecimal ++ [';', ' ']) ++ word := by simp [written]
    rw [line]
    exact whole restriction.nonempty restriction.solid

theorem not_mem_writeRestriction {mark : Char} (other : mark ∉ ';' :: ' ' :: restrictionLetters)
    (hexadecimal : Bool) (kind : Kind) : mark ∉ writeRestriction hexadecimal kind := by
  rw [List.mem_cons, List.mem_cons, not_or, not_or] at other
  rcases writeRestriction_cases hexadecimal kind with ⟨none, -⟩ | ⟨word, written, restriction⟩
  · rw [none]
    exact List.not_mem_nil
  · rw [written, List.mem_cons, List.mem_cons, not_or, not_or]
    exact ⟨other.1, other.2.1, fun member => other.2.2 (restriction.letters _ member)⟩

/-- What is read of a declaration: its default and its restriction are read from their own texts, and
all else is as it was. -/
theorem parse_declaration_eq (declared : c.IsDeclared) :
    parse (trimEnd c.declaration) =
      match required (.invalidValue c.name (c.default.write c.hexadecimal))
        (c.kind.read (c.default.write c.hexadecimal)) with
      | .error e => .error e
      | .ok v =>
        if c.kind.IsReadable then
          let c' : Configuration :=
            { c with
              default := v
              value := v
              members := []
              hexadecimal := mentionsHex (c.default.write c.hexadecimal) }
          (c'.check v).map fun () => c'
        else .error (.invalidDeclaration (trim c.declaration)) := by
  let left : Text := c.kind.name ++ ' ' :: c.name ++ [' ']
  let right : Text :=
    ' ' :: c.default.write c.hexadecimal ++ writeRestriction c.hexadecimal c.kind
  have written : c.declaration = (left ++ '=' :: right) ++ writeRemark c.note := by
    simp [declaration, left, right]
  have clean : '#' ∉ left ++ '=' :: right := by
    have type : '#' ∉ c.kind.name := c.kind.not_mem_name (by decide)
    have dflt : '#' ∉ c.default.write c.hexadecimal := not_mem_write (by decide) _ _
    have restriction : '#' ∉ writeRestriction c.hexadecimal c.kind :=
      not_mem_writeRestriction (by decide) _ _
    simp [left, right, type, declared.clean.2, dflt, restriction]
  have noEquals : '=' ∉ left := by
    have type : '=' ∉ c.kind.name := c.kind.not_mem_name (by decide)
    simp [left, type, declared.clean.1]
  have solid : trimEnd (left ++ '=' :: right) = left ++ '=' :: right := by
    have line : left ++ '=' :: right = left ++ ['=', ' '] ++ c.default.write c.hexadecimal ++
        writeRestriction c.hexadecimal c.kind := by simp [right]
    rw [line]
    exact trimEnd_append_write _ c.hexadecimal c.kind c.default
  obtain ⟨gap, blank, split⟩ := splitRemark_writeRemark clean declared.note
  obtain ⟨front, back, cut, dflt, restriction⟩ :=
    exists_cut_semicolon c.hexadecimal c.kind c.default blank
  have cut' : Text.cutAt '=' (left ++ '=' :: right ++ gap) = some (left, right ++ gap) := by
    rw [List.append_assoc, List.cons_append, Text.cutAt_append noEquals]
  rw [parse, Text.trim_trimEnd, written, split, solid]
  simp only [cut', splitName_eq c.kind declared.nonempty declared.trimmed, Kind.ofName?_name, left]
  simp only [right, cut, dflt, Kind.read_unrestricted, restriction]
  cases required (.invalidValue c.name (c.default.write c.hexadecimal))
    (c.kind.read (c.default.write c.hexadecimal)) with
  | error e => rfl
  | ok v => by_cases readable : c.kind.IsReadable <;> simp [readable, required]

/-- A declaration is read back, up to the value of a float. -/
theorem parse_declaration (declared : c.IsDeclared) (readable : c.kind.IsReadable)
    (readable' : c.default.IsReadable) : ∃ c', parse (trimEnd c.declaration) = .ok c' ∧
      IsReadAs { c with members := [] } c' := by
  obtain ⟨v, read, admits, same⟩ := Kind.read_write declared.admits readable' c.hexadecimal
  rw [parse_declaration_eq declared, read]
  simp only [required, readable, if_true]
  by_cases float : c.kind = .float
  · obtain ⟨bits, rfl⟩ : ∃ bits, v = .float bits := by
      cases v with
      | int n => exact absurd float admits
      | float bits => exact ⟨bits, rfl⟩
    rw [float]
    exact ⟨_, rfl, rfl, rfl, fun whole => absurd rfl whole⟩
  · obtain rfl := same float
    obtain ⟨n, number⟩ : ∃ n, c.default = .int n := by
      cases found : c.default with
      | int n => exact ⟨n, rfl⟩
      | float bits =>
        rw [found] at admits
        exact absurd admits float
    have hex : mentionsHex (c.default.write c.hexadecimal) = c.hexadecimal := by
      rw [number, mentionsHex_write]
    have checked : ({ c with value := c.default, members := [] } : Configuration).check c.default =
        .ok () := declared.checked
    rw [hex, declared.value, checked]
    exact ⟨_, rfl, rfl, rfl, fun _ => rfl⟩

structure IsMemberOf (kind : Kind) (m : Member) : Prop where
  trimmed : trim m.name = m.name
  clean : '#' ∉ m.name
  comment : IsRemark m.comment
  admits : kind.Admits m.value

theorem trimEnd_memberLine (c : Configuration) (m : Member) :
    trimEnd (c.memberLine m) = m.value.write c.hexadecimal ++ ':' ::
      trimEnd (' ' :: m.name ++ writeRemark m.comment) := by
  have written : c.memberLine m = m.value.write c.hexadecimal ++
      ':' :: (' ' :: m.name ++ writeRemark m.comment) := by simp [memberLine]
  rw [written, Text.trimEnd_append _ rfl, Text.trimEnd_cons (by decide)]

theorem not_mem_writeRemark {mark : Char} (other : mark ∉ " # ".toList) {note : Option Text}
    (absent : ∀ r ∈ note, mark ∉ r) : mark ∉ writeRemark note := by
  cases note with
  | none => exact List.not_mem_nil
  | some r =>
    rw [writeRemark, List.mem_append, not_or]
    exact ⟨other, absent r rfl⟩

/-- A member is read back, up to the value of a float. -/
theorem parseMember_memberLine {c' : Configuration} (same : c'.kind = c.kind) {m : Member}
    (listed : IsMemberOf c.kind m) (readable : m.value.IsReadable) :
    ∃ m', c'.parseMember (trimEnd (c.memberLine m)) = .ok m' ∧ (c.kind ≠ .float → m' = m) := by
  have clean : '#' ∉ ' ' :: m.name := by
    rw [List.mem_cons, not_or]
    exact ⟨by decide, listed.clean⟩
  have noColon : ':' ∉ m.value.write c.hexadecimal := not_mem_write (by decide) _ _
  obtain ⟨gap, blank, split⟩ := splitRemark_writeRemark clean listed.comment
  obtain ⟨v, read, -, value⟩ := Kind.read_write listed.admits readable c.hexadecimal
  have name : trim (trimEnd (' ' :: m.name) ++ gap) = m.name := by
    rw [Text.trim_append_blanks _ blank, Text.trim_trimEnd, Text.trim_cons_blank _ ' ' (by decide), listed.trimmed]
  rw [parseMember, trimEnd_memberLine, Text.cutAt_append noColon]
  simp only [split, same, read, name]
  refine ⟨_, rfl, fun whole => ?_⟩
  rw [value whole]

end GamePatch.Configuration
