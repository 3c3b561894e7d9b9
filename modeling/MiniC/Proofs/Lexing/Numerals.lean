import Mathlib.Algebra.Field.Rat
import Mathlib.Data.Nat.Digits.Defs
import Mathlib.Tactic.FieldSimp
import Mathlib.Tactic.Ring
import MiniC.Proofs.Lexing.Canonical
import MiniC.Token.Literal

set_option autoImplicit false

/-! # The grammar of numeric literals

Which texts are numeric literals, of which kind each of them is and what number it denotes.
`NumericLiteral` says so without regard to how literals are read. An integer that is read stands at
the front of the text, an integer with nothing behind it is read, and what it is rewritten to is an
integer of the same radix that denotes the same number. -/

namespace MiniC

open CharClass

/-! ## The grammar -/

namespace NumericLiteral

/-- At least one digit, and only digits of a class. -/
structure Digits (p : Char → Bool) (digits : List Char) : Prop where
  ne_nil : digits ≠ []
  all : ∀ c ∈ digits, p c = true

/-- The number that digits denote in a base, of which the last one is worth the least. -/
def number (base : Nat) (digits : List Char) : Nat :=
  Nat.ofDigits base (digits.reverse.map digitValue)

/-- The number that decimal digits denote behind a point. -/
def fractional (digits : List Char) : ℚ :=
  number 10 digits / 10 ^ digits.length

/-- The size that is asked for by a number of letters `l`. -/
def sizeOfCount : Nat → LiteralSize
  | 0 => .plain
  | 1 => .long
  | _ => .longLong

/-- The suffixes of an integer, in any letter case. -/
structure Suffix (suffix : List Char) (size : LiteralSize) (signed : Bool) : Prop where
  mem : suffix.map Char.toLower ∈ Number.suffixes
  size_eq : size = sizeOfCount ((suffix.map Char.toLower).count 'l')
  signed_eq : signed = !(suffix.map Char.toLower).contains 'u'

/-- An integer without its suffix: its radix, its text and the number that it denotes. Digits that
begin with a zero are octal, unless they are all zeros. -/
inductive Whole : Radix → List Char → Nat → Prop
  | binary {mark : Char} {digits : List Char} (hmark : mark = 'b' ∨ mark = 'B')
    (hdigits : Digits isBinary digits) : Whole .binary ('0' :: mark :: digits) (number 2 digits)
  | hex {mark : Char} {digits : List Char} (hmark : mark = 'x' ∨ mark = 'X')
    (hdigits : Digits isHex digits) : Whole .hex ('0' :: mark :: digits) (number 16 digits)
  | octal {digits : List Char} (hdigits : Digits isOctal digits) (hzero : digits.head? = some '0')
    (hother : ∃ c ∈ digits, c ≠ '0') : Whole .octal digits (number 8 digits)
  | decimal {digits : List Char} (hdigits : Digits isDigit digits)
    (hzero : digits.head? = some '0' → ∀ c ∈ digits, c = '0') :
    Whole .decimal digits (number 10 digits)

/-- The texts of an exponent: whether it has a minus sign, and its digits. -/
inductive Exponent : List Char → Bool → List Char → Prop
  | unsigned {mark : Char} {digits : List Char} (hmark : mark = 'e' ∨ mark = 'E')
    (hdigits : Digits isDigit digits) : Exponent (mark :: digits) false digits
  | plus {mark : Char} {digits : List Char} (hmark : mark = 'e' ∨ mark = 'E')
    (hdigits : Digits isDigit digits) : Exponent (mark :: '+' :: digits) false digits
  | minus {mark : Char} {digits : List Char} (hmark : mark = 'e' ∨ mark = 'E')
    (hdigits : Digits isDigit digits) : Exponent (mark :: '-' :: digits) true digits

/-- The number that an exponent denotes. -/
def power (negative : Bool) (digits : List Char) : ℤ :=
  if negative then -(number 10 digits : ℤ) else number 10 digits

/-- A floating literal without the letter at its end, and the number that it denotes. -/
inductive Floating : List Char → ℚ → Prop
  | point {whole fraction : List Char} (hwhole : Digits isDigit whole)
    (hfraction : Digits isDigit fraction) :
    Floating (whole ++ '.' :: fraction) (number 10 whole + fractional fraction)
  | bare {fraction : List Char} (hfraction : Digits isDigit fraction) :
    Floating ('.' :: fraction) (fractional fraction)
  | pointExponent {whole fraction exponent digits : List Char} {negative : Bool}
    (hwhole : Digits isDigit whole) (hfraction : ∀ c ∈ fraction, isDigit c = true)
    (hexponent : Exponent exponent negative digits) :
    Floating (whole ++ '.' :: (fraction ++ exponent))
      ((number 10 whole + fractional fraction) * 10 ^ power negative digits)
  | bareExponent {fraction exponent digits : List Char} {negative : Bool}
    (hfraction : Digits isDigit fraction) (hexponent : Exponent exponent negative digits) :
    Floating ('.' :: (fraction ++ exponent)) (fractional fraction * 10 ^ power negative digits)
  | exponent {whole exponent digits : List Char} {negative : Bool}
    (hwhole : Digits isDigit whole) (hexponent : Exponent exponent negative digits) :
    Floating (whole ++ exponent) (number 10 whole * 10 ^ power negative digits)

/-- The letter at the end of a floating literal, with the kind that it stands for. -/
inductive Mark : List Char → LiteralKind → Prop
  | double : Mark [] .double
  | float {mark : Char} (hmark : mark = 'f' ∨ mark = 'F') : Mark [mark] .float

end NumericLiteral

/-- The texts of numeric literals, the kind of each of them and the number that it denotes. -/
inductive NumericLiteral : List Char → LiteralKind → ℚ → Prop
  | integer {radix : Radix} {text suffix : List Char} {n : Nat} {size : LiteralSize} {signed : Bool}
    (hwhole : NumericLiteral.Whole radix text n)
    (hsuffix : NumericLiteral.Suffix suffix size signed) :
    NumericLiteral (text ++ suffix) (.integer size signed radix) n
  | floating {text mark : List Char} {q : ℚ} {kind : LiteralKind}
    (hfloating : NumericLiteral.Floating text q) (hmark : NumericLiteral.Mark mark kind) :
    NumericLiteral (text ++ mark) kind q

namespace NumericLiteral

/-! ## The numbers that digits denote -/

theorem ofDigits_eq (base : Nat) (digits : List Char) :
    ofDigits base digits = number base digits := by
  have hstep : (fun n c => n * base + digitValue c) = fun n c => digitValue c + base * n := by
    funext n c
    ring
  rw [ofDigits, number, Nat.ofDigits_eq_foldr, List.map_reverse, List.foldr_reverse, List.foldl_map,
    hstep]
  rfl

theorem number_append (base : Nat) (front back : List Char) :
    number base (front ++ back) = number base front * base ^ back.length + number base back := by
  rw [number, List.reverse_append, List.map_append, Nat.ofDigits_append, List.length_map,
    List.length_reverse, Nat.add_comm, Nat.mul_comm]
  rfl

theorem number_nil (base : Nat) : number base [] = 0 := rfl

theorem number_zeros (base : Nat) {zeros : List Char} (h : ∀ c ∈ zeros, c = '0') :
    number base zeros = 0 := by
  induction zeros with
  | nil => rfl
  | cons c zeros ih =>
    rw [← List.singleton_append, number_append, ih fun d hd => h d (List.mem_cons_of_mem c hd),
      h c List.mem_cons_self]
    simp [number, digitValue, isDigit]

theorem number_dropLeadingZeros (base : Nat) (digits : List Char) :
    number base (Number.dropLeadingZeros digits) = number base digits := by
  have hzeros : ∀ c ∈ digits.takeWhile (· = '0'), c = '0' := fun c hc => by
    simpa using forall_of_takeWhile digits c hc
  conv_rhs => rw [← List.takeWhile_append_dropWhile (p := fun c => decide (c = '0')) (l := digits)]
  rw [number_append, number_zeros base hzeros, Nat.zero_mul, Nat.zero_add]
  rfl

theorem number_orZero (base : Nat) (digits : List Char) :
    number base (Number.orZero digits) = number base digits := by
  cases digits with
  | nil => exact number_zeros base (List.forall_mem_singleton.mpr rfl)
  | cons c digits => rfl

theorem number_map_toLower (base : Nat) {digits : List Char} (h : ∀ c ∈ digits, isHex c = true) :
    number base (digits.map Char.toLower) = number base digits := by
  have hvalue : ∀ c ∈ digits, digitValue c.toLower = digitValue c := fun c hc =>
    Number.forall_ascii (P := fun c => digitValue c.toLower = digitValue c) (by decide) c
      (Number.toNat_lt_of_isHex (h c hc))
  rw [number, number, ← List.map_reverse, List.map_map]
  congr 1
  exact List.map_congr_left fun c hc => hvalue c (List.mem_reverse.mp hc)

theorem fractional_append_zeros (digits : List Char) {zeros : List Char}
    (h : ∀ c ∈ zeros, c = '0') : fractional (digits ++ zeros) = fractional digits := by
  rw [fractional, fractional, number_append, number_zeros 10 h, List.length_append, pow_add]
  push_cast
  field_simp
  ring

theorem fractional_dropTrailingZeros (digits : List Char) :
    fractional (Number.dropTrailingZeros digits) = fractional digits := by
  have hzeros : ∀ c ∈ (digits.reverse.takeWhile (· = '0')).reverse, c = '0' := fun c hc => by
    simpa using forall_of_takeWhile digits.reverse c (List.mem_reverse.mp hc)
  have hsplit : Number.dropTrailingZeros digits ++ (digits.reverse.takeWhile (· = '0')).reverse
      = digits := by
    rw [Number.dropTrailingZeros, ← List.reverse_append, List.takeWhile_append_dropWhile,
      List.reverse_reverse]
  conv_rhs => rw [← hsplit]
  exact (fractional_append_zeros _ hzeros).symm

theorem fractional_orZero (digits : List Char) :
    fractional (Number.orZero digits) = fractional digits := by
  cases digits with
  | nil => exact fractional_append_zeros [] (List.forall_mem_singleton.mpr rfl)
  | cons c digits => rfl

/-! ## Suffixes -/

theorem isSuffix_of_toLower {c : Char} (h : c.toLower = 'u' ∨ c.toLower = 'l') :
    isSuffix c = true := by
  by_cases hc : c.toNat < 128
  · have hascii : ∀ c : Char, c.toNat < 128 → (c.toLower = 'u' ∨ c.toLower = 'l') →
        isSuffix c = true := Number.forall_ascii (by decide)
    exact hascii c hc h
  · have hlower : c.toLower = c := dif_neg fun hupper => by
      have hle := UInt32.le_iff_toNat_le.mp hupper.2
      exact hc (Nat.lt_of_le_of_lt hle (by decide))
    rw [hlower] at h
    rcases h with rfl | rfl <;> rfl

theorem letters_of_mem_suffixes : ∀ suffix ∈ Number.suffixes,
    ∀ c ∈ suffix, c = 'u' ∨ c = 'l' := by
  simp [Number.suffixes]

/-- What the suffixes ask for is what they are read as. -/
theorem sizeOfSuffix_of_mem_suffixes : ∀ suffix ∈ Number.suffixes,
    Number.sizeOfSuffix suffix
      = some (sizeOfCount (suffix.count 'l'), !suffix.contains 'u') := by
  decide

theorem suffix_iff {suffix : List Char} {size : LiteralSize} {signed : Bool} :
    Suffix suffix size signed ↔
      Number.sizeOfSuffix (suffix.map Char.toLower) = some (size, signed) := by
  constructor
  · rintro ⟨hmem, rfl, rfl⟩
    exact sizeOfSuffix_of_mem_suffixes _ hmem
  · intro h
    have hmem := Number.mem_suffixes h
    have hmeaning := h.symm.trans (sizeOfSuffix_of_mem_suffixes _ hmem)
    cases hmeaning
    exact ⟨hmem, rfl, rfl⟩

theorem Suffix.isSuffix {suffix : List Char} {size : LiteralSize} {signed : Bool}
    (h : Suffix suffix size signed) : ∀ c ∈ suffix, CharClass.isSuffix c = true := fun _ hc =>
  isSuffix_of_toLower (letters_of_mem_suffixes _ h.mem _ (List.mem_map_of_mem hc))

/-- A suffix stays one in lower case. -/
theorem Suffix.toLower {suffix : List Char} {size : LiteralSize} {signed : Bool}
    (h : Suffix suffix size signed) : Suffix (suffix.map Char.toLower) size signed := by
  have hlower := (Number.letters_of_mem_suffixes _ h.mem).2.2
  rw [suffix_iff, hlower, ← suffix_iff]
  exact h

/-- What a suffix begins with is in no class that has none of its letters. -/
theorem Suffix.startsWith {suffix : List Char} {size : LiteralSize} {signed : Bool}
    (h : Suffix suffix size signed) {p : Char → Bool}
    (hp : ∀ c, CharClass.isSuffix c = true → p c = false) :
    CharClass.startsWith p suffix = false := by
  cases suffix with
  | nil => rfl
  | cons c suffix => exact hp c (h.isSuffix c List.mem_cons_self)

/-- A suffix with nothing behind it is read. -/
theorem Suffix.readSuffix {suffix : List Char} {size : LiteralSize} {signed : Bool}
    (h : Suffix suffix size signed) (offset : Nat) :
    Number.readSuffix offset suffix = .ok (suffix.map Char.toLower, size, signed) := by
  have htake : suffix.takeWhile CharClass.isSuffix = suffix :=
    List.takeWhile_eq_self_iff.mpr h.isSuffix
  have hdrop : suffix.dropWhile CharClass.isSuffix = [] :=
    List.dropWhile_eq_nil_iff.mpr h.isSuffix
  simp only [Number.readSuffix, htake, hdrop, suffix_iff.mp h]
  simp [CharClass.startsWith]

/-- A suffix that is read stands at the front of the text. -/
theorem exists_of_readSuffix {offset : Nat} {rest lower : List Char} {size : LiteralSize}
    {signed : Bool} (h : Number.readSuffix offset rest = .ok (lower, size, signed)) :
    ∃ suffix more, rest = suffix ++ more ∧ Suffix suffix size signed ∧
      lower = suffix.map Char.toLower := by
  have hsize := Number.sizeOfSuffix_of_readSuffix h
  have hlower : lower = (rest.takeWhile isSuffix).map Char.toLower := by
    simp only [Number.readSuffix] at h
    split at h
    · cases h
    · split at h <;> cases h
      rfl
  exact ⟨rest.takeWhile isSuffix, rest.dropWhile isSuffix,
    List.takeWhile_append_dropWhile.symm, suffix_iff.mpr (hlower ▸ hsize), hlower⟩

/-! ## Integers -/

theorem Digits.toLower {p : Char → Bool} (hlower : Number.LowersTo p) {digits : List Char}
    (h : Digits p digits) : Digits p (digits.map Char.toLower) where
  ne_nil := by simpa using h.ne_nil
  all := by
    intro c hc
    obtain ⟨d, hd, rfl⟩ := List.mem_map.mp hc
    exact (hlower d (h.all d hd)).1

theorem Digits.reduced {p : Char → Bool} (hzero : p '0' = true) {digits : List Char}
    (h : ∀ c ∈ digits, p c = true) :
    Digits p (Number.orZero (Number.dropLeadingZeros digits)) where
  ne_nil := Number.Spelling.orZero_ne_nil _
  all := Number.forall_orZero hzero (Number.forall_dropLeadingZeros h)

/-- The letters of a suffix are no digits. -/
theorem not_digit_of_isSuffix {c : Char} (h : isSuffix c = true) :
    isBinary c = false ∧ isHex c = false ∧ isDigit c = false := by
  simp only [isSuffix, Bool.or_eq_true, decide_eq_true_eq] at h
  rcases h with ((rfl | rfl) | rfl) | rfl <;> exact ⟨rfl, rfl, rfl⟩

section Marked

variable {radix : Radix} {mark : List Char} {isRadixDigit : Char → Bool} {cause : LexicalCause}

theorem readMarked_eq (radix : Radix) (mark : List Char) (cause : LexicalCause)
    {digits suffix : List Char} {size : LiteralSize} {signed : Bool}
    (hdigits : Digits isRadixDigit digits) (hsuffix : Suffix suffix size signed)
    (hother : ∀ c, isSuffix c = true → isRadixDigit c = false) :
    Number.readMarked radix mark isRadixDigit cause (digits ++ suffix)
      = .ok ⟨.integer size signed radix,
          mark ++ Number.orZero (Number.dropLeadingZeros (digits.map Char.toLower))
            ++ suffix.map Char.toLower,
          (digits ++ suffix).length + 2⟩ := by
  have hstop := hsuffix.startsWith hother
  have hletter : (startsWith continuesNumber suffix && !startsWith isSuffix suffix) = false := by
    cases suffix with
    | nil => rfl
    | cons c suffix =>
      have hc : isSuffix c = true := hsuffix.isSuffix c List.mem_cons_self
      simp [startsWith, hc]
  simp only [Number.readMarked, takeWhile_append_of_stop hdigits.all hstop,
    dropWhile_append_of_stop hdigits.all hstop, if_neg hdigits.ne_nil, hletter,
    hsuffix.readSuffix, bind, Except.bind, pure, Except.pure, List.length_map, List.length_append]
  rw [Nat.add_comm 2, Nat.add_right_comm]
  rfl

theorem exists_of_readMarked {rest : List Char} {n : Number}
    (h : Number.readMarked radix mark isRadixDigit cause rest = .ok n) :
    ∃ digits suffix more size signed, rest = digits ++ (suffix ++ more) ∧
      Digits isRadixDigit digits ∧ Suffix suffix size signed ∧
      n.kind = .integer size signed radix ∧ n.length = 2 + digits.length + suffix.length := by
  simp only [Number.readMarked] at h
  split at h
  · cases h
  next hne =>
    split at h
    · cases h
    · obtain ⟨⟨lower, size, signed⟩, hread, hn⟩ := exists_of_bind_eq_ok h
      obtain ⟨suffix, more, hafter, hsuffix, rfl⟩ := exists_of_readSuffix hread
      cases hn
      refine ⟨rest.takeWhile isRadixDigit, suffix, more, size, signed, ?_,
        ⟨hne, forall_of_takeWhile rest⟩, hsuffix, rfl, by rw [List.length_map]⟩
      rw [← hafter, List.takeWhile_append_dropWhile]

end Marked

/-- An integer without a radix mark that is read stands at the front of the text. -/
theorem exists_of_readUnmarked {digits rest : List Char} {n : Number}
    (hdigits : Digits isDigit digits) (h : Number.readUnmarked digits rest = .ok n) :
    ∃ radix m suffix more size signed, rest = suffix ++ more ∧ Whole radix digits m ∧
      Suffix suffix size signed ∧ n.kind = .integer size signed radix ∧
      n.length = digits.length + suffix.length := by
  obtain ⟨⟨lower, size, signed⟩, hread, hn⟩ := exists_of_bind_eq_ok h
  obtain ⟨suffix, more, hrest, hsuffix, rfl⟩ := exists_of_readSuffix hread
  simp only [List.length_map] at hn
  split at hn
  next hzeros =>
    cases hn
    exact ⟨.decimal, _, suffix, more, size, signed, hrest,
      .decimal hdigits fun _ => Number.dropLeadingZeros_eq_nil_iff.mp hzeros, hsuffix, rfl, rfl⟩
  next hother =>
    split at hn
    next hsame =>
      cases hn
      exact ⟨.decimal, _, suffix, more, size, signed, hrest,
        .decimal hdigits fun hhead => absurd hhead (Number.dropLeadingZeros_eq_self_iff.mp hsame),
        hsuffix, rfl, rfl⟩
    next hdrops =>
      split at hn
      next hoctal =>
        cases hn
        rw [Number.dropLeadingZeros_eq_nil_iff] at hother
        rw [Number.dropLeadingZeros_eq_self_iff, not_not] at hdrops
        push Not at hother
        exact ⟨.octal, _, suffix, more, size, signed, hrest,
          .octal ⟨hdigits.ne_nil, List.all_eq_true.mp hoctal⟩ hdrops hother, hsuffix, rfl, rfl⟩
      · cases hn

theorem read_append_suffix {digits suffix : List Char} {size : LiteralSize} {signed : Bool}
    (hdigits : Digits isDigit digits) (hsuffix : Suffix suffix size signed) :
    Number.read (digits ++ suffix) = Number.readUnmarked digits suffix := by
  have hstop := hsuffix.startsWith (p := isDigit) fun c hc => (not_digit_of_isSuffix hc).2.2
  have hmark : startsWith (fun c => ['b', 'B', 'x', 'X'].contains c) suffix = false :=
    hsuffix.startsWith fun c hc => by
      simp only [isSuffix, Bool.or_eq_true, decide_eq_true_eq] at hc
      rcases hc with ((rfl | rfl) | rfl) | rfl <;> rfl
  rw [Number.read_append_of_stop hdigits.ne_nil hdigits.all hmark, Number.readPlain,
    takeWhile_append_of_stop hdigits.all hstop, dropWhile_append_of_stop hdigits.all hstop]
  cases suffix with
  | nil => rfl
  | cons c suffix =>
    have hc := hsuffix.isSuffix c List.mem_cons_self
    simp only [isSuffix, Bool.or_eq_true, decide_eq_true_eq] at hc
    rcases hc with ((rfl | rfl) | rfl) | rfl <;> rfl

theorem isDigit_of_isBinary {c : Char} (h : isBinary c = true) : isDigit c = true := by
  have hc : c = '0' ∨ c = '1' := by simpa [isBinary] using h
  rcases hc with rfl | rfl <;> rfl

theorem isHex_of_isDigit {c : Char} (h : isDigit c = true) : isHex c = true := by
  rw [isHex, show (('0' ≤ c && c ≤ '9') : Bool) = true from h]
  rfl

/-- The digits of an integer with a radix mark may be rewritten. -/
theorem number_reduced (base : Nat) {digits : List Char} (h : ∀ c ∈ digits, isHex c = true) :
    number base (Number.orZero (Number.dropLeadingZeros (digits.map Char.toLower)))
      = number base digits := by
  rw [number_orZero, number_dropLeadingZeros, number_map_toLower base h]

theorem readUnmarked_eq {digits suffix : List Char} {size : LiteralSize} {signed : Bool}
    (hsuffix : Suffix suffix size signed) :
    Number.readUnmarked digits suffix =
      if Number.dropLeadingZeros digits = [] then
        .ok ⟨.integer size signed .decimal, ['0'] ++ suffix.map Char.toLower,
          (digits ++ suffix).length⟩
      else if Number.dropLeadingZeros digits = digits then
        .ok ⟨.integer size signed .decimal, digits ++ suffix.map Char.toLower,
          (digits ++ suffix).length⟩
      else if digits.all isOctal then
        .ok ⟨.integer size signed .octal,
          '0' :: Number.dropLeadingZeros digits ++ suffix.map Char.toLower,
          (digits ++ suffix).length⟩
      else .error ⟨.invalidOctal, (digits ++ suffix).length⟩ := by
  simp only [Number.readUnmarked, hsuffix.readSuffix, bind, Except.bind, pure, Except.pure,
    List.length_map, List.length_append]
  rfl

theorem number_zero_cons (base : Nat) (digits : List Char) :
    number base ('0' :: digits) = number base digits :=
  (number_dropLeadingZeros base ('0' :: digits)).symm.trans (number_dropLeadingZeros base digits)

/-- An octal literal stands for the same number with a single zero in front. -/
theorem whole_dropLeadingZeros {digits : List Char} (hdigits : ∀ c ∈ digits, isOctal c = true)
    (hother : ∃ c ∈ digits, c ≠ '0') :
    Whole .octal ('0' :: Number.dropLeadingZeros digits) (number 8 digits) := by
  rw [← number_dropLeadingZeros, ← number_zero_cons]
  refine .octal ⟨List.cons_ne_nil _ _, ?_⟩ rfl ?_
  · exact List.forall_mem_cons.mpr ⟨rfl, Number.forall_dropLeadingZeros hdigits⟩
  · obtain ⟨c, hc, hne⟩ := hother
    rw [← List.takeWhile_append_dropWhile (p := fun c => decide (c = '0')) (l := digits),
      List.mem_append] at hc
    refine ⟨c, List.mem_cons_of_mem _ (hc.resolve_left fun hc => hne ?_), hne⟩
    simpa using forall_of_takeWhile digits c hc

/-- An integer with nothing behind it is read as one of the same radix, and it is rewritten to one
that denotes the same number. -/
theorem Whole.exists_read {radix : Radix} {text : List Char} {n : Nat} (h : Whole radix text n)
    {suffix : List Char} {size : LiteralSize} {signed : Bool}
    (hsuffix : Suffix suffix size signed) :
    ∃ canonical, Whole radix canonical n ∧ Number.read (text ++ suffix)
      = .ok ⟨.integer size signed radix, canonical ++ suffix.map Char.toLower,
          (text ++ suffix).length⟩ := by
  cases h with
  | @binary mark digits hmark hdigits =>
    have hread := readMarked_eq .binary ['0', 'b'] .invalidBinary hdigits hsuffix
      fun c hc => (not_digit_of_isSuffix hc).1
    have hcanonical : Whole .binary _ _ := .binary (.inl rfl)
      (Digits.reduced (p := isBinary) rfl (hdigits.toLower Number.lowersTo_isBinary).all)
    rw [number_reduced 2 fun c hc => isHex_of_isDigit (isDigit_of_isBinary (hdigits.all c hc))]
      at hcanonical
    refine ⟨_, hcanonical, ?_⟩
    rcases hmark with rfl | rfl <;> exact hread
  | @hex mark digits hmark hdigits =>
    have hread := readMarked_eq .hex ['0', 'x'] .invalidHex hdigits hsuffix
      fun c hc => (not_digit_of_isSuffix hc).2.1
    have hcanonical : Whole .hex _ _ := .hex (.inl rfl)
      (Digits.reduced (p := isHex) rfl (hdigits.toLower Number.lowersTo_isHex).all)
    rw [number_reduced 16 hdigits.all] at hcanonical
    refine ⟨_, hcanonical, ?_⟩
    rcases hmark with rfl | rfl <;> exact hread
  | octal hdigits hzero hother =>
    have hdecimal : Digits isDigit text :=
      ⟨hdigits.ne_nil, fun c hc => Number.isDigit_of_isOctal (hdigits.all c hc)⟩
    -- The literal is octal for a zero in front, and for a digit behind it that is none.
    have hleft : Number.dropLeadingZeros text ≠ [] := fun h => by
      obtain ⟨c, hc, hne⟩ := hother
      exact hne (Number.dropLeadingZeros_eq_nil_iff.mp h c hc)
    have hdrops : Number.dropLeadingZeros text ≠ text := fun h =>
      Number.dropLeadingZeros_eq_self_iff.mp h hzero
    rw [read_append_suffix hdecimal hsuffix, readUnmarked_eq hsuffix, if_neg hleft, if_neg hdrops,
      if_pos (List.all_eq_true.mpr hdigits.all)]
    exact ⟨_, whole_dropLeadingZeros hdigits.all hother, rfl⟩
  | decimal hdigits hzero =>
    rw [read_append_suffix hdigits hsuffix, readUnmarked_eq hsuffix]
    -- Of zeros alone one is left; any other decimal literal has none in front.
    by_cases hall : Number.dropLeadingZeros text = []
    · refine ⟨['0'], ?_, if_pos hall⟩
      rw [number_zeros 10 (Number.dropLeadingZeros_eq_nil_iff.mp hall)]
      exact .decimal ⟨List.cons_ne_nil _ _, by simp [isDigit]⟩ fun _ => by simp
    · have hsame : Number.dropLeadingZeros text = text := Number.dropLeadingZeros_eq_self_iff.mpr
        fun h => hall (Number.dropLeadingZeros_eq_nil_iff.mpr (hzero h))
      exact ⟨text, .decimal hdigits hzero, by rw [if_neg hall, if_pos hsame]⟩

end NumericLiteral

end MiniC
