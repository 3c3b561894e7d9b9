import Mathlib.Data.List.DropRight
import MiniC.Proofs.Lexing.Numbers

set_option autoImplicit false

/-! # Canonical numeric literals

What the spelling of a numeric literal is rewritten to. `Canonical` lists the spellings, with the
kinds that they are read as: no zeros that could be left out, lower case letters, a digit on each
side of a point. Whatever is read becomes canonical, and a canonical spelling is read as itself. -/

namespace MiniC

open CharClass

section

variable {p : Char → Bool}

theorem takeWhile_append_of_stop {front rest : List Char} (hfront : ∀ c ∈ front, p c = true)
    (hrest : startsWith p rest = false) : (front ++ rest).takeWhile p = front := by
  rw [List.takeWhile_append_of_pos hfront]
  cases rest with
  | nil => simp
  | cons c rest =>
    rw [List.takeWhile_cons_of_neg (by simpa [startsWith] using hrest), List.append_nil]

theorem dropWhile_append_of_stop {front rest : List Char} (hfront : ∀ c ∈ front, p c = true)
    (hrest : startsWith p rest = false) : (front ++ rest).dropWhile p = rest := by
  rw [List.dropWhile_append_of_pos hfront]
  cases rest with
  | nil => rfl
  | cons c rest => rw [List.dropWhile_cons_of_neg (by simpa [startsWith] using hrest)]

theorem forall_of_takeWhile (text : List Char) : ∀ c ∈ text.takeWhile p, p c = true :=
  List.all_eq_true.mp List.all_takeWhile

end

namespace Number

/-! ## Zeros that can be left out -/

/-- Whether digits begin with no zero, or are a single zero. -/
def IsReduced (digits : List Char) : Prop :=
  orZero (dropLeadingZeros digits) = digits

theorem dropLeadingZeros_eq_nil_iff {digits : List Char} :
    dropLeadingZeros digits = [] ↔ ∀ c ∈ digits, c = '0' := by
  simp [dropLeadingZeros]

theorem dropLeadingZeros_eq_self_iff {digits : List Char} :
    dropLeadingZeros digits = digits ↔ digits.head? ≠ some '0' := by
  cases digits with
  | nil => simp [dropLeadingZeros]
  | cons c digits =>
    by_cases hc : c = '0'
    · subst hc
      have hle := (List.dropWhile_sublist (fun c => decide (c = '0')) (l := digits)).length_le
      have hshorter : dropLeadingZeros ('0' :: digits) ≠ '0' :: digits := fun h => by
        have hlength := congrArg List.length h
        simp [dropLeadingZeros] at hlength
        omega
      simp [hshorter]
    · simp [dropLeadingZeros, hc]

theorem orZero_again {drop : List Char → List Char} (hzero : drop ['0'] = [])
    (hdrop : ∀ digits, drop (drop digits) = drop digits) (digits : List Char) :
    orZero (drop (orZero (drop digits))) = orZero (drop digits) := by
  have hagain := hdrop digits
  cases h : drop digits with
  | nil => simp only [orZero, hzero]
  | cons c rest =>
    rw [h] at hagain
    simp only [orZero, hagain]

theorem isReduced_orZero (digits : List Char) : IsReduced (orZero (dropLeadingZeros digits)) :=
  orZero_again rfl (List.dropWhile_idempotent _) digits

theorem orZero_dropTrailingZeros (digits : List Char) :
    orZero (dropTrailingZeros (orZero (dropTrailingZeros digits)))
      = orZero (dropTrailingZeros digits) :=
  orZero_again rfl (List.rdropWhile_idempotent _) digits

theorem forall_orZero {p : Char → Bool} {digits : List Char} (hzero : p '0' = true)
    (h : ∀ c ∈ digits, p c = true) : ∀ c ∈ orZero digits, p c = true := by
  cases digits with
  | nil => simpa [orZero] using hzero
  | cons c rest => exact h

theorem forall_dropLeadingZeros {p : Char → Bool} {digits : List Char}
    (h : ∀ c ∈ digits, p c = true) : ∀ c ∈ dropLeadingZeros digits, p c = true :=
  fun c hc => h c ((List.dropWhile_sublist _).subset hc)

theorem forall_dropTrailingZeros {p : Char → Bool} {digits : List Char}
    (h : ∀ c ∈ digits, p c = true) : ∀ c ∈ dropTrailingZeros digits, p c = true := by
  intro c hc
  have hmem := (List.dropWhile_sublist _).subset (List.mem_reverse.mp hc)
  exact h c (List.mem_reverse.mp hmem)

theorem IsReduced.ne_nil {digits : List Char} (h : IsReduced digits) : digits ≠ [] := by
  rintro rfl
  cases h

/-- Digits without a zero to leave out are a single zero, or they begin with another digit. -/
theorem IsReduced.cases {digits : List Char} (h : IsReduced digits) :
    digits = ['0'] ∨ dropLeadingZeros digits = digits := by
  rw [IsReduced] at h
  cases hdrop : dropLeadingZeros digits with
  | nil =>
    rw [hdrop] at h
    exact .inl h.symm
  | cons c rest =>
    rw [hdrop] at h
    exact .inr h

/-! ## Letters in lower case -/

theorem forall_ascii {P : Char → Prop} (h : ∀ n < 128, P (Char.ofNat n)) :
    ∀ c : Char, c.toNat < 128 → P c := by
  intro c hc
  have hchar := h c.toNat hc
  rwa [Char.ofNat_toNat] at hchar

theorem toNat_lt_of_isHex {c : Char} (h : isHex c = true) : c.toNat < 128 := by
  have hle : c ≤ 'f' := by
    simp only [isHex, Bool.or_eq_true, Bool.and_eq_true, decide_eq_true_eq] at h
    rcases h with (⟨-, h⟩ | ⟨-, h⟩) | ⟨-, h⟩
    · exact Char.le_trans h (by decide)
    · exact h
    · exact Char.le_trans h (by decide)
  exact Nat.lt_of_le_of_lt (UInt32.le_iff_toNat_le.mp hle) (by decide)

/-- Whether digits of some radix stay digits of it in lower case. -/
def LowersTo (isRadixDigit : Char → Bool) : Prop :=
  ∀ c, isRadixDigit c = true → isRadixDigit c.toLower = true ∧ c.toLower.toLower = c.toLower

theorem lowersTo_isHex : LowersTo isHex := by
  have hascii : ∀ c : Char, c.toNat < 128 → isHex c = true →
      isHex c.toLower = true ∧ c.toLower.toLower = c.toLower :=
    forall_ascii (by decide)
  exact fun c h => hascii c (toNat_lt_of_isHex h) h

theorem lowersTo_isBinary : LowersTo isBinary := by
  intro c h
  have hc : c = '0' ∨ c = '1' := by simpa [isBinary] using h
  rcases hc with rfl | rfl <;> decide

/-! ## Suffixes -/

/-- All suffixes in lower case. -/
def suffixes : List (List Char) :=
  [[], ['u'], ['l'], ['l', 'l'], ['u', 'l'], ['l', 'u'], ['u', 'l', 'l'], ['l', 'l', 'u']]

theorem mem_suffixes {suffix : List Char} {meaning : LiteralSize × Bool}
    (h : sizeOfSuffix suffix = some meaning) : suffix ∈ suffixes := by
  unfold sizeOfSuffix at h
  split at h <;> simp_all [suffixes]

theorem letters_of_mem_suffixes : ∀ suffix ∈ suffixes,
    suffix.takeWhile isSuffix = suffix ∧ suffix.dropWhile isSuffix = [] ∧
      suffix.map Char.toLower = suffix := by
  decide

theorem startsWith_of_mem_suffixes : ∀ suffix ∈ suffixes,
    (startsWith continuesNumber suffix && !startsWith isSuffix suffix) = false := by
  decide

theorem sizeOfSuffix_of_readSuffix {offset : Nat} {rest suffix : List Char}
    {meaning : LiteralSize × Bool} (h : readSuffix offset rest = .ok (suffix, meaning)) :
    sizeOfSuffix suffix = some meaning := by
  simp only [readSuffix] at h
  split at h
  · cases h
  next size hsize =>
    split at h <;> cases h
    exact hsize

/-- A suffix in lower case is read as itself. -/
theorem readSuffix_of_sizeOfSuffix {suffix : List Char} {meaning : LiteralSize × Bool}
    (h : sizeOfSuffix suffix = some meaning) (offset : Nat) :
    readSuffix offset suffix = .ok (suffix, meaning) := by
  obtain ⟨htake, hdrop, hlower⟩ := letters_of_mem_suffixes suffix (mem_suffixes h)
  simp only [readSuffix, htake, hdrop, hlower, h]
  simp [startsWith]

/-- What a suffix begins with, it is in no class of digits. -/
theorem startsWith_of_sizeOfSuffix {suffix : List Char} {meaning : LiteralSize × Bool}
    (h : sizeOfSuffix suffix = some meaning) {p : Char → Bool} (hu : p 'u' = false)
    (hl : p 'l' = false) : startsWith p suffix = false := by
  have hmem := mem_suffixes h
  simp only [suffixes, List.mem_cons, List.not_mem_nil, or_false] at hmem
  rcases hmem with rfl | rfl | rfl | rfl | rfl | rfl | rfl | rfl <;> first | rfl | assumption

/-! ## Integers with a radix mark -/

theorem exists_of_readMarked {radix : Radix} {mark : List Char} {isRadixDigit : Char → Bool}
    {cause : LexicalCause} {rest : List Char} {n : Number} (hlower : LowersTo isRadixDigit)
    (hzero : isRadixDigit '0' = true)
    (h : readMarked radix mark isRadixDigit cause rest = .ok n) :
    ∃ digits suffix size signed, n.kind = .integer size signed radix ∧
      n.text = mark ++ digits ++ suffix ∧
      (∀ c ∈ digits, isRadixDigit c = true ∧ c.toLower = c) ∧ IsReduced digits ∧
      sizeOfSuffix suffix = some (size, signed) := by
  simp only [readMarked] at h
  split at h
  · cases h
  · split at h
    · cases h
    · obtain ⟨⟨suffix, size, signed⟩, hsuffix, hn⟩ := exists_of_bind_eq_ok h
      cases hn
      refine ⟨_, suffix, size, signed, rfl, rfl, ?_, isReduced_orZero _,
        sizeOfSuffix_of_readSuffix hsuffix⟩
      have hdigits : ∀ c ∈ (rest.takeWhile isRadixDigit).map Char.toLower,
          (isRadixDigit c && c.toLower == c) = true := by
        intro c hc
        obtain ⟨d, hd, rfl⟩ := List.mem_map.mp hc
        simpa using hlower d (forall_of_takeWhile rest d hd)
      have hall := forall_orZero (by simp [hzero]) (forall_dropLeadingZeros hdigits)
      exact fun c hc => by simpa using hall c hc

theorem readMarked_of_isReduced {radix : Radix} (mark : List Char) {isRadixDigit : Char → Bool}
    (cause : LexicalCause) {digits suffix : List Char} {size : LiteralSize} {signed : Bool}
    (hdigits : ∀ c ∈ digits, isRadixDigit c = true ∧ c.toLower = c) (hreduced : IsReduced digits)
    (hsuffix : sizeOfSuffix suffix = some (size, signed)) (hu : isRadixDigit 'u' = false)
    (hl : isRadixDigit 'l' = false) :
    readMarked radix mark isRadixDigit cause (digits ++ suffix)
      = .ok ⟨.integer size signed radix, mark ++ digits ++ suffix,
          2 + digits.length + suffix.length⟩ := by
  have hall : ∀ c ∈ digits, isRadixDigit c = true := fun c hc => (hdigits c hc).1
  have hstop := startsWith_of_sizeOfSuffix hsuffix hu hl
  have hlower : digits.map Char.toLower = digits := by
    rw [List.map_congr_left fun c hc => (hdigits c hc).2, List.map_id']
  have hletter := startsWith_of_mem_suffixes suffix (mem_suffixes hsuffix)
  have hcanonical : orZero (dropLeadingZeros digits) = digits := hreduced
  simp only [readMarked, takeWhile_append_of_stop hall hstop, dropWhile_append_of_stop hall hstop,
    if_neg hreduced.ne_nil, hletter, readSuffix_of_sizeOfSuffix hsuffix, hlower, hcanonical]
  rfl

/-! ## Integers without a radix mark -/

/-- The integer part that digits are rewritten to: decimal digits without a zero to leave out, or
octal digits behind a zero. -/
inductive IsUnmarked : Radix → List Char → Prop
  | decimal {digits : List Char} (hdigits : ∀ c ∈ digits, isDigit c = true)
    (hreduced : IsReduced digits) : IsUnmarked .decimal digits
  | octal {significant : List Char} (hdigits : ∀ c ∈ significant, isOctal c = true)
    (hlead : dropLeadingZeros significant = significant) (hne : significant ≠ []) :
    IsUnmarked .octal ('0' :: significant)

theorem isDigit_of_isOctal {c : Char} (h : isOctal c = true) : isDigit c = true := by
  simp only [isOctal, isDigit, Bool.and_eq_true, decide_eq_true_eq] at h ⊢
  exact ⟨h.1, Char.le_trans h.2 (by decide)⟩

theorem IsUnmarked.isDigit {radix : Radix} {digits : List Char} (h : IsUnmarked radix digits) :
    ∀ c ∈ digits, CharClass.isDigit c = true := by
  cases h with
  | decimal hdigits _ => exact hdigits
  | octal hdigits _ _ =>
    intro c hc
    rcases List.mem_cons.mp hc with rfl | hc
    · rfl
    · exact isDigit_of_isOctal (hdigits c hc)

theorem exists_of_readUnmarked {digits rest : List Char} {n : Number}
    (hdigits : ∀ c ∈ digits, isDigit c = true) (h : readUnmarked digits rest = .ok n) :
    ∃ radix canonical suffix size signed, n.kind = .integer size signed radix ∧
      n.text = canonical ++ suffix ∧ IsUnmarked radix canonical ∧
      sizeOfSuffix suffix = some (size, signed) := by
  obtain ⟨⟨suffix, size, signed⟩, hsuffix, hn⟩ := exists_of_bind_eq_ok h
  have hsize := sizeOfSuffix_of_readSuffix hsuffix
  simp only at hn
  split at hn
  · cases hn
    refine ⟨.decimal, ['0'], suffix, size, signed, rfl, rfl, .decimal ?_ rfl, hsize⟩
    exact List.forall_mem_singleton.mpr rfl
  next hne =>
    split at hn
    next hsame =>
      cases hn
      refine ⟨.decimal, digits, suffix, size, signed, rfl, rfl, .decimal hdigits ?_, hsize⟩
      rw [IsReduced, hsame]
      rw [hsame] at hne
      cases digits with
      | nil => exact absurd rfl hne
      | cons c digits => rfl
    next hother =>
      split at hn
      next hoctal =>
        cases hn
        refine ⟨.octal, _, suffix, size, signed, rfl, rfl, .octal ?_ ?_ hne, hsize⟩
        · exact forall_dropLeadingZeros (List.all_eq_true.mp hoctal)
        · exact List.dropWhile_idempotent _ _
      · cases hn

theorem readUnmarked_of_isUnmarked {radix : Radix} {digits suffix : List Char}
    {size : LiteralSize} {signed : Bool} (h : IsUnmarked radix digits)
    (hsuffix : sizeOfSuffix suffix = some (size, signed)) :
    readUnmarked digits suffix
      = .ok ⟨.integer size signed radix, digits ++ suffix, digits.length + suffix.length⟩ := by
  rw [readUnmarked, readSuffix_of_sizeOfSuffix hsuffix]
  cases h with
  | decimal _ hreduced =>
    rcases hreduced.cases with rfl | hlead
    · rfl
    · simp only [bind, Except.bind, hlead, if_neg hreduced.ne_nil]
      rfl
  | @octal significant hdigits hlead hne =>
    have hdrop : dropLeadingZeros ('0' :: significant) = significant := hlead
    have hother : significant ≠ '0' :: significant := fun h => by
      simpa using congrArg List.length h
    have hall : ('0' :: significant).all isOctal = true := by
      rw [List.all_cons, List.all_eq_true.mpr hdigits]
      rfl
    simp only [bind, Except.bind, hdrop, if_neg hne, if_neg hother, hall, if_true]
    rfl

/-! ## Floating literals -/

/-- A fraction with the point in front of it. -/
def fractionText : Option (List Char) → List Char
  | none => []
  | some digits => '.' :: digits

/-- The sign of an exponent. -/
def signText (negative : Bool) : List Char :=
  if negative then ['-'] else []

/-- An exponent with its mark in front of it. -/
def exponentText : Option (Bool × List Char) → List Char
  | none => []
  | some (negative, digits) => 'e' :: (signText negative ++ digits)

/-- The letter at the end of a floating literal. -/
def floatText (isFloat : Bool) : List Char :=
  if isFloat then ['f'] else []

/-- The kind of a floating literal. -/
def floatKind (isFloat : Bool) : LiteralKind :=
  if isFloat then .float else .double

namespace Spelling

/-- Whether the pieces of a floating literal consist of digits, and none is missing. -/
structure IsComplete (s : Spelling) : Prop where
  whole_digits : ∀ c ∈ s.whole, isDigit c = true
  fraction_digits : ∀ digits ∈ s.fraction, ∀ c ∈ digits, isDigit c = true
  exponent_digits : ∀ exponent ∈ s.exponent, ∀ c ∈ exponent.2, isDigit c = true
  missing_eq : s.missing = none
  goes_on : s.fraction ≠ none ∨ s.exponent ≠ none

/-- Whether the pieces of a floating literal are spelled as they are rewritten to. -/
structure IsCanonical (s : Spelling) : Prop extends s.IsComplete where
  whole_reduced : IsReduced s.whole
  fraction_reduced : ∀ digits ∈ s.fraction, orZero (dropTrailingZeros digits) = digits

/-- The pieces of a floating literal as they are rewritten. -/
def reduced (s : Spelling) : Spelling :=
  { s with
    whole := orZero (dropLeadingZeros s.whole)
    fraction := s.fraction.map fun digits => orZero (dropTrailingZeros digits) }

theorem orZero_ne_nil (digits : List Char) : orZero digits ≠ [] := by
  cases digits <;> exact List.cons_ne_nil _ _

theorem missing_reduced {s : Spelling} (h : s.missing = none) : s.reduced.missing = none := by
  rcases s with ⟨whole, fraction, exponent⟩
  cases exponent with
  | some exponent =>
    rcases exponent with ⟨negative, digits⟩
    cases digits with
    | nil => cases h
    | cons c digits => rfl
  | none =>
    cases fraction with
    | none => rfl
    | some digits =>
      have hne := orZero_ne_nil (dropTrailingZeros digits)
      simp [reduced, missing, hne]

theorem IsComplete.reduced {s : Spelling} (h : s.IsComplete) : s.reduced.IsCanonical where
  whole_digits := forall_orZero rfl (forall_dropLeadingZeros h.whole_digits)
  whole_reduced := isReduced_orZero s.whole
  fraction_digits := by
    intro digits hdigits
    obtain ⟨digits, hfraction, rfl⟩ := Option.map_eq_some_iff.mp hdigits
    exact forall_orZero rfl (forall_dropTrailingZeros (h.fraction_digits digits hfraction))
  fraction_reduced := by
    intro digits hdigits
    obtain ⟨digits, -, rfl⟩ := Option.map_eq_some_iff.mp hdigits
    exact orZero_dropTrailingZeros digits
  exponent_digits := h.exponent_digits
  missing_eq := missing_reduced h.missing_eq
  goes_on := h.goes_on.imp_left fun hne => by simpa [Spelling.reduced] using hne

theorem canonical_eq (s : Spelling) :
    s.canonical
      = s.reduced.whole ++ fractionText s.reduced.fraction ++ exponentText s.exponent := by
  rcases s with ⟨whole, fraction, exponent⟩
  cases fraction <;> cases exponent <;> rfl

theorem IsCanonical.reduced_eq {s : Spelling} (h : s.IsCanonical) : s.reduced = s := by
  rcases s with ⟨whole, fraction, exponent⟩
  have hwhole : orZero (dropLeadingZeros whole) = whole := h.whole_reduced
  have hfraction := h.fraction_reduced
  cases fraction with
  | none => simp only [Spelling.reduced, hwhole, Option.map_none]
  | some digits => simp only [Spelling.reduced, hwhole, Option.map_some, hfraction digits rfl]

theorem IsComplete.canonical_reduced {s : Spelling} (h : s.IsComplete) :
    s.reduced.canonical = s.canonical := by
  rw [canonical_eq s.reduced, h.reduced.reduced_eq, canonical_eq s]
  rfl

end Spelling

/-- Only a floating literal of which nothing is missing is finished. -/
theorem exists_of_finish {s : Spelling} {length : Nat} {rest : List Char} {n : Number}
    (h : s.finish length rest = .ok n) :
    s.missing = none ∧ ∃ isFloat, n.kind = floatKind isFloat ∧
      n.text = s.canonical ++ floatText isFloat := by
  cases hmissing : s.missing with
  | some cause =>
    unfold Spelling.finish at h
    grind
  | none =>
    refine ⟨rfl, ?_⟩
    unfold Spelling.finish at h
    simp only [hmissing] at h
    split at h
    · cases h
    · cases h
    · cases h
    · split at h
      · split at h <;> cases h
        exact ⟨true, rfl, rfl⟩
      · split at h <;> cases h
        exact ⟨false, rfl, (List.append_nil _).symm⟩
    · cases h
      exact ⟨false, rfl, (List.append_nil _).symm⟩

theorem finish_floatText {s : Spelling} (hmissing : s.missing = none) (length : Nat)
    (isFloat : Bool) :
    s.finish length (floatText isFloat)
      = .ok ⟨floatKind isFloat, s.canonical ++ floatText isFloat,
          length + (floatText isFloat).length⟩ := by
  cases isFloat <;> simp [floatText, floatKind, Spelling.finish, hmissing, startsWith]

theorem forall_readExponent (rest : List Char) :
    ∀ c ∈ (readExponent rest).2.1, isDigit c = true := by
  unfold readExponent
  split <;> exact forall_of_takeWhile _

theorem startsWith_floatText (isFloat : Bool) : startsWith isDigit (floatText isFloat) = false := by
  cases isFloat <;> rfl

theorem readExponent_signText (negative : Bool) {digits : List Char} (hne : digits ≠ [])
    (hdigits : ∀ c ∈ digits, isDigit c = true) (isFloat : Bool) :
    readExponent (signText negative ++ digits ++ floatText isFloat)
      = (negative, digits, (signText negative ++ digits).length) := by
  have htake := takeWhile_append_of_stop hdigits (startsWith_floatText isFloat)
  cases negative with
  | true => simp [signText, readExponent, htake, Nat.add_comm]
  | false =>
    cases digits with
    | nil => exact absurd rfl hne
    | cons c digits =>
      have hc := hdigits c List.mem_cons_self
      have hminus : c ≠ '-' := by rintro rfl; cases hc
      have hplus : c ≠ '+' := by rintro rfl; cases hc
      rw [List.cons_append] at htake
      simp only [signText, List.nil_append, List.cons_append, Bool.false_eq_true, if_false,
        readExponent_of_unsigned hminus hplus, htake]

theorem exists_of_readAfterFraction {whole : List Char} {fraction : Option (List Char)}
    {offset : Nat} {after : List Char} {n : Number}
    (h : readAfterFraction whole fraction offset after = .ok n) :
    ∃ exponent isFloat, (∀ e ∈ exponent, ∀ c ∈ e.2, isDigit c = true) ∧
      (startsWith (fun c => c = 'e' || c = 'E') after = true → exponent ≠ none) ∧
      (⟨whole, fraction, exponent⟩ : Spelling).missing = none ∧ n.kind = floatKind isFloat ∧
      n.text = (⟨whole, fraction, exponent⟩ : Spelling).canonical ++ floatText isFloat := by
  cases after with
  | nil =>
    have hfinish : Spelling.finish ⟨whole, fraction, none⟩ offset [] = .ok n := h
    obtain ⟨hmissing, isFloat, hkind, htext⟩ := exists_of_finish hfinish
    exact ⟨none, isFloat, by simp, by simp [startsWith], hmissing, hkind, htext⟩
  | cons c r =>
    have hdigits := forall_readExponent r
    rcases hread : readExponent r with ⟨negative, digits, length⟩
    simp only [readAfterFraction, hread] at h hdigits
    split at h
    · obtain ⟨hmissing, isFloat, hkind, htext⟩ := exists_of_finish h
      exact ⟨some (negative, digits), isFloat, by simpa using hdigits, by simp, hmissing, hkind,
        htext⟩
    next hc =>
      obtain ⟨hmissing, isFloat, hkind, htext⟩ := exists_of_finish h
      exact ⟨none, isFloat, by simp, fun hstart => absurd hstart hc, hmissing, hkind, htext⟩

/-- A floating literal that is read is rewritten from its pieces. -/
theorem exists_of_readFloating {whole r : List Char} {c : Char} {n : Number}
    (hwhole : ∀ c ∈ whole, isDigit c = true) (hc : (c = '.' || c = 'e' || c = 'E') = true)
    (h : readFloating whole (c :: r) = .ok n) :
    ∃ s : Spelling, ∃ isFloat, s.IsComplete ∧ n.kind = floatKind isFloat ∧
      n.text = s.canonical ++ floatText isFloat := by
  by_cases hpoint : c = '.'
  · subst hpoint
    rw [readFloating_point] at h
    obtain ⟨exponent, isFloat, hdigits, -, hmissing, hkind, htext⟩ := exists_of_readAfterFraction h
    refine ⟨_, isFloat, ⟨hwhole, ?_, hdigits, hmissing, .inl (by simp)⟩, hkind, htext⟩
    rintro digits ⟨⟩
    exact forall_of_takeWhile r
  · rw [readFloating_of_ne_point hpoint] at h
    obtain ⟨exponent, isFloat, hdigits, hmark, hmissing, hkind, htext⟩ :=
      exists_of_readAfterFraction h
    have hstart : startsWith (fun c => c = 'e' || c = 'E') (c :: r) = true := by
      simpa [startsWith, hpoint] using hc
    exact ⟨_, isFloat, ⟨hwhole, by simp, hdigits, hmissing, .inr (hmark hstart)⟩, hkind, htext⟩

theorem readAfterFraction_exponentText {whole : List Char} {fraction : Option (List Char)}
    {exponent : Option (Bool × List Char)}
    (hmissing : (⟨whole, fraction, exponent⟩ : Spelling).missing = none)
    (hdigits : ∀ e ∈ exponent, ∀ c ∈ e.2, isDigit c = true) (offset : Nat) (isFloat : Bool) :
    readAfterFraction whole fraction offset (exponentText exponent ++ floatText isFloat)
      = .ok ⟨floatKind isFloat,
          (⟨whole, fraction, exponent⟩ : Spelling).canonical ++ floatText isFloat,
          offset + (exponentText exponent ++ floatText isFloat).length⟩ := by
  cases exponent with
  | none =>
    have hfinish := finish_floatText hmissing offset isFloat
    cases isFloat <;> exact hfinish
  | some e =>
    rcases e with ⟨negative, digits⟩
    have hne : digits ≠ [] := by
      rintro rfl
      cases hmissing
    have hread := readExponent_signText negative hne (hdigits _ rfl) isFloat
    simp only [exponentText, List.cons_append, readAfterFraction, hread, List.drop_left,
      finish_floatText hmissing]
    simp only [decide_true, Bool.true_or, if_true, List.length_cons, List.length_append]
    congr 2
    omega

theorem startsWith_exponentText (exponent : Option (Bool × List Char)) (isFloat : Bool) :
    startsWith isDigit (exponentText exponent ++ floatText isFloat) = false := by
  cases exponent with
  | none => exact startsWith_floatText isFloat
  | some e => rfl

theorem readFloating_canonical {s : Spelling} (h : s.IsCanonical) (isFloat : Bool) :
    readFloating s.whole (fractionText s.fraction ++ (exponentText s.exponent ++ floatText isFloat))
      = .ok ⟨floatKind isFloat, s.canonical ++ floatText isFloat,
          (s.canonical ++ floatText isFloat).length⟩ := by
  have hcanonical := s.canonical_eq
  rw [h.reduced_eq] at hcanonical
  have hafter := readAfterFraction_exponentText h.missing_eq h.exponent_digits
  have hstop := startsWith_exponentText s.exponent isFloat
  rcases s with ⟨whole, fraction, exponent⟩
  cases fraction with
  | some digits =>
    have hdigits := h.fraction_digits digits rfl
    rw [fractionText, List.cons_append, readFloating_point, takeWhile_append_of_stop hdigits hstop,
      dropWhile_append_of_stop hdigits hstop, hafter]
    simp only [hcanonical, fractionText, List.length_append, List.length_cons]
    congr 2
    omega
  | none =>
    obtain ⟨e, rfl⟩ : ∃ e, exponent = some e :=
      Option.ne_none_iff_exists'.mp (h.goes_on.resolve_left fun hne => hne rfl)
    have hread := hafter whole.length isFloat
    rw [exponentText, List.cons_append, ← readFloating_of_ne_point (by decide)] at hread
    rw [fractionText, List.nil_append, exponentText, List.cons_append, hread]
    simp [hcanonical, fractionText, exponentText]

/-! ## All numeric literals -/

/-- The letter that marks a radix, and the digits of the radix. -/
inductive Marked : Radix → Char → (Char → Bool) → Prop
  | binary : Marked .binary 'b' isBinary
  | hex : Marked .hex 'x' isHex

/-- The spellings that numeric literals are rewritten to, with their kinds. -/
inductive Canonical : LiteralKind → List Char → Prop
  | marked {radix : Radix} {mark : Char} {isRadixDigit : Char → Bool} {digits suffix : List Char}
    {size : LiteralSize} {signed : Bool} (hmark : Marked radix mark isRadixDigit)
    (hdigits : ∀ c ∈ digits, isRadixDigit c = true ∧ c.toLower = c) (hreduced : IsReduced digits)
    (hsuffix : sizeOfSuffix suffix = some (size, signed)) :
    Canonical (.integer size signed radix) (['0', mark] ++ digits ++ suffix)
  | unmarked {radix : Radix} {digits suffix : List Char} {size : LiteralSize} {signed : Bool}
    (hdigits : IsUnmarked radix digits) (hsuffix : sizeOfSuffix suffix = some (size, signed)) :
    Canonical (.integer size signed radix) (digits ++ suffix)
  | floating {s : Spelling} (hs : s.IsCanonical) (isFloat : Bool) :
    Canonical (floatKind isFloat) (s.canonical ++ floatText isFloat)

theorem canonical_of_readMarked {radix : Radix} {mark : Char} {isRadixDigit : Char → Bool}
    {cause : LexicalCause} {rest : List Char} {n : Number}
    (hmark : Marked radix mark isRadixDigit)
    (h : readMarked radix ['0', mark] isRadixDigit cause rest = .ok n) :
    Canonical n.kind n.text := by
  have hlower : LowersTo isRadixDigit := by
    cases hmark with
    | binary => exact lowersTo_isBinary
    | hex => exact lowersTo_isHex
  have hzero : isRadixDigit '0' = true := by cases hmark <;> rfl
  obtain ⟨digits, suffix, size, signed, hkind, htext, hdigits, hreduced, hsuffix⟩ :=
    exists_of_readMarked hlower hzero h
  rw [hkind, htext]
  exact .marked hmark hdigits hreduced hsuffix

theorem canonical_of_readUnmarked {digits rest : List Char} {n : Number}
    (hdigits : ∀ c ∈ digits, isDigit c = true) (h : readUnmarked digits rest = .ok n) :
    Canonical n.kind n.text := by
  obtain ⟨radix, canonical, suffix, size, signed, hkind, htext, hunmarked, hsuffix⟩ :=
    exists_of_readUnmarked hdigits h
  rw [hkind, htext]
  exact .unmarked hunmarked hsuffix

theorem canonical_of_readFloating {whole r : List Char} {c : Char} {n : Number}
    (hwhole : ∀ c ∈ whole, isDigit c = true) (hc : (c = '.' || c = 'e' || c = 'E') = true)
    (h : readFloating whole (c :: r) = .ok n) : Canonical n.kind n.text := by
  obtain ⟨s, isFloat, hs, hkind, htext⟩ := exists_of_readFloating hwhole hc h
  rw [hkind, htext, ← hs.canonical_reduced]
  exact .floating hs.reduced isFloat

theorem canonical_of_readPlain {text : List Char} {n : Number} (h : readPlain text = .ok n) :
    Canonical n.kind n.text := by
  have hdigits := forall_of_takeWhile (p := isDigit) text
  simp only [readPlain] at h
  split at h
  · exact canonical_of_readUnmarked hdigits h
  next c r hrest =>
    split at h
    next hc => exact canonical_of_readFloating hdigits hc (hrest ▸ h)
    · split at h
      · cases h
      · split at h
        · cases h
        · exact canonical_of_readUnmarked hdigits h

/-- What a numeric literal is rewritten to is canonical. -/
theorem canonical_of_read {text : List Char} {n : Number} (h : read text = .ok n) :
    Canonical n.kind n.text := by
  by_cases hmark : ∃ b rest, text = '0' :: b :: rest ∧ b ∈ ['b', 'B', 'x', 'X']
  · obtain ⟨b, rest, rfl, hb⟩ := hmark
    simp only [List.mem_cons, List.not_mem_nil, or_false] at hb
    obtain rfl | rfl | rfl | rfl := hb
    · exact canonical_of_readMarked .binary h
    · exact canonical_of_readMarked .binary h
    · exact canonical_of_readMarked .hex h
    · exact canonical_of_readMarked .hex h
  · rw [read_eq_readPlain fun b rest htext hb => hmark ⟨b, rest, htext, hb⟩] at h
    exact canonical_of_readPlain h

/-- Digits are no radix mark, and what stands behind them is none either. -/
theorem read_append_of_stop {digits tail : List Char} (hne : digits ≠ [])
    (hdigits : ∀ c ∈ digits, isDigit c = true)
    (htail : startsWith (fun c => ['b', 'B', 'x', 'X'].contains c) tail = false) :
    read (digits ++ tail) = readPlain (digits ++ tail) := by
  refine read_eq_readPlain fun b rest htext hb => ?_
  match digits with
  | [] => exact hne rfl
  | [_] =>
    obtain ⟨-, rfl⟩ := List.cons.inj htext
    simp only [startsWith, List.contains_eq_mem, decide_eq_false_iff_not] at htail
    exact htail hb
  | _ :: d :: _ =>
    obtain ⟨rfl, -⟩ := List.cons.inj (List.cons.inj htext).2
    have hd := hdigits d (by simp)
    simp only [List.mem_cons, List.not_mem_nil, or_false] at hb
    obtain rfl | rfl | rfl | rfl := hb <;> cases hd

theorem read_marked {radix : Radix} {mark : Char} {isRadixDigit : Char → Bool}
    {digits suffix : List Char} {size : LiteralSize} {signed : Bool}
    (hmark : Marked radix mark isRadixDigit)
    (hdigits : ∀ c ∈ digits, isRadixDigit c = true ∧ c.toLower = c) (hreduced : IsReduced digits)
    (hsuffix : sizeOfSuffix suffix = some (size, signed)) :
    read (['0', mark] ++ digits ++ suffix)
      = .ok ⟨.integer size signed radix, ['0', mark] ++ digits ++ suffix,
          2 + digits.length + suffix.length⟩ := by
  cases hmark with
  | binary =>
    exact readMarked_of_isReduced ['0', 'b'] .invalidBinary hdigits hreduced hsuffix rfl rfl
  | hex => exact readMarked_of_isReduced ['0', 'x'] .invalidHex hdigits hreduced hsuffix rfl rfl

theorem IsUnmarked.ne_nil {radix : Radix} {digits : List Char} (h : IsUnmarked radix digits) :
    digits ≠ [] := by
  cases h with
  | decimal _ hreduced => exact hreduced.ne_nil
  | octal => exact List.cons_ne_nil _ _

theorem read_unmarked {radix : Radix} {digits suffix : List Char} {size : LiteralSize}
    {signed : Bool} (hdigits : IsUnmarked radix digits)
    (hsuffix : sizeOfSuffix suffix = some (size, signed)) :
    read (digits ++ suffix)
      = .ok ⟨.integer size signed radix, digits ++ suffix, digits.length + suffix.length⟩ := by
  have hstop := startsWith_of_sizeOfSuffix hsuffix (p := isDigit) rfl rfl
  rw [read_append_of_stop hdigits.ne_nil hdigits.isDigit
    (startsWith_of_sizeOfSuffix hsuffix rfl rfl), ← readUnmarked_of_isUnmarked hdigits hsuffix,
    readPlain, takeWhile_append_of_stop hdigits.isDigit hstop,
    dropWhile_append_of_stop hdigits.isDigit hstop]
  have hmem := mem_suffixes hsuffix
  simp only [suffixes, List.mem_cons, List.not_mem_nil, or_false] at hmem
  rcases hmem with rfl | rfl | rfl | rfl | rfl | rfl | rfl | rfl <;> rfl

theorem read_floating {s : Spelling} (hs : s.IsCanonical) (isFloat : Bool) :
    read (s.canonical ++ floatText isFloat)
      = .ok ⟨floatKind isFloat, s.canonical ++ floatText isFloat,
          (s.canonical ++ floatText isFloat).length⟩ := by
  have hread := readFloating_canonical hs isFloat
  obtain ⟨c, r, hrest, hc⟩ : ∃ c r,
      fractionText s.fraction ++ (exponentText s.exponent ++ floatText isFloat) = c :: r ∧
        (c = '.' ∨ c = 'e') := by
    rcases s with ⟨whole, _ | digits, _ | e⟩
    · exact absurd hs.goes_on (by simp)
    all_goals exact ⟨_, _, rfl, by simp⟩
  have htext : s.canonical ++ floatText isFloat = s.whole ++ c :: r := by
    rw [s.canonical_eq, hs.reduced_eq, ← hrest, List.append_assoc, List.append_assoc]
  obtain ⟨hstop, hnomark, hmark⟩ : startsWith isDigit (c :: r) = false ∧
      startsWith (fun c => ['b', 'B', 'x', 'X'].contains c) (c :: r) = false ∧
      (c = '.' || c = 'e' || c = 'E') = true := by
    rcases hc with rfl | rfl <;> exact ⟨rfl, rfl, rfl⟩
  rw [hrest] at hread
  rw [← hread, htext, read_append_of_stop hs.whole_reduced.ne_nil hs.whole_digits hnomark,
    readPlain, takeWhile_append_of_stop hs.whole_digits hstop,
    dropWhile_append_of_stop hs.whole_digits hstop]
  simp only [hmark, if_true]

/-- A canonical spelling is read as itself. -/
theorem Canonical.read_eq {kind : LiteralKind} {text : List Char} (h : Canonical kind text) :
    read text = .ok ⟨kind, text, text.length⟩ := by
  cases h with
  | marked hmark hdigits hreduced hsuffix =>
    rw [read_marked hmark hdigits hreduced hsuffix]
    simp only [List.length_append, List.length_cons, List.length_nil]
  | unmarked hdigits hsuffix =>
    rw [read_unmarked hdigits hsuffix, List.length_append]
  | floating hs isFloat => exact read_floating hs isFloat

/-- A canonical spelling begins with a digit. -/
theorem Canonical.exists_cons {kind : LiteralKind} {text : List Char} (h : Canonical kind text) :
    ∃ c rest, text = c :: rest ∧ isDigit c = true := by
  have hdigits : ∀ digits tail : List Char, digits ≠ [] → (∀ c ∈ digits, isDigit c = true) →
      ∃ c rest, digits ++ tail = c :: rest ∧ isDigit c = true := by
    intro digits tail hne hdigits
    cases digits with
    | nil => exact absurd rfl hne
    | cons c digits => exact ⟨c, _, rfl, hdigits c List.mem_cons_self⟩
  cases h with
  | marked => exact ⟨'0', _, rfl, rfl⟩
  | unmarked h _ => exact hdigits _ _ h.ne_nil h.isDigit
  | @floating s hs isFloat =>
    rw [s.canonical_eq, hs.reduced_eq, List.append_assoc, List.append_assoc]
    exact hdigits _ _ hs.whole_reduced.ne_nil hs.whole_digits

end Number

end MiniC
