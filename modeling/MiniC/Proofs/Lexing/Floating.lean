import MiniC.Decimal.Read
import MiniC.Proofs.Lexing.Numerals

set_option autoImplicit false

/-! # The forms of floating literals

The five forms of a floating literal are spelled by the pieces that the reader takes it apart into.
So a floating literal that is read stands at the front of the text, and one with nothing behind it
is read. It is rewritten from its pieces to a literal that denotes the same number, and that number
is what the reader of decimal numbers gives for it. -/

namespace MiniC

open CharClass

namespace NumericLiteral

/-! ## The pieces of floating literals -/

/-- Whether a text spells an exponent, if there is one. -/
def SpellsExponent : Option (Bool × List Char) → List Char → Prop
  | none, text => text = []
  | some (negative, digits), text => Exponent text negative digits

/-- Whether pieces, of which none is missing, spell a text. -/
structure Spells (s : Number.Spelling) (text : List Char) : Prop extends s.IsComplete where
  begins : s.whole = [] → ∃ digits, s.fraction = some digits ∧ digits ≠ []
  text_eq : ∃ exponent, SpellsExponent s.exponent exponent ∧
    text = s.whole ++ (Number.fractionText s.fraction ++ exponent)

/-- The power of ten that an exponent stands for, if there is one. -/
def powerOf : Option (Bool × List Char) → ℤ
  | none => 0
  | some (negative, digits) => power negative digits

/-- The number that the pieces of a floating literal denote. -/
def denoted (s : Number.Spelling) : ℚ :=
  (number 10 s.whole + fractional (s.fraction.getD [])) * 10 ^ powerOf s.exponent

theorem Exponent.digits {exponent digits : List Char} {negative : Bool}
    (h : Exponent exponent negative digits) : Digits isDigit digits := by
  cases h <;> assumption

theorem isComplete_of_exponent {whole digits : List Char} {fraction : Option (List Char)}
    {negative : Bool} (hwhole : ∀ c ∈ whole, isDigit c = true)
    (hfraction : ∀ digits ∈ fraction, ∀ c ∈ digits, isDigit c = true)
    (hdigits : Digits isDigit digits) :
    Number.Spelling.IsComplete ⟨whole, fraction, some (negative, digits)⟩ where
  whole_digits := hwhole
  fraction_digits := hfraction
  exponent_digits := by
    rintro _ ⟨⟩
    exact hdigits.all
  missing_eq := by
    cases digits with
    | nil => exact absurd rfl hdigits.ne_nil
    | cons c digits => rfl
  goes_on := .inr (Option.some_ne_none _)

theorem isComplete_of_fraction {whole fraction : List Char}
    (hwhole : ∀ c ∈ whole, isDigit c = true) (hfraction : Digits isDigit fraction) :
    Number.Spelling.IsComplete ⟨whole, some fraction, none⟩ where
  whole_digits := hwhole
  fraction_digits := by
    rintro _ ⟨⟩
    exact hfraction.all
  exponent_digits := by simp
  missing_eq := by
    cases fraction with
    | nil => exact absurd rfl hfraction.ne_nil
    | cons c fraction => rfl
  goes_on := .inl (Option.some_ne_none _)

/-- The five forms are spelled by pieces. -/
theorem Floating.exists_spells {text : List Char} {q : ℚ} (h : Floating text q) :
    ∃ s, Spells s text ∧ denoted s = q := by
  have hnil : fractional [] = 0 := by simp [fractional, number_nil]
  cases h with
  | @point whole fraction hwhole hfraction =>
    refine ⟨⟨whole, some fraction, none⟩, ⟨isComplete_of_fraction hwhole.all hfraction,
      fun h => absurd h hwhole.ne_nil, [], rfl, by simp [Number.fractionText]⟩, ?_⟩
    simp [denoted, powerOf]
  | @bare fraction hfraction =>
    refine ⟨⟨[], some fraction, none⟩, ⟨isComplete_of_fraction (by simp) hfraction,
      fun _ => ⟨fraction, rfl, hfraction.ne_nil⟩, [], rfl, by simp [Number.fractionText]⟩, ?_⟩
    simp [denoted, powerOf, number_nil]
  | @pointExponent whole fraction exponent digits negative hwhole hfraction hexponent =>
    refine ⟨⟨whole, some fraction, some (negative, digits)⟩,
      ⟨isComplete_of_exponent hwhole.all (by simpa using hfraction) hexponent.digits,
        fun h => absurd h hwhole.ne_nil, exponent, hexponent, rfl⟩, rfl⟩
  | @bareExponent fraction exponent digits negative hfraction hexponent =>
    refine ⟨⟨[], some fraction, some (negative, digits)⟩,
      ⟨isComplete_of_exponent (by simp) (by simpa using hfraction.all) hexponent.digits,
        fun _ => ⟨fraction, rfl, hfraction.ne_nil⟩, exponent, hexponent, rfl⟩, ?_⟩
    simp [denoted, powerOf, number_nil]
  | @exponent whole exponent digits negative hwhole hexponent =>
    refine ⟨⟨whole, none, some (negative, digits)⟩,
      ⟨isComplete_of_exponent hwhole.all (by simp) hexponent.digits,
        fun h => absurd h hwhole.ne_nil, exponent, hexponent, rfl⟩, ?_⟩
    simp [denoted, powerOf, hnil]

/-- Pieces spell one of the five forms. -/
theorem Spells.floating {s : Number.Spelling} {text : List Char} (h : Spells s text) :
    Floating text (denoted s) := by
  obtain ⟨exponent, hexponent, rfl⟩ := h.text_eq
  have hnil : fractional [] = 0 := by simp [fractional, number_nil]
  have hcomplete := h.toIsComplete
  have hbegins := h.begins
  rcases s with ⟨whole, _ | fraction, _ | ⟨negative, digits⟩⟩
  · exact absurd hcomplete.goes_on (by simp)
  · have hwhole : Digits isDigit whole :=
      ⟨fun h => by simpa using hbegins h, hcomplete.whole_digits⟩
    simpa [denoted, powerOf, hnil, Number.fractionText] using Floating.exponent hwhole hexponent
  · have hfraction : Digits isDigit fraction := by
      refine ⟨?_, hcomplete.fraction_digits fraction rfl⟩
      rintro rfl
      cases hcomplete.missing_eq
    cases hexponent
    by_cases hwhole : whole = []
    · subst hwhole
      simpa [denoted, powerOf, number_nil, Number.fractionText] using Floating.bare hfraction
    · simpa [denoted, powerOf, Number.fractionText] using
        Floating.point ⟨hwhole, hcomplete.whole_digits⟩ hfraction
  · have hfraction := hcomplete.fraction_digits fraction rfl
    by_cases hwhole : whole = []
    · obtain ⟨_, hsome, hne⟩ := hbegins hwhole
      cases hsome
      subst hwhole
      simpa [denoted, powerOf, number_nil, Number.fractionText] using
        Floating.bareExponent ⟨hne, hfraction⟩ hexponent
    · simpa [denoted, powerOf, Number.fractionText] using
        Floating.pointExponent ⟨hwhole, hcomplete.whole_digits⟩ hfraction hexponent

/-! ## Floating literals are read -/

/-- The letter at the end of a floating literal that is rewritten. -/
def letter : LiteralKind → List Char
  | .float => ['f']
  | _ => []

theorem Mark.letter {mark : List Char} {kind : LiteralKind} (h : Mark mark kind) :
    Mark (NumericLiteral.letter kind) kind := by
  cases h with
  | double => exact .double
  | float => exact .float (.inl rfl)

theorem Mark.startsWith {mark : List Char} {kind : LiteralKind} (h : Mark mark kind) :
    CharClass.startsWith isDigit mark = false := by
  cases h with
  | double => rfl
  | float hmark => rcases hmark with rfl | rfl <;> rfl

theorem finish_eq {s : Number.Spelling} {mark : List Char} {kind : LiteralKind}
    (hmissing : s.missing = none) (hmark : Mark mark kind) (length : Nat) :
    s.finish length mark = .ok ⟨kind, s.canonical ++ letter kind, length + mark.length⟩ := by
  cases hmark with
  | double => simp [Number.Spelling.finish, hmissing, letter]
  | float hmark =>
    rcases hmark with rfl | rfl <;>
      simp [Number.Spelling.finish, hmissing, letter, CharClass.startsWith]

theorem Exponent.readExponent_eq {exponent digits : List Char} {negative : Bool}
    (h : Exponent exponent negative digits) {rest : List Char}
    (hstop : startsWith isDigit rest = false) :
    ∃ mark tail, exponent = mark :: tail ∧ (mark = 'e' || mark = 'E') = true ∧
      Number.readExponent (tail ++ rest) = (negative, digits, tail.length) := by
  have htake := takeWhile_append_of_stop h.digits.all hstop
  cases h with
  | unsigned hmark hdigits =>
    refine ⟨_, _, rfl, by simpa using hmark, ?_⟩
    cases digits with
    | nil => exact absurd rfl hdigits.ne_nil
    | cons c digits =>
      have hc := hdigits.all c List.mem_cons_self
      have hminus : c ≠ '-' := by rintro rfl; cases hc
      have hplus : c ≠ '+' := by rintro rfl; cases hc
      rw [List.cons_append] at htake ⊢
      rw [Number.readExponent_of_unsigned hminus hplus, htake]
  | plus hmark hdigits =>
    refine ⟨_, _, rfl, by simpa using hmark, ?_⟩
    rw [List.cons_append, Number.readExponent, htake, List.length_cons, Nat.add_comm]
  | minus hmark hdigits =>
    refine ⟨_, _, rfl, by simpa using hmark, ?_⟩
    rw [List.cons_append, Number.readExponent, htake, List.length_cons, Nat.add_comm]

theorem readAfterFraction_eq {whole exponent mark : List Char} {fraction : Option (List Char)}
    {e : Option (Bool × List Char)} {kind : LiteralKind} {s : Number.Spelling}
    (hs : s = ⟨whole, fraction, e⟩) (hmissing : s.missing = none)
    (hexponent : SpellsExponent e exponent) (hmark : Mark mark kind) (offset : Nat) :
    Number.readAfterFraction whole fraction offset (exponent ++ mark)
      = .ok ⟨kind, s.canonical ++ letter kind, offset + (exponent ++ mark).length⟩ := by
  subst hs
  cases e with
  | none =>
    subst hexponent
    rw [List.nil_append, ← finish_eq hmissing hmark]
    cases hmark with
    | double => rfl
    | float hmark => rcases hmark with rfl | rfl <;> rfl
  | some e =>
    rcases e with ⟨negative, digits⟩
    obtain ⟨letter, tail, rfl, hletter, hread⟩ :=
      Exponent.readExponent_eq hexponent hmark.startsWith
    simp only [List.cons_append, Number.readAfterFraction, hletter, if_true, hread, List.drop_left,
      finish_eq hmissing hmark, List.length_cons, List.length_append]
    congr 2
    omega

theorem cases_of_spellsExponent {e : Option (Bool × List Char)} {exponent : List Char}
    (h : SpellsExponent e exponent) :
    e = none ∧ exponent = [] ∨ ∃ c tail, exponent = c :: tail ∧ (c = 'e' ∨ c = 'E') := by
  rcases e with _ | ⟨negative, digits⟩
  · exact .inl ⟨rfl, h⟩
  · right
    cases h <;> exact ⟨_, _, rfl, by assumption⟩

/-- Behind the digits that it begins with, a floating literal goes on with a point or an
exponent. -/
theorem exists_cons_of_goes_on {s : Number.Spelling} (h : s.fraction ≠ none ∨ s.exponent ≠ none)
    {exponent : List Char} (hexponent : SpellsExponent s.exponent exponent) :
    ∃ c tail, Number.fractionText s.fraction ++ exponent = c :: tail ∧
      (c = '.' ∨ c = 'e' ∨ c = 'E') ∧ (s.fraction = none → c ≠ '.') := by
  rcases s with ⟨whole, _ | fraction, e⟩
  · have he : e ≠ none := h.resolve_left (not_not_intro rfl)
    obtain ⟨hnone, -⟩ | ⟨c, tail, rfl, hc⟩ := cases_of_spellsExponent hexponent
    · exact absurd hnone he
    · refine ⟨c, tail, rfl, .inr hc, fun _ => ?_⟩
      rcases hc with rfl | rfl <;> decide
  · exact ⟨'.', _, rfl, .inl rfl, fun h => by cases h⟩

theorem readFloating_eq {s : Number.Spelling} (h : s.IsComplete) {exponent mark : List Char}
    {kind : LiteralKind} (hexponent : SpellsExponent s.exponent exponent) (hmark : Mark mark kind) :
    Number.readFloating s.whole (Number.fractionText s.fraction ++ exponent ++ mark)
      = .ok ⟨kind, s.canonical ++ letter kind,
          (s.whole ++ (Number.fractionText s.fraction ++ exponent ++ mark)).length⟩ := by
  have hread := readAfterFraction_eq rfl h.missing_eq hexponent hmark
  obtain ⟨c, tail, htail, -, hpoint⟩ := exists_cons_of_goes_on h.goes_on hexponent
  rcases s with ⟨whole, _ | fraction, e⟩
  · have hexponent : exponent = c :: tail := htail
    subst hexponent
    rw [Number.fractionText, List.nil_append, List.cons_append,
      Number.readFloating_of_ne_point (hpoint rfl), ← List.cons_append, hread]
    simp only [List.length_append]
  · have hdigits := h.fraction_digits fraction rfl
    have hstop : startsWith isDigit (exponent ++ mark) = false := by
      obtain ⟨-, rfl⟩ | ⟨c, tail, rfl, rfl | rfl⟩ := cases_of_spellsExponent hexponent
      · exact hmark.startsWith
      · rfl
      · rfl
    rw [Number.fractionText, List.cons_append, List.cons_append, Number.readFloating_point,
      List.append_assoc, takeWhile_append_of_stop hdigits hstop,
      dropWhile_append_of_stop hdigits hstop, hread]
    simp only [List.length_append, List.length_cons]
    congr 2
    omega

/-- A floating literal with nothing behind it is read. -/
theorem Spells.read_eq {s : Number.Spelling} {text mark : List Char} {kind : LiteralKind}
    (h : Spells s text) (hmark : Mark mark kind) :
    Number.read (text ++ mark)
      = .ok ⟨kind, s.canonical ++ letter kind, (text ++ mark).length⟩ := by
  obtain ⟨exponent, hexponent, rfl⟩ := h.text_eq
  have hread := readFloating_eq h.toIsComplete hexponent hmark
  obtain ⟨c, tail, htail, hc, -⟩ := exists_cons_of_goes_on h.goes_on hexponent
  rw [htail, List.cons_append] at hread
  rw [htail, List.append_assoc, List.cons_append]
  have hstop : startsWith isDigit (c :: (tail ++ mark)) = false := by
    rcases hc with rfl | rfl | rfl <;> rfl
  have hplain : Number.read (s.whole ++ c :: (tail ++ mark))
      = Number.readPlain (s.whole ++ c :: (tail ++ mark)) := by
    by_cases hwhole : s.whole = []
    · obtain ⟨digits, hfraction, -⟩ := h.begins hwhole
      rw [hfraction, Number.fractionText, List.cons_append] at htail
      obtain ⟨rfl, -⟩ := List.cons.inj htail
      rw [hwhole]
      rfl
    · refine Number.read_append_of_stop hwhole h.whole_digits ?_
      rcases hc with rfl | rfl | rfl <;> rfl
  rw [hplain, Number.readPlain, takeWhile_append_of_stop h.whole_digits hstop,
    dropWhile_append_of_stop h.whole_digits hstop]
  have hgoes : (c = '.' || c = 'e' || c = 'E') = true := by simpa [or_assoc] using hc
  simp only [hgoes, if_true]
  exact hread

/-! ## What is read is a floating literal -/

theorem exists_of_finish {s : Number.Spelling} {length : Nat} {rest : List Char} {n : Number}
    (h : s.finish length rest = .ok n) :
    s.missing = none ∧ ∃ mark more, rest = mark ++ more ∧ Mark mark n.kind ∧
      n.length = length + mark.length := by
  have hmissing := (Number.exists_of_finish h).1
  refine ⟨hmissing, ?_⟩
  unfold Number.Spelling.finish at h
  simp only [hmissing] at h
  split at h
  · cases h
  · cases h
  · cases h
  next c after _ _ _ =>
    split at h
    next hletter =>
      split at h <;> cases h
      exact ⟨[c], after, rfl, .float (by simpa using hletter), rfl⟩
    · split at h <;> cases h
      exact ⟨[], c :: after, rfl, .double, rfl⟩
  · cases h
    exact ⟨[], [], rfl, .double, rfl⟩

theorem exponent_of_readExponent {mark : Char} (hmark : mark = 'e' ∨ mark = 'E') {rest : List Char}
    {negative : Bool} {digits : List Char} {length : Nat}
    (h : Number.readExponent rest = (negative, digits, length)) (hne : digits ≠ []) :
    Exponent (mark :: rest.take length) negative digits ∧ length ≤ rest.length := by
  have hle := Number.length_readExponent_le rest
  have hall := Number.forall_readExponent rest
  rw [h] at hle hall
  refine ⟨?_, hle⟩
  unfold Number.readExponent at h
  split at h
  all_goals
    obtain ⟨rfl, rfl, rfl⟩ := h
  · rw [Nat.add_comm, List.take_succ_cons, take_length_takeWhile]
    exact .minus hmark ⟨hne, hall⟩
  · rw [Nat.add_comm, List.take_succ_cons, take_length_takeWhile]
    exact .plus hmark ⟨hne, hall⟩
  · rw [take_length_takeWhile]
    exact .unsigned hmark ⟨hne, hall⟩

theorem exists_of_readAfterFraction {whole : List Char} {fraction : Option (List Char)}
    {offset : Nat} {after : List Char} {n : Number}
    (h : Number.readAfterFraction whole fraction offset after = .ok n) :
    ∃ e exponent mark more, after = exponent ++ (mark ++ more) ∧ SpellsExponent e exponent ∧
      (⟨whole, fraction, e⟩ : Number.Spelling).missing = none ∧ Mark mark n.kind ∧
      n.length = offset + exponent.length + mark.length ∧
      (startsWith (fun c => c = 'e' || c = 'E') after = true → e ≠ none) := by
  have hplain (hfinish : Number.Spelling.finish ⟨whole, fraction, none⟩ offset after = .ok n)
      (hstart : startsWith (fun c => c = 'e' || c = 'E') after = false) :
      ∃ e exponent mark more, after = exponent ++ (mark ++ more) ∧ SpellsExponent e exponent ∧
        (⟨whole, fraction, e⟩ : Number.Spelling).missing = none ∧ Mark mark n.kind ∧
        n.length = offset + exponent.length + mark.length ∧
        (startsWith (fun c => c = 'e' || c = 'E') after = true → e ≠ none) := by
    obtain ⟨hmissing, mark, more, hafter, hmark, hlength⟩ := exists_of_finish hfinish
    exact ⟨none, [], mark, more, hafter, rfl, hmissing, hmark, hlength, by simp [hstart]⟩
  cases after with
  | nil => exact hplain h rfl
  | cons c r =>
    rcases hread : Number.readExponent r with ⟨negative, digits, length⟩
    simp only [Number.readAfterFraction, hread] at h
    split at h
    next hc =>
      obtain ⟨hmissing, mark, more, hrest, hmark, hlength⟩ := exists_of_finish h
      have hne : digits ≠ [] := by
        rintro rfl
        cases hmissing
      obtain ⟨hexponent, hle⟩ := exponent_of_readExponent (by simpa using hc) hread hne
      refine ⟨some (negative, digits), c :: r.take length, mark, more, ?_, hexponent, hmissing,
        hmark, ?_, fun _ => Option.some_ne_none _⟩
      · rw [← hrest, List.cons_append, List.take_append_drop]
      · rw [hlength, List.length_cons, List.length_take, Nat.min_eq_left hle]
        omega
    next hc => exact hplain h (by simpa [startsWith] using hc)

/-- A floating literal that is read stands at the front of the text. -/
theorem exists_of_readFloating {whole r : List Char} {c : Char} {n : Number}
    (hwhole : ∀ c ∈ whole, isDigit c = true) (hc : (c = '.' || c = 'e' || c = 'E') = true)
    (hbegins : whole = [] → c = '.' ∧ startsWith isDigit r = true)
    (h : Number.readFloating whole (c :: r) = .ok n) :
    ∃ s text mark more, whole ++ c :: r = text ++ (mark ++ more) ∧ Spells s text ∧
      Mark mark n.kind ∧ n.length = (text ++ mark).length := by
  have hexponent_digits : ∀ {e : Option (Bool × List Char)} {exponent : List Char},
      SpellsExponent e exponent → ∀ x ∈ e, ∀ c ∈ x.2, isDigit c = true := by
    rintro _ exponent hexponent ⟨negative, digits⟩ rfl
    exact (Exponent.digits hexponent).all
  -- Behind a point the exponent may be missing; without one it is what makes the literal floating.
  by_cases hpoint : c = '.'
  · subst hpoint
    rw [Number.readFloating_point] at h
    obtain ⟨e, exponent, mark, more, hafter, hexponent, hmissing, hmark, hlength, -⟩ :=
      exists_of_readAfterFraction h
    refine ⟨⟨whole, some (r.takeWhile isDigit), e⟩,
      whole ++ ('.' :: r.takeWhile isDigit ++ exponent), mark, more, ?_,
      ⟨⟨hwhole, ?_, hexponent_digits hexponent, hmissing, .inl (Option.some_ne_none _)⟩,
        fun hnil => ⟨_, rfl, ?_⟩, exponent, hexponent, rfl⟩, hmark, ?_⟩
    · conv_lhs => rw [← List.takeWhile_append_dropWhile (p := isDigit) (l := r), hafter]
      simp
    · rintro _ ⟨⟩
      exact forall_of_takeWhile r
    · obtain ⟨-, hstart⟩ := hbegins hnil
      cases r with
      | nil => cases hstart
      | cons d r =>
        rw [List.takeWhile_cons_of_pos (show isDigit d = true from hstart)]
        exact List.cons_ne_nil _ _
    · rw [hlength]
      simp only [List.length_append, List.length_cons]
      omega
  · rw [Number.readFloating_of_ne_point hpoint] at h
    obtain ⟨e, exponent, mark, more, hafter, hexponent, hmissing, hmark, hlength, hstart⟩ :=
      exists_of_readAfterFraction h
    have he : e ≠ none := hstart (by simpa [startsWith, hpoint] using hc)
    refine ⟨⟨whole, none, e⟩, whole ++ exponent, mark, more, ?_,
      ⟨⟨hwhole, by simp, hexponent_digits hexponent, hmissing, .inr he⟩,
        fun hnil => absurd (hbegins hnil).1 hpoint, exponent, hexponent, rfl⟩, hmark, ?_⟩
    · rw [hafter, List.append_assoc]
    · rw [hlength]
      simp only [List.length_append]

/-! ## Floating literals are rewritten -/

theorem denoted_reduced (s : Number.Spelling) : denoted s.reduced = denoted s := by
  rcases s with ⟨whole, fraction, e⟩
  have hwhole := number_orZero 10 (Number.dropLeadingZeros whole)
  rw [number_dropLeadingZeros] at hwhole
  cases fraction with
  | none => simp [denoted, Number.Spelling.reduced, hwhole]
  | some fraction =>
    simp [denoted, Number.Spelling.reduced, hwhole, fractional_orZero, fractional_dropTrailingZeros]

theorem spellsExponent_exponentText {s : Number.Spelling} (h : s.IsComplete) :
    SpellsExponent s.exponent (Number.exponentText s.exponent) := by
  rcases s with ⟨whole, fraction, _ | ⟨negative, digits⟩⟩
  · rfl
  · have hdigits : Digits isDigit digits := by
      refine ⟨?_, h.exponent_digits (negative, digits) rfl⟩
      rintro rfl
      cases h.missing_eq
    cases negative with
    | false => exact .unsigned (.inl rfl) hdigits
    | true => exact .minus (.inl rfl) hdigits

/-- What a floating literal is rewritten to is spelled by its pieces. -/
theorem spells_canonical {s : Number.Spelling} (h : s.IsComplete) :
    Spells s.reduced s.canonical where
  toIsComplete := h.reduced.toIsComplete
  begins hnil := absurd hnil (Number.Spelling.orZero_ne_nil _)
  text_eq := by
    refine ⟨Number.exponentText s.exponent, ?_, by rw [s.canonical_eq, List.append_assoc]⟩
    exact spellsExponent_exponentText (s := s) h

/-! ## Floating literals as decimal numbers -/

/-- The number that a decimal number denotes. -/
def decimal (d : Decimal.Number) : ℚ :=
  d.significand * 10 ^ d.exponent

theorem startsWith_letter (kind : LiteralKind) : startsWith isDigit (letter kind) = false := by
  cases kind <;> rfl

theorem readExponent_exponentText {e : Option (Bool × List Char)}
    (h : SpellsExponent e (Number.exponentText e)) (kind : LiteralKind) :
    Decimal.readExponent (Number.exponentText e ++ letter kind) = powerOf e := by
  rcases e with _ | ⟨negative, digits⟩
  · cases kind <;> rfl
  · have hdigits := Exponent.digits h
    have htake := takeWhile_append_of_stop hdigits.all (startsWith_letter kind)
    cases negative with
    | true =>
      show -Int.ofNat (ofDigits 10 ((digits ++ letter kind).takeWhile isDigit)) = _
      rw [htake, ofDigits_eq]
      rfl
    | false =>
      cases digits with
      | nil => exact absurd rfl hdigits.ne_nil
      | cons c digits =>
        have hminus : c ≠ '-' := by
          rintro rfl
          cases hdigits.all '-' List.mem_cons_self
        show Decimal.readExponent ('e' :: (c :: digits ++ letter kind)) = _
        rw [Decimal.readExponent, htake, ofDigits_eq]
        · rfl
        · rintro r hr
          exact hminus (List.cons.inj hr).1

theorem startsWith_exponentText (e : Option (Bool × List Char)) (kind : LiteralKind) :
    startsWith isDigit (Number.exponentText e ++ letter kind) = false := by
  rcases e with _ | ⟨negative, digits⟩
  · exact startsWith_letter kind
  · rfl

theorem splitFraction_fractionText {fraction : Option (List Char)}
    (h : ∀ digits ∈ fraction, ∀ c ∈ digits, isDigit c = true) (e : Option (Bool × List Char))
    (kind : LiteralKind) :
    Decimal.splitFraction (Number.fractionText fraction ++ (Number.exponentText e ++ letter kind))
      = (fraction.getD [], Number.exponentText e ++ letter kind) := by
  cases fraction with
  | none => rcases e with _ | e <;> cases kind <;> rfl
  | some digits =>
    have hstop := startsWith_exponentText e kind
    rw [Number.fractionText, List.cons_append, Decimal.splitFraction,
      takeWhile_append_of_stop (h digits rfl) hstop, dropWhile_append_of_stop (h digits rfl) hstop]
    rfl

/-- A floating literal that is rewritten is read as the decimal number that its pieces denote. -/
theorem decimal_read_canonical {s : Number.Spelling} (h : s.IsComplete) (kind : LiteralKind) :
    decimal (Decimal.read (s.canonical ++ letter kind)) = denoted s := by
  have hstop : startsWith isDigit (Number.fractionText s.reduced.fraction
      ++ (Number.exponentText s.exponent ++ letter kind)) = false := by
    cases s.reduced.fraction with
    | none => exact startsWith_exponentText s.exponent kind
    | some digits => rfl
  have hwhole := h.reduced.whole_digits
  have hsplit := splitFraction_fractionText h.reduced.fraction_digits s.exponent kind
  have hpower := readExponent_exponentText (spellsExponent_exponentText h) kind
  rw [s.canonical_eq, List.append_assoc, List.append_assoc, ← denoted_reduced, denoted, decimal,
    Decimal.read]
  simp only [takeWhile_append_of_stop hwhole hstop, dropWhile_append_of_stop hwhole hstop, hsplit,
    hpower, ofDigits_eq, number_append, fractional]
  rw [show s.reduced.exponent = s.exponent from rfl, Int.ofNat_eq_natCast,
    zpow_sub₀ (by norm_num), zpow_natCast]
  push_cast
  field_simp

end NumericLiteral

end MiniC
