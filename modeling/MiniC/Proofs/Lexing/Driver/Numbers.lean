import MiniC.Proofs.Lexing.Driver.Amid

set_option autoImplicit false

/-! # Numeric literals, read by the driver

The driver reads a numeric literal digit by digit, and hands over to other states at its point, its
exponent and its suffix. It finds the literal that the rules find at the same place, or stops with
the same error at the same character. -/

namespace MiniC

open CharClass

namespace Driver

variable {text cs rest : List Char} {c : Char} {base d t : Driver}

/-- Whether the driver comes from a state to what the rules say of the number at the place where it
began the construct. -/
def Finds (text : List Char) (base d : Driver) : Except LexemeFault Number → Prop
  | .ok n => ∃ cs c rest t, base.ahead text = cs ++ c :: rest ∧ cs.length = n.length ∧
      d.Comes text (.ok t) ∧
      Behind base cs [⟨.literal n.kind, String.ofList n.text, base.start, []⟩] t
  | .error f => ∃ cs c rest, base.ahead text = cs ++ c :: rest ∧ cs.length = f.offset ∧
      d.Comes text (.error (.rejected ⟨f.cause, base.pos.after cs⟩))

theorem Finds.of_comes {r : Except LexemeFault Number} (h : d.Comes text (.ok t))
    (ht : Finds text base t r) : Finds text base d r := by
  cases r with
  | ok n =>
    obtain ⟨cs, c, rest, t', hahead, hlength, hcomes, hbehind⟩ := ht
    exact ⟨cs, c, rest, t', hahead, hlength, h.trans hcomes, hbehind⟩
  | error f =>
    obtain ⟨cs, c, rest, hahead, hlength, hcomes⟩ := ht
    exact ⟨cs, c, rest, hahead, hlength, h.trans hcomes⟩

theorem finds_reject (h : Amid text base cs (c :: rest) t) {cause : LexicalCause}
    (hcomes : d.Comes text (t.reject cause)) : Finds text base d (.error ⟨cause, cs.length⟩) := by
  rw [reject, h.pos] at hcomes
  exact ⟨cs, c, rest, h.text_eq, rfl, hcomes⟩

theorem finds_complete (h : Amid text base cs (c :: rest) t) {kind : LiteralKind}
    {spelling : List Char} (hcomes : d.Comes text (.ok (t.complete (.literal kind) spelling))) :
    Finds text base d (.ok ⟨kind, spelling, cs.length⟩) :=
  ⟨cs, c, rest, _, h.text_eq, rfl, hcomes, h.complete _ _⟩

/-! ## Integers -/

/-- The integer with the given mark and digits, and the suffix in front of `rest`. -/
def integerOf (radix : Option Radix) (lexeme : List Char) (offset : Nat) (rest : List Char) :
    Except LexemeFault Number := do
  let (suffix, size, signed) ← Number.readSuffix offset rest
  match integer? radix lexeme with
  | none => throw ⟨.invalidOctal, offset + suffix.length⟩
  | some (radix, digits) =>
    return ⟨.integer size signed radix, digits ++ suffix, offset + suffix.length⟩

theorem finds_emitInteger (h : Amid text base cs (c :: rest) t) {suffix : List Char}
    {size : LiteralSize} {signed : Bool}
    (hcomes : d.Comes text (t.emitInteger suffix size signed)) :
    Finds text base d
      (match integer? t.radix t.lexeme with
      | none => .error ⟨.invalidOctal, cs.length⟩
      | some (radix, digits) => .ok ⟨.integer size signed radix, digits ++ suffix, cs.length⟩) := by
  rw [emitInteger] at hcomes
  cases hinteger : integer? t.radix t.lexeme with
  | none =>
    rw [hinteger] at hcomes
    exact finds_reject h hcomes
  | some meaning =>
    obtain ⟨radix, digits⟩ := meaning
    rw [hinteger] at hcomes
    exact ⟨cs, c, rest, _, h.text_eq, rfl, hcomes,
      (h.complete (.literal (.integer size signed radix)) (digits ++ suffix)).1,
      h.offset, h.pos, (h.complete _ _).lexemes⟩

theorem integerOf_of_readSuffix {radix : Option Radix} {lexeme suffix : List Char} {offset : Nat}
    {size : LiteralSize} {signed : Bool}
    (h : Number.readSuffix offset rest = .ok (suffix, size, signed)) :
    integerOf radix lexeme offset rest =
      match integer? radix lexeme with
      | none => .error ⟨.invalidOctal, offset + suffix.length⟩
      | some (radix, digits) =>
        .ok ⟨.integer size signed radix, digits ++ suffix, offset + suffix.length⟩ := by
  rw [integerOf, h]
  rfl

theorem integerOf_of_error {radix : Option Radix} {lexeme : List Char} {offset : Nat}
    {f : LexemeFault} (h : Number.readSuffix offset rest = .error f) :
    integerOf radix lexeme offset rest = .error f := by
  rw [integerOf, h]
  rfl

/-- A suffix is read in front of the first character that is no letter of it. -/
theorem readSuffix_eq {rest others : List Char} {c : Char} (offset : Nat)
    (hdrop : rest.dropWhile isSuffix = c :: others) (hne : rest.takeWhile isSuffix ≠ []) :
    Number.readSuffix offset rest =
      match Number.sizeOfSuffix ((rest.takeWhile isSuffix).map Char.toLower) with
      | none => .error ⟨.invalidSuffix, offset + (rest.takeWhile isSuffix).length⟩
      | some meaning =>
        if continuesNumber c then .error ⟨.invalidSuffix, offset + (rest.takeWhile isSuffix).length⟩
        else .ok ((rest.takeWhile isSuffix).map Char.toLower, meaning) := by
  have hmap : (rest.takeWhile isSuffix).map Char.toLower ≠ [] := by simpa using hne
  rw [Number.readSuffix, hdrop]
  cases Number.sizeOfSuffix ((rest.takeWhile isSuffix).map Char.toLower) with
  | none => simp only [List.length_map]
  | some meaning =>
    simp only [List.length_map, startsWith, ne_eq, hmap, not_false_eq_true, decide_true,
      Bool.true_and]

/-- In the suffix of an integer. -/
theorem finds_suffixed (hspace : ' ' ∈ rest) (h : Amid text base cs rest d)
    (hmode : d.mode = .suffixed) (hletter : startsWith isSuffix rest = true) :
    Finds text base d (integerOf d.radix d.lexeme cs.length rest) := by
  obtain ⟨c', others, hdrop, hc'⟩ := exists_dropWhile (p := isSuffix) rfl hspace
  obtain ⟨c, front, rfl⟩ := List.exists_cons_of_ne_nil (List.ne_nil_of_mem hspace)
  have hne : (c :: front).takeWhile isSuffix ≠ [] := by
    have hc : isSuffix c = true := hletter
    rw [List.takeWhile_cons_of_pos hc]
    exact List.cons_ne_nil _ _
  have hread := readSuffix_eq cs.length hdrop hne
  have hcomes : d.Comes text (d.call text) := h.comes_call
  rw [call, hmode] at hcomes
  dsimp only at hcomes
  rw [callSuffixed, advanceWhile_eq h.ahead_eq hdrop hc'] at hcomes
  generalize hletters : (c :: front).takeWhile isSuffix = letters at hcomes hread hne
  have hsplit : c :: front = letters ++ c' :: others := by
    rw [← hletters, ← hdrop, List.takeWhile_append_dropWhile]
  have hamid : Amid text base (cs ++ letters) (c' :: others) (d.pass letters) := (hsplit ▸ h).pass
  cases hsize : Number.sizeOfSuffix (letters.map Char.toLower) with
  | none =>
    simp only [hsize] at hcomes hread
    rw [integerOf_of_error hread, ← List.length_append]
    exact finds_reject hamid hcomes
  | some meaning =>
    simp only [hsize] at hcomes hread
    rw [look_eq hamid.ahead_eq] at hcomes
    by_cases hcontinues : continuesNumber c' = true
    · rw [if_pos (.inr hcontinues)] at hcomes
      rw [if_pos hcontinues] at hread
      rw [integerOf_of_error hread, ← List.length_append]
      exact finds_reject hamid hcomes
    · rw [if_neg (not_or.mpr ⟨by simpa using hne, hcontinues⟩)] at hcomes
      rw [if_neg hcontinues] at hread
      rw [integerOf_of_readSuffix hread, List.length_map, ← List.length_append]
      exact finds_emitInteger hamid hcomes

/-- At the end of the digits of an integer. -/
theorem finds_integer (hspace : ' ' ∈ rest) (h : Amid text base cs rest d)
    (hsuffix : startsWith isSuffix rest = true → d.call text = .ok (d.enter .suffixed))
    (hplain : startsWith isSuffix rest = false → d.call text = d.emitInteger [] .plain true) :
    Finds text base d (integerOf d.radix d.lexeme cs.length rest) := by
  obtain ⟨c, others, rfl⟩ := List.exists_cons_of_ne_nil (List.ne_nil_of_mem hspace)
  by_cases hletter : startsWith isSuffix (c :: others) = true
  · have hamid : Amid text base cs (c :: others) (d.enter .suffixed) :=
      ⟨h.text_eq, h.offset, h.pos, h.lexemes, h.start⟩
    have hturn : d.Comes text (.ok (d.enter .suffixed)) := hsuffix hletter ▸ h.comes_call
    exact .of_comes hturn (finds_suffixed hspace hamid rfl hletter)
  · have hc : isSuffix c = false := by simpa [startsWith] using hletter
    have hread : Number.readSuffix cs.length (c :: others) = .ok ([], .plain, true) := by
      simp [Number.readSuffix, hc, Number.sizeOfSuffix]
    rw [integerOf_of_readSuffix hread]
    refine finds_emitInteger h ?_
    rw [← hplain (by simpa using hletter)]
    exact h.comes_call

theorem readMarked_eq_integerOf {radix : Radix} {mark : List Char} {p : Char → Bool}
    {cause : LexicalCause} {rest others : List Char} {c : Char}
    (hinteger : ∀ lexeme, integer? (some radix) lexeme =
      some (radix, mark ++ Number.orZero (Number.dropLeadingZeros lexeme)))
    (hdrop : rest.dropWhile p = c :: others) :
    Number.readMarked radix mark p cause rest =
      if rest.takeWhile p = [] ∨ continuesNumber c = true ∧ isSuffix c = false then
        .error ⟨cause, 2 + (rest.takeWhile p).length⟩
      else integerOf (some radix) ((rest.takeWhile p).map Char.toLower)
        (2 + (rest.takeWhile p).length) (c :: others) := by
  rw [Number.readMarked, hdrop, integerOf, hinteger]
  by_cases hnil : rest.takeWhile p = []
  · simp [hnil]
  · simp [hnil, startsWith]

/-- An integer with a radix mark. -/
theorem finds_marked (mode : Mode) {p : Char → Bool} {cause : LexicalCause} {radix : Radix}
    {mark : List Char} {b : Char} (hp : p ' ' = false)
    (hcall : ∀ d : Driver, d.mode = mode → d.call text = d.callMarked text p cause)
    (hinteger : ∀ lexeme, integer? (some radix) lexeme =
      some (radix, mark ++ Number.orZero (Number.dropLeadingZeros lexeme)))
    (h : Amid text base ['0', b] rest d) (hspace : ' ' ∈ rest) (hmode : d.mode = mode)
    (hlexeme : d.lexeme = []) (hradix : d.radix = some radix) :
    Finds text base d (Number.readMarked radix mark p cause rest) := by
  obtain ⟨digits, c, others, hsplit, htake, hdrop, hdigits, hc, hspace'⟩ := exists_run hp hspace
  rw [readMarked_eq_integerOf hinteger hdrop, htake]
  subst hsplit
  have hamid := h.collectAll Char.toLower
  have hcomes : d.Comes text (.ok (d.collectAll Char.toLower digits)) := by
    refine comes_collect Char.toLower (P := fun d => d.mode = mode)
      (fun d c rest hd hahead _ hc => ?_) hmode h.ahead_eq (List.cons_ne_nil _ _) hdigits
    rw [hcall d hd, callMarked, look_eq hahead, if_pos hc]
    exact ⟨rfl, hd⟩
  have hlength : (['0', b] ++ digits).length = 2 + digits.length := List.length_append
  rw [← hlength]
  refine .of_comes hcomes ?_
  have hlexeme : (d.collectAll Char.toLower digits).lexeme = digits.map Char.toLower := by
    simp [Driver.collectAll, Driver.pass, hlexeme]
  have hradix : (d.collectAll Char.toLower digits).radix = some radix := hradix
  have hcall := hcall (d.collectAll Char.toLower digits) hmode
  rw [callMarked, look_eq hamid.ahead_eq, if_neg (by simp [hc]), hlexeme] at hcall
  by_cases hfault : digits = [] ∨ continuesNumber c = true ∧ isSuffix c = false
  · rw [if_neg, if_pos] at hcall
    · rw [if_pos hfault]
      exact finds_reject hamid (hcall ▸ hamid.comes_call)
    · rcases hfault with hnil | ⟨hcontinues, -⟩
      · exact .inr (by simp [hnil])
      · exact .inl hcontinues
    · rintro ⟨hne, hsuffix⟩
      rcases hfault with hnil | ⟨-, hnot⟩
      · exact hne (by simp [hnil])
      · simp [hnot] at hsuffix
  · have hne : digits ≠ [] := fun hnil => hfault (.inl hnil)
    rw [if_neg hfault]
    have hinteger := finds_integer hspace' hamid (fun hletter => ?_) fun hletter => ?_
    · rw [hlexeme, hradix] at hinteger
      exact hinteger
    · rw [hcall, if_pos ⟨by simpa using hne, hletter⟩]
    · have hc : isSuffix c = false := hletter
      rw [hcall, if_neg (by simp [hc]), if_neg]
      rintro (hcontinues | hnil)
      · exact hfault (.inr ⟨hcontinues, hc⟩)
      · exact hne (by simpa using hnil)

/-! ## Floating literals -/

/-- Whether the driver remembers a floating literal as it is spelled so far. -/
structure Spelled (d : Driver) (s : Number.Spelling) : Prop where
  mode : d.mode = .floating
  lexeme : d.lexeme = s.whole ++ (match s.fraction with
    | none => []
    | some digits => '.' :: digits)
  point : d.point = s.fraction.isSome
  exponent : d.exponent = s.exponent.map fun (negative, digits) =>
    (if negative then ['-'] else []) ++ digits
  whole : ∀ c ∈ s.whole, isDigit c = true
  fraction : ∀ digits, s.fraction = some digits → ∀ c ∈ digits, isDigit c = true
  power : ∀ negative digits, s.exponent = some (negative, digits) → ∀ c ∈ digits, isDigit c = true

theorem Spelled.pass {s : Number.Spelling} (h : d.Spelled s) (cs : List Char) :
    (d.pass cs).Spelled s :=
  ⟨h.mode, h.lexeme, h.point, h.exponent, h.whole, h.fraction, h.power⟩

theorem ne_of_isDigit {c e : Char} (hc : isDigit c = true) (he : isDigit e = false) : c ≠ e := by
  rintro rfl
  simp [he] at hc

theorem Spelled.floatText_eq {s : Number.Spelling} (h : d.Spelled s) :
    d.floatText = s.canonical := by
  have hwhole : ∀ c ∈ s.whole, decide (c ≠ '.') = true := fun c hc =>
    decide_eq_true (ne_of_isDigit (h.whole c hc) rfl)
  have hrest : startsWith (fun c => decide (c ≠ '.')) (match s.fraction with
      | none => []
      | some digits => '.' :: digits) = false := by
    cases s.fraction <;> rfl
  rw [floatText, h.lexeme, takeWhile_append_of_stop hwhole hrest,
    dropWhile_append_of_stop hwhole hrest, h.point, h.exponent, Number.Spelling.canonical]
  congr 1
  · cases s.fraction <;> rfl
  · cases s.exponent <;> rfl

theorem Spelled.missing_eq {s : Number.Spelling} (h : d.Spelled s) : d.missing = s.missing := by
  have hwhole := h.whole
  have hpower := h.power
  rw [missing, h.exponent, h.lexeme]
  match s, h.fraction with
  | ⟨whole, none, none⟩, _ =>
    have hlast : whole.getLast? ≠ some '.' := fun hlast =>
      ne_of_isDigit (hwhole '.' (List.mem_of_getLast? hlast)) rfl rfl
    simp [Number.Spelling.missing, hlast]
  | ⟨whole, some [], none⟩, _ => simp [Number.Spelling.missing]
  | ⟨whole, some (c :: digits), none⟩, hdigits =>
    have hlast : (c :: digits).getLast? ≠ some '.' := fun hlast =>
      ne_of_isDigit (hdigits _ rfl '.' (List.mem_of_getLast? hlast)) rfl rfl
    have hsame : (whole ++ '.' :: c :: digits).getLast? = (c :: digits).getLast? := by
      rw [List.getLast?_append_cons, List.getLast?_cons_cons]
    simp [Number.Spelling.missing, hsame, hlast]
  | ⟨whole, fraction, some (negative, [])⟩, _ =>
    cases negative <;> simp [Number.Spelling.missing]
  | ⟨whole, fraction, some (negative, c :: digits)⟩, _ =>
    have hc : c ≠ '-' := ne_of_isDigit (hpower negative (c :: digits) rfl c List.mem_cons_self) rfl
    cases negative <;> simp [Number.Spelling.missing, hc]

theorem call_floating (h : d.mode = .floating) : d.call text = d.callFloating text := by
  rw [call, h]

/-- A floating literal ends in front of a character that does not continue it. -/
theorem finish_cons {s : Number.Spelling} {length : Nat} {c : Char} {after : List Char}
    (hpoint : c ≠ '.') (hexponent : ¬(c = 'e' ∨ c = 'E')) :
    s.finish length (c :: after) =
      if c = 'f' ∨ c = 'F' then
        match s.missing with
        | some cause => .error ⟨cause, length⟩
        | none =>
          if startsWith continuesNumber after then .error ⟨.invalidFloat, length + 1⟩
          else .ok ⟨.float, s.canonical ++ ['f'], length + 1⟩
      else if isNameStart c then .error ⟨.invalidFloat, length⟩
      else
        match s.missing with
        | some cause => .error ⟨cause, length⟩
        | none => .ok ⟨.double, s.canonical, length⟩ := by
  rw [not_or] at hexponent
  unfold Number.Spelling.finish
  split
  next heq => exact absurd (List.cons.inj heq).1 hpoint
  next heq => exact absurd (List.cons.inj heq).1 hexponent.1
  next heq => exact absurd (List.cons.inj heq).1 hexponent.2
  next heq =>
    obtain ⟨rfl, rfl⟩ := List.cons.inj heq
    cases s.missing <;> simp
  next heq => cases heq

/-- The end of a floating literal. -/
theorem finds_finish {s : Number.Spelling} {others : List Char} (hspace : ' ' ∈ c :: others)
    (h : Amid text base cs (c :: others) d) (hs : d.Spelled s) (hdigit : isDigit c = false)
    (hpoint : c = '.' → s.fraction.isSome ∨ s.exponent.isSome)
    (hexponent : c = 'e' ∨ c = 'E' → s.exponent.isSome) :
    Finds text base d (s.finish cs.length (c :: others)) := by
  have hcomes := h.comes_call
  rw [call_floating hs.mode, callFloating, look_eq h.ahead_eq] at hcomes
  by_cases hc : c = '.'
  · subst hc
    rw [if_pos rfl, if_pos] at hcomes
    · exact finds_reject h hcomes
    · rw [hs.point, hs.exponent, Option.isSome_map]
      exact hpoint rfl
  rw [if_neg hc] at hcomes
  by_cases he : c = 'e' ∨ c = 'E'
  · rw [if_pos he, if_pos] at hcomes
    · have hfinish : s.finish cs.length (c :: others) = .error ⟨.invalidExponent, cs.length⟩ := by
        rcases he with rfl | rfl <;> rfl
      rw [hfinish]
      exact finds_reject h hcomes
    · rw [hs.exponent, Option.isSome_map]
      exact hexponent he
  rw [if_neg he, if_neg (by simp [hdigit])] at hcomes
  rw [finish_cons hc he]
  by_cases hmark : c = 'f' ∨ c = 'F'
  · rw [if_pos hmark, hs.missing_eq] at hcomes
    rw [if_pos hmark]
    cases hmissing : s.missing with
    | some cause =>
      rw [hmissing] at hcomes
      exact finds_reject h hcomes
    | none =>
      rw [hmissing] at hcomes
      dsimp only at hcomes
      -- The mark is not the last character, since a space comes behind every text.
      obtain ⟨next, after, rfl⟩ : ∃ next after, others = next :: after := by
        refine List.exists_cons_of_ne_nil
          (List.ne_nil_of_mem ((List.mem_cons.mp hspace).resolve_left ?_))
        rcases hmark with rfl | rfl <;> decide
      have hamid : Amid text base (cs ++ [c]) (next :: after) (d.pass [c]) :=
        Amid.pass [c] h
      have hlength : (cs ++ [c]).length = cs.length + 1 := List.length_append
      rw [advance_one_bind h.ahead_eq, look_eq hamid.ahead_eq] at hcomes
      have hstarts : startsWith continuesNumber (next :: after) = continuesNumber next := rfl
      rw [← hlength]
      split at hcomes
      next hcontinues =>
        rw [if_pos (hstarts.trans hcontinues)]
        exact finds_reject hamid hcomes
      next hcontinues =>
        have htext : (d.pass [c]).floatText = s.canonical := hs.floatText_eq
        rw [if_neg (hstarts ▸ hcontinues), ← htext]
        exact finds_complete hamid hcomes
  rw [if_neg hmark] at hcomes ⊢
  split at hcomes
  next hname =>
    rw [if_pos hname]
    exact finds_reject h hcomes
  next hname =>
    rw [if_neg hname]
    rw [hs.missing_eq] at hcomes
    cases hmissing : s.missing with
    | some cause =>
      rw [hmissing] at hcomes
      exact finds_reject h hcomes
    | none =>
      rw [hmissing, hs.floatText_eq] at hcomes
      exact finds_complete h hcomes

/-- The digits of an exponent are added to it one by one. -/
theorem foldl_exponent (digits : List Char) (d : Driver) :
    digits.foldl (fun d c => pass [c] { d with exponent := d.exponent.map (· ++ [c]) }) d
      = pass digits { d with exponent := d.exponent.map (· ++ digits) } := by
  induction digits generalizing d with
  | nil => cases hexponent : d.exponent <;> simp [pass, ← hexponent]
  | cons c digits ih =>
    rw [List.foldl_cons, ih]
    simp [pass, Nat.add_comm, Nat.add_left_comm, Function.comp_def]

/-- In an exponent, behind its sign. -/
theorem finds_power {whole : List Char} {fraction : Option (List Char)} {negative : Bool}
    (hspace : ' ' ∈ rest) (h : Amid text base cs rest d)
    (hs : d.Spelled ⟨whole, fraction, some (negative, [])⟩) :
    Finds text base d (Number.Spelling.finish
      ⟨whole, fraction, some (negative, rest.takeWhile isDigit)⟩
      (cs.length + (rest.takeWhile isDigit).length) (rest.dropWhile isDigit)) := by
  obtain ⟨digits, c, others, hsplit, htake, hdrop, hdigits, hc, hspace'⟩ :=
    exists_run (p := isDigit) rfl hspace
  rw [htake, hdrop]
  subst hsplit
  have hcomes : d.Comes text (.ok (pass digits { d with
      exponent := d.exponent.map (· ++ digits) })) := by
    rw [← foldl_exponent]
    refine comes_while (fun d c => { d with exponent := d.exponent.map (· ++ [c]) })
      (p := isDigit) (P := fun d => d.mode = .floating ∧ d.exponent.isSome)
      (fun d c rest hd hahead _ hc => ?_) (fun _ _ => rfl) ⟨hs.mode, ?_⟩ h.ahead_eq
      (List.cons_ne_nil _ _) hdigits
    · obtain ⟨exponent, hexponent⟩ := Option.isSome_iff_exists.mp hd.2
      refine ⟨?_, hd.1, by simp [pass, hexponent]⟩
      rw [call_floating hd.1, callFloating, look_eq hahead, if_neg (ne_of_isDigit hc rfl), if_neg,
        if_pos hc, hexponent]
      · exact advance_one (d := { d with exponent := some (exponent ++ [c]) }) hahead
      · exact not_or.mpr ⟨ne_of_isDigit hc rfl, ne_of_isDigit hc rfl⟩
    · rw [hs.exponent]
      rfl
  refine .of_comes hcomes ?_
  rw [← List.length_append]
  refine finds_finish hspace'
    (Amid.pass digits ⟨h.text_eq, h.offset, h.pos, h.lexemes, h.start⟩) ?_ hc
    (fun _ => .inr rfl) fun _ => rfl
  refine ⟨hs.mode, hs.lexeme, hs.point, ?_, hs.whole, hs.fraction, ?_⟩
  · simp [pass, hs.exponent]
  · rintro _ _ ⟨⟩
    exact hdigits

theorem readAfterFraction_of_readExponent {whole r digits : List Char}
    {fraction : Option (List Char)} {negative : Bool} {length : Nat} (hc : c = 'e' ∨ c = 'E')
    (h : Number.readExponent r = (negative, digits, length)) (offset : Nat) :
    Number.readAfterFraction whole fraction offset (c :: r) =
      Number.Spelling.finish ⟨whole, fraction, some (negative, digits)⟩ (offset + 1 + length)
        (r.drop length) := by
  rw [Number.readAfterFraction, if_pos (by simpa using hc), h]

/-- Behind the sign of an exponent, the digits are read as those that follow the mark at once. -/
theorem finds_signed {whole more : List Char} {fraction : Option (List Char)} {negative : Bool}
    {sign : Char} (hc : c = 'e' ∨ c = 'E') (hspace : ' ' ∈ more)
    (hread : Number.readExponent (sign :: more) =
      (negative, more.takeWhile isDigit, 1 + (more.takeWhile isDigit).length))
    (h : Amid text base (cs ++ [c] ++ [sign]) more d)
    (hs : d.Spelled ⟨whole, fraction, some (negative, [])⟩) :
    Finds text base d (Number.readAfterFraction whole fraction cs.length (c :: sign :: more)) := by
  have hfinds := finds_power hspace h hs
  rw [readAfterFraction_of_readExponent hc hread, Nat.add_comm 1, List.drop_succ_cons,
    drop_length_takeWhile]
  simp only [List.length_append, List.length_singleton, Nat.add_assoc, Nat.add_comm 1] at hfinds ⊢
  exact hfinds

/-- Behind the mark of an exponent, which may have a sign. -/
theorem finds_exponent {whole others : List Char} {fraction : Option (List Char)}
    (hc : c = 'e' ∨ c = 'E') (hspace : ' ' ∈ others) (h : Amid text base cs (c :: others) d)
    (hs : d.Spelled ⟨whole, fraction, none⟩) :
    Finds text base d (Number.readAfterFraction whole fraction cs.length (c :: others)) := by
  obtain ⟨sign, more, rfl⟩ := List.exists_cons_of_ne_nil (List.ne_nil_of_mem hspace)
  have hcomes := h.comes_call
  have hamid : Amid text base (cs ++ [c]) (sign :: more)
      (Driver.pass [c] { d with exponent := some [] }) :=
    Amid.pass [c] ⟨h.text_eq, h.offset, h.pos, h.lexemes, h.start⟩
  have hahead : Driver.ahead text { d with exponent := some [] } = c :: sign :: more := h.ahead_eq
  have hspelled (negative : Bool) :
      Spelled { d with exponent := some (if negative then ['-'] else []) }
        ⟨whole, fraction, some (negative, [])⟩ :=
    ⟨hs.mode, hs.lexeme, hs.point, by simp, hs.whole, hs.fraction, by simp⟩
  have hpoint : c ≠ '.' := by rcases hc with rfl | rfl <;> decide
  have hexponent : d.exponent = none := hs.exponent
  rw [call_floating hs.mode, callFloating, look_eq h.ahead_eq, if_neg hpoint, if_pos hc,
    if_neg (by simp [hexponent]), advance_one_bind hahead, look_eq hamid.ahead_eq] at hcomes
  by_cases hminus : sign = '-'
  · subst hminus
    rw [if_pos rfl, advance_one (d := { Driver.pass [c] { d with exponent := some [] } with
      exponent := some ['-'] }) hamid.ahead_eq] at hcomes
    have hmore : ' ' ∈ more := (List.mem_cons.mp hspace).resolve_left (by decide)
    have hbehind : Amid text base (cs ++ [c] ++ ['-']) more (Driver.pass ['-']
        { Driver.pass [c] { d with exponent := some [] } with exponent := some ['-'] }) :=
      Amid.pass ['-'] ⟨hamid.text_eq, hamid.offset, hamid.pos, hamid.lexemes, hamid.start⟩
    exact .of_comes hcomes
      (finds_signed hc hmore rfl hbehind (((hspelled true).pass _).pass _))
  rw [if_neg hminus] at hcomes
  by_cases hplus : sign = '+'
  · subst hplus
    rw [if_pos rfl, advance_one hamid.ahead_eq] at hcomes
    have hmore : ' ' ∈ more := (List.mem_cons.mp hspace).resolve_left (by decide)
    exact .of_comes hcomes
      (finds_signed hc hmore rfl (hamid.pass ['+']) (((hspelled false).pass _).pass _))
  · rw [if_neg hplus] at hcomes
    have hfinds := finds_power hspace hamid ((hspelled false).pass [c])
    rw [readAfterFraction_of_readExponent hc (Number.readExponent_of_unsigned hminus hplus more),
      drop_length_takeWhile]
    rw [List.length_append] at hfinds
    exact .of_comes hcomes hfinds

/-- Behind the fraction of a floating literal. -/
theorem finds_afterFraction {whole others : List Char} {fraction : Option (List Char)}
    (hspace : ' ' ∈ c :: others) (h : Amid text base cs (c :: others) d)
    (hs : d.Spelled ⟨whole, fraction, none⟩) (hdigit : isDigit c = false)
    (hc : fraction.isSome ∨ c = 'e' ∨ c = 'E') :
    Finds text base d (Number.readAfterFraction whole fraction cs.length (c :: others)) := by
  by_cases he : c = 'e' ∨ c = 'E'
  · have hmore : ' ' ∈ others := by
      refine (List.mem_cons.mp hspace).resolve_left ?_
      rcases he with rfl | rfl <;> decide
    exact finds_exponent he hmore h hs
  · rw [Number.readAfterFraction, if_neg (by simpa using he)]
    exact finds_finish hspace h hs hdigit (fun _ => .inl (hc.resolve_right he))
      fun hc => absurd hc he

/-- In the fraction of a floating literal, behind its point. -/
theorem finds_fraction (whole : List Char) (hspace : ' ' ∈ rest) (h : Amid text base cs rest d)
    (hs : d.Spelled ⟨whole, some [], none⟩) :
    Finds text base d (Number.readAfterFraction whole (some (rest.takeWhile isDigit))
      (cs.length + (rest.takeWhile isDigit).length) (rest.dropWhile isDigit)) := by
  obtain ⟨digits, c, others, hsplit, htake, hdrop, hdigits, hc, hspace'⟩ :=
    exists_run (p := isDigit) rfl hspace
  rw [htake, hdrop]
  subst hsplit
  have hcomes : d.Comes text (.ok (d.collectAll id digits)) := by
    refine comes_collect id (P := fun d => d.mode = .floating ∧ d.exponent = none)
      (fun d c rest hd hahead _ hc => ⟨?_, hd⟩) ⟨hs.mode, hs.exponent⟩ h.ahead_eq
      (List.cons_ne_nil _ _) hdigits
    rw [call_floating hd.1, callFloating, look_eq hahead, if_neg (ne_of_isDigit hc rfl), if_neg,
      if_pos hc, hd.2]
    · rfl
    · exact not_or.mpr ⟨ne_of_isDigit hc rfl, ne_of_isDigit hc rfl⟩
  refine .of_comes hcomes ?_
  rw [← List.length_append]
  refine finds_afterFraction hspace' (h.collectAll id) ?_ hc (.inl rfl)
  refine ⟨hs.mode, ?_, hs.point, hs.exponent, hs.whole, ?_, by simp⟩
  · simp [Driver.collectAll, Driver.pass, hs.lexeme]
  · rintro _ ⟨⟩
    exact hdigits

/-- At the point or at the exponent of a floating literal. -/
theorem finds_floating (whole : List Char) {others : List Char} (hspace : ' ' ∈ c :: others)
    (h : Amid text base whole (c :: others) d) (hs : d.Spelled ⟨whole, none, none⟩)
    (hc : c = '.' ∨ c = 'e' ∨ c = 'E') :
    Finds text base d (Number.readFloating whole (c :: others)) := by
  by_cases hpoint : c = '.'
  · subst hpoint
    have hmore : ' ' ∈ others := (List.mem_cons.mp hspace).resolve_left (by decide)
    have hcomes := h.comes_call
    rw [call_floating hs.mode, callFloating, look_eq h.ahead_eq, if_pos rfl, if_neg,
      advance_one (d := { d.collect '.' with point := true }) h.ahead_eq] at hcomes
    · have hamid : Amid text base (whole ++ ['.']) others
          (Driver.pass ['.'] { d.collect '.' with point := true }) :=
        Amid.pass ['.'] ⟨h.text_eq, h.offset, h.pos, h.lexemes, h.start⟩
      have hfinds := finds_fraction whole hmore hamid ?_
      · rw [Number.readFloating_point]
        rw [List.length_append] at hfinds
        exact .of_comes hcomes hfinds
      · refine ⟨hs.mode, ?_, rfl, hs.exponent, hs.whole, by simp, by simp⟩
        simp [Driver.pass, collect, hs.lexeme]
    · simp [hs.point, hs.exponent]
  · rw [Number.readFloating_of_ne_point hpoint]
    have hdigit : isDigit c = false := by rcases hc with rfl | rfl | rfl <;> rfl
    exact finds_afterFraction hspace h hs hdigit (.inr (hc.resolve_left hpoint))

/-! ## All numeric literals -/

/-- Digits without a mark are octal if they begin with a zero and are not all zeros. -/
theorem readUnmarked_eq_integerOf (digits rest : List Char) :
    Number.readUnmarked digits rest = integerOf none digits digits.length rest := by
  rw [Number.readUnmarked, integerOf]
  congr 1
  funext meaning
  obtain ⟨suffix, size, signed⟩ := meaning
  dsimp only [integer?]
  by_cases hzeros : Number.dropLeadingZeros digits = []
  · rw [if_pos hzeros, if_pos hzeros]
    rfl
  rw [if_neg hzeros, if_neg hzeros]
  by_cases hhead : digits.head? = some '0'
  · rw [if_neg (Number.dropLeadingZeros_eq_self_iff.not.mpr (not_not.mpr hhead)), if_pos hhead]
    cases digits.all isOctal <;> rfl
  · have hsame := Number.dropLeadingZeros_eq_self_iff.mpr hhead
    rw [if_pos hsame, if_neg hhead, hsame]

theorem call_numeric (h : d.mode = .numeric) : d.call text = d.callNumeric text := by
  rw [call, h]

/-- The digits in front of a number without a radix mark are collected. -/
theorem comes_digits {digits : List Char} (hmode : d.mode = .numeric)
    (h : d.ahead text = digits ++ rest) (hrest : rest ≠ [])
    (hplain : ∀ b others, d.ahead text = '0' :: b :: others → b ∉ ['b', 'B', 'x', 'X'])
    (hdigits : ∀ c ∈ digits, isDigit c = true) : d.Comes text (.ok (d.collectAll id digits)) := by
  -- behind the first digit, there is no mark since something was collected
  refine comes_collect id (P := fun d => d.mode = .numeric ∧ (d.lexeme = [] →
      ∀ b others, d.ahead text = '0' :: b :: others → b ∉ ['b', 'B', 'x', 'X']))
    (fun d c rest hd hahead _ hc => ⟨?_, hd.1, fun hnil => ?_⟩) ⟨hmode, fun _ => hplain⟩ h hrest
    hdigits
  · have hmark {b b' : Char} (hb : b ∈ ['b', 'B', 'x', 'X']) (hb' : b' ∈ ['b', 'B', 'x', 'X']) :
        ¬(d.lexeme = [] ∧ c = '0' ∧ (rest.head? = some b ∨ rest.head? = some b')) := by
      rintro ⟨hnil, rfl, hhead | hhead⟩
      all_goals
        obtain ⟨others, rfl⟩ := List.head?_eq_some_iff.mp hhead
        exact hd.2 hnil _ _ hahead ‹_›
    rw [call_numeric hd.1, callNumeric, look_eq hahead, peek_eq hahead,
      if_neg (hmark (by decide) (by decide)), if_neg (hmark (by decide) (by decide)), if_pos hc]
    rfl
  · simp [collect, Driver.pass] at hnil

/-- A numeric literal without a radix mark. -/
theorem finds_plain (hspace : ' ' ∈ rest) (h : base.ahead text = rest)
    (hmode : base.mode = .numeric) (hlexeme : base.lexeme = []) (hpoint : base.point = false)
    (hexponent : base.exponent = none) (hradix : base.radix = none)
    (hplain : ∀ b others, rest = '0' :: b :: others → b ∉ ['b', 'B', 'x', 'X']) :
    Finds text base base (Number.readPlain rest) := by
  -- The digits up to the first other character, which there is since a space follows.
  obtain ⟨digits, c, others, hsplit, htake, hdrop, hdigits, hc, hspace'⟩ :=
    exists_run (p := isDigit) rfl hspace
  rw [Number.readPlain, htake, hdrop]
  dsimp only
  subst hsplit
  have hcomes := comes_digits hmode h (List.cons_ne_nil _ _) (h ▸ hplain) hdigits
  refine .of_comes hcomes ?_
  have hamid : Amid text base digits (c :: others) (base.collectAll id digits) :=
    (amid_self h).collectAll id
  have hcall : (base.collectAll id digits).call text = _ := call_numeric hmode
  have hzero : c ≠ '0' := by
    rintro rfl
    cases hc
  rw [callNumeric, look_eq hamid.ahead_eq, if_neg (by simp [hzero]), if_neg (by simp [hzero]),
    if_neg (by simp [hc])] at hcall
  by_cases hfloating : c = '.' ∨ c = 'e' ∨ c = 'E'
  · rw [if_pos hfloating] at hcall
    rw [if_pos (by simpa [or_assoc] using hfloating)]
    -- The driver turns to the state for floating literals at the mark itself, and takes nothing.
    have hturn : Driver.Comes text (base.collectAll id digits)
        (.ok ((base.collectAll id digits).enter .floating)) := hcall ▸ hamid.comes_call
    refine .of_comes hturn (finds_floating digits hspace' ?_ ?_ hfloating)
    · exact ⟨hamid.text_eq, hamid.offset, hamid.pos, hamid.lexemes, hamid.start⟩
    · refine ⟨rfl, ?_, hpoint, hexponent, hdigits, by simp, by simp⟩
      simp [enter, Driver.collectAll, Driver.pass, hlexeme]
  rw [if_neg hfloating] at hcall
  rw [if_neg (by simpa [or_assoc] using hfloating)]
  by_cases hmark : c = 'f' ∨ c = 'F'
  · rw [if_pos hmark] at hcall
    rw [if_pos (by simpa using hmark)]
    exact finds_reject hamid (hcall ▸ hamid.comes_call)
  rw [if_neg hmark] at hcall
  rw [if_neg (by simpa using hmark)]
  by_cases hname : isNameStart c = true ∧ isSuffix c = false
  · rw [if_neg (by simp [hname.2]), if_pos hname.1] at hcall
    rw [if_pos (by simpa using hname)]
    exact finds_reject hamid (hcall ▸ hamid.comes_call)
  rw [if_neg (by simpa using hname), readUnmarked_eq_integerOf]
  have hinteger := finds_integer hspace' hamid (fun hletter => ?_) fun hletter => ?_
  · have hradix : (base.collectAll id digits).radix = none := hradix
    have hlexeme : (base.collectAll id digits).lexeme = digits := by
      simp [Driver.collectAll, Driver.pass, hlexeme]
    rwa [hradix, hlexeme] at hinteger
  · rw [hcall]
    exact if_pos hletter
  · have hletter : isSuffix c = false := hletter
    rw [hcall, if_neg (by simp [hletter]), if_neg fun hstart => hname ⟨hstart, hletter⟩]

/-- A numeric literal that begins with a digit. -/
theorem finds_read (hspace : ' ' ∈ rest) (h : base.ahead text = rest) (hmode : base.mode = .numeric)
    (hlexeme : base.lexeme = []) (hpoint : base.point = false) (hexponent : base.exponent = none)
    (hradix : base.radix = none) : Finds text base base (Number.read rest) := by
  by_cases hmark : ∃ b others, rest = '0' :: b :: others ∧ b ∈ ['b', 'B', 'x', 'X']
  · obtain ⟨b, others, rfl, hb⟩ := hmark
    have hcall := (amid_self h).comes_call
    rw [call_numeric hmode, callNumeric, look_eq h, peek_eq h, List.head?_cons] at hcall
    have hothers : ' ' ∈ others := by
      simp only [List.mem_cons, List.not_mem_nil, or_false] at hspace hb
      refine (hspace.resolve_left (by decide)).resolve_left ?_
      rcases hb with rfl | rfl | rfl | rfl <;> decide
    have hamid {mode : Mode} {radix : Radix} : Amid text base ['0', b] others
        (pass ['0', b] { base.enter mode with radix := some radix }) := by
      have hbegun : Amid text base [] ('0' :: b :: others)
          { base.enter mode with radix := some radix } := ⟨h, rfl, rfl, rfl, rfl⟩
      exact hbegun.pass ['0', b]
    have hbinary : b = 'b' ∨ b = 'B' →
        Finds text base base
          (Number.readMarked .binary ['0', 'b'] isBinary .invalidBinary others) := by
      intro hb
      rw [if_pos ⟨hlexeme, rfl, by simpa using hb⟩,
        advance_two (d := { base.enter .binary with radix := some .binary }) h] at hcall
      exact .of_comes hcall (finds_marked .binary rfl (fun d hd => by rw [call, hd])
        (fun _ => rfl) hamid hothers rfl hlexeme rfl)
    have hhex : b = 'x' ∨ b = 'X' →
        Finds text base base (Number.readMarked .hex ['0', 'x'] isHex .invalidHex others) := by
      intro hb
      rw [if_neg, if_pos ⟨hlexeme, rfl, by simpa using hb⟩,
        advance_two (d := { base.enter .hex with radix := some .hex }) h] at hcall
      · exact .of_comes hcall (finds_marked .hex rfl (fun d hd => by rw [call, hd])
          (fun _ => rfl) hamid hothers rfl hlexeme rfl)
      · rcases hb with rfl | rfl <;> simp
    simp only [List.mem_cons, List.not_mem_nil, or_false] at hb
    rcases hb with rfl | rfl | rfl | rfl
    · exact hbinary (.inl rfl)
    · exact hbinary (.inr rfl)
    · exact hhex (.inl rfl)
    · exact hhex (.inr rfl)
  · have hplain : ∀ b others, rest = '0' :: b :: others → b ∉ ['b', 'B', 'x', 'X'] :=
      fun b others hrest hb => hmark ⟨b, others, hrest, hb⟩
    rw [Number.read_eq_readPlain hplain]
    exact finds_plain hspace h hmode hlexeme hpoint hexponent hradix hplain

end Driver

end MiniC
