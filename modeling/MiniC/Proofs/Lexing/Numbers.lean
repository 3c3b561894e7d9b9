import MiniC.Token.Number

set_option autoImplicit false

/-! # The extent of numeric literals

How much of a text a numeric literal takes up. It never takes more than there is, and it never
depends on what stands after the end of its line: a line feed continues no class of characters that
literals are made of, so the text in front of it is read as if nothing followed. -/

namespace MiniC

open CharClass

/-- Whether a kind is that of a numeric literal. -/
def LiteralKind.isNumeric : LiteralKind → Bool
  | .string | .char => false
  | _ => true

/-- A computation with two steps gives a result only if both of them do. -/
theorem exists_of_bind_eq_ok {ε α β : Type} {x : Except ε α} {f : α → Except ε β} {b : β}
    (h : x >>= f = .ok b) : ∃ a, x = .ok a ∧ f a = .ok b := by
  cases x with
  | error e => cases h
  | ok a => exact ⟨a, rfl, h⟩

/-! ## Classes of characters and the end of a line -/

/-- Whether a character ends whatever word stands in front of it: a line feed or a space. -/
def CharClass.IsBreak (c : Char) : Prop := c = '\n' ∨ c = ' '

theorem CharClass.IsBreak.not_mem {d : Char} (hd : IsBreak d) {p : Char → Bool}
    (hline : p '\n' = false) (hspace : p ' ' = false) : p d = false := by
  rcases hd with rfl | rfl
  · exact hline
  · exact hspace

section Classes

variable {p : Char → Bool} {d : Char}

theorem takeWhile_append_stop (hp : p d = false) (text more : List Char) :
    (text ++ d :: more).takeWhile p = text.takeWhile p := by
  induction text with
  | nil => simp [hp]
  | cons c rest ih => simp only [List.cons_append, List.takeWhile_cons, ih]

theorem dropWhile_append_stop (hp : p d = false) (text more : List Char) :
    (text ++ d :: more).dropWhile p = text.dropWhile p ++ d :: more := by
  induction text with
  | nil => simp [hp]
  | cons c rest ih =>
    simp only [List.cons_append, List.dropWhile_cons, ih]
    split <;> rfl

theorem startsWith_append_stop (hp : p d = false) (text more : List Char) :
    startsWith p (text ++ d :: more) = startsWith p text := by
  cases text with
  | nil => exact hp
  | cons c rest => rfl

theorem length_takeWhile_add_dropWhile (p : Char → Bool) (text : List Char) :
    (text.takeWhile p).length + (text.dropWhile p).length = text.length := by
  rw [← List.length_append, List.takeWhile_append_dropWhile]

theorem take_length_takeWhile (p : Char → Bool) (text : List Char) :
    text.take (text.takeWhile p).length = text.takeWhile p :=
  (List.prefix_iff_eq_take.mp (List.takeWhile_prefix p)).symm

theorem drop_length_takeWhile (p : Char → Bool) (text : List Char) :
    text.drop (text.takeWhile p).length = text.dropWhile p := by
  refine List.append_cancel_left (?_ : text.takeWhile p ++ _ = text.takeWhile p ++ _)
  rw [List.takeWhile_append_dropWhile, ← take_length_takeWhile, List.length_take,
    Nat.min_eq_left (List.takeWhile_sublist p).length_le, List.take_append_drop]

end Classes

namespace Number

variable {d : Char}

/-- Whether a literal is numeric and takes up at most `k` characters. -/
def Fits (n : Number) (k : Nat) : Prop :=
  n.kind.isNumeric = true ∧ n.length ≤ k

/-! ## Suffixes and integers -/

theorem readSuffix_append_break (hd : IsBreak d) (offset : Nat) (rest more : List Char) :
    readSuffix offset (rest ++ d :: more) = readSuffix offset rest := by
  simp only [readSuffix, takeWhile_append_stop (p := isSuffix) (hd.not_mem rfl rfl),
    dropWhile_append_stop (p := isSuffix) (hd.not_mem rfl rfl),
    startsWith_append_stop (p := continuesNumber) (hd.not_mem rfl rfl)]

theorem readMarked_append_break (hd : IsBreak d) (radix : Radix) (mark : List Char)
    {isRadixDigit : Char → Bool} (hdigit : isRadixDigit d = false) (cause : LexicalCause)
    (rest more : List Char) :
    readMarked radix mark isRadixDigit cause (rest ++ d :: more)
      = readMarked radix mark isRadixDigit cause rest := by
  simp only [readMarked, takeWhile_append_stop hdigit, dropWhile_append_stop hdigit,
    startsWith_append_stop (p := continuesNumber) (hd.not_mem rfl rfl),
    startsWith_append_stop (p := isSuffix) (hd.not_mem rfl rfl), readSuffix_append_break hd]

theorem readUnmarked_append_break (hd : IsBreak d) (digits rest more : List Char) :
    readUnmarked digits (rest ++ d :: more) = readUnmarked digits rest := by
  simp only [readUnmarked, readSuffix_append_break hd]

/-- A suffix takes up no more than there is. -/
theorem length_le_of_readSuffix {offset : Nat} {rest suffix : List Char}
    {meaning : LiteralSize × Bool} (h : readSuffix offset rest = .ok (suffix, meaning)) :
    suffix.length ≤ rest.length := by
  simp only [readSuffix] at h
  split at h
  · cases h
  · split at h
    · cases h
    · cases h
      rw [List.length_map]
      exact (List.takeWhile_sublist _).length_le

theorem fits_of_readMarked {radix : Radix} {mark : List Char} {isRadixDigit : Char → Bool}
    {cause : LexicalCause} {rest : List Char} {n : Number}
    (h : readMarked radix mark isRadixDigit cause rest = .ok n) : n.Fits (2 + rest.length) := by
  simp only [readMarked] at h
  split at h
  · cases h
  · split at h
    · cases h
    · obtain ⟨⟨suffix, meaning⟩, hsuffix, hn⟩ := exists_of_bind_eq_ok h
      cases hn
      have hle := length_le_of_readSuffix hsuffix
      have hsum := length_takeWhile_add_dropWhile isRadixDigit rest
      refine ⟨rfl, ?_⟩
      simp only
      omega

theorem fits_of_readUnmarked {digits rest : List Char} {n : Number}
    (h : readUnmarked digits rest = .ok n) : n.Fits (digits.length + rest.length) := by
  obtain ⟨⟨suffix, size, signed⟩, hsuffix, hn⟩ := exists_of_bind_eq_ok h
  have hfits : n.Fits (digits.length + suffix.length) := by
    simp only at hn
    split at hn
    · cases hn
      exact ⟨rfl, Nat.le_refl _⟩
    · split at hn
      · cases hn
        exact ⟨rfl, Nat.le_refl _⟩
      · split at hn <;> cases hn
        exact ⟨rfl, Nat.le_refl _⟩
  have hle := length_le_of_readSuffix hsuffix
  exact ⟨hfits.1, Nat.le_trans hfits.2 (Nat.add_le_add_left hle _)⟩

/-! ## Floating literals -/

theorem finish_append_break (hd : IsBreak d) (s : Spelling) (length : Nat)
    (rest more : List Char) : s.finish length (rest ++ d :: more) = s.finish length rest := by
  cases rest with
  | nil => rcases hd with rfl | rfl <;> rfl
  | cons c after =>
    rw [List.cons_append]
    by_cases hpoint : c = '.'
    · subst hpoint; rfl
    by_cases hlower : c = 'e'
    · subst hlower; rfl
    by_cases hupper : c = 'E'
    · subst hupper; rfl
    simp only [Spelling.finish, startsWith_append_stop (p := continuesNumber) (hd.not_mem rfl rfl)]

theorem fits_of_finish {s : Spelling} {length : Nat} {rest : List Char} {n : Number}
    (h : s.finish length rest = .ok n) : n.Fits (length + rest.length) := by
  unfold Spelling.finish at h
  grind [Fits, LiteralKind.isNumeric]

theorem readExponent_of_unsigned {c : Char} (hminus : c ≠ '-') (hplus : c ≠ '+')
    (r : List Char) :
    readExponent (c :: r)
      = (false, (c :: r).takeWhile isDigit, ((c :: r).takeWhile isDigit).length) := by
  unfold readExponent
  split <;> simp_all

theorem readExponent_append_break (hd : IsBreak d) (rest more : List Char) :
    readExponent (rest ++ d :: more) = readExponent rest := by
  cases rest with
  | nil => rcases hd with rfl | rfl <;> rfl
  | cons c r =>
    by_cases hminus : c = '-'
    · subst hminus
      simp only [List.cons_append, readExponent,
        takeWhile_append_stop (p := isDigit) (hd.not_mem rfl rfl)]
    by_cases hplus : c = '+'
    · subst hplus
      simp only [List.cons_append, readExponent,
        takeWhile_append_stop (p := isDigit) (hd.not_mem rfl rfl)]
    rw [List.cons_append, readExponent_of_unsigned hminus hplus,
      readExponent_of_unsigned hminus hplus, ← List.cons_append,
      takeWhile_append_stop (p := isDigit) (hd.not_mem rfl rfl)]

theorem length_readExponent_le (rest : List Char) : (readExponent rest).2.2 ≤ rest.length := by
  have hdigits (r : List Char) : (r.takeWhile isDigit).length ≤ r.length :=
    (List.takeWhile_sublist _).length_le
  unfold readExponent
  split <;> grind

/-- The part of a floating literal behind its fraction, which ends after `offset` characters. -/
def readAfterFraction (whole : List Char) (fraction : Option (List Char)) (offset : Nat)
    (after : List Char) : Except LexemeFault Number :=
  match after with
  | c :: r =>
    if c = 'e' || c = 'E' then
      let (negative, digits, length) := readExponent r
      Spelling.finish ⟨whole, fraction, some (negative, digits)⟩ (offset + 1 + length)
        (r.drop length)
    else
      Spelling.finish ⟨whole, fraction, none⟩ offset after
  | [] => Spelling.finish ⟨whole, fraction, none⟩ offset after

theorem readFloating_point (whole r : List Char) :
    readFloating whole ('.' :: r)
      = readAfterFraction whole (some (r.takeWhile isDigit))
          (whole.length + 1 + (r.takeWhile isDigit).length) (r.dropWhile isDigit) :=
  rfl

theorem readFloating_of_ne_point {c : Char} (hc : c ≠ '.') (whole r : List Char) :
    readFloating whole (c :: r) = readAfterFraction whole none whole.length (c :: r) := by
  unfold readFloating
  split
  next heq =>
    split at heq
    · simp_all
    · cases heq
      rfl

theorem readAfterFraction_append_break (hd : IsBreak d) (whole : List Char)
    (fraction : Option (List Char)) (offset : Nat) (after more : List Char) :
    readAfterFraction whole fraction offset (after ++ d :: more)
      = readAfterFraction whole fraction offset after := by
  cases after with
  | nil => rcases hd with rfl | rfl <;> rfl
  | cons c r =>
    simp only [List.cons_append, readAfterFraction, readExponent_append_break hd]
    split
    · rw [List.drop_append_of_le_length (length_readExponent_le r), finish_append_break hd]
    · rw [← List.cons_append, finish_append_break hd]

theorem fits_of_readAfterFraction {whole : List Char} {fraction : Option (List Char)}
    {offset : Nat} {after : List Char} {n : Number}
    (h : readAfterFraction whole fraction offset after = .ok n) :
    n.Fits (offset + after.length) := by
  cases after with
  | nil => exact fits_of_finish h
  | cons c r =>
    have hexponent := length_readExponent_le r
    rcases hread : readExponent r with ⟨negative, digits, length⟩
    simp only [readAfterFraction, hread] at h hexponent
    split at h
    · obtain ⟨hnumeric, hle⟩ := fits_of_finish h
      rw [List.length_drop] at hle
      refine ⟨hnumeric, ?_⟩
      rw [List.length_cons]
      omega
    · exact fits_of_finish h

theorem readFloating_append_break (hd : IsBreak d) (whole : List Char) (c : Char)
    (r more : List Char) :
    readFloating whole (c :: r ++ d :: more) = readFloating whole (c :: r) := by
  rw [List.cons_append]
  by_cases hc : c = '.'
  · subst hc
    rw [readFloating_point, readFloating_point,
      takeWhile_append_stop (p := isDigit) (hd.not_mem rfl rfl),
      dropWhile_append_stop (p := isDigit) (hd.not_mem rfl rfl), readAfterFraction_append_break hd]
  · rw [readFloating_of_ne_point hc, readFloating_of_ne_point hc, ← List.cons_append,
      readAfterFraction_append_break hd]

theorem fits_of_readFloating {whole r : List Char} {c : Char} {n : Number}
    (h : readFloating whole (c :: r) = .ok n) : n.Fits (whole.length + (c :: r).length) := by
  by_cases hc : c = '.'
  · subst hc
    rw [readFloating_point] at h
    obtain ⟨hnumeric, hle⟩ := fits_of_readAfterFraction h
    have hsum := length_takeWhile_add_dropWhile isDigit r
    refine ⟨hnumeric, ?_⟩
    rw [List.length_cons]
    omega
  · rw [readFloating_of_ne_point hc] at h
    exact fits_of_readAfterFraction h

/-! ## All numeric literals -/

/-- A numeric literal without a radix mark. -/
def readPlain (text : List Char) : Except LexemeFault Number :=
  let digits := text.takeWhile isDigit
  let rest := text.dropWhile isDigit
  match rest with
  | [] => readUnmarked digits rest
  | c :: _ =>
    if c = '.' || c = 'e' || c = 'E' then readFloating digits rest
    else if c = 'f' || c = 'F' then .error ⟨.floatWithoutPoint, digits.length⟩
    else if isNameStart c && !isSuffix c then .error ⟨.invalidNumber, digits.length⟩
    else readUnmarked digits rest

theorem readPlain_append_break (hd : IsBreak d) (text more : List Char) :
    readPlain (text ++ d :: more) = readPlain text := by
  simp only [readPlain, takeWhile_append_stop (p := isDigit) (hd.not_mem rfl rfl),
    dropWhile_append_stop (p := isDigit) (hd.not_mem rfl rfl)]
  cases text.dropWhile isDigit with
  | nil =>
    rcases hd with rfl | rfl <;> exact readUnmarked_append_break (by simp [IsBreak]) _ [] more
  | cons c r =>
    rw [readFloating_append_break hd, readUnmarked_append_break hd]
    rfl

theorem fits_of_readPlain {text : List Char} {n : Number} (h : readPlain text = .ok n) :
    n.Fits text.length := by
  rw [← length_takeWhile_add_dropWhile isDigit text]
  simp only [readPlain] at h
  split at h
  · exact fits_of_readUnmarked h
  next c r hrest =>
    rw [hrest] at h ⊢
    split at h
    · exact fits_of_readFloating h
    · split at h
      · cases h
      · split at h
        · cases h
        · exact fits_of_readUnmarked h

theorem read_eq_readPlain {text : List Char}
    (h : ∀ b rest, text = '0' :: b :: rest → b ∉ ['b', 'B', 'x', 'X']) :
    read text = readPlain text := by
  unfold read
  split
  case h_5 => rfl
  all_goals exact absurd (by simp) (h _ _ rfl)

/-- A text begins with a radix mark, or it is read without one, also if something is added to it. -/
theorem read_cases (text : List Char) :
    (∃ radix mark isRadixDigit cause a b rest,
      (∀ d, IsBreak d → isRadixDigit d = false) ∧ text = a :: b :: rest ∧
      ∀ rest', read (a :: b :: rest') = readMarked radix mark isRadixDigit cause rest') ∨
    (read text = readPlain text ∧
      ∀ d more, IsBreak d → read (text ++ d :: more) = readPlain (text ++ d :: more)) := by
  by_cases hmark : ∃ b rest, text = '0' :: b :: rest ∧ b ∈ ['b', 'B', 'x', 'X']
  · left
    obtain ⟨b, rest, rfl, hb⟩ := hmark
    simp only [List.mem_cons, List.not_mem_nil, or_false] at hb
    obtain rfl | rfl | rfl | rfl := hb
    all_goals exact ⟨_, _, _, _, _, _, rest, fun _ hd => hd.not_mem rfl rfl, rfl, fun _ => rfl⟩
  · right
    refine ⟨read_eq_readPlain fun b rest htext hb => hmark ⟨b, rest, htext, hb⟩,
      fun d more hd => read_eq_readPlain fun b rest htext hb => ?_⟩
    match text with
    | [] => cases htext; rcases hd with hd | hd <;> cases hd
    | [_] => cases htext; rcases hd with rfl | rfl <;> simp at hb
    | _ :: _ :: _ => cases htext; exact hmark ⟨_, _, rfl, hb⟩

theorem read_append_break (hd : IsBreak d) (text more : List Char) :
    read (text ++ d :: more) = read text := by
  obtain ⟨radix, mark, isRadixDigit, cause, a, b, rest, hdigit, rfl, hread⟩ | ⟨hread, happend⟩ :=
    read_cases text
  · rw [List.cons_append, List.cons_append, hread, hread,
      readMarked_append_break hd _ _ (hdigit d hd)]
  · rw [hread, happend d more hd, readPlain_append_break hd]

/-- A numeric literal takes up no more than there is. -/
theorem fits_of_read {text : List Char} {n : Number} (h : read text = .ok n) :
    n.Fits text.length := by
  obtain ⟨radix, mark, isRadixDigit, cause, a, b, rest, -, rfl, hread⟩ | ⟨hread, -⟩ :=
    read_cases text
  · rw [hread] at h
    obtain ⟨hnumeric, hle⟩ := fits_of_readMarked h
    refine ⟨hnumeric, ?_⟩
    simp only [List.length_cons]
    omega
  · exact fits_of_readPlain (hread ▸ h)

end Number

end MiniC
