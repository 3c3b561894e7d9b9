import MiniC.Proofs.Arithmetic
import MiniC.Proofs.Lexing.Floating
import MiniC.Proofs.Lexing.Numbering
import MiniC.Proofs.Lexing.Partition
import MiniC.Proofs.Ranges.Integers
import MiniC.Proofs.Trace
import MiniC.Run.Expr

set_option autoImplicit false

/-! # Numeric literals

A text in which nothing stands between the words is a single numeric literal exactly if the grammar
of numeric literals has it. The literal has the kind that the grammar gives, its canonical text
denotes the same number, and the value of an integer is that number in the range of the kind. -/

namespace MiniC

open CharClass

namespace NumericLiteral

/-! ## Reading -/

theorem isNumeric {text : List Char} {kind : LiteralKind} {q : ℚ} (h : NumericLiteral text kind q) :
    kind.isNumeric = true := by
  cases h with
  | integer => rfl
  | floating _ hmark => cases hmark <;> rfl

/-- A numeric literal with nothing behind it is read, and it is rewritten to one of the same kind
that denotes the same number. -/
theorem exists_read {text : List Char} {kind : LiteralKind} {q : ℚ}
    (h : NumericLiteral text kind q) :
    ∃ canonical, Number.read text = .ok ⟨kind, canonical, text.length⟩ ∧
      NumericLiteral canonical kind q ∧
      (kind = .float ∨ kind = .double → decimal (Decimal.read canonical) = q) := by
  cases h with
  | integer hwhole hsuffix =>
    obtain ⟨canonical, hcanonical, hread⟩ := hwhole.exists_read hsuffix
    exact ⟨_, hread, .integer hcanonical hsuffix.toLower, by simp⟩
  | floating hfloating hmark =>
    obtain ⟨s, hs, rfl⟩ := hfloating.exists_spells
    have hcanonical := (spells_canonical hs.toIsComplete).floating
    rw [denoted_reduced] at hcanonical
    exact ⟨_, hs.read_eq hmark, .floating hcanonical hmark.letter,
      fun _ => decimal_read_canonical hs.toIsComplete kind⟩

/-- Whether a text begins with a literal that has the kind and the length of a number. -/
def BeginsWith (text : List Char) (n : Number) : Prop :=
  ∃ front more q, text = front ++ more ∧ NumericLiteral front n.kind q ∧ n.length = front.length

theorem beginsWith_of_readMarked {radix : Radix} {mark : List Char} {letter : Char}
    {isRadixDigit : Char → Bool} {cause : LexicalCause} {rest : List Char} {n : Number}
    (hwhole : ∀ digits, Digits isRadixDigit digits → ∃ m, Whole radix ('0' :: letter :: digits) m)
    (h : Number.readMarked radix mark isRadixDigit cause rest = .ok n) :
    BeginsWith ('0' :: letter :: rest) n := by
  obtain ⟨digits, suffix, more, size, signed, rfl, hdigits, hsuffix, hkind, hlength⟩ :=
    exists_of_readMarked h
  obtain ⟨m, hm⟩ := hwhole digits hdigits
  refine ⟨'0' :: letter :: digits ++ suffix, more, m, by simp, hkind ▸ .integer hm hsuffix, ?_⟩
  rw [hlength]
  simp only [List.length_append, List.length_cons]
  omega

theorem beginsWith_of_readUnmarked {digits rest : List Char} {n : Number}
    (hdigits : Digits isDigit digits) (h : Number.readUnmarked digits rest = .ok n) :
    BeginsWith (digits ++ rest) n := by
  obtain ⟨radix, m, suffix, more, size, signed, rfl, hwhole, hsuffix, hkind, hlength⟩ :=
    exists_of_readUnmarked hdigits h
  refine ⟨digits ++ suffix, more, m, by simp, hkind ▸ .integer hwhole hsuffix, ?_⟩
  rw [hlength, List.length_append]

theorem beginsWith_of_readFloating {whole rest : List Char} {c : Char} {n : Number}
    (hwhole : ∀ c ∈ whole, isDigit c = true) (hc : (c = '.' || c = 'e' || c = 'E') = true)
    (hbegins : whole = [] → c = '.' ∧ startsWith isDigit rest = true)
    (h : Number.readFloating whole (c :: rest) = .ok n) : BeginsWith (whole ++ c :: rest) n := by
  obtain ⟨s, text, mark, more, htext, hs, hmark, hlength⟩ :=
    exists_of_readFloating hwhole hc hbegins h
  exact ⟨text ++ mark, more, denoted s, by rw [htext, List.append_assoc],
    .floating hs.floating hmark, hlength⟩

theorem beginsWith_of_readPlain {c : Char} {rest : List Char} {n : Number}
    (hc : isDigit c = true ∨ c = '.' ∧ startsWith isDigit rest = true)
    (h : Number.readPlain (c :: rest) = .ok n) : BeginsWith (c :: rest) n := by
  have hdigits := forall_of_takeWhile (p := isDigit) (c :: rest)
  -- Only a point with a digit behind it stands where there are no digits in front.
  have hbegins : (c :: rest).takeWhile isDigit = [] →
      (c :: rest).dropWhile isDigit = c :: rest ∧ c = '.' ∧ startsWith isDigit rest = true := by
    intro hnil
    have hnot : ¬isDigit c = true := fun hdigit => by
      rw [List.takeWhile_cons_of_pos hdigit] at hnil
      cases hnil
    exact ⟨List.dropWhile_cons_of_neg hnot, hc.resolve_left hnot⟩
  rw [← List.takeWhile_append_dropWhile (p := isDigit) (l := c :: rest)]
  simp only [Number.readPlain] at h
  split at h
  next hnil =>
    refine beginsWith_of_readUnmarked ⟨fun hempty => ?_, hdigits⟩ (hnil ▸ h)
    rw [(hbegins hempty).1] at hnil
    cases hnil
  next d tail hcons =>
    rw [hcons] at h hbegins ⊢
    have hpoint : (c :: rest).takeWhile isDigit = [] →
        d = '.' ∧ startsWith isDigit tail = true := by
      intro hempty
      obtain ⟨htail, hpoint⟩ := hbegins hempty
      obtain ⟨rfl, rfl⟩ := List.cons.inj htail
      exact hpoint
    split at h
    next hgoes => exact beginsWith_of_readFloating hdigits hgoes hpoint h
    next hstops =>
      have hne : (c :: rest).takeWhile isDigit ≠ [] := fun hempty =>
        hstops (by rw [(hpoint hempty).1]; rfl)
      split at h
      · cases h
      · split at h
        · cases h
        · exact beginsWith_of_readUnmarked ⟨hne, hdigits⟩ h

/-- A numeric literal that is read stands at the front of the text. -/
theorem beginsWith_of_read {c : Char} {rest : List Char} {n : Number}
    (hc : isDigit c = true ∨ c = '.' ∧ startsWith isDigit rest = true)
    (h : Number.read (c :: rest) = .ok n) : BeginsWith (c :: rest) n := by
  by_cases hmark : ∃ b tail, c :: rest = '0' :: b :: tail ∧ b ∈ ['b', 'B', 'x', 'X']
  · obtain ⟨b, tail, htext, hb⟩ := hmark
    rw [htext] at h ⊢
    simp only [List.mem_cons, List.not_mem_nil, or_false] at hb
    obtain rfl | rfl | rfl | rfl := hb
    · exact beginsWith_of_readMarked (fun _ h => ⟨_, .binary (.inl rfl) h⟩) h
    · exact beginsWith_of_readMarked (fun _ h => ⟨_, .binary (.inr rfl) h⟩) h
    · exact beginsWith_of_readMarked (fun _ h => ⟨_, .hex (.inl rfl) h⟩) h
    · exact beginsWith_of_readMarked (fun _ h => ⟨_, .hex (.inr rfl) h⟩) h
  · rw [Number.read_eq_readPlain fun b tail htext hb => hmark ⟨b, tail, htext, hb⟩] at h
    exact beginsWith_of_readPlain hc h

/-- A numeric literal begins with a digit, or with a point in front of a digit. -/
theorem exists_cons {text : List Char} {kind : LiteralKind} {q : ℚ}
    (h : NumericLiteral text kind q) :
    ∃ c rest, text = c :: rest ∧
      (isDigit c = true ∨ c = '.' ∧ startsWith isDigit rest = true) := by
  have hdigits {digits : List Char} (hdigits : Digits isDigit digits) (tail : List Char) :
      ∃ c rest, digits ++ tail = c :: rest ∧ isDigit c = true := by
    cases digits with
    | nil => exact absurd rfl hdigits.ne_nil
    | cons c digits => exact ⟨c, _, rfl, hdigits.all c List.mem_cons_self⟩
  have hfront {digits : List Char} (h : Digits isDigit digits) (tail : List Char) :
      ∃ c rest, digits ++ tail = c :: rest ∧
        (isDigit c = true ∨ c = '.' ∧ startsWith isDigit rest = true) := by
    obtain ⟨c, rest, htext, hc⟩ := hdigits h tail
    exact ⟨c, rest, htext, .inl hc⟩
  have hpoint {digits : List Char} (h : Digits isDigit digits) (tail : List Char) :
      startsWith isDigit (digits ++ tail) = true := by
    obtain ⟨c, rest, htext, hc⟩ := hdigits h tail
    rw [htext]
    exact hc
  cases h with
  | integer hwhole hsuffix =>
    cases hwhole with
    | binary => exact ⟨'0', _, rfl, .inl rfl⟩
    | hex => exact ⟨'0', _, rfl, .inl rfl⟩
    | octal h => exact hfront ⟨h.ne_nil, fun c hc => Number.isDigit_of_isOctal (h.all c hc)⟩ _
    | decimal h => exact hfront h _
  | @floating text mark q kind hfloating hmark =>
    cases hfloating with
    | point hwhole => exact List.append_assoc _ _ _ ▸ hfront hwhole _
    | bare hfraction => exact ⟨'.', _, rfl, .inr ⟨rfl, hpoint hfraction _⟩⟩
    | pointExponent hwhole => exact List.append_assoc _ _ _ ▸ hfront hwhole _
    | @bareExponent fraction exponent _ _ hfraction =>
      refine ⟨'.', _, rfl, .inr ⟨rfl, ?_⟩⟩
      show startsWith isDigit (fraction ++ exponent ++ mark) = true
      rw [List.append_assoc]
      exact hpoint hfraction _
    | exponent hwhole => exact List.append_assoc _ _ _ ▸ hfront hwhole _

/-! ## Values -/

theorem isSuffix_of_isHex {c : Char} (h : isHex c = true) : isSuffix c = false := by
  by_contra hc
  rw [Bool.not_eq_false] at hc
  rw [(not_digit_of_isSuffix hc).2.1] at h
  cases h

/-- The number that the text of an integer spells is the number that the integer denotes. -/
theorem spelledNumber_eq {text : List Char} {size : LiteralSize} {signed : Bool} {radix : Radix}
    {q : ℚ} (h : NumericLiteral text (.integer size signed radix) q) :
    q = spelledNumber radix text := by
  generalize hkind : LiteralKind.integer size signed radix = kind at h
  cases h with
  | floating _ hmark => cases hmark <;> cases hkind
  | @integer radix digits suffix n _ _ hwhole hsuffix =>
    cases hkind
    have hstop : startsWith (!isSuffix ·) suffix = false := hsuffix.startsWith fun c hc => by
      rw [hc]
      rfl
    have htake (h : ∀ c ∈ digits, isSuffix c = false) :
        (digits ++ suffix).takeWhile (!isSuffix ·) = digits :=
      takeWhile_append_of_stop (fun c hc => by rw [h c hc]; rfl) hstop
    have hletters : ∀ c ∈ digits, isSuffix c = false := by
      cases hwhole with
      | binary hmark hdigits =>
        rintro c (_ | ⟨_, _ | ⟨_, hc⟩⟩)
        · rfl
        · rcases hmark with rfl | rfl <;> rfl
        · exact isSuffix_of_isHex (isHex_of_isDigit (isDigit_of_isBinary (hdigits.all c hc)))
      | hex hmark hdigits =>
        rintro c (_ | ⟨_, _ | ⟨_, hc⟩⟩)
        · rfl
        · rcases hmark with rfl | rfl <;> rfl
        · exact isSuffix_of_isHex (hdigits.all c hc)
      | octal hdigits =>
        exact fun c hc =>
          isSuffix_of_isHex (isHex_of_isDigit (Number.isDigit_of_isOctal (hdigits.all c hc)))
      | decimal hdigits => exact fun c hc => isSuffix_of_isHex (isHex_of_isDigit (hdigits.all c hc))
    unfold spelledNumber
    simp only [htake hletters]
    cases hwhole <;> simp only [List.drop_succ_cons, List.drop_zero, ofDigits_eq]

/-- An integer of a width and a signedness stands for a number if it is in range and differs from
the number by a multiple of two to the power of the width. -/
structure Holds (n : MachineInt) (width : Nat) (signed : Bool) (q : ℚ) : Prop where
  width_eq : n.width = width
  signed_eq : n.signed = signed
  inRange : n.InRange
  congr : ∃ k : ℤ, q = n.value + k * 2 ^ width

theorem holds_ofInt (width : Nat) (signed : Bool) (n : ℤ) :
    Holds (.ofInt width signed n) width signed n where
  width_eq := rfl
  signed_eq := rfl
  inRange := MachineInt.inRange_ofInt width signed n
  congr := by
    have hdvd : ((2 ^ width : ℕ) : ℤ) ∣ n - wrap n width signed :=
      Int.ModEq.dvd (MachineInt.wrap_emod n width signed)
    obtain ⟨k, hk⟩ := hdvd
    have hn : n = wrap n width signed + k * 2 ^ width := by
      push_cast at hk
      linarith
    exact ⟨k, by exact_mod_cast hn⟩

end NumericLiteral

/-! ## A text that is one literal -/

/-- Whether neither a space character nor a comment can stand in a text. -/
def IsUnbroken (text : List Char) : Prop :=
  ∀ c ∈ text, isSpace c = false ∧ c ≠ '/'

theorem exists_of_isUnbroken {pos : Position} {c : Char} {rest : List Char}
    {piece : Option Lexeme} {n : Nat} (hplain : IsUnbroken (c :: rest))
    (h : ReadsPiece pos c rest piece n) : ∃ l, piece = some l := by
  have hc := hplain c List.mem_cons_self
  cases h with
  | space _ hspace => rw [hc.1] at hspace; cases hspace
  | lineComment => exact absurd rfl hc.2
  | blockComment => exact absurd rfl hc.2
  | _ => exact ⟨_, rfl⟩

/-- The lexemes that were read are kept, and there is one more unless the text is at its end. -/
theorem exists_of_scanFrom {pos : Position} {done ls : List Lexeme} {text : List Char}
    (hplain : IsUnbroken text) (h : scanFrom pos done text = .ok ls) :
    ∃ words, ls = done.reverse ++ words ∧ (words = [] → text = []) := by
  induction pos, done, text using scanFrom.induct with
  | case1 pos done =>
    rw [scanFrom] at h
    cases h
    exact ⟨[], (List.append_nil _).symm, fun _ => rfl⟩
  | case2 pos done c rest e herror =>
    rw [scanFrom, herror] at h
    cases h
  | case3 pos done c rest piece n hpiece ih =>
    rw [scanFrom_cons hpiece] at h
    obtain ⟨l, rfl⟩ := exists_of_isUnbroken hplain (.of_readPiece hpiece)
    obtain ⟨words, rfl, -⟩ := ih (fun d hd => hplain d (.tail c (List.mem_of_mem_drop hd))) h
    exact ⟨l :: words, by simp, fun h => by cases h⟩

/-- A text without gaps is a single lexeme if its first piece takes up all of it. -/
theorem scan_eq_singleton_iff {source : String} (hplain : IsUnbroken source.toList) {l : Lexeme} :
    scan source = .ok [l] ↔
      ∃ c rest n, source.toList = c :: rest ∧ rest.length ≤ n ∧
        ReadsPiece .start c rest (some l) n := by
  rw [scan]
  generalize source.toList = text at hplain ⊢
  constructor
  · intro h
    cases text with
    | nil =>
      rw [scanFrom] at h
      cases h
    | cons c rest =>
      cases hpiece : readPiece .start c rest with
      | error e =>
        rw [scanFrom, hpiece] at h
        cases h
      | ok result =>
        rcases result with ⟨piece, n⟩
        rw [scanFrom_cons hpiece] at h
        obtain ⟨first, rfl⟩ := exists_of_isUnbroken hplain (.of_readPiece hpiece)
        have hrest : IsUnbroken (rest.drop n) := fun d hd =>
          hplain d (.tail c (List.mem_of_mem_drop hd))
        obtain ⟨words, hwords, hend⟩ := exists_of_scanFrom hrest h
        obtain ⟨rfl, hnil⟩ := List.cons.inj hwords
        exact ⟨c, rest, n, rfl, List.drop_eq_nil_iff.mp (hend hnil.symm), .of_readPiece hpiece⟩
  · rintro ⟨c, rest, n, rfl, hle, hpiece⟩
    rw [scanFrom_cons hpiece.readPiece_eq, List.drop_eq_nil_iff.mpr hle, scanFrom]
    rfl

theorem tokenize_eq_singleton_iff {source : String} {l : Lexeme} :
    scan source = .ok [l] ↔ ∃ t, tokenize source = .ok [t] ∧ t.toLexeme = l := by
  constructor
  · exact fun h => ⟨_, tokenize_eq_ok_iff.mpr ⟨[l], h, rfl⟩, rfl⟩
  · rintro ⟨t, ht, rfl⟩
    obtain ⟨ls, hls, heq⟩ := tokenize_eq_ok_iff.mp ht
    have hlexemes := congrArg (List.map Token.toLexeme) heq
    rw [Lexeme.toLexeme_numbered] at hlexemes
    rw [hls, ← hlexemes]
    rfl

theorem ReadsPiece.exists_number {pos : Position} {c : Char} {rest : List Char} {l : Lexeme}
    {n : Nat} {kind : LiteralKind} (h : ReadsPiece pos c rest (some l) n)
    (hkind : l.kind = .literal kind) (hnumeric : kind.isNumeric = true) :
    ∃ number, (isDigit c = true ∨ c = '.' ∧ startsWith isDigit rest = true) ∧
      Number.read (c :: rest) = .ok number ∧ number.kind = kind ∧ n = number.length - 1 := by
  cases h with
  | number hc hread =>
    cases hkind
    exact ⟨_, hc, hread, rfl, rfl⟩
  | wide => cases hkind; cases hnumeric
  | string => cases hkind; cases hnumeric
  | char => cases hkind; cases hnumeric
  | name => exact absurd hkind (wordKind_ne (by simp) _)
  | _ => cases hkind

/-- What is said of a token that is a numeric literal: its canonical text is a literal of the same
kind that denotes the same number, an integer has that number as its value, reduced to the range of
the kind, and a floating literal is read as that decimal number. -/
structure Token.Denotes (t : Token) (kind : LiteralKind) (q : ℚ) : Prop where
  text : NumericLiteral t.text.toList kind q
  integer : ∀ size signed radix, kind = .integer size signed radix →
    ∃ n, NumericLiteral.Holds n size.width signed q ∧
      ∀ slot m, (Run.literal ⟨t, slot⟩ kind).exec m = .ok (.int n) m
  floating : kind = .float ∨ kind = .double →
    NumericLiteral.decimal (Decimal.read t.text.toList) = q

/-- A numeric literal is a single token, which denotes its number. -/
theorem NumericLiteral.exists_token {source : String} (hplain : IsUnbroken source.toList)
    {kind : LiteralKind} {q : ℚ} (h : NumericLiteral source.toList kind q) :
    ∃ t, tokenize source = .ok [t] ∧ t.kind = .literal kind ∧ t.Denotes kind q := by
  obtain ⟨c, rest, htext, hc⟩ := h.exists_cons
  obtain ⟨canonical, hread, hcanonical, hdecimal⟩ := h.exists_read
  rw [htext] at hread
  obtain ⟨t, ht, hlexeme⟩ := tokenize_eq_singleton_iff.mp
    ((scan_eq_singleton_iff hplain).mpr ⟨c, rest, _, htext, Nat.le_refl _, .number hc hread⟩)
  have hkind : t.kind = .literal kind := congrArg Lexeme.kind hlexeme
  have htext : t.text.toList = canonical := by
    rw [congrArg Lexeme.text hlexeme, String.toList_ofList]
  refine ⟨t, ht, hkind, htext.symm ▸ hcanonical, ?_, htext.symm ▸ hdecimal⟩
  rintro size signed radix rfl
  refine ⟨.ofInt size.width signed (spelledNumber radix canonical), ?_, fun slot m => ?_⟩
  · rw [hcanonical.spelledNumber_eq]
    exact holds_ofInt size.width signed (spelledNumber radix canonical)
  · rw [← htext]
    rfl

/-- A text without gaps is a numeric literal if it is a single token that is one. -/
theorem exists_numericLiteral {source : String} (hplain : IsUnbroken source.toList)
    {kind : LiteralKind} (hnumeric : kind.isNumeric = true) {t : Token}
    (ht : tokenize source = .ok [t]) (hkind : t.kind = .literal kind) :
    ∃ q, NumericLiteral source.toList kind q := by
  obtain ⟨c, rest, n, htext, hle, hpiece⟩ :=
    (scan_eq_singleton_iff hplain).mp (tokenize_eq_singleton_iff.mpr ⟨t, ht, rfl⟩)
  obtain ⟨number, hc, hread, rfl, rfl⟩ := hpiece.exists_number hkind hnumeric
  obtain ⟨front, more, q, hfront, hliteral, hlength⟩ :=
    NumericLiteral.beginsWith_of_read hc hread
  obtain ⟨d, tail, rfl, -⟩ := hliteral.exists_cons
  have hmore : more = [] := by
    have hsum := congrArg List.length hfront
    rw [List.length_cons, List.length_append, List.length_cons] at hsum
    rw [hlength, List.length_cons] at hle
    exact List.eq_nil_of_length_eq_zero (by omega)
  rw [hmore, List.append_nil] at hfront
  exact ⟨q, htext.trans hfront ▸ hliteral⟩

end MiniC
