import MiniC.Proofs.Lexing.Pieces

set_option autoImplicit false

/-! # The rules of pieces

Which pieces there are: `ReadsPiece` has one rule for every kind of gap and of lexeme, and says what
is at the front of the text, what it becomes and how far it goes. The rules are exactly what the
reader of pieces does, so that a statement about every piece is proved rule by rule, and a piece is
read by its rule. -/

namespace MiniC

open CharClass

/-- The lexeme of a quoted literal, with its opening mark and its other parts. -/
def quotedLexeme (kind : LiteralKind) (opening : Part) (others : List Part) : Lexeme :=
  ⟨.literal kind, String.join ((opening :: others).map Part.text), opening.pos,
    opening :: others⟩

/-- How the piece at the front of `c :: rest` is read: the lexeme, if it is one, and the number of
characters behind the first. -/
inductive ReadsPiece (pos : Position) : Char → List Char → Option Lexeme → Nat → Prop
  | space {c : Char} (rest : List Char) (hc : isSpace c = true) : ReadsPiece pos c rest none 0
  | wide {rest : List Char} {parts : List Part} {n : Nat}
    (hparts : Quoted.ReadsString ((pos.next 'L').next '"') rest parts n) :
    ReadsPiece pos 'L' ('"' :: rest)
      (some (quotedLexeme .string ⟨.wideQuotes, "L\"", pos⟩ parts)) (n + 1)
  | string {rest : List Char} {parts : List Part} {n : Nat}
    (hparts : Quoted.ReadsString (pos.next '"') rest parts n) :
    ReadsPiece pos '"' rest (some (quotedLexeme .string ⟨.quotes, "\"", pos⟩ parts)) n
  | char {rest : List Char} {parts : List Part} {n : Nat}
    (hparts : Quoted.ReadsChar (pos.next '\'') rest parts n) :
    ReadsPiece pos '\'' rest (some (quotedLexeme .char ⟨.quote, "'", pos⟩ parts)) n
  | number {c : Char} {rest : List Char} {n : Number}
    (hc : isDigit c = true ∨ (c = '.' ∧ startsWith isDigit rest = true))
    (hread : Number.read (c :: rest) = .ok n) :
    ReadsPiece pos c rest (some ⟨.literal n.kind, String.ofList n.text, pos, []⟩) (n.length - 1)
  | point {rest : List Char} (hname : startsWith isNameStart rest = true) :
    ReadsPiece pos '.' rest (some ⟨.punctuator, ".", pos, []⟩) 0
  | name {c : Char} {rest : List Char} (hc : isNameStart c = true)
    (hwide : c = 'L' → startsWith (· = '"') rest = false) :
    ReadsPiece pos c rest
      (some ⟨wordKind (String.ofList (c :: rest.takeWhile isName)),
        String.ofList (c :: rest.takeWhile isName), pos, []⟩) (rest.takeWhile isName).length
  | directive (rest : List Char) :
    ReadsPiece pos '#' rest
      (some ⟨.directive, String.ofList (Text.trimEnd ('#' :: firstLine rest)), pos, []⟩)
      (firstLine rest).length
  | lineComment (rest : List Char) :
    ReadsPiece pos '/' ('/' :: rest) none ((firstLine rest).length + 1)
  | blockComment {rest : List Char} {n : Nat} (hlength : commentLength rest = some n) :
    ReadsPiece pos '/' ('*' :: rest) none (n + 1)
  | separator {c : Char} (rest : List Char) (hc : c ∈ separators) :
    ReadsPiece pos c rest (some ⟨.punctuator, String.ofList [c], pos, []⟩) 0
  | operator {c : Char} {rest : List Char} (hc : c ∈ operators1)
    (hcomment : c = '/' → startsWith (fun d => d = '/' || d = '*') rest = false) :
    ReadsPiece pos c rest (some ⟨.punctuator, String.ofList (longestOperator c rest), pos, []⟩)
      ((longestOperator c rest).length - 1)

theorem eq_cons_of_startsWith_eq {rest : List Char} {d : Char}
    (h : startsWith (· = d) rest = true) : ∃ tail, rest = d :: tail := by
  cases rest with
  | nil => cases h
  | cons e tail => exact ⟨tail, by rw [show e = d by simpa [startsWith] using h]⟩

section

variable {pos : Position} {c : Char} {rest : List Char} {piece : Option Lexeme} {n : Nat}

/-! ## Every piece is read by a rule -/

theorem exists_of_readQuoted {kind : LiteralKind} {opening : Part}
    {parts : Except LexicalError (List Part × Nat)} {l : Lexeme}
    (h : readQuoted kind opening parts = .ok (l, n)) :
    ∃ others, parts = .ok (others, n) ∧ l = quotedLexeme kind opening others := by
  obtain ⟨⟨others, m⟩, hothers, hresult⟩ := exists_of_bind_eq_ok h
  cases hresult
  exact ⟨others, hothers, rfl⟩

theorem ReadsPiece.of_numberPiece
    (hc : isDigit c = true ∨ (c = '.' ∧ startsWith isDigit rest = true))
    (h : numberPiece pos (c :: rest) = .ok (piece, n)) : ReadsPiece pos c rest piece n := by
  unfold numberPiece at h
  split at h
  next number hread =>
    cases h
    exact .number hc hread
  · cases h

theorem ReadsPiece.of_readPiece (h : readPiece pos c rest = .ok (piece, n)) :
    ReadsPiece pos c rest piece n := by
  unfold readPiece at h
  -- One test after the other, in the order of the reader: each rule may use that the tests above it
  -- failed.
  by_cases hspace : isSpace c = true
  · rw [if_pos hspace] at h
    cases h
    exact .space rest hspace
  rw [if_neg hspace] at h
  by_cases hwide : (c = 'L' && startsWith (· = '"') rest) = true
  · rw [if_pos hwide] at h
    obtain ⟨⟨l, m⟩, hread, hresult⟩ := exists_of_bind_eq_ok h
    cases hresult
    obtain ⟨rfl, hquote⟩ : c = 'L' ∧ startsWith (· = '"') rest = true := by simpa using hwide
    obtain ⟨tail, rfl⟩ := eq_cons_of_startsWith_eq hquote
    obtain ⟨parts, hparts, rfl⟩ := exists_of_readQuoted hread
    exact .wide (.of_stringParts hparts)
  rw [if_neg hwide] at h
  by_cases hstring : c = '"'
  · rw [if_pos hstring] at h
    obtain ⟨⟨l, m⟩, hread, hresult⟩ := exists_of_bind_eq_ok h
    cases hresult
    obtain ⟨parts, hparts, rfl⟩ := exists_of_readQuoted hread
    subst hstring
    exact .string (.of_stringParts hparts)
  rw [if_neg hstring] at h
  by_cases hchar : c = '\''
  · rw [if_pos hchar] at h
    obtain ⟨⟨l, m⟩, hread, hresult⟩ := exists_of_bind_eq_ok h
    cases hresult
    obtain ⟨parts, hparts, rfl⟩ := exists_of_readQuoted hread
    subst hchar
    exact .char (.of_charParts hparts)
  rw [if_neg hchar] at h
  by_cases hdigit : isDigit c = true
  · rw [if_pos hdigit] at h
    exact .of_numberPiece (.inl hdigit) h
  rw [if_neg hdigit] at h
  by_cases hpoint : c = '.'
  · rw [if_pos hpoint] at h
    subst hpoint
    -- A point starts a number before a digit, and stands alone before a name.
    split at h
    next hfraction => exact .of_numberPiece (.inr ⟨rfl, hfraction⟩) h
    · split at h
      next hname =>
        cases h
        exact .point hname
      · cases h
  rw [if_neg hpoint] at h
  by_cases hname : isNameStart c = true
  · rw [if_pos hname] at h
    cases h
    exact .name hname fun hc => by simpa [hc] using hwide
  rw [if_neg hname] at h
  by_cases hdirective : c = '#'
  · rw [if_pos hdirective] at h
    cases h
    subst hdirective
    exact .directive rest
  rw [if_neg hdirective] at h
  by_cases hline : (c = '/' && startsWith (· = '/') rest) = true
  · rw [if_pos hline] at h
    cases h
    obtain ⟨rfl, hslash⟩ : c = '/' ∧ startsWith (· = '/') rest = true := by simpa using hline
    obtain ⟨tail, rfl⟩ := eq_cons_of_startsWith_eq hslash
    exact .lineComment tail
  rw [if_neg hline] at h
  by_cases hblock : (c = '/' && startsWith (· = '*') rest) = true
  · rw [if_pos hblock] at h
    obtain ⟨rfl, hstar⟩ : c = '/' ∧ startsWith (· = '*') rest = true := by simpa using hblock
    obtain ⟨tail, rfl⟩ := eq_cons_of_startsWith_eq hstar
    split at h
    · cases h
    next m hlength =>
      cases h
      exact .blockComment hlength
  rw [if_neg hblock] at h
  by_cases hseparator : separators.contains c = true
  · rw [if_pos hseparator] at h
    cases h
    exact .separator rest (by simpa using hseparator)
  rw [if_neg hseparator] at h
  by_cases hoperator : operators1.contains c = true
  · rw [if_pos hoperator] at h
    cases h
    refine .operator (by simpa using hoperator) fun hc => ?_
    cases rest with
    | nil => rfl
    | cons d rest => simp_all [startsWith]
  rw [if_neg hoperator] at h
  cases h

/-! ## Every rule is read -/

/-- A character in a class is none of those that are outside of it. -/
theorem not_mem_of_class {p : Char → Bool} {outside : List Char} (h : p c = true)
    (houtside : outside.all (!p ·) = true) : c ∉ outside := by
  intro hmem
  have hnot := List.all_eq_true.mp houtside c hmem
  simp [h] at hnot

theorem isDigit_of_isNameStart (h : isNameStart c = true) : isDigit c = false := by
  rw [Bool.eq_false_iff]
  intro hdigit
  simp only [isNameStart, isDigit, Bool.or_eq_true, Bool.and_eq_true, decide_eq_true_eq]
    at h hdigit
  rcases h with (⟨ha, -⟩ | ⟨hA, -⟩) | rfl
  · exact absurd (Char.le_trans ha hdigit.2) (by decide)
  · exact absurd (Char.le_trans hA hdigit.2) (by decide)
  · exact absurd hdigit.2 (by decide)

/-- The space characters and quotation marks, which are asked for in front of the classes. -/
def marks : List Char :=
  [' ', '\t', '\n', '\x0b', '\x0c', '\r', '"', '\'']

theorem isSpace_of_not_mem_marks (h : c ∉ marks) : isSpace c = false := by
  simp only [marks, List.mem_cons, List.not_mem_nil, or_false, not_or] at h
  simp [isSpace, h]

theorem numberPiece_of_read {number : Number} (hread : Number.read (c :: rest) = .ok number) :
    numberPiece pos (c :: rest)
      = .ok (some ⟨.literal number.kind, String.ofList number.text, pos, []⟩,
          number.length - 1) := by
  rw [numberPiece, hread]

theorem ReadsPiece.readPiece_eq (h : ReadsPiece pos c rest piece n) :
    readPiece pos c rest = .ok (piece, n) := by
  cases h with
  | space rest hc => rw [readPiece, if_pos hc]
  | @wide rest parts n hparts =>
    show readQuoted .string _ (Quoted.stringParts ((pos.next 'L').next '"') rest) >>= _ = _
    rw [hparts.stringParts_eq]
    rfl
  | string hparts =>
    show readQuoted .string _ (Quoted.stringParts (pos.next '"') rest) >>= _ = _
    rw [hparts.stringParts_eq]
    rfl
  | char hparts =>
    show readQuoted .char _ (Quoted.charParts (pos.next '\'') rest) >>= _ = _
    rw [hparts.charParts_eq]
    rfl
  | number hc hread =>
    rw [← numberPiece_of_read hread]
    rcases hc with hdigit | ⟨rfl, hfraction⟩
    · have hspace := isSpace_of_not_mem_marks (not_mem_of_class hdigit rfl)
      have hmarks : c ∉ ['L', '"', '\''] := not_mem_of_class hdigit rfl
      simp only [List.mem_cons, List.not_mem_nil, or_false, not_or] at hmarks
      simp [readPiece, hspace, hmarks, hdigit]
    · show (if startsWith isDigit rest = true then _ else _) = _
      rw [if_pos hfraction]
  | point hname =>
    have hdigit : startsWith isDigit rest = false := by
      cases rest with
      | nil => rfl
      | cons d rest => exact isDigit_of_isNameStart hname
    show (if startsWith isDigit rest = true then _ else
      if startsWith isNameStart rest = true then _ else _) = _
    rw [hdigit, if_neg Bool.false_ne_true, if_pos hname]
    rfl
  | name hc hwide =>
    have hspace := isSpace_of_not_mem_marks (not_mem_of_class hc rfl)
    have hmarks : c ∉ ['"', '\'', '.'] := not_mem_of_class hc rfl
    simp only [List.mem_cons, List.not_mem_nil, or_false, not_or] at hmarks
    have hstring : (c = 'L' && startsWith (· = '"') rest) = false := by simpa using hwide
    simp [readPiece, hspace, hstring, hmarks, isDigit_of_isNameStart hc, hc, wordPiece]
  | directive rest => rfl
  | lineComment rest => rfl
  | blockComment hlength =>
    have hspace : isSpace '/' = false := rfl
    have hdigit : isDigit '/' = false := rfl
    have hname : isNameStart '/' = false := rfl
    simp [readPiece, startsWith, hspace, hdigit, hname, hlength]
  | separator rest hc =>
    simp only [separators, List.mem_cons, List.not_mem_nil, or_false] at hc
    obtain rfl | rfl | rfl | rfl | rfl | rfl | rfl | rfl := hc <;> rfl
  | operator hc hcomment =>
    by_cases hslash : c = '/'
    · subst hslash
      cases rest with
      | nil => rfl
      | cons d rest =>
        have hd := hcomment rfl
        simp only [startsWith, Bool.or_eq_false_iff, decide_eq_false_iff_not] at hd
        simp [readPiece, startsWith, hd]
        rfl
    · simp only [operators1, List.mem_cons, List.not_mem_nil, or_false] at hc
      obtain rfl | rfl | rfl | rfl | rfl | rfl | rfl | rfl | rfl | rfl | rfl | rfl | rfl | rfl | rfl
        := hc <;> first | rfl | exact absurd rfl hslash

end

/-! ## Lexemes of a text -/

theorem scanFrom_cons {pos : Position} {c : Char} {rest : List Char} {piece : Option Lexeme}
    {n : Nat} (h : readPiece pos c rest = .ok (piece, n)) (done : List Lexeme) :
    scanFrom pos done (c :: rest)
      = scanFrom (pos.after (c :: rest.take n)) (piece.toList ++ done) (rest.drop n) := by
  rw [scanFrom, h]

/-- What the rules say of a lexeme holds of every lexeme of a text. -/
theorem forall_of_scanFrom {P : Lexeme → Prop}
    (hrules : ∀ pos c rest l n, ReadsPiece pos c rest (some l) n → P l) {pos : Position}
    {done words : List Lexeme} {text : List Char} (hdone : ∀ l ∈ done, P l)
    (h : scanFrom pos done text = .ok words) : ∀ l ∈ words, P l := by
  induction pos, done, text using scanFrom.induct with
  | case1 pos done =>
    rw [scanFrom] at h
    cases h
    exact fun l hl => hdone l (List.mem_reverse.mp hl)
  | case2 pos done c rest e herror =>
    rw [scanFrom, herror] at h
    cases h
  | case3 pos done c rest piece n hpiece ih =>
    rw [scanFrom_cons hpiece] at h
    refine ih (fun l hl => ?_) h
    rcases List.mem_append.mp hl with hl | hl
    · rw [Option.mem_toList] at hl
      cases hl
      exact hrules _ _ _ _ _ (.of_readPiece hpiece)
    · exact hdone l hl

/-- A directive without the blanks at the end of its line. -/
theorem exists_trimEnd_directive (line : List Char) :
    ∃ body blanks, Text.trimEnd ('#' :: line) = '#' :: body ∧ line = body ++ blanks ∧
      ∀ c ∈ blanks, Text.isBlank c = true := by
  obtain ⟨blanks, htext, hblanks⟩ := Text.trimEnd_append_blanks ('#' :: line)
  cases hbody : Text.trimEnd ('#' :: line) with
  | nil =>
    rw [hbody, List.nil_append] at htext
    exact absurd (hblanks '#' (htext ▸ List.mem_cons_self)) (by decide)
  | cons c body =>
    rw [hbody] at htext
    obtain ⟨rfl, hline⟩ := List.cons.inj htext
    exact ⟨body, blanks, rfl, hline, hblanks⟩

end MiniC
