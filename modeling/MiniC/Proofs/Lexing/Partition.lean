import Mathlib
import MiniC.Proofs.Lexing.Numbering
import MiniC.Proofs.Lexing.Rules

set_option autoImplicit false

/-! # Words and gaps

A source text that can be read falls apart into words and the gaps between them, without a rest.
`Partition` says so: a gap consists of space characters and complete comments, a word is spelled by
the lexeme it became, and it stands where the lexeme says. The main statement is that the tokens of
a source text are a partition of it. -/

namespace MiniC

open CharClass

/-! ## Gaps -/

/-- A space character or a complete comment, in front of the text `rest`. A line comment is
complete at the end of its line, and a block comment at its first closing mark. -/
inductive GapPiece (rest : List Char) : List Char → Prop
  | space {c : Char} (hspace : isSpace c = true) : GapPiece rest [c]
  | lineComment {body : List Char} (hbody : '\n' ∉ body) (hend : ∀ c ∈ rest.head?, c = '\n') :
    GapPiece rest ('/' :: '/' :: body)
  | blockComment {body : List Char} (hbody : ¬['*', '/'] <:+: body ++ ['*']) :
    GapPiece rest ('/' :: '*' :: (body ++ ['*', '/']))

/-- Space characters and complete comments, in front of the text `rest`. -/
inductive Gap (rest : List Char) : List Char → Prop
  | nil : Gap rest []
  | cons {piece gap : List Char} (hpiece : GapPiece (gap ++ rest) piece) (hgap : Gap rest gap) :
    Gap rest (piece ++ gap)

/-! ## Words -/

/-- Whether a kind is that of a numeric literal. -/
def TokenKind.isNumeric : TokenKind → Bool
  | .literal kind => kind.isNumeric
  | _ => false

/-- The operators that the longest one is looked for in. -/
def operators : List (List Char) :=
  operators3 ++ operators2 ++ operators1.map ([·])

/-- Whether `spelling` is the longest operator that a text begins with. -/
def IsLongestOperator (spelling text : List Char) : Prop :=
  spelling ∈ operators ∧ spelling <+: text ∧
    ∀ op ∈ operators, op <+: text → op.length ≤ spelling.length

/-- How the lexeme `l` is spelled behind the text `before` and in front of the text `rest`. -/
structure Spells (before spelling rest : List Char) (l : Lexeme) : Prop where
  ne_nil : spelling ≠ []
  pos_eq : l.pos = .endOf before
  text_eq : l.kind.isNumeric = false → l.text.toList = spelling
  parts_eq : l.kind = .literal .string ∨ l.kind = .literal .char →
    l.text.toList = l.parts.flatMap (·.text.toList) ∧ Quoted.Consecutive before l.parts
  longest : l.kind = .punctuator →
    spelling = ['.'] ∨ (∃ c ∈ separators, spelling = [c]) ∨
      IsLongestOperator spelling (spelling ++ rest)

/-- What stands between a word and the gap behind it: nothing, or the blanks that end the line of a
directive. -/
structure Trimmed (kind : TokenKind) (blanks rest : List Char) : Prop where
  directive : blanks ≠ [] → kind = .directive
  isBlank : ∀ c ∈ blanks, Text.isBlank c = true ∧ c ≠ '\n'
  line_end : kind = .directive → ∀ c ∈ rest.head?, c = '\n'

/-- Whether a text behind `before` consists of the spellings of lexemes, in their order, and of the
gaps around them. -/
inductive Partition : (before text : List Char) → List Lexeme → Prop
  | nil {before gap : List Char} (hgap : Gap [] gap) : Partition before gap []
  | cons {before gap spelling blanks rest : List Char} {l : Lexeme} {ls : List Lexeme}
    (hgap : Gap (spelling ++ blanks ++ rest) gap)
    (hword : Spells (before ++ gap) spelling (blanks ++ rest) l)
    (hblanks : Trimmed l.kind blanks rest)
    (hrest : Partition (before ++ gap ++ spelling ++ blanks) rest ls) :
    Partition before (gap ++ (spelling ++ blanks ++ rest)) (l :: ls)

/-- A piece of a gap belongs to the gap in front of the first word. -/
theorem Partition.cons_gapPiece {before piece text : List Char} {ls : List Lexeme}
    (hpiece : GapPiece text piece) (h : Partition (before ++ piece) text ls) :
    Partition before (piece ++ text) ls := by
  cases h with
  | nil hgap => exact .nil (.cons (by rwa [List.append_nil]) hgap)
  | cons hgap hword hblanks hrest =>
    rw [← List.append_assoc]
    refine .cons (.cons hpiece hgap) ?_ hblanks ?_
    · rwa [← List.append_assoc]
    · simpa only [List.append_assoc] using hrest

/-! ## Operators -/

theorem length_of_mem_operators3 : ∀ op ∈ operators3, op.length = 3 := by decide

theorem length_of_mem_operators2 : ∀ op ∈ operators2, op.length = 2 := by decide

/-- An operator at the front of a text is as many of its characters as it is long. -/
theorem mem_of_prefix_of_mem_operators {op : List Char} {c : Char} {rest : List Char}
    (hop : op ∈ operators) (hfront : op <+: c :: rest) :
    c :: rest.take 2 ∈ operators3 ∨ (op.length = 2 ∧ c :: rest.take 1 ∈ operators2) ∨
      op.length = 1 := by
  have htake := List.prefix_iff_eq_take.mp hfront
  simp only [operators, List.mem_append, List.mem_map] at hop
  obtain (hop | hop) | ⟨d, -, rfl⟩ := hop
  · rw [length_of_mem_operators3 op hop, List.take_succ_cons] at htake
    exact .inl (htake ▸ hop)
  · have hlength := length_of_mem_operators2 op hop
    rw [hlength, List.take_succ_cons] at htake
    exact .inr (.inl ⟨hlength, htake ▸ hop⟩)
  · exact .inr (.inr rfl)

theorem length_le_of_mem_operators {op : List Char} (hop : op ∈ operators) : op.length ≤ 3 := by
  revert op
  decide

theorem isLongestOperator_longestOperator {c : Char} (hc : c ∈ operators1) (rest : List Char) :
    IsLongestOperator (longestOperator c rest) (c :: rest) := by
  unfold longestOperator
  split
  next h3 =>
    have hmem : c :: rest.take 2 ∈ operators3 := by simpa using h3
    -- no operator has more than three characters
    refine ⟨by simp [operators, hmem], ?_, fun op hop _ => ?_⟩
    · exact List.take_prefix 3 (c :: rest)
    · rw [length_of_mem_operators3 _ hmem]
      exact length_le_of_mem_operators hop
  next h3 =>
    have hnot3 : c :: rest.take 2 ∉ operators3 := by simpa using h3
    split
    next h2 =>
      have hmem : c :: rest.take 1 ∈ operators2 := by simpa using h2
      refine ⟨by simp [operators, hmem], List.take_prefix 2 (c :: rest), fun op hop hfront => ?_⟩
      rw [length_of_mem_operators2 _ hmem]
      obtain h | h | h := mem_of_prefix_of_mem_operators hop hfront
      · exact absurd h hnot3
      · exact Nat.le_of_eq h.1
      · omega
    next h2 =>
      have hnot2 : c :: rest.take 1 ∉ operators2 := by simpa using h2
      refine ⟨by simp [operators, hc], List.take_prefix 1 (c :: rest), fun op hop hfront => ?_⟩
      obtain h | h | h := mem_of_prefix_of_mem_operators hop hfront
      · exact absurd h hnot3
      · exact absurd h.2 hnot2
      · exact Nat.le_of_eq h

/-! ## One piece -/

/-- How the text of one piece stands between `before` and `rest`. -/
inductive StandsAt (before rest : List Char) : List Char → Option Lexeme → Prop
  | gap {text : List Char} (hpiece : GapPiece rest text) : StandsAt before rest text none
  | word {spelling blanks : List Char} {l : Lexeme}
    (hword : Spells before spelling (blanks ++ rest) l) (hblanks : Trimmed l.kind blanks rest) :
    StandsAt before rest (spelling ++ blanks) (some l)

theorem StandsAt.of_spells {before spelling rest : List Char} {l : Lexeme}
    (hword : Spells before spelling rest l) (hkind : l.kind ≠ .directive) :
    StandsAt before rest spelling (some l) := by
  have hblanks : Trimmed l.kind [] rest := ⟨by simp, by simp, fun h => absurd h hkind⟩
  have hstands : StandsAt before rest (spelling ++ []) (some l) := .word hword hblanks
  simpa using hstands

/-- What is known of a piece that was read from the front of `c :: rest`: there is enough text for
it, and its text stands between what was read before and what is left. -/
def Extends (before : List Char) (c : Char) (rest : List Char) (piece : Option Lexeme) (n : Nat) :
    Prop :=
  n ≤ rest.length ∧ StandsAt before (rest.drop n) (c :: rest.take n) piece

section Pieces

variable {before rest : List Char} {c : Char} {piece : Option Lexeme} {n : Nat}

theorem extends_of_word {kind : TokenKind} {others : List Char} (hothers : others <+: rest)
    (hnumeric : kind.isLiteral = false) (hdirective : kind ≠ .directive)
    (hlongest : kind = .punctuator → c :: others = ['.'] ∨ (∃ d ∈ separators, c :: others = [d]) ∨
      IsLongestOperator (c :: others) (c :: rest)) :
    Extends before c rest (some ⟨kind, String.ofList (c :: others), .endOf before, []⟩)
      others.length := by
  obtain ⟨tail, rfl⟩ := hothers
  refine ⟨by simp, .of_spells ?_ hdirective⟩
  rw [List.take_left, List.drop_left]
  exact {
    ne_nil := List.cons_ne_nil _ _
    pos_eq := rfl
    text_eq := fun _ => String.toList_ofList
    parts_eq := by rintro (rfl | rfl) <;> cases hnumeric
    longest := hlongest }

theorem extends_of_number {number : Number} (hread : Number.read (c :: rest) = .ok number) :
    Extends before c rest
      (some ⟨.literal number.kind, String.ofList number.text, .endOf before, []⟩)
      (number.length - 1) := by
  obtain ⟨hnumeric, hle⟩ := Number.fits_of_read hread
  rw [List.length_cons] at hle
  refine ⟨by omega, .of_spells ?_ (by simp)⟩
  exact {
    ne_nil := List.cons_ne_nil _ _
    pos_eq := rfl
    text_eq := fun h => absurd hnumeric (by simpa [TokenKind.isNumeric] using h)
    parts_eq := fun h => by
      simp only [TokenKind.literal.injEq] at h
      obtain h | h := h <;> simp [h, LiteralKind.isNumeric] at hnumeric
    longest := by simp }

/-- A quoted literal, where `mark` stands behind the first character of its opening mark. -/
theorem extends_of_quoted (kind : LiteralKind) {opening : Part} {mark text : List Char}
    {parts : List Part} {m : Nat} (hopening : opening.text.toList = c :: mark)
    (hpos : opening.pos = .endOf before) (hrest : rest = mark ++ text) (hm : m ≤ text.length)
    (hparts : parts.flatMap (·.text.toList) = text.take m)
    (hplaces : Quoted.Consecutive (before ++ c :: mark) parts) :
    Extends before c rest (some (quotedLexeme kind opening parts)) (mark.length + m) := by
  subst hrest
  have hjoin : (String.join ((opening :: parts).map Part.text)).toList
      = (opening :: parts).flatMap (·.text.toList) := by
    rw [String.toList_join, List.flatMap_map]
  have htext : (opening :: parts).flatMap (·.text.toList) = c :: (mark ++ text.take m) := by
    rw [List.flatMap_cons, hopening, hparts, List.cons_append]
  refine ⟨by simp only [List.length_append]; omega, .of_spells ?_ (by simp [quotedLexeme])⟩
  rw [List.take_length_add_append, List.drop_length_add_append]
  exact {
    ne_nil := List.cons_ne_nil _ _
    pos_eq := hpos
    text_eq := fun _ => hjoin.trans htext
    parts_eq := fun _ => ⟨hjoin, hpos, by rwa [hopening]⟩
    longest := by simp [quotedLexeme] }

theorem extends_of_string (mark : List Char) {text : List Char} {opening : Part}
    {parts : List Part} {m : Nat} (hopening : opening.text.toList = c :: mark)
    (hpos : opening.pos = .endOf before) (hrest : rest = mark ++ text)
    (hparts : Quoted.ReadsString (.endOf (before ++ c :: mark)) text parts m) :
    Extends before c rest (some (quotedLexeme .string opening parts)) (mark.length + m) := by
  obtain ⟨hm, htexts, hplaces⟩ := hparts.consecutive
  exact extends_of_quoted .string hopening hpos hrest hm htexts hplaces

theorem extends_of_char {opening : Part} {parts : List Part} {m : Nat}
    (hopening : opening.text.toList = [c]) (hpos : opening.pos = .endOf before)
    (hparts : Quoted.ReadsChar (.endOf (before ++ [c])) rest parts m) :
    Extends before c rest (some (quotedLexeme .char opening parts)) m := by
  obtain ⟨hm, htexts, hplaces⟩ := hparts.consecutive
  have h := extends_of_quoted .char hopening hpos rfl hm htexts hplaces
  rwa [List.length_nil, Nat.zero_add] at h

theorem forall_head?_drop_firstLine (rest : List Char) :
    ∀ c ∈ (rest.drop (firstLine rest).length).head?, c = '\n' := by
  intro c hc
  rw [firstLine, drop_length_takeWhile] at hc
  have := List.head?_dropWhile_not (· ≠ '\n') rest
  simp_all

theorem take_length_firstLine (rest : List Char) :
    rest.take (firstLine rest).length = firstLine rest :=
  take_length_takeWhile _ rest

theorem length_firstLine_le (rest : List Char) : (firstLine rest).length ≤ rest.length :=
  (List.takeWhile_sublist _).length_le

theorem not_mem_firstLine (rest : List Char) : '\n' ∉ firstLine rest := by
  intro hmem
  have hne := List.all_eq_true.mp List.all_takeWhile _ hmem
  exact absurd hne (by decide)

/-- A directive goes on to the end of its line, without the blanks there. -/
theorem extends_of_directive :
    Extends before '#' rest
      (some ⟨.directive, String.ofList (Text.trimEnd ('#' :: firstLine rest)), .endOf before, []⟩)
      (firstLine rest).length := by
  obtain ⟨body, blanks, htext, hline, hblanks⟩ := exists_trimEnd_directive (firstLine rest)
  have hfeed : ∀ c ∈ blanks, c ≠ '\n' := by
    rintro c hc rfl
    exact not_mem_firstLine rest (hline ▸ List.mem_append_right body hc)
  refine ⟨length_firstLine_le rest, ?_⟩
  rw [take_length_firstLine, htext]
  conv => enter [3]; rw [hline, ← List.cons_append]
  -- the blanks at the end of the line are a part of the gap behind the directive
  refine .word ?_ ?_
  · exact {
      ne_nil := List.cons_ne_nil _ _
      pos_eq := rfl
      text_eq := fun _ => String.toList_ofList
      parts_eq := by simp
      longest := by simp }
  · exact {
      directive := fun _ => rfl
      isBlank := fun c hc => ⟨hblanks c hc, hfeed c hc⟩
      line_end := fun _ => forall_head?_drop_firstLine rest }

theorem extends_of_lineComment (rest : List Char) :
    Extends before '/' ('/' :: rest) none ((firstLine rest).length + 1) := by
  refine ⟨Nat.succ_le_succ (length_firstLine_le rest), .gap ?_⟩
  rw [List.take_succ_cons, List.drop_succ_cons, take_length_firstLine]
  exact .lineComment (not_mem_firstLine rest) (forall_head?_drop_firstLine rest)

theorem extends_of_blockComment {m : Nat} (h : commentLength rest = some m) :
    Extends before '/' ('*' :: rest) none (m + 1) := by
  obtain ⟨body, tail, rfl, rfl, hbody⟩ := commentLength_eq_some_iff.mp h
  refine ⟨by simp, .gap ?_⟩
  rw [List.take_succ_cons, List.drop_succ_cons, List.take_length_add_append,
    List.drop_length_add_append]
  exact .blockComment hbody

theorem wordKind_isLiteral (text : String) : (wordKind text).isLiteral = false := by
  unfold wordKind
  split
  · rfl
  · split <;> rfl

theorem wordKind_ne {kind : TokenKind}
    (hkind : kind ∉ [.typeKeyword, .keyword, .identifier]) (text : String) :
    wordKind text ≠ kind := by
  rintro rfl
  apply hkind
  unfold wordKind
  split
  · simp
  · split <;> simp

theorem Position.next_endOf (before : List Char) (c : Char) :
    (endOf before).next c = endOf (before ++ [c]) :=
  (endOf_append_singleton before c).symm

theorem extends_of_operator (hc : c ∈ operators1) :
    Extends before c rest
      (some ⟨.punctuator, String.ofList (longestOperator c rest), .endOf before, []⟩)
      ((longestOperator c rest).length - 1) := by
  have hlongest := isLongestOperator_longestOperator hc rest
  obtain ⟨others, hothers⟩ : ∃ others, longestOperator c rest = c :: others := by
    unfold longestOperator
    split
    · exact ⟨_, rfl⟩
    · split <;> exact ⟨_, rfl⟩
  rw [hothers] at hlongest ⊢
  refine extends_of_word ?_ rfl (by simp) fun _ => .inr (.inr hlongest)
  exact (List.prefix_cons_inj c).mp hlongest.2.1

/-- Every piece that is read stands where it was read. -/
theorem extends_of_readPiece (h : readPiece (.endOf before) c rest = .ok (piece, n)) :
    Extends before c rest piece n := by
  cases ReadsPiece.of_readPiece h with
  | space rest hc => exact ⟨Nat.zero_le _, .gap (.space hc)⟩
  | wide hparts =>
    -- the opening mark has two characters here, and the parts begin behind both
    rw [Position.next_endOf, Position.next_endOf, List.append_assoc] at hparts
    rw [Nat.add_comm]
    exact extends_of_string ['"'] (by simp) rfl rfl hparts
  | string hparts =>
    rw [Position.next_endOf] at hparts
    have hopening : (⟨.quotes, "\"", .endOf before⟩ : Part).text.toList = ['"'] := by simp
    have hextends := extends_of_string [] hopening rfl rfl hparts
    rwa [List.length_nil, Nat.zero_add] at hextends
  | char hparts =>
    rw [Position.next_endOf] at hparts
    exact extends_of_char (by simp) rfl hparts
  | number _ hread => exact extends_of_number hread
  | point _ => exact extends_of_word List.nil_prefix rfl (by simp) fun _ => .inl rfl
  | name _ _ =>
    exact extends_of_word (List.takeWhile_prefix _) (wordKind_isLiteral _)
      (wordKind_ne (by simp) _) fun h => absurd h (wordKind_ne (by simp) _)
  | directive rest => exact extends_of_directive
  | lineComment rest => exact extends_of_lineComment rest
  | blockComment hlength => exact extends_of_blockComment hlength
  | separator rest hc =>
    exact extends_of_word List.nil_prefix rfl (by simp) fun _ => .inr (.inl ⟨c, hc, rfl⟩)
  | operator hc _ => exact extends_of_operator hc

end Pieces

/-! ## Whole texts -/

theorem StandsAt.partition {before text rest : List Char} {piece : Option Lexeme}
    {ls : List Lexeme} (hstands : StandsAt before rest text piece)
    (h : Partition (before ++ text) rest ls) :
    Partition before (text ++ rest) (piece.toList ++ ls) := by
  cases hstands with
  | gap hpiece => exact .cons_gapPiece hpiece h
  | @word spelling blanks l hword hblanks =>
    have hword : Spells (before ++ []) spelling (blanks ++ rest) l := by simpa using hword
    have hrest : Partition (before ++ [] ++ spelling ++ blanks) rest ls := by simpa using h
    exact .cons .nil hword hblanks hrest

/-- The lexemes that are read behind `before` are put behind those that were read already, and they
are a partition of the text they are read from. -/
theorem partition_of_scanFrom {before text : List Char} {done words : List Lexeme}
    (h : scanFrom (.endOf before) done text = .ok words) :
    ∃ ls, words = done.reverse ++ ls ∧ Partition before text ls := by
  generalize hpos : Position.endOf before = pos at h
  induction pos, done, text using scanFrom.induct generalizing before with
  | case1 pos done =>
    rw [scanFrom] at h
    cases h
    exact ⟨[], (List.append_nil _).symm, .nil .nil⟩
  | case2 pos done c rest e herror =>
    rw [scanFrom, herror] at h
    cases h
  | case3 pos done c rest piece n hpiece ih =>
    subst hpos
    rw [scanFrom_cons hpiece] at h
    obtain ⟨ls, rfl, hrest⟩ := ih (Position.after_endOf before (c :: rest.take n)).symm h
    obtain ⟨-, hstands⟩ := extends_of_readPiece hpiece
    have htext : c :: rest = (c :: rest.take n) ++ rest.drop n := by simp
    refine ⟨piece.toList ++ ls, by cases piece <;> simp, ?_⟩
    rw [htext]
    exact hstands.partition hrest

/-- The tokens of a source text are a partition of it: the text consists of their spellings, in
order, and of the gaps around them. -/
theorem partition_of_tokenize (source : String) (tokens : List Token)
    (h : tokenize source = .ok tokens) :
    Partition [] source.toList (tokens.map Token.toLexeme) := by
  obtain ⟨ls, hscan, rfl⟩ := tokenize_eq_ok_iff.mp h
  rw [scan, Position.start_eq_endOf] at hscan
  obtain ⟨words, rfl, hpartition⟩ := partition_of_scanFrom hscan
  rwa [Lexeme.toLexeme_numbered]

/-- A source text with a directive, both kinds of comments, a literal that is rewritten, an operator
of three characters and a string literal with text on both sides of an escape sequence. -/
def samplePieces : String :=
  "#go \n/*a\n*/x<<=0X0F;//b\nL\"a\\tb\""

def sampleTokens : List Token :=
  [⟨⟨.directive, "#go", ⟨1, 1⟩, []⟩, 1⟩, ⟨⟨.identifier, "x", ⟨3, 3⟩, []⟩, 2⟩,
   ⟨⟨.punctuator, "<<=", ⟨3, 4⟩, []⟩, 3⟩,
   ⟨⟨.literal (.integer .plain true .hex), "0xf", ⟨3, 7⟩, []⟩, 4⟩,
   ⟨⟨.punctuator, ";", ⟨3, 11⟩, []⟩, 5⟩,
   ⟨⟨.literal .string, "L\"a\\tb\"", ⟨4, 1⟩,
     [⟨.wideQuotes, "L\"", ⟨4, 1⟩⟩, ⟨.literal .string, "a", ⟨4, 3⟩⟩, ⟨.escape, "\\t", ⟨4, 4⟩⟩,
      ⟨.literal .string, "b", ⟨4, 6⟩⟩, ⟨.quotes, "\"", ⟨4, 7⟩⟩]⟩, 6⟩]

theorem tokenize_samplePieces : tokenize samplePieces = .ok sampleTokens := by
  rw [tokenize_eq]
  cbv

theorem partition_samplePieces :
    tokenize samplePieces = .ok sampleTokens ∧
      Partition [] samplePieces.toList (sampleTokens.map Token.toLexeme) :=
  ⟨tokenize_samplePieces, partition_of_tokenize _ _ tokenize_samplePieces⟩

end MiniC
