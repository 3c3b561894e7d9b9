import MiniC.Proofs.Lexing.Canonical
import MiniC.Proofs.Lexing.Lines

set_option autoImplicit false

/-! # Texts of tokens

The texts of the tokens of a source text, each on a line of its own, are a source text again, and it
has the same tokens in other places: what a token is rewritten to is spelled as the token. Only a
point does not stand alone, because it is read in front of a name. -/

namespace MiniC

open CharClass

/-! ## What does not depend on places -/

/-- A part of a quoted literal as if it stood at the start. -/
def Part.unplaced (p : Part) : Part :=
  { p with pos := .start }

/-- A lexeme as if it and its parts stood at the start. -/
def Lexeme.unplaced (l : Lexeme) : Lexeme :=
  { l with pos := .start, parts := l.parts.map Part.unplaced }

/-- A token as if it and its parts stood at the start. -/
def Token.unplaced (t : Token) : Token :=
  { t with toLexeme := t.toLexeme.unplaced }

theorem unplaced_quotedLexeme {kind : LiteralKind} {opening opening' : Part}
    {parts parts' : List Part} (hopening : opening'.unplaced = opening.unplaced)
    (hparts : parts'.map Part.unplaced = parts.map Part.unplaced) :
    (quotedLexeme kind opening' parts').unplaced = (quotedLexeme kind opening parts).unplaced := by
  have hall : (opening' :: parts').map Part.unplaced = (opening :: parts).map Part.unplaced := by
    rw [List.map_cons, List.map_cons, hopening, hparts]
  have htexts : (opening' :: parts').map Part.text = (opening :: parts).map Part.text := by
    have h := congrArg (List.map Part.text) hall
    rwa [List.map_map, List.map_map] at h
  simp only [quotedLexeme, Lexeme.unplaced, hall, htexts]

theorem unplaced_numbered (ls : List Lexeme) :
    (Lexeme.numbered ls).map Token.unplaced = Lexeme.numbered (ls.map Lexeme.unplaced) := by
  have htexts : (ls.map Lexeme.unplaced).map Lexeme.text = ls.map Lexeme.text := by
    rw [List.map_map]
    rfl
  rw [Lexeme.numbered, Lexeme.numbered, htexts, List.map_map, List.map_map]
  rfl

/-! ## Quoted literals -/

theorem startsWith_take {p : Char → Bool} {text : List Char} (h : startsWith p text = false)
    (n : Nat) : startsWith p (text.take n) = false := by
  cases text with
  | nil => rwa [List.take_nil]
  | cons c rest =>
    cases n with
    | zero => rfl
    | succ n => exact h

theorem startsWith_dropWhile (p : Char → Bool) (text : List Char) :
    startsWith p (text.dropWhile p) = false := by
  induction text with
  | nil => rfl
  | cons c rest ih =>
    rw [List.dropWhile_cons]
    split
    · exact ih
    next hc => simpa [startsWith] using hc

namespace Quoted

/-- A string literal is read alike in another place and without what follows it. -/
theorem ReadsString.again {pos : Position} {text : List Char} {parts : List Part} {n : Nat}
    (h : ReadsString pos text parts n) (pos' : Position) :
    ∃ parts', ReadsString pos' (text.take n) parts' n ∧
      parts'.map Part.unplaced = parts.map Part.unplaced := by
  induction h generalizing pos' with
  | close pos rest => exact ⟨_, .close pos' [], rfl⟩
  | @escape pos rest k parts n hescape _ ih =>
    have htext : ('\\' :: rest).take (k + 1 + n) = '\\' :: rest.take (k + n) := by
      rw [Nat.add_right_comm, List.take_succ_cons]
    have htake : (rest.take (k + n)).take k = rest.take k := by
      rw [List.take_take, Nat.min_eq_left (Nat.le_add_right k n)]
    have hdrop : (rest.take (k + n)).drop k = (rest.drop k).take n := by
      rw [List.drop_take, Nat.add_sub_cancel_left]
    obtain ⟨parts', hparts', hsame⟩ := ih (pos'.after ('\\' :: rest.take k))
    rw [← hdrop, ← htake] at hparts'
    rw [htext]
    refine ⟨_, .escape (escapeLength_take hescape (Nat.le_add_right k n)) hparts', ?_⟩
    rw [List.map_cons, List.map_cons, hsame, htake]
    rfl
  | @run pos c rest parts n hplain _ ih =>
    -- the run ends where it ended, because what is left of the text begins in the same way
    have hstop := startsWith_take (startsWith_dropWhile isPlain rest) n
    have hrun := forall_of_takeWhile (p := isPlain) rest
    have htext : (c :: rest).take ((c :: rest.takeWhile isPlain).length + n)
        = c :: (rest.takeWhile isPlain ++ (rest.dropWhile isPlain).take n) := by
      rw [List.length_cons, Nat.add_right_comm, List.take_succ_cons, List.take_add,
        take_length_takeWhile, drop_length_takeWhile]
    have htake := takeWhile_append_of_stop hrun hstop
    have hdrop := dropWhile_append_of_stop hrun hstop
    obtain ⟨parts', hparts', hsame⟩ := ih (pos'.after (c :: rest.takeWhile isPlain))
    rw [htext]
    generalize rest.takeWhile isPlain ++ (rest.dropWhile isPlain).take n = spelled at htake hdrop ⊢
    rw [← hdrop, ← htake] at hparts'
    rw [← htake]
    refine ⟨_, .run hplain hparts', ?_⟩
    rw [List.map_cons, List.map_cons, hsame]
    rfl

/-- A character literal is read alike in another place and without what follows it. -/
theorem ReadsChar.again {pos : Position} {text : List Char} {parts : List Part} {n : Nat}
    (h : ReadsChar pos text parts n) (pos' : Position) :
    ∃ parts', ReadsChar pos' (text.take n) parts' n ∧
      parts'.map Part.unplaced = parts.map Part.unplaced := by
  cases h with
  | plain tail hc => exact ⟨_, .plain [] hc, rfl⟩
  | @escape rest tail k hescape hclose =>
    have htext : ('\\' :: rest).take (k + 1 + 1) = '\\' :: rest.take (k + 1) := rfl
    have htake : (rest.take (k + 1)).take k = rest.take k := by
      rw [List.take_take, Nat.min_eq_left (Nat.le_add_right k 1)]
    have hdrop : (rest.take (k + 1)).drop k = ['\''] := by
      rw [List.drop_take, Nat.add_sub_cancel_left, hclose, List.take_succ_cons, List.take_zero]
    rw [htext]
    refine ⟨_, .escape (escapeLength_take hescape (Nat.le_add_right k 1)) hdrop, ?_⟩
    rw [htake]
    rfl

end Quoted

/-! ## Lexemes that stand alone -/

/-- Whether the text of a lexeme is read as the lexeme, wherever it stands. -/
def Lexeme.Rereads (l : Lexeme) : Prop :=
  ∃ c rest, l.text.toList = c :: rest ∧ ∀ pos, ∃ l',
    ReadsPiece pos c rest (some l') rest.length ∧ l'.unplaced = l.unplaced

/-- Apart from numbers and directives, a lexeme is spelled as in the source. -/
theorem text_of_readPiece {before : List Char} {c : Char} {rest : List Char} {l : Lexeme} {n : Nat}
    (h : readPiece (.endOf before) c rest = .ok (some l, n)) (hnumeric : l.kind.isNumeric = false)
    (hdirective : l.kind ≠ .directive) :
    l.text.toList = c :: rest.take n ∧ (rest.take n).length = n := by
  obtain ⟨hle, hstands⟩ := extends_of_readPiece h
  refine ⟨?_, List.length_take_of_le hle⟩
  generalize c :: rest.take n = text at hstands
  generalize hpiece : some l = piece at hstands
  cases hstands with
  | gap _ => cases hpiece
  | @word spelling blanks _ hword hblanks =>
    cases hpiece
    have hnil : blanks = [] := by
      by_contra hne
      exact hdirective (hblanks.directive hne)
    rw [hword.text_eq hnumeric, hnil, List.append_nil]

/-- A lexeme without parts stands alone if its text is read as the lexeme. -/
theorem rereads_plain {kind : TokenKind} {c : Char} {rest : List Char}
    (h : ∀ pos, ReadsPiece pos c rest (some ⟨kind, String.ofList (c :: rest), pos, []⟩) rest.length)
    (pos : Position) : Lexeme.Rereads ⟨kind, String.ofList (c :: rest), pos, []⟩ :=
  ⟨c, rest, String.toList_ofList, fun pos' => ⟨_, h pos', rfl⟩⟩

theorem rereads_number {kind : LiteralKind} {text : List Char} (h : Number.Canonical kind text)
    (pos : Position) : Lexeme.Rereads ⟨.literal kind, String.ofList text, pos, []⟩ := by
  obtain ⟨c, rest, rfl, hdigit⟩ := h.exists_cons
  exact rereads_plain (fun _ => .number (.inl hdigit) h.read_eq) pos

theorem rereads_name {c : Char} (hc : isNameStart c = true) {others : List Char}
    (hothers : ∀ d ∈ others, isName d = true) (pos : Position) :
    Lexeme.Rereads
      ⟨wordKind (String.ofList (c :: others)), String.ofList (c :: others), pos, []⟩ := by
  have hwide : c = 'L' → startsWith (· = '"') others = false := by
    intro _
    cases others with
    | nil => rfl
    | cons d others => exact decide_eq_false fun hd => by cases hd ▸ hothers d List.mem_cons_self
  refine rereads_plain (fun pos' => ?_) pos
  have hread : ReadsPiece pos' c others _ _ := .name hc hwide
  rwa [List.takeWhile_eq_self_iff.mpr hothers] at hread

theorem trimEnd_again (cs : List Char) : Text.trimEnd (Text.trimEnd cs) = Text.trimEnd cs :=
  List.rdropWhile_idempotent Text.isBlank cs

theorem rereads_directive (rest : List Char) (pos : Position) :
    Lexeme.Rereads
      ⟨.directive, String.ofList (Text.trimEnd ('#' :: firstLine rest)), pos, []⟩ := by
  obtain ⟨body, blanks, htext, hline, -⟩ := exists_trimEnd_directive (firstLine rest)
  have hagain := trimEnd_again ('#' :: firstLine rest)
  have hbody : firstLine body = body := by
    refine List.takeWhile_eq_self_iff.mpr fun d hd => ?_
    exact forall_of_takeWhile rest d (hline ▸ List.mem_append_left blanks hd)
  rw [htext] at hagain ⊢
  refine rereads_plain (fun pos' => ?_) pos
  have hread : ReadsPiece pos' '#' body _ _ := .directive body
  rwa [hbody, hagain] at hread

/-- An operator is the longest one at the front of itself, and none begins a comment. -/
theorem longestOperator_again {c : Char} {others : List Char} (h : c :: others ∈ operators) :
    c ∈ operators1 ∧ longestOperator c others = c :: others ∧
      startsWith (fun d => d = '/' || d = '*') others = false := by
  have hall : ∀ op ∈ operators, op.headD ' ' ∈ operators1 ∧
      longestOperator (op.headD ' ') op.tail = op ∧
      startsWith (fun d => d = '/' || d = '*') op.tail = false := by decide
  exact hall _ h

theorem rereads_operator {op : List Char} (h : op ∈ operators) (pos : Position) :
    Lexeme.Rereads ⟨.punctuator, String.ofList op, pos, []⟩ := by
  cases op with
  | nil => exact absurd h (by decide)
  | cons c others =>
    obtain ⟨hc, hlongest, hcomment⟩ := longestOperator_again h
    refine rereads_plain (fun pos' => ?_) pos
    have hread : ReadsPiece pos' c others _ _ := .operator hc fun _ => hcomment
    rwa [hlongest] at hread

/-- Every lexeme but a point stands alone, and a point is read in front of a name. -/
theorem rereads_of_readPiece {before : List Char} {c : Char} {rest : List Char} {l : Lexeme}
    {n : Nat} (h : readPiece (.endOf before) c rest = .ok (some l, n)) :
    l.Rereads ∨ (l.unplaced = ⟨.punctuator, ".", .start, []⟩ ∧ n = 0 ∧
      startsWith isNameStart rest = true) := by
  cases ReadsPiece.of_readPiece h with
  | wide hparts =>
    obtain ⟨htext, hlength⟩ := text_of_readPiece h rfl (by simp [quotedLexeme])
    refine .inl ⟨'L', _, htext, fun pos => ?_⟩
    obtain ⟨parts', hparts', hsame⟩ := hparts.again ((pos.next 'L').next '"')
    rw [hlength]
    exact ⟨_, .wide hparts', unplaced_quotedLexeme rfl hsame⟩
  | string hparts =>
    obtain ⟨htext, hlength⟩ := text_of_readPiece h rfl (by simp [quotedLexeme])
    refine .inl ⟨'"', _, htext, fun pos => ?_⟩
    obtain ⟨parts', hparts', hsame⟩ := hparts.again (pos.next '"')
    rw [hlength]
    exact ⟨_, .string hparts', unplaced_quotedLexeme rfl hsame⟩
  | char hparts =>
    obtain ⟨htext, hlength⟩ := text_of_readPiece h rfl (by simp [quotedLexeme])
    refine .inl ⟨'\'', _, htext, fun pos => ?_⟩
    obtain ⟨parts', hparts', hsame⟩ := hparts.again (pos.next '\'')
    rw [hlength]
    exact ⟨_, .char hparts', unplaced_quotedLexeme rfl hsame⟩
  | number _ hread => exact .inl (rereads_number (Number.canonical_of_read hread) _)
  | point hname => exact .inr ⟨rfl, rfl, hname⟩
  | name hc _ => exact .inl (rereads_name hc (forall_of_takeWhile rest) _)
  | directive rest => exact .inl (rereads_directive rest _)
  | separator rest hc => exact .inl (rereads_plain (fun _ => .separator [] hc) _)
  | operator hc _ =>
    exact .inl (rereads_operator (isLongestOperator_longestOperator hc rest).1 _)

/-! ## Whole texts -/

/-- The text of a lexeme on a line of its own; the line of a point goes on. -/
def Lexeme.line (l : Lexeme) : String :=
  if l.kind = .punctuator && l.text = "." then l.text else l.text ++ "\n"

/-- The lines of lexemes, one after the other. -/
def lines (ls : List Lexeme) : List Char :=
  ls.flatMap (·.line.toList)

/-- The texts of tokens, each on a line of its own, except that the line of a point goes on. -/
def respell (tokens : List Token) : String :=
  String.join (tokens.map (·.line))

theorem toList_respell (tokens : List Token) :
    (respell tokens).toList = lines (tokens.map Token.toLexeme) := by
  rw [respell, String.toList_join, List.flatMap_map, lines, List.flatMap_map]

/-- Whether every lexeme stands alone, or is a point and stands in front of a name. -/
inductive Respellable : List Lexeme → Prop
  | nil : Respellable []
  | line {l : Lexeme} {ls : List Lexeme} (hl : l.Rereads) (hls : Respellable ls) :
    Respellable (l :: ls)
  | point {l : Lexeme} {ls : List Lexeme} (hl : l.unplaced = ⟨.punctuator, ".", .start, []⟩)
    (hname : startsWith isNameStart (lines ls) = true) (hls : Respellable ls) :
    Respellable (l :: ls)

theorem Lexeme.exists_line (l : Lexeme) : ∃ more, l.line.toList = l.text.toList ++ more := by
  unfold Lexeme.line
  split
  · exact ⟨[], (List.append_nil _).symm⟩
  · exact ⟨_, String.toList_append⟩

theorem Lexeme.line_of_unplaced_eq {l : Lexeme} (h : l.unplaced = ⟨.punctuator, ".", .start, []⟩) :
    l.line = "." := by
  obtain ⟨hkind, htext, -, -⟩ := Lexeme.mk.inj h
  rw [Lexeme.line, hkind, htext]
  rfl

/-- A point in front of nothing is not read. -/
theorem Lexeme.Rereads.text_ne_point {l : Lexeme} (h : l.Rereads) : l.text ≠ "." := by
  intro hpoint
  obtain ⟨c, rest, htext, hread⟩ := h
  obtain ⟨l', hread, -⟩ := hread .start
  rw [hpoint] at htext
  obtain ⟨rfl, rfl⟩ : c = '.' ∧ rest = [] := by simpa using htext.symm
  have hpiece := hread.readPiece_eq
  cases hpiece

theorem Lexeme.Rereads.line_eq {l : Lexeme} (h : l.Rereads) : l.line = l.text ++ "\n" := by
  refine if_neg fun hpoint => h.text_ne_point ?_
  simp only [Bool.and_eq_true, decide_eq_true_eq] at hpoint
  exact hpoint.2

/-- A name begins a lexeme that begins with the same character. -/
theorem ReadsPiece.exists_of_isNameStart {before : List Char} {c : Char} {rest : List Char}
    {piece : Option Lexeme} {n : Nat} (h : readPiece (.endOf before) c rest = .ok (piece, n))
    (hc : isNameStart c = true) : ∃ l tail, piece = some l ∧ l.text.toList = c :: tail := by
  cases ReadsPiece.of_readPiece h with
  | wide hparts =>
    exact ⟨_, _, rfl, (text_of_readPiece h rfl (by simp [quotedLexeme])).1⟩
  | name _ _ => exact ⟨_, _, rfl, String.toList_ofList⟩
  | space rest hspace =>
    rw [isSpace_of_not_mem_marks (not_mem_of_class hc rfl)] at hspace
    cases hspace
  | number hnumber _ =>
    rcases hnumber with hdigit | ⟨rfl, -⟩
    · rw [isDigit_of_isNameStart hc] at hdigit
      cases hdigit
    · cases hc
  | separator _ hseparator => exact absurd hseparator (not_mem_of_class hc rfl)
  | operator hoperator _ => exact absurd hoperator (not_mem_of_class hc rfl)
  | string _ => cases hc
  | char _ => cases hc
  | point _ => cases hc
  | directive _ => cases hc
  | lineComment _ => cases hc
  | blockComment _ => cases hc

theorem lines_cons (l : Lexeme) (ls : List Lexeme) :
    lines (l :: ls) = l.line.toList ++ lines ls :=
  rfl

/-- What is read from a text can be spelled again, and it begins with a name where the text does. -/
theorem respellable_of_scanFrom {before text : List Char} {done words : List Lexeme}
    (h : scanFrom (.endOf before) done text = .ok words) :
    ∃ ls, words = done.reverse ++ ls ∧ Respellable ls ∧
      (startsWith isNameStart text = true → startsWith isNameStart (lines ls) = true) := by
  generalize hpos : Position.endOf before = pos at h
  induction pos, done, text using scanFrom.induct generalizing before with
  | case1 pos done =>
    rw [scanFrom] at h
    cases h
    exact ⟨[], (List.append_nil _).symm, .nil, id⟩
  | case2 pos done c rest e herror =>
    rw [scanFrom, herror] at h
    cases h
  | case3 pos done c rest piece n hpiece ih =>
    subst hpos
    rw [scanFrom_cons hpiece] at h
    obtain ⟨ls, rfl, hls, hname⟩ := ih (Position.after_endOf before (c :: rest.take n)).symm h
    have hstart := ReadsPiece.exists_of_isNameStart hpiece
    cases piece with
    | none =>
      refine ⟨ls, rfl, hls, fun hc => ?_⟩
      obtain ⟨l, -, hl, -⟩ := hstart hc
      cases hl
    | some l =>
      refine ⟨l :: ls, by simp, ?_, fun hc => ?_⟩
      · rcases rereads_of_readPiece hpiece with hl | ⟨hl, rfl, hrest⟩
        · exact .line hl hls
        · exact .point hl (hname hrest) hls
      · obtain ⟨l', tail, hl, htext⟩ := hstart hc
        cases hl
        obtain ⟨more, hline⟩ := l.exists_line
        rw [lines_cons, hline, htext]
        exact hc

/-- What can be spelled again is read again. -/
theorem Respellable.scanFrom_lines {ls : List Lexeme} (h : Respellable ls) (pos : Position)
    (done : List Lexeme) :
    ∃ again, scanFrom pos done (lines ls) = .ok (done.reverse ++ again) ∧
      again.map Lexeme.unplaced = ls.map Lexeme.unplaced := by
  induction h generalizing pos done with
  | nil => exact ⟨[], by rw [lines, List.flatMap_nil, scanFrom, List.append_nil], rfl⟩
  | @line l ls hl hls ih =>
    have hline := hl.line_eq
    obtain ⟨c, rest, htext, hread⟩ := hl
    obtain ⟨l', hread, hsame⟩ := hread pos
    have hlines : lines (l :: ls) = c :: (rest ++ '\n' :: lines ls) := by
      rw [lines_cons, hline, String.toList_append, htext, List.append_assoc]
      rfl
    have hfeed : ReadsPiece (pos.after (c :: rest)) '\n' (lines ls) none 0 := .space _ rfl
    obtain ⟨again, hagain, hmore⟩ := ih ((pos.after (c :: rest)).after ['\n']) (l' :: done)
    refine ⟨l' :: again, ?_, by rw [List.map_cons, List.map_cons, hsame, hmore]⟩
    -- the lexeme takes up the line, and the line feed is a gap
    rw [hlines, scanFrom_cons (readPiece_append_lineFeed _ hread.readPiece_eq), List.take_left,
      List.drop_left, scanFrom_cons hfeed.readPiece_eq]
    simpa using hagain
  | @point l ls hl hname hls ih =>
    have hlines : lines (l :: ls) = '.' :: lines ls := by
      rw [lines_cons, Lexeme.line_of_unplaced_eq hl]
      rfl
    have hread : ReadsPiece pos '.' (lines ls) _ _ := .point hname
    obtain ⟨again, hagain, hmore⟩ :=
      ih (pos.after ['.']) (⟨.punctuator, ".", pos, []⟩ :: done)
    refine ⟨⟨.punctuator, ".", pos, []⟩ :: again, ?_, ?_⟩
    · rw [hlines, scanFrom_cons hread.readPiece_eq]
      simpa using hagain
    · rw [List.map_cons, List.map_cons, hl, hmore]
      rfl

/-- The texts of the tokens of a source text, one in a line, have the same tokens: with the same
numbers, kinds, texts and parts. -/
theorem tokenize_respell (source : String) (tokens : List Token)
    (h : tokenize source = .ok tokens) :
    ∃ again, tokenize (respell tokens) = .ok again ∧
      again.map Token.unplaced = tokens.map Token.unplaced := by
  obtain ⟨ls, hscan, rfl⟩ := tokenize_eq_ok_iff.mp h
  rw [scan, Position.start_eq_endOf] at hscan
  obtain ⟨ls, rfl, hls, -⟩ := respellable_of_scanFrom hscan
  obtain ⟨again, hagain, hsame⟩ := hls.scanFrom_lines .start []
  refine ⟨Lexeme.numbered again, tokenize_eq_ok_iff.mpr ⟨again, ?_, rfl⟩, ?_⟩
  · rw [scan, toList_respell, Lexeme.toLexeme_numbered]
    exact hagain
  · rw [unplaced_numbered, unplaced_numbered]
    exact congrArg Lexeme.numbered hsame

/-- A source text with a directive, a point, an operator, numbers that are rewritten and quoted
literals with escape sequences. -/
def sampleTexts : String :=
  "#a \nb.c>>=0X0FU+.50E+1F/**/L\"\\tz\"'\\x41'"

def sampleTextTokens : List Token :=
  [⟨⟨.directive, "#a", ⟨1, 1⟩, []⟩, 1⟩, ⟨⟨.identifier, "b", ⟨2, 1⟩, []⟩, 2⟩,
   ⟨⟨.punctuator, ".", ⟨2, 2⟩, []⟩, 3⟩, ⟨⟨.identifier, "c", ⟨2, 3⟩, []⟩, 4⟩,
   ⟨⟨.punctuator, ">>=", ⟨2, 4⟩, []⟩, 5⟩,
   ⟨⟨.literal (.integer .plain false .hex), "0xfu", ⟨2, 7⟩, []⟩, 6⟩,
   ⟨⟨.punctuator, "+", ⟨2, 12⟩, []⟩, 7⟩, ⟨⟨.literal .float, "0.5e1f", ⟨2, 13⟩, []⟩, 8⟩,
   ⟨⟨.literal .string, "L\"\\tz\"", ⟨2, 24⟩,
     [⟨.wideQuotes, "L\"", ⟨2, 24⟩⟩, ⟨.escape, "\\t", ⟨2, 26⟩⟩,
      ⟨.literal .string, "z", ⟨2, 28⟩⟩, ⟨.quotes, "\"", ⟨2, 29⟩⟩]⟩, 9⟩,
   ⟨⟨.literal .char, "'\\x41'", ⟨2, 30⟩,
     [⟨.quote, "'", ⟨2, 30⟩⟩, ⟨.escape, "\\x41", ⟨2, 31⟩⟩, ⟨.quote, "'", ⟨2, 35⟩⟩]⟩, 10⟩]

theorem tokenize_respell_sample :
    tokenize sampleTexts = .ok sampleTextTokens ∧
      respell sampleTextTokens
        = "#a\nb\n.c\n>>=\n0xfu\n+\n0.5e1f\nL\"\\tz\"\n'\\x41'\n" ∧
      ∃ again, tokenize (respell sampleTextTokens) = .ok again ∧
        again.map Token.unplaced = sampleTextTokens.map Token.unplaced := by
  have h : tokenize sampleTexts = .ok sampleTextTokens := by
    rw [tokenize_eq]
    cbv
  exact ⟨h, by cbv, tokenize_respell _ _ h⟩

end MiniC
