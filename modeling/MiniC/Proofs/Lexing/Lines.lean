import MiniC.Proofs.Lexing.Partition

set_option autoImplicit false

/-! # Texts of several lines

What happens to a source text when lines are added in front of it or behind it. Lines behind a text
that can be read leave its lexemes as they are, lines in front of a text move everything that is
said about it down. The main statement puts both together: a text that can be read, a line feed and
another text are read as one after the other. -/

namespace MiniC

open CharClass

/-! ## Moving down -/

/-- A place `k` lines further down. -/
def Position.down (k : Nat) (p : Position) : Position :=
  ⟨p.line + k, p.col⟩

/-- A part of a literal `k` lines further down. -/
def Part.down (k : Nat) (p : Part) : Part :=
  { p with pos := p.pos.down k }

/-- A lexeme `k` lines further down, with its parts. -/
def Lexeme.down (k : Nat) (l : Lexeme) : Lexeme :=
  { l with pos := l.pos.down k, parts := l.parts.map (Part.down k) }

/-- An error `k` lines further down. -/
def LexicalError.down (k : Nat) (e : LexicalError) : LexicalError :=
  { e with pos := e.pos.down k }

/-- The result of reading a text `k` lines further down, where `move` moves what was read. -/
def resultDown {α : Type} (move : α → α) (k : Nat) :
    Except LexicalError α → Except LexicalError α
  | .ok a => .ok (move a)
  | .error e => .error (e.down k)

theorem Position.next_down (k : Nat) (p : Position) (c : Char) :
    (p.down k).next c = (p.next c).down k := by
  by_cases hc : c = '\n'
  · simp only [next, if_pos hc, down, Nat.add_right_comm]
  · simp only [next, if_neg hc, down]

theorem Position.after_down (k : Nat) (p : Position) (cs : List Char) :
    (p.down k).after cs = (p.after cs).down k := by
  induction cs generalizing p with
  | nil => rfl
  | cons c cs ih => rw [after_cons, after_cons, next_down, ih]

section

variable {α β : Type} {move : α → α} {k : Nat}

theorem resultDown_bind {x : Except LexicalError β} {f f' : β → Except LexicalError α}
    {move' : β → β} (h : ∀ b, f' (move' b) = resultDown move k (f b)) :
    resultDown move' k x >>= f' = resultDown move k (x >>= f) := by
  cases x with
  | error e => rfl
  | ok b => exact h b

theorem ite_eq_resultDown {p : Prop} [Decidable p] {a b a' b' : Except LexicalError α}
    (ha : a' = resultDown move k a) (hb : b' = resultDown move k b) :
    (if p then a' else b') = resultDown move k (if p then a else b) := by
  split
  · exact ha
  · exact hb

end

/-! ## Reading further down -/

/-- The parts of a quoted literal and their extent, `k` lines further down. -/
def partsDown (k : Nat) (result : List Part × Nat) : List Part × Nat :=
  (result.1.map (Part.down k), result.2)

theorem stringParts_down (k : Nat) (pos : Position) (text : List Char) :
    Quoted.stringParts (pos.down k) text
      = resultDown (partsDown k) k (Quoted.stringParts pos text) := by
  induction pos, text using Quoted.stringParts.induct with
  | case1 pos => simp only [Quoted.stringParts]; rfl
  | case2 pos rest => simp only [Quoted.stringParts]; rfl
  | case3 pos rest => simp only [Quoted.stringParts]; rfl
  | case4 pos rest hescape => simp only [Quoted.stringParts, hescape]; rfl
  | case5 pos rest n hescape spelling =>
    rename_i ih
    rw [Quoted.stringParts, Quoted.stringParts, hescape]
    simp only [Position.after_down]
    rw [ih]
    exact resultDown_bind fun _ => rfl
  | case6 pos c rest hline hclose hescape run =>
    rename_i ih
    rw [Quoted.stringParts, Quoted.stringParts]
    · rw [Position.after_down, ih]
      exact resultDown_bind fun _ => rfl
    all_goals assumption

theorem charParts_down (k : Nat) (pos : Position) (text : List Char) :
    Quoted.charParts (pos.down k) text
      = resultDown (partsDown k) k (Quoted.charParts pos text) := by
  unfold Quoted.charParts
  simp only [Position.after_down, Position.next_down]
  split
  case h_4 rest =>
    split
    · rfl
    · split <;> rfl
  case h_5 => split <;> rfl
  all_goals rfl

/-- A lexeme and its extent, `k` lines further down. -/
def lexemeDown (k : Nat) (result : Lexeme × Nat) : Lexeme × Nat :=
  (result.1.down k, result.2)

theorem readQuoted_down (k : Nat) (kind : LiteralKind) (opening : Part)
    (parts : Except LexicalError (List Part × Nat)) :
    readQuoted kind (opening.down k) (resultDown (partsDown k) k parts)
      = resultDown (lexemeDown k) k (readQuoted kind opening parts) := by
  cases parts with
  | error e => rfl
  | ok result =>
    have htexts : ((opening :: result.1).map (Part.down k)).map Part.text
        = (opening :: result.1).map Part.text := by
      rw [List.map_map]
      rfl
    show Except.ok (_, _) = Except.ok (_, _)
    simp only [← List.map_cons, htexts]
    rfl

/-- A piece and its extent, `k` lines further down. -/
def pieceDown (k : Nat) (result : Option Lexeme × Nat) : Option Lexeme × Nat :=
  (result.1.map (Lexeme.down k), result.2)

theorem quotedPiece_down (k : Nat) (kind : LiteralKind) (opening : Part)
    (parts : Except LexicalError (List Part × Nat)) (longer : Nat → Nat) :
    (do
      let (lexeme, n) ← readQuoted kind (opening.down k) (resultDown (partsDown k) k parts)
      return (some lexeme, longer n))
    = resultDown (pieceDown k) k (do
        let (lexeme, n) ← readQuoted kind opening parts
        return (some lexeme, longer n)) := by
  rw [readQuoted_down]
  exact resultDown_bind fun _ => rfl

theorem numberPiece_down (k : Nat) (pos : Position) (text : List Char) :
    numberPiece (pos.down k) text = resultDown (pieceDown k) k (numberPiece pos text) := by
  unfold numberPiece
  simp only [Position.after_down]
  split <;> rfl

/-- A piece is read alike wherever its line is: what it is does not depend on its position, and its
position is the only one it speaks of. -/
theorem readPiece_down (k : Nat) (pos : Position) (c : Char) (rest : List Char) :
    readPiece (pos.down k) c rest = resultDown (pieceDown k) k (readPiece pos c rest) := by
  unfold readPiece
  refine ite_eq_resultDown ?space <| ite_eq_resultDown ?wide <| ite_eq_resultDown ?string <|
    ite_eq_resultDown ?char <| ite_eq_resultDown ?number <| ite_eq_resultDown ?point <|
    ite_eq_resultDown ?name <| ite_eq_resultDown ?directive <| ite_eq_resultDown ?line <|
    ite_eq_resultDown ?block <| ite_eq_resultDown ?separator <| ite_eq_resultDown ?operator ?other
  case wide =>
    simp only [Position.next_down, stringParts_down]
    exact quotedPiece_down k .string ⟨.wideQuotes, "L\"", pos⟩ _ (· + 1)
  case string =>
    simp only [Position.next_down, stringParts_down]
    exact quotedPiece_down k .string ⟨.quotes, "\"", pos⟩ _ id
  case char =>
    simp only [Position.next_down, charParts_down]
    exact quotedPiece_down k .char ⟨.quote, "'", pos⟩ _ id
  case number => exact numberPiece_down k pos _
  case point =>
    refine ite_eq_resultDown (numberPiece_down k pos _) (ite_eq_resultDown ?_ ?_) <;> rfl
  case block => split <;> rfl
  all_goals rfl

/-- A text `k` lines further down is read alike, and all that is said about it is moved down. -/
theorem scanFrom_down (k : Nat) (pos : Position) (done : List Lexeme) (text : List Char) :
    scanFrom (pos.down k) (done.map (Lexeme.down k)) text
      = resultDown (List.map (Lexeme.down k)) k (scanFrom pos done text) := by
  induction pos, done, text using scanFrom.induct with
  | case1 pos done =>
    rw [scanFrom, scanFrom, ← List.map_reverse]
    rfl
  | case2 pos done c rest e herror =>
    rw [scanFrom, scanFrom, readPiece_down, herror]
    rfl
  | case3 pos done c rest piece n hpiece ih =>
    rw [scanFrom, scanFrom, readPiece_down, hpiece]
    have hpieces : (piece.map (Lexeme.down k)).toList ++ done.map (Lexeme.down k)
        = (piece.toList ++ done).map (Lexeme.down k) := by
      cases piece <;> rfl
    show scanFrom ((pos.down k).after _) ((piece.map (Lexeme.down k)).toList ++ _) _ = _
    rw [Position.after_down, hpieces, ih]

/-! ## Lines behind a text -/

/-- A piece that is read is read alike in front of more lines. -/
theorem readPiece_append_lineFeed {pos : Position} {c : Char} {rest : List Char}
    {piece : Option Lexeme} {n : Nat} (more : List Char)
    (h : readPiece pos c rest = .ok (piece, n)) :
    readPiece pos c (rest ++ '\n' :: more) = .ok (piece, n) := by
  apply ReadsPiece.readPiece_eq
  have hslashes := startsWith_append_stop (d := '\n') (p := fun d => d = '/' || d = '*') (by decide)
  -- what the rules look at beyond the piece is the same in front of a line feed
  cases ReadsPiece.of_readPiece h with
  | space rest hc => exact .space _ hc
  | wide hparts => exact .wide (hparts.append_lineFeed more)
  | string hparts => exact .string (hparts.append_lineFeed more)
  | char hparts => exact .char (hparts.append_lineFeed more)
  | number hc hread =>
    refine .number ?_ ((Number.read_append_break (.inl rfl) (c :: rest) more).trans hread)
    rwa [startsWith_append_stop rfl]
  | point hname => exact .point (by rwa [startsWith_append_stop rfl])
  | name hc hwide =>
    rw [← takeWhile_append_stop (d := '\n') (p := isName) rfl rest more]
    exact .name hc fun hL => by rw [startsWith_append_stop (by decide), hwide hL]
  | directive rest =>
    rw [← firstLine_append_lineFeed rest more]
    exact .directive _
  | lineComment rest =>
    rw [← firstLine_append_lineFeed rest more]
    exact .lineComment _
  | blockComment hlength => exact .blockComment (commentLength_append hlength _)
  | separator rest hc => exact .separator _ hc
  | operator hc hcomment =>
    rw [← longestOperator_append_break (.inl rfl) c rest more]
    exact .operator hc fun hslash => by rw [hslashes, hcomment hslash]

/-! ## One text after the other -/

/-- The lexemes that were read already only stand in front of those that are read. -/
theorem scanFrom_append (pos : Position) (done first : List Lexeme) (text : List Char) :
    scanFrom pos (done ++ first) text = (scanFrom pos done text).map (first.reverse ++ ·) := by
  induction pos, done, text using scanFrom.induct with
  | case1 pos done =>
    rw [scanFrom, scanFrom, List.reverse_append]
    rfl
  | case2 pos done c rest e herror =>
    rw [scanFrom, scanFrom, herror]
    rfl
  | case3 pos done c rest piece n hpiece ih =>
    rw [scanFrom_cons hpiece, scanFrom_cons hpiece, ← List.append_assoc, ih]

/-- A line feed behind a text that can be read ends it, and reading goes on from there. -/
theorem scanFrom_append_lineFeed {before text : List Char} {done ls : List Lexeme}
    (h : scanFrom (.endOf before) done text = .ok ls) (more : List Char) :
    scanFrom (.endOf before) done (text ++ '\n' :: more)
      = scanFrom (.endOf (before ++ text ++ ['\n'])) ls.reverse more := by
  generalize hpos : Position.endOf before = pos at h
  induction pos, done, text using scanFrom.induct generalizing before with
  | case1 pos done =>
    rw [scanFrom] at h
    cases h
    -- only the line feed is left in front of the other text, and it is a space
    rw [List.nil_append, scanFrom, readPiece, if_pos (by decide)]
    simp [← hpos, Position.endOf_append_singleton]
  | case2 pos done c rest e herror =>
    rw [scanFrom, herror] at h
    cases h
  | case3 pos done c rest piece n hpiece ih =>
    -- the piece ends before the line feed, so what is left of the first text still ends with it
    subst hpos
    have hle := (extends_of_readPiece hpiece).1
    have htext : before ++ (c :: rest) = before ++ (c :: rest.take n) ++ rest.drop n := by simp
    rw [scanFrom_cons hpiece] at h
    rw [List.cons_append, scanFrom_cons (readPiece_append_lineFeed more hpiece),
      List.take_append_of_le_length hle, List.drop_append_of_le_length hle, htext]
    exact ih (Position.after_endOf before (c :: rest.take n)).symm h

theorem endOf_append_lineFeed (before : List Char) :
    Position.endOf (before ++ ['\n']) = Position.start.down (before.count '\n' + 1) := by
  simp [Position.endOf, Position.start, Position.down, Nat.add_comm]

/-- The number of line feeds in a text. -/
def lineFeeds (text : String) : Nat := text.toList.count '\n'

theorem scan_append_lineFeed {front : String} {ls : List Lexeme} (h : scan front = .ok ls)
    (back : String) :
    scan (front ++ "\n" ++ back)
      = (resultDown (List.map (Lexeme.down (lineFeeds front + 1))) (lineFeeds front + 1)
          (scan back)).map (ls ++ ·) := by
  rw [scan, Position.start_eq_endOf] at h
  have htext : (front ++ "\n" ++ back).toList = front.toList ++ '\n' :: back.toList := by simp
  rw [scan, Position.start_eq_endOf, htext, scanFrom_append_lineFeed h, List.nil_append,
    endOf_append_lineFeed, ← List.nil_append ls.reverse, scanFrom_append, List.reverse_reverse]
  exact congrArg (Except.map (ls ++ ·)) (scanFrom_down _ .start [] back.toList)

/-- A text that can be read, a line feed and another text are read one after the other: the lexemes
of the second text, or the error in it, are moved down by the lines of the first, and the tokens are
numbered by the first appearance of their texts. -/
theorem tokenize_append_lineFeed (front back : String) (tokens : List Token)
    (h : tokenize front = .ok tokens) :
    (∀ more, tokenize back = .ok more →
      tokenize (front ++ "\n" ++ back) = .ok (Lexeme.numbered
        (tokens.map Token.toLexeme
          ++ (more.map Token.toLexeme).map (Lexeme.down (lineFeeds front + 1))))) ∧
    (∀ e, tokenize back = .error e →
      tokenize (front ++ "\n" ++ back) = .error (e.down (lineFeeds front + 1))) := by
  obtain ⟨ls, hfront, rfl⟩ := tokenize_eq_ok_iff.mp h
  have hboth := scan_append_lineFeed hfront back
  rw [Lexeme.toLexeme_numbered]
  constructor
  · intro more hmore
    obtain ⟨ls', hback, rfl⟩ := tokenize_eq_ok_iff.mp hmore
    rw [hback] at hboth
    rw [Lexeme.toLexeme_numbered]
    exact tokenize_eq_ok_iff.mpr ⟨_, hboth, rfl⟩
  · intro e he
    rw [tokenize_eq_error_iff] at he ⊢
    rw [hboth, he]
    rfl

/-- A text of two lines with a comment at the end of one and a string literal on the other. -/
def sampleFront : String :=
  "a//b\n\"c\\n\""

def sampleFrontTokens : List Token :=
  [⟨⟨.identifier, "a", ⟨1, 1⟩, []⟩, 1⟩,
   ⟨⟨.literal .string, "\"c\\n\"", ⟨2, 1⟩,
     [⟨.quotes, "\"", ⟨2, 1⟩⟩, ⟨.literal .string, "c", ⟨2, 2⟩⟩, ⟨.escape, "\\n", ⟨2, 3⟩⟩,
      ⟨.quotes, "\"", ⟨2, 5⟩⟩]⟩, 2⟩]

theorem tokenize_append_lineFeed_sample :
    tokenize sampleFront = .ok sampleFrontTokens ∧
    tokenize "d a"
      = .ok [⟨⟨.identifier, "d", ⟨1, 1⟩, []⟩, 1⟩, ⟨⟨.identifier, "a", ⟨1, 3⟩, []⟩, 2⟩] ∧
    tokenize (sampleFront ++ "\n" ++ "d a") = .ok (sampleFrontTokens ++
      [⟨⟨.identifier, "d", ⟨3, 1⟩, []⟩, 3⟩, ⟨⟨.identifier, "a", ⟨3, 3⟩, []⟩, 1⟩]) ∧
    tokenize "\n  @" = .error ⟨.unknownSymbol '@', ⟨2, 3⟩⟩ ∧
    tokenize (sampleFront ++ "\n" ++ "\n  @") = .error ⟨.unknownSymbol '@', ⟨4, 3⟩⟩ := by
  have hfront : tokenize sampleFront = .ok sampleFrontTokens := by
    rw [tokenize_eq]
    cbv
  have hback : tokenize "d a"
      = .ok [⟨⟨.identifier, "d", ⟨1, 1⟩, []⟩, 1⟩, ⟨⟨.identifier, "a", ⟨1, 3⟩, []⟩, 2⟩] := by
    rw [tokenize_eq]
    cbv
  have herror : tokenize "\n  @" = .error ⟨.unknownSymbol '@', ⟨2, 3⟩⟩ := by
    rw [tokenize_eq]
    cbv
  refine ⟨hfront, hback, ?_, herror, ?_⟩
  · rw [(tokenize_append_lineFeed _ _ _ hfront).1 _ hback]
    cbv
  · rw [(tokenize_append_lineFeed _ _ _ hfront).2 _ herror]
    cbv

end MiniC
