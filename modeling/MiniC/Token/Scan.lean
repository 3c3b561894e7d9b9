import MiniC.Text.Blank
import MiniC.Token.Number
import MiniC.Token.Quoted

set_option autoImplicit false

/-! # From text to lexemes

A source text is read from the front, one piece after another. A piece is either a gap (a space
character or a comment) or a lexeme, and it always takes up at least one character, so reading
ends. Each rule looks at the text in front of it only, and where it gives up it names the position
at which it stopped. -/

namespace MiniC

open CharClass

/-! ## Words and operators -/

/-- The words that type names are made of. -/
def typeKeywords : List String :=
  ["auto", "char", "const", "double", "float", "int", "long", "short", "struct", "signed",
   "unsigned", "void"]

/-- The other words that are no identifiers. -/
def keywords : List String :=
  ["break", "case", "continue", "default", "do", "else", "enum", "extern", "for", "goto", "if",
   "inline", "register", "restrict", "return", "sizeof", "static", "switch", "typedef", "union",
   "volatile", "while"]

/-- The kind of the word `text`. -/
def wordKind (text : String) : TokenKind :=
  if typeKeywords.contains text then .typeKeyword
  else if keywords.contains text then .keyword
  else .identifier

/-- The operators of three characters. -/
def operators3 : List (List Char) := [['<', '<', '='], ['>', '>', '=']]

/-- The operators of two characters. -/
def operators2 : List (List Char) :=
  [['+', '+'], ['+', '='], ['-', '-'], ['-', '='], ['-', '>'], ['*', '='], ['/', '='], ['%', '='],
   ['<', '<'], ['<', '='], ['>', '>'], ['>', '='], ['|', '|'], ['|', '='], ['&', '&'], ['&', '='],
   ['^', '='], ['=', '='], ['!', '=']]

/-- The operators of one character. -/
def operators1 : List Char :=
  ['+', '-', '*', '/', '%', '<', '>', '~', '|', '&', '^', '=', '!', '?', ':']

/-- The punctuation marks that are no operators and never join with another character. -/
def separators : List Char := ['(', ')', '[', ']', '\x7b', '\x7d', ';', ',']

/-- The longest operator at the front of a text that begins with the operator character `c`. -/
def longestOperator (c : Char) (rest : List Char) : List Char :=
  if operators3.contains (c :: rest.take 2) then c :: rest.take 2
  else if operators2.contains (c :: rest.take 1) then c :: rest.take 1
  else [c]

/-! ## Pieces -/

/-- The number of characters up to the end of a block comment, its closing mark included. -/
def commentLength : List Char → Option Nat
  | [] => none
  | '*' :: '/' :: _ => some 2
  | _ :: rest => (commentLength rest).map (· + 1)

/-- A quoted literal whose opening mark is given with its kind, and whose other parts stand in
front of `rest`. -/
def readQuoted (kind : LiteralKind) (opening : Part)
    (parts : Except LexicalError (List Part × Nat)) : Except LexicalError (Lexeme × Nat) := do
  let (others, length) ← parts
  let all := opening :: others
  return (⟨.literal kind, String.join (all.map Part.text), opening.pos, all⟩, length)

/-- A lexeme that stands for itself, as a piece. -/
def wordPiece (pos : Position) (kind : TokenKind) (text : List Char) :
    Except LexicalError (Option Lexeme × Nat) :=
  .ok (some ⟨kind, String.ofList text, pos, []⟩, text.length - 1)

/-- The numeric literal at the front of a text, as a piece. -/
def numberPiece (pos : Position) (text : List Char) : Except LexicalError (Option Lexeme × Nat) :=
  match Number.read text with
  | .ok n => .ok (some ⟨.literal n.kind, String.ofList n.text, pos, []⟩, n.length - 1)
  | .error fault => .error ⟨fault.cause, pos.after (text.take fault.offset)⟩

/-- The part of a text in front of the end of its first line. -/
def firstLine (text : List Char) : List Char :=
  text.takeWhile (· ≠ '\n')

/-- The piece at the front of the text `c :: rest`: the lexeme, if it is one, and the number of
characters that it takes up after the first. -/
def readPiece (pos : Position) (c : Char) (rest : List Char) :
    Except LexicalError (Option Lexeme × Nat) :=
  if isSpace c then
    .ok (none, 0)
  else if c = 'L' && startsWith (· = '"') rest then do
    let start := (pos.next c).next '"'
    let (lexeme, n) ← readQuoted .string ⟨.wideQuotes, "L\"", pos⟩
      (Quoted.stringParts start (rest.drop 1))
    return (some lexeme, n + 1)
  else if c = '"' then do
    let (lexeme, n) ← readQuoted .string ⟨.quotes, "\"", pos⟩
      (Quoted.stringParts (pos.next c) rest)
    return (some lexeme, n)
  else if c = '\'' then do
    let (lexeme, n) ← readQuoted .char ⟨.quote, "'", pos⟩ (Quoted.charParts (pos.next c) rest)
    return (some lexeme, n)
  else if isDigit c then
    numberPiece pos (c :: rest)
  else if c = '.' then
    if startsWith isDigit rest then numberPiece pos (c :: rest)
    else if startsWith isNameStart rest then wordPiece pos .punctuator [c]
    else .error ⟨.invalidPoint, pos⟩
  else if isNameStart c then
    let text := c :: rest.takeWhile isName
    wordPiece pos (wordKind (String.ofList text)) text
  else if c = '#' then
    let line := firstLine rest
    .ok (some ⟨.directive, String.ofList (Text.trimEnd (c :: line)), pos, []⟩, line.length)
  else if c = '/' && startsWith (· = '/') rest then
    .ok (none, (firstLine rest).length)
  else if c = '/' && startsWith (· = '*') rest then
    match commentLength (rest.drop 1) with
    | none => .error ⟨.unclosedComment, pos⟩
    | some n => .ok (none, n + 1)
  else if separators.contains c then
    wordPiece pos .punctuator [c]
  else if operators1.contains c then
    wordPiece pos .punctuator (longestOperator c rest)
  else
    .error ⟨.unknownSymbol c, pos⟩

/-! ## Whole texts -/

/-- The lexemes of a text at `pos`, in front of which the lexemes `before` were read, last one
first. -/
def scanFrom (pos : Position) (before : List Lexeme) (text : List Char) :
    Except LexicalError (List Lexeme) :=
  match text with
  | [] => .ok before.reverse
  | c :: rest =>
    match readPiece pos c rest with
    | .error e => .error e
    | .ok (piece, n) =>
      scanFrom (pos.after (c :: rest.take n)) (piece.toList ++ before) (rest.drop n)
termination_by text.length
decreasing_by simp only [List.length_cons, List.length_drop]; omega

/-- The lexemes of a source text, or the first lexical error in it. -/
def scan (source : String) : Except LexicalError (List Lexeme) :=
  scanFrom .start [] source.toList

end MiniC
