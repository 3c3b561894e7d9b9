import MiniC.Token.Scan

set_option autoImplicit false

/-! # A driver that reads character by character

A text can also be read by a machine that has one state for each kind of construct and looks at few
characters at a time. It is called again and again until the whole text is read. What is open at the
end of the text is closed by a space that stands behind it. The machine goes through the text from
the front to the back, but a call may also just hand over to another state, which then looks at the
same character. -/

namespace MiniC

open CharClass

/-- The states of the driver: between two constructs, or in the middle of one. -/
inductive Driver.Mode
  | default
  | identifier
  | point
  | directive
  | slash
  | operator
  | numeric
  | binary
  | hex
  | suffixed
  | floating
  | string
  | char
deriving DecidableEq, Repr

/-- What the driver knows between two calls. -/
structure Driver where
  mode : Driver.Mode
  /-- How many characters of the text lie behind it. -/
  offset : Nat
  /-- The position of the next character. -/
  pos : Position
  /-- The lexemes that were read, and the parts of a quoted literal that is open. -/
  lexemes : List Lexeme
  /-- The characters of the construct that it is in, as far as they count. -/
  lexeme : List Char
  /-- Where that construct begins. -/
  start : Position
  /-- The place of the opening mark of a quoted literal among the lexemes. -/
  openIndex : Nat
  /-- Whether a floating literal has a point. -/
  point : Bool
  /-- The sign and the digits of the exponent of a floating literal, if it has one. -/
  exponent : Option (List Char)
  /-- The radix that an integer literal is marked with. -/
  radix : Option Radix
deriving DecidableEq, Repr

namespace Driver

/-- Why a call gives no new state. -/
inductive Failure
  | rejected (e : LexicalError)
  /-- It looked at a character outside of the text, or for the opening mark of a literal where there
  is none. -/
  | outside
deriving DecidableEq, Repr

/-- The driver at the front of a text. -/
def init : Driver where
  mode := .default
  offset := 0
  pos := .start
  lexemes := []
  lexeme := []
  start := .start
  openIndex := 0
  point := false
  exponent := none
  radix := none

/-! ## Steps that do not look at the text -/

/-- Stops with an error at the next character. -/
def reject (d : Driver) (cause : LexicalCause) : Except Failure Driver :=
  .error (.rejected ⟨cause, d.pos⟩)

/-- Begins a construct. -/
def begin (d : Driver) : Driver :=
  { d with start := d.pos, lexeme := [] }

/-- Goes to another state. -/
def enter (d : Driver) (mode : Mode) : Driver :=
  { d with mode }

/-- Goes to the state of an integer literal without a mark. -/
def toNumber (d : Driver) : Driver :=
  { d with point := false, exponent := none, radix := none, mode := .numeric }

/-- Adds a lexeme that begins where the construct does. -/
def emit (d : Driver) (kind : TokenKind) (text : String) : Driver :=
  { d with lexemes := d.lexemes ++ [⟨kind, text, d.start, []⟩] }

/-- Adds a lexeme that begins at the next character. -/
def emitHere (d : Driver) (kind : TokenKind) (text : String) : Driver :=
  { d with lexemes := d.lexemes ++ [⟨kind, text, d.pos, []⟩] }

/-- Adds a lexeme that is the whole construct, which ends with it. -/
def complete (d : Driver) (kind : TokenKind) (text : List Char) : Driver :=
  (d.emit kind (String.ofList text)).enter .default

/-- Goes to the state of a quoted literal, of which the opening mark is the first part. -/
def openQuoted (d : Driver) (mode : Mode) (kind : TokenKind) (text : String) : Driver :=
  { d.emit kind text with openIndex := d.lexemes.length, mode }

/-- Adds a character to the construct. -/
def collect (d : Driver) (c : Char) : Driver :=
  { d with lexeme := d.lexeme ++ [c] }

/-- Puts the plain text that was read last behind the other parts of a string literal. -/
def flushRun (d : Driver) : Driver :=
  if d.lexeme = [] then d
  else { d.emit (.literal .string) (String.ofList d.lexeme) with lexeme := [] }

@[simp] theorem flushRun_offset (d : Driver) : d.flushRun.offset = d.offset := by
  unfold flushRun
  split <;> rfl

@[simp] theorem flushRun_pos (d : Driver) : d.flushRun.pos = d.pos := by
  unfold flushRun
  split <;> rfl

@[simp] theorem flushRun_mode (d : Driver) : d.flushRun.mode = d.mode := by
  unfold flushRun
  split <;> rfl

@[simp] theorem flushRun_lexeme (d : Driver) : d.flushRun.lexeme = [] := by
  unfold flushRun
  split
  · assumption
  · rfl

/-- Begins plain text in a string literal, unless the character before belongs to it. -/
def beginRun (d : Driver) : Driver :=
  if d.lexeme = [] then { d with start := d.pos } else d

/-- The number of parts of a quoted literal that is open, without its opening mark. -/
def content (d : Driver) : Nat :=
  d.lexemes.length - d.openIndex - 1

/-- A lexeme as a part of a quoted literal. -/
def partOf (l : Lexeme) : Part :=
  ⟨l.kind, l.text, l.pos⟩

/-- Replaces the parts since the opening mark by one literal. -/
def repair (d : Driver) (kind : LiteralKind) : Except Failure Driver :=
  match d.lexemes.drop d.openIndex with
  | [] => .error .outside
  | opening :: others =>
    let parts := opening :: others
    let literal : Lexeme :=
      ⟨.literal kind, String.join (parts.map (·.text)), opening.pos, parts.map partOf⟩
    .ok { d with
      lexemes := d.lexemes.take d.openIndex ++ [literal]
      lexeme := []
      mode := .default }

/-- The radix and the canonical spelling of an integer with the given mark and digits, without its
suffix. Digits without a mark that begin with a zero, and are not all zeros, have to be octal. -/
def integer? (radix : Option Radix) (lexeme : List Char) : Option (Radix × List Char) :=
  let digits := Number.dropLeadingZeros lexeme
  match radix with
  | some .binary => some (.binary, '0' :: 'b' :: Number.orZero digits)
  | some .hex => some (.hex, '0' :: 'x' :: Number.orZero digits)
  | _ =>
    if digits = [] then some (.decimal, ['0'])
    else if lexeme.head? = some '0' then
      if lexeme.all isOctal then some (.octal, '0' :: digits) else none
    else some (.decimal, digits)

/-- Ends an integer literal with a suffix in lower case. -/
def emitInteger (d : Driver) (suffix : List Char) (size : LiteralSize) (signed : Bool) :
    Except Failure Driver :=
  match integer? d.radix d.lexeme with
  | none => d.reject .invalidOctal
  | some (radix, digits) =>
    .ok { d.complete (.literal (.integer size signed radix)) (digits ++ suffix) with
      radix := some radix }

/-- What is missing at the end of a floating literal. -/
def missing (d : Driver) : Option LexicalCause :=
  match d.exponent with
  | none => if d.lexeme.getLast? = some '.' then some .endsWithPoint else none
  | some exponent => if exponent = [] ∨ exponent = ['-'] then some .endsWithExponent else none

/-- The canonical spelling of a floating literal. -/
def floatText (d : Driver) : List Char :=
  let whole := d.lexeme.takeWhile (· ≠ '.')
  let fraction := (d.lexeme.dropWhile (· ≠ '.')).drop 1
  Number.orZero (Number.dropLeadingZeros whole)
    ++ (if d.point then '.' :: Number.orZero (Number.dropTrailingZeros fraction) else [])
    ++ (match d.exponent with
        | none => []
        | some exponent => 'e' :: exponent)

/-! ## Steps that look at the text -/

section

variable (text : List Char)

/-- Goes on with the next character. -/
def look (d : Driver) (go : Char → Except Failure Driver) : Except Failure Driver :=
  match text[d.offset]? with
  | some c => go c
  | none => .error .outside

/-- The character `k` places behind the next one, if there is one. -/
def peek (d : Driver) (k : Nat) : Option Char :=
  text[d.offset + k]?

/-- Whether the next character is the last one. -/
def atSentinel (d : Driver) : Bool :=
  d.offset + 1 = text.length

/-- Passes some characters. -/
def advance : Nat → Driver → Except Failure Driver
  | 0, d => .ok d
  | n + 1, d => d.look text fun c =>
    advance n { d with offset := d.offset + 1, pos := d.pos.next c }

/-- Passes all characters in front of the first one at which `stops` holds, and gives them to
`go`. -/
def advanceUntil (stops : Driver → Char → Bool) (d : Driver) (passed : List Char)
    (go : List Char → Driver → Except Failure Driver) : Except Failure Driver :=
  if h : d.offset < text.length then
    let c := text[d.offset]
    if stops d c then go passed d
    else advanceUntil stops { d with offset := d.offset + 1, pos := d.pos.next c } (passed ++ [c])
      go
  else .error .outside
termination_by text.length - d.offset

/-- Passes an escape sequence, which becomes a part of a literal. -/
def escape (d : Driver) : Except Failure Driver :=
  match Quoted.escapeLength (text.drop (d.offset + 1)) with
  | none => d.reject .invalidEscape
  | some n =>
    let spelling := (text.drop d.offset).take (n + 1)
    advance text (n + 1) (d.emitHere .escape (String.ofList spelling))

/-! ## The states -/

/-- Between two constructs: passes a space or a punctuation mark, or begins a construct. -/
def callDefault (d : Driver) : Except Failure Driver :=
  d.look text fun c =>
    if isSpace c then advance text 1 d
    else if c = 'L' ∧ d.peek text 1 = some '"' then
      advance text 2 (d.begin.openQuoted .string .wideQuotes "L\"")
    else if c = '"' then advance text 1 (d.begin.openQuoted .string .quotes "\"")
    else if c = '\'' then advance text 1 (d.begin.openQuoted .char .quote "'")
    else if isDigit c then .ok d.begin.toNumber
    else if c = '.' then .ok (d.begin.enter .point)
    else if isNameStart c then .ok (d.begin.enter .identifier)
    else if c = '#' then .ok (d.begin.enter .directive)
    else if c = '/' then .ok (d.begin.enter .slash)
    else if separators.contains c then advance text 1 (d.begin.complete .punctuator [c])
    else if operators1.contains c then .ok (d.begin.enter .operator)
    else d.reject (.unknownSymbol c)

/-- In a name. -/
def callIdentifier (d : Driver) : Except Failure Driver :=
  d.look text fun c =>
    if isName c then advance text 1 (d.collect c)
    else .ok (d.complete .identifier d.lexeme)

/-- At a point, which begins a number or stands in front of a name. -/
def callPoint (d : Driver) : Except Failure Driver :=
  if (d.peek text 1).any isDigit then
    .ok { d with point := false, exponent := none, mode := .floating }
  else if (d.peek text 1).any isNameStart then
    advance text 1 (d.complete .punctuator ['.'])
  else d.reject .invalidPoint

/-- In a directive, which ends with its line. -/
def callDirective (d : Driver) : Except Failure Driver :=
  d.look text fun c =>
    if c ≠ '\n' ∧ d.atSentinel text = false then
      advance text 1 (d.collect c)
    else .ok (d.complete .directive (Text.trimEnd d.lexeme))

/-- At a slash: passes a comment, or takes it for an operator. -/
def callSlash (d : Driver) : Except Failure Driver :=
  if d.peek text 1 = some '/' then
    advanceUntil text (fun d c => c = '\n' || d.atSentinel text) d [] fun _ d =>
      .ok (d.enter .default)
  else if d.peek text 1 = some '*' then
    match commentLength (text.drop (d.offset + 2)) with
    | none => d.reject .unclosedComment
    | some n => advance text (n + 2) (d.enter .default)
  else .ok (d.enter .operator)

/-- Passes an operator. -/
def passOperator (d : Driver) (op : List Char) : Except Failure Driver :=
  advance text op.length (d.complete .punctuator op)

/-- At an operator. -/
def callOperator (d : Driver) : Except Failure Driver :=
  d.look text fun c =>
    d.passOperator text (longestOperator c (text.drop (d.offset + 1)))

/-- In an integer literal without a mark, or in the whole part of a floating literal. -/
def callNumeric (d : Driver) : Except Failure Driver :=
  d.look text fun c =>
    if d.lexeme = [] ∧ c = '0' ∧ (d.peek text 1 = some 'b' ∨ d.peek text 1 = some 'B') then
      advance text 2 { d.enter .binary with radix := some .binary }
    else if d.lexeme = [] ∧ c = '0' ∧ (d.peek text 1 = some 'x' ∨ d.peek text 1 = some 'X') then
      advance text 2 { d.enter .hex with radix := some .hex }
    else if isDigit c then advance text 1 (d.collect c)
    else if c = '.' ∨ c = 'e' ∨ c = 'E' then .ok (d.enter .floating)
    else if c = 'f' ∨ c = 'F' then d.reject .floatWithoutPoint
    else if isSuffix c then .ok (d.enter .suffixed)
    else if isNameStart c then d.reject .invalidNumber
    else d.emitInteger [] .plain true

/-- In an integer literal with a mark, of which `isRadixDigit` are the digits. -/
def callMarked (isRadixDigit : Char → Bool) (cause : LexicalCause) (d : Driver) :
    Except Failure Driver :=
  d.look text fun c =>
    if isRadixDigit c then advance text 1 (d.collect c.toLower)
    else if d.lexeme ≠ [] ∧ isSuffix c then .ok (d.enter .suffixed)
    else if continuesNumber c ∨ d.lexeme = [] then d.reject cause
    else d.emitInteger [] .plain true

/-- At the suffix of an integer literal. -/
def callSuffixed (d : Driver) : Except Failure Driver :=
  advanceUntil text (fun _ c => !isSuffix c) d [] fun passed d =>
    let suffix := passed.map Char.toLower
    match Number.sizeOfSuffix suffix with
    | none => d.reject .invalidSuffix
    | some (size, signed) => d.look text fun c =>
      if suffix = [] ∨ continuesNumber c then d.reject .invalidSuffix
      else d.emitInteger suffix size signed

/-- In a floating literal, at or behind its point or its exponent. -/
def callFloating (d : Driver) : Except Failure Driver :=
  d.look text fun c =>
    if c = '.' then
      if d.point ∨ d.exponent.isSome then d.reject .invalidPointInNumber
      else advance text 1 { d.collect c with point := true }
    else if c = 'e' ∨ c = 'E' then
      if d.exponent.isSome then d.reject .invalidExponent
      else do
        let d ← advance text 1 { d with exponent := some [] }
        d.look text fun sign =>
          if sign = '-' then advance text 1 { d with exponent := some ['-'] }
          else if sign = '+' then advance text 1 d
          else .ok d
    else if isDigit c then
      match d.exponent with
      | some exponent => advance text 1 { d with exponent := some (exponent ++ [c]) }
      | none => advance text 1 (d.collect c)
    else if c = 'f' ∨ c = 'F' then
      match d.missing with
      | some cause => d.reject cause
      | none => do
        let d ← advance text 1 d
        d.look text fun next =>
          if continuesNumber next then d.reject .invalidFloat
          else .ok (d.complete (.literal .float) (d.floatText ++ ['f']))
    else if isNameStart c then d.reject .invalidFloat
    else
      match d.missing with
      | some cause => d.reject cause
      | none => .ok (d.complete (.literal .double) d.floatText)

/-- In a string literal. -/
def callString (d : Driver) : Except Failure Driver :=
  d.look text fun c =>
    if c = '\n' ∨ d.atSentinel text then d.reject .unclosedQuote
    else if c = '"' then do
      let d ← advance text 1 (d.flushRun.emitHere .quotes "\"")
      d.repair .string
    else if c = '\\' then d.flushRun.escape text
    else advance text 1 (d.beginRun.collect c)

/-- In a character literal, which has one character or escape sequence. -/
def callChar (d : Driver) : Except Failure Driver :=
  d.look text fun c =>
    if c = '\n' ∨ d.atSentinel text then d.reject .unclosedQuote
    else if c = '\'' then
      if d.content = 0 then d.reject .emptyChar
      else do
        let d ← advance text 1 (d.emitHere .quote "'")
        d.repair .char
    else if d.content > 0 then d.reject .invalidChar
    else if c = '\\' then d.escape text
    else advance text 1 (d.emitHere (.literal .char) (String.ofList [c]))

/-- One call of the driver. -/
def call (d : Driver) : Except Failure Driver :=
  match d.mode with
  | .default => d.callDefault text
  | .identifier => d.callIdentifier text
  | .point => d.callPoint text
  | .directive => d.callDirective text
  | .slash => d.callSlash text
  | .operator => d.callOperator text
  | .numeric => d.callNumeric text
  | .binary => d.callMarked text isBinary .invalidBinary
  | .hex => d.callMarked text isHex .invalidHex
  | .suffixed => d.callSuffixed text
  | .floating => d.callFloating text
  | .string => d.callString text
  | .char => d.callChar text

/-! ## The loop -/

/-- The state after some calls; the driver is called until the whole text is read. -/
def calls : Nat → Driver → Except Failure Driver
  | 0, d => .ok d
  | n + 1, d => if d.offset < text.length then d.call text >>= calls n else .ok d

end

/-- A lexeme with the kind that its text has if it is a name. -/
def retag (l : Lexeme) : Lexeme :=
  if l.kind = .identifier then { l with kind := wordKind l.text } else l

/-- The text that the driver reads for a source text: a space stands behind it, which ends what is
open. -/
def textOf (source : String) : List Char :=
  source.toList ++ [' ']

end Driver

end MiniC
