import MiniC.Token.Basic
import MiniC.Token.CharClass
import MiniC.Token.Error

set_option autoImplicit false

/-! # String and character literals

Reads a quoted literal from the front of a text as a list of parts: the opening mark, then plain
text and escape sequences in turn, then the closing mark. The parts keep the spelling of the source,
so that their texts together are the text of the literal, and each knows the position it begins
at. A quoted literal stands on one line. -/

namespace MiniC

open CharClass

namespace Quoted

/-- The characters that denote another character after a backslash. -/
def simpleEscapes : List Char :=
  ['b', 'e', 'f', 'n', 'r', 't', 'v', '\\', '?', '"', 'a', '\'']

/-- The number of characters after the backslash of an escape sequence, where `rest` follows the
backslash: one of the simple escapes, three octal digits, a zero, or `x` before four or two
hexadecimal digits. -/
def escapeLength : List Char → Option Nat
  | [] => none
  | c :: rest =>
    if simpleEscapes.contains c then some 1
    else if isOctal c && (rest.take 2).length = 2 && (rest.take 2).all isOctal then some 3
    else if c = '0' then some 1
    else if c = 'x' then
      if (rest.take 4).length = 4 && (rest.take 4).all isHex then some 5
      else if (rest.take 2).length = 2 && (rest.take 2).all isHex then some 3
      else none
    else none

/-- A character that stands for itself in a string literal. -/
def isPlain (c : Char) : Bool := c ≠ '"' && c ≠ '\\' && c ≠ '\n'

/-- The parts of a string literal after its opening mark, the closing mark included, and the number
of characters they take up. `pos` is the position of the text. -/
def stringParts (pos : Position) (text : List Char) : Except LexicalError (List Part × Nat) :=
  match text with
  | [] => .error ⟨.unclosedQuote, pos⟩
  | '\n' :: _ => .error ⟨.unclosedQuote, pos⟩
  | '"' :: _ => .ok ([⟨.quotes, "\"", pos⟩], 1)
  | '\\' :: rest =>
    match escapeLength rest with
    | none => .error ⟨.invalidEscape, pos⟩
    | some n => do
      let spelling := '\\' :: rest.take n
      let (parts, length) ← stringParts (pos.after spelling) (rest.drop n)
      return (⟨.escape, String.ofList spelling, pos⟩ :: parts, n + 1 + length)
  | c :: rest => do
    let run := c :: rest.takeWhile isPlain
    let (parts, length) ← stringParts (pos.after run) (rest.drop (run.length - 1))
    return (⟨.literal .string, String.ofList run, pos⟩ :: parts, run.length + length)
termination_by text.length
decreasing_by all_goals (simp only [List.length_cons, List.length_drop]; omega)

/-- The parts of a character literal after its opening mark, the closing mark included, and the
number of characters they take up: one character or escape sequence before the closing mark. -/
def charParts (pos : Position) (text : List Char) : Except LexicalError (List Part × Nat) :=
  let finish (content : Part) (length : Nat) (after : Position) (rest : List Char) :
      Except LexicalError (List Part × Nat) :=
    match rest with
    | [] => .error ⟨.unclosedQuote, after⟩
    | '\n' :: _ => .error ⟨.unclosedQuote, after⟩
    | '\'' :: _ => .ok ([content, ⟨.quote, "'", after⟩], length + 1)
    | _ => .error ⟨.invalidChar, after⟩
  match text with
  | [] => .error ⟨.unclosedQuote, pos⟩
  | '\n' :: _ => .error ⟨.unclosedQuote, pos⟩
  | '\'' :: _ => .error ⟨.emptyChar, pos⟩
  | '\\' :: rest =>
    match escapeLength rest with
    | none => .error ⟨.invalidEscape, pos⟩
    | some n =>
      let spelling := '\\' :: rest.take n
      finish ⟨.escape, String.ofList spelling, pos⟩ (n + 1) (pos.after spelling) (rest.drop n)
  | c :: rest =>
    finish ⟨.literal .char, String.ofList [c], pos⟩ 1 (pos.next c) rest

end Quoted

end MiniC
