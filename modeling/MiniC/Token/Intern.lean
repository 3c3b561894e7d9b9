import MiniC.Token.Scan
import Std.Data.HashMap

set_option autoImplicit false

/-! # Numbered lexemes

Every text gets a number when it first appears, counting from one, and the lexemes of one text
share it. -/

namespace MiniC

/-- The numbers given to texts so far. Each new text gets the next number. -/
structure Numbering where
  numbers : Std.HashMap String Nat
deriving Inhabited

namespace Numbering

/-- No text has a number. -/
def empty : Numbering := ⟨∅⟩

/-- The number of `text`, which it gets now if it has none. -/
def intern (names : Numbering) (text : String) : Nat × Numbering :=
  match names.numbers[text]? with
  | some id => (id, names)
  | none =>
    let id := names.numbers.size + 1
    (id, ⟨names.numbers.insert text id⟩)

end Numbering

/-- The tokens of a list of lexemes, where the texts in `names` have numbers already. -/
def internFrom (names : Numbering) : List Lexeme → List Token
  | [] => []
  | lexeme :: rest =>
    let (id, names) := names.intern lexeme.text
    ⟨lexeme, id⟩ :: internFrom names rest

/-- The tokens of a source text, or the first lexical error in it. -/
def tokenize (source : String) : Except LexicalError (List Token) :=
  (scan source).map (internFrom .empty)

end MiniC
