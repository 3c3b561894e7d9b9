set_option autoImplicit false

/-! # Positions in a source text

A position is a line and a column, both counted from one. Columns count characters, and a line
feed is the only character that starts a new line. A message about a source text names the
position it is about at its end. -/

namespace MiniC

/-- A place in a source text: the line and the column of a character, counted from one. -/
structure Position where
  line : Nat
  col : Nat
deriving DecidableEq, Repr, Inhabited

namespace Position

/-- The position of the first character of a text. -/
def start : Position := ⟨1, 1⟩

/-- The position of the character that follows `c`. -/
def next (p : Position) (c : Char) : Position :=
  if c = '\n' then ⟨p.line + 1, 1⟩ else ⟨p.line, p.col + 1⟩

/-- The position of the character that follows the text `cs`. -/
def after (p : Position) (cs : List Char) : Position :=
  cs.foldl next p

/-- The words that name a position in a message. -/
def words (p : Position) : String :=
  "line " ++ toString p.line ++ " col " ++ toString p.col

@[simp] theorem after_nil (p : Position) : p.after [] = p := rfl

@[simp] theorem after_cons (p : Position) (c : Char) (cs : List Char) :
    p.after (c :: cs) = (p.next c).after cs := rfl

theorem after_append (p : Position) (cs ds : List Char) :
    p.after (cs ++ ds) = (p.after cs).after ds :=
  List.foldl_append

end Position

/-- A message followed by the position it is about, where there is one. -/
def located (message : String) : Option Position → String
  | none => message
  | some p => message ++ " at " ++ p.words

end MiniC
