import MiniC.Token.Basic

set_option autoImplicit false

/-! # The token table

A table with one row for each token: its number, its kind and its text, under a row of headings.
Numbers are aligned to the right and kinds to the left, each column as wide as its widest entry. -/

namespace MiniC

/-- As many spaces as `text` lacks to be `width` characters wide. -/
def padding (width : Nat) (text : String) : String :=
  "".pushn ' ' (width - text.length)

/-- The entries of a table of tokens, headings first. -/
def tokenRows (tokens : List Token) : List (String × String × String) :=
  ("Id", "Kind", "Text") :: tokens.map fun t => (toString t.id, t.kind.display, t.text)

/-- The lines of the table of `tokens`. -/
def tokenTable (tokens : List Token) : List String :=
  let rows := tokenRows tokens
  let idWidth := rows.foldl (fun n row => max n row.1.length) 0
  let kindWidth := rows.foldl (fun n row => max n row.2.1.length) 0
  rows.map fun (id, kind, text) =>
    padding idWidth id ++ id ++ "  " ++ kind ++ padding kindWidth kind ++ "  " ++ text

end MiniC
