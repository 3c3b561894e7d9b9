import MiniC.Token.Basic
import MiniC.Tree.Label

set_option autoImplicit false

/-! # Trees

What a grammar makes of tokens. The leaves of a tree hold single tokens, or the tokens of a type
name of several words; they are numbered from the left, so that other data can be kept for a leaf.
A group is a sequence that its grammar gave no name. -/

namespace MiniC

/-- A tree over tokens. -/
inductive Tree
  /-- An optional piece that is left out. -/
  | empty
  /-- A single token, and the number of the leaf. -/
  | leaf (token : Token) (slot : Nat)
  /-- A type name of several words, and the number of the leaf. -/
  | typeName (tokens : List Token) (slot : Nat)
  /-- A construct with its pieces. -/
  | node (label : Label) (children : List Tree)
  /-- A sequence without a name. -/
  | group (children : List Tree)
deriving Repr, Inhabited

namespace Tree

/-- The pieces of a construct or a sequence. -/
def children : Tree → List Tree
  | .node _ children => children
  | .group children => children
  | _ => []

/-- The tokens of a type name, whether it has one word or several. -/
def typeTokens : Tree → List Token
  | .leaf token _ => [token]
  | .typeName tokens _ => tokens
  | _ => []

/-- A leaf for a type name: a single token, or several. -/
def ofTypeTokens : List Token → Tree
  | [token] => .leaf token 0
  | tokens => .typeName tokens 0

/-- The tokens of each leaf of a construct, from the left. -/
def leaves : Tree → List (List Token)
  | .empty => []
  | .leaf token _ => [[token]]
  | .typeName tokens _ => [tokens]
  | .node _ children => leavesOf children
  | .group _ => []
where
  /-- The tokens of each leaf of several trees, from the left. -/
  leavesOf : List Tree → List (List Token)
    | [] => []
    | t :: rest => t.leaves ++ leavesOf rest

/-- The tree with its leaves numbered from `n` on, and the first number that is not used. -/
def numberFrom (n : Nat) : Tree → Tree × Nat
  | .empty => (.empty, n)
  | .leaf token _ => (.leaf token n, n + 1)
  | .typeName tokens _ => (.typeName tokens n, n + 1)
  | .node label children =>
    let (children, n) := numberAllFrom n children
    (.node label children, n)
  | .group children => (.group children, n)
where
  /-- Several trees with their leaves numbered from `n` on. -/
  numberAllFrom (n : Nat) : List Tree → List Tree × Nat
    | [] => ([], n)
    | t :: rest =>
      let (t, n) := t.numberFrom n
      let (rest, n) := numberAllFrom n rest
      (t :: rest, n)

/-- The tree with its leaves numbered from zero on. -/
def numbered (t : Tree) : Tree :=
  (t.numberFrom 0).1

end Tree

end MiniC
