import MiniC.Tree.Basic

set_option autoImplicit false

/-! # Outlines

A tree as indented lines, one for each node, with what lies below a node indented under it. Pieces
that are left out have no line. The collapsed outline shows the first child of a wrapper in the
place of the wrapper. -/

namespace MiniC

namespace Tree

/-- The words of the line of a node. -/
def title : Tree → String
  | .empty => ""
  | .leaf token _ => token.text
  | .typeName tokens _ => " ".intercalate (tokens.map (·.text))
  | .node label _ => label.text
  | .group _ => ""

/-- A line at a depth, two spaces for each level. -/
def indented (depth : Nat) (line : String) : String :=
  "".pushn ' ' (2 * depth) ++ line

/-- Whether a tree stands for a piece that is left out. -/
def isEmpty : Tree → Bool
  | .empty => true
  | _ => false

/-- The lines of a tree at a depth. -/
def linesAt (collapse : Bool) (depth : Nat) : Tree → List String
  | .node label (child :: rest) =>
    if collapse && label.isWrapper then child.linesAt collapse depth
    else
      indented depth label.text
        :: ((if child.isEmpty then [] else child.linesAt collapse (depth + 1))
          ++ linesOf collapse (depth + 1) rest)
  | t => [indented depth t.title]
where
  /-- The lines of several trees at a depth; what is left out has none. -/
  linesOf (collapse : Bool) (depth : Nat) : List Tree → List String
    | [] => []
    | t :: rest =>
      (if t.isEmpty then [] else t.linesAt collapse depth) ++ linesOf collapse depth rest

/-- The outline of a tree, with wrappers collapsed or not. -/
def outline (collapse : Bool) (t : Tree) : List String :=
  if t.isEmpty then [] else t.linesAt collapse 0

end Tree

end MiniC
