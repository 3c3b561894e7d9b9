import MiniC.Grammar.Parse
import MiniC.Language.Rules

set_option autoImplicit false

/-! # Parsing programs

The tree of a program from its tokens, all of which must belong to it. -/

namespace MiniC

/-- The fuel that a program of `count` tokens is parsed with. Between two tokens that are matched, a
parse goes through fewer than a thousand nested grammars and steps, since it enters no rule twice.
-/
def parseFuel (count : Nat) : Nat := 1000 * (count + 1)

/-- What the rule for programs matches at the first token. -/
def matchProgram (tokens : Array Token) : Except ParseFailure Match :=
  (Grammar.run (Grammar.parse (fun name => .ok (Rule.grammar name)) tokens
    (parseFuel tokens.size) (.rule .program) 0)).1

/-- The tree of the program that consists of the tokens, with its leaves numbered. -/
def parseTree (tokens : List Token) : Except ParseFailure Tree :=
  let all := tokens.toArray
  let leftover (place : Nat) : Except ParseFailure Tree :=
    .error (.error ⟨.leftover, Grammar.errorPos all place⟩)
  match matchProgram all with
  | .error e => .error e
  | .ok none => leftover 0
  | .ok (some (tree, place)) =>
    if place = all.size then .ok tree.numbered else leftover place

end MiniC
