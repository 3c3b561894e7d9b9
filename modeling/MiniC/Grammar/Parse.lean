import MiniC.Grammar.Basic
import Std.Data.HashMap

set_option autoImplicit false

/-! # Parsing with a memo

Matching a grammar against tokens from a place on. What a named rule matches at a place is looked up
in a memo if the rule was tried there earlier; it is written down when the rule has matched or not
matched, and not when the parse fails in the middle of it. Every step uses up fuel, so that parsing
ends for all grammars; how much fuel a grammar needs is a fact about the grammar. -/

namespace MiniC

/-- What a grammar matches at a place: a tree and the place after it, or nothing. -/
abbrev Match := Option (Tree × Nat)

/-- What the rules are known to match at the places where they were tried. -/
structure Memo (ρ : Type) [BEq ρ] [Hashable ρ] where
  known : Std.HashMap (ρ × Nat) Match

namespace Grammar

variable {ρ : Type} [BEq ρ] [Hashable ρ]

/-- A parse in progress: it may fail, and keeps its memo even then. -/
abbrev ParseM (ρ : Type) [BEq ρ] [Hashable ρ] := EStateM ParseFailure (Memo ρ)

/-- An answer of a computation without state. -/
def lift {α : Type} : Except ParseFailure α → ParseM ρ α
  | .ok a => pure a
  | .error e => throw e

/-- The position that an error at a place is reported for: that of the token there, or of the last
token. -/
def errorPos (tokens : Array Token) (at' : Nat) : Option Position :=
  (tokens[at']? <|> tokens.back?).map (·.pos)

/-- Whether the token at a place has the given text. -/
def hasText (tokens : Array Token) (at' : Nat) (text : String) : Bool :=
  match tokens[at']? with
  | some t => t.text = text
  | none => false

/-- Whether the token at a place has the given text and is no literal. -/
def hasOperator (tokens : Array Token) (at' : Nat) (text : String) : Bool :=
  match tokens[at']? with
  | some t => t.text = text && !t.isLiteral
  | none => false

mutual

/-- What a grammar matches at a place. -/
def parse (rules : ρ → Except ParseFailure (Grammar ρ)) (tokens : Array Token) :
    Nat → Grammar ρ → Nat → ParseM ρ Match
  | 0, _, _ => throw .exhausted
  | fuel + 1, g, place =>
    match g with
    | .token accepts =>
      match tokens[place]? with
      | some t => if accepts t then pure (some (.leaf t 0, place + 1)) else pure none
      | none => pure none
    | .empty => pure (some (.empty, place))
    | .rule name => do
      match (← get).known[(name, place)]? with
      | some answer => pure answer
      | none => do
        let body ← lift (rules name)
        let answer ← parse rules tokens fuel body place
        modify fun memo => ⟨memo.known.insert (name, place) answer⟩
        pure answer
    | .choice first second => do
      match ← parse rules tokens fuel first place with
      | some answer => pure (some answer)
      | none => parse rules tokens fuel second place
    | .sequence steps merge => do
      match ← parseSteps rules tokens fuel steps [] place with
      | none => pure none
      | some (trees, next) =>
        match merge trees with
        | .ok tree => pure (some (tree, next))
        | .error e => throw (.error e)
    | .fold first other merge canBeAlone => do
      match ← parse rules tokens fuel first place with
      | none => pure none
      | some (tree, next) => parseFold rules tokens fuel other merge canBeAlone tree next
    | .block opening closing inner label =>
      if hasText tokens place opening then do
        match ← parse rules tokens fuel inner (place + 1) with
        | none => pure none
        | some (tree, next) =>
          if hasText tokens next closing then pure (some (.node label [tree], next + 1))
          else pure none
      else pure none
    | .items element label separator canBeEmpty => do
      match ← parseItems rules tokens fuel element separator [] place with
      | none => pure none
      | some (trees, next) =>
        if trees.isEmpty && !canBeEmpty then pure none
        else pure (some (.node label trees, next))
    | .prefixed operator operand label =>
      if hasOperator tokens place operator then do
        match ← parse rules tokens fuel operand (place + 1) with
        | none => pure none
        | some (tree, next) => pure (some (.node label [tree], next))
      else pure none
    | .suffixed operand operator label => do
      match ← parse rules tokens fuel operand place with
      | none => pure none
      | some (tree, next) =>
        if hasOperator tokens next operator then pure (some (.node label [tree], next + 1))
        else pure none
    | .ahead inner text merge => do
      match ← parse rules tokens fuel inner place with
      | none => pure none
      | some (tree, next) =>
        if hasText tokens next text then pure (some (merge tree, next)) else pure none

/-- What the steps of a sequence match at a place, where the steps in front of them matched
`earlier`, last one first. -/
def parseSteps (rules : ρ → Except ParseFailure (Grammar ρ)) (tokens : Array Token) :
    Nat → List (Step (Grammar ρ)) → List Tree → Nat → ParseM ρ (Option (List Tree × Nat))
  | 0, _, _, _ => throw .exhausted
  | fuel + 1, steps, earlier, place =>
    match steps with
    | [] => pure (some (earlier.reverse, place))
    | step :: rest => do
      match ← parse rules tokens fuel step.grammar place with
      | some (tree, next) => parseSteps rules tokens fuel rest (tree :: earlier) next
      | none =>
        match step.message with
        | none => pure none
        | some message => throw (.error ⟨.committed message place, errorPos tokens place⟩)

/-- What a fold matches, where it has matched `tree` up to a place; `isAnswer` says whether that is
enough. -/
def parseFold (rules : ρ → Except ParseFailure (Grammar ρ)) (tokens : Array Token) :
    Nat → Grammar ρ → (Tree → Tree → Tree) → Bool → Tree → Nat → ParseM ρ Match
  | 0, _, _, _, _, _ => throw .exhausted
  | fuel + 1, other, merge, isAnswer, tree, place => do
    match ← parse rules tokens fuel other place with
    | some (next, after) => parseFold rules tokens fuel other merge true (merge tree next) after
    | none => if isAnswer then pure (some (tree, place)) else pure none

/-- The elements of a list from a place on, where the elements `earlier` stand in front
of them, last one first. A separator
must not be the last thing in a list. -/
def parseItems (rules : ρ → Except ParseFailure (Grammar ρ)) (tokens : Array Token) :
    Nat → Grammar ρ → Option String → List Tree → Nat → ParseM ρ (Option (List Tree × Nat))
  | 0, _, _, _, _ => throw .exhausted
  | fuel + 1, element, separator, earlier, place => do
    match ← parse rules tokens fuel element place with
    | none =>
      if separator.isSome && !earlier.isEmpty then pure none
      else pure (some (earlier.reverse, place))
    | some (tree, next) =>
      match separator with
      | none => parseItems rules tokens fuel element separator (tree :: earlier) next
      | some text =>
        if hasText tokens next text then
          parseItems rules tokens fuel element separator (tree :: earlier) (next + 1)
        else pure (some ((tree :: earlier).reverse, next))

end

/-- The answer and the memo of a parse that begins with an empty memo. -/
def run {α : Type} (p : ParseM ρ α) : Except ParseFailure α × Memo ρ :=
  match p ⟨∅⟩ with
  | .ok a memo => (.ok a, memo)
  | .error e memo => (.error e, memo)

end Grammar

end MiniC
