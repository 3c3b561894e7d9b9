import MiniC.Tree.Basic

set_option autoImplicit false

/-! # Grammars

A grammar says how a tree is made from the tokens at a place. Grammars are data: base grammars for
single tokens, and ways to put grammars together. A choice takes its first side that matches, and
never looks back. A named rule stands for the grammar that a set of rules gives it, so that
grammars can refer to each other. A step of a sequence may carry a message: where such a step does
not match, the whole parse fails with the message. -/

namespace MiniC

/-- Why tokens do not form a program. -/
inductive SyntaxCause
  /-- A step with a message did not match at the token with the given number. -/
  | committed (message : String) (token : Nat)
  | repeatedDefault
  | leftover
deriving DecidableEq, Repr

/-- A syntax error, and the position it is about. -/
structure SyntaxError where
  cause : SyntaxCause
  pos : Option Position
deriving DecidableEq, Repr

/-- The words of a syntax error. -/
def SyntaxCause.message : SyntaxCause → String
  | .committed message _ => message
  | .repeatedDefault => "Switch case has more than one default."
  | .leftover => "Invalid syntax"

/-- A syntax error as it is shown. -/
def SyntaxError.message (e : SyntaxError) : String :=
  located e.cause.message e.pos

/-- Why a parse ends without an answer. -/
inductive ParseFailure
  | error (e : SyntaxError)
  /-- A step of a grammar was to be repeated less than once. -/
  | badCount
  /-- The parse took more steps than it was allowed. -/
  | exhausted
deriving DecidableEq, Repr

/-- A step of a sequence: a grammar of the type `γ`, and the message of the failure where it does
not match; without a message the sequence does not match either. -/
structure Step (γ : Type) where
  grammar : γ
  message : Option String

/-- A grammar whose rules are named by `ρ`. -/
inductive Grammar (ρ : Type)
  /-- One token that is accepted. -/
  | token (accepts : Token → Bool)
  /-- Nothing. -/
  | empty
  /-- What the rule of that name matches. -/
  | rule (name : ρ)
  /-- What `first` matches, or else what `second` does. -/
  | choice (first second : Grammar ρ)
  /-- The steps one after another, made into one tree. -/
  | sequence (steps : List (Step (Grammar ρ))) (merge : List Tree → Except SyntaxError Tree)
  /-- `first`, then `other` again and again, each merged with the tree so far. -/
  | fold (first other : Grammar ρ) (merge : Tree → Tree → Tree) (canBeAlone : Bool)
  /-- `inner` between two tokens with the given texts. -/
  | block (opening closing : String) (inner : Grammar ρ) (label : Label)
  /-- `element` again and again, with the separator between elements if there is one. -/
  | items (element : Grammar ρ) (label : Label) (separator : Option String) (canBeEmpty : Bool)
  /-- `operand` after an operator. -/
  | prefixed (operator : String) (operand : Grammar ρ) (label : Label)
  /-- `operand` in front of an operator. -/
  | suffixed (operand : Grammar ρ) (operator : String) (label : Label)
  /-- `inner` in front of a token with the given text, which is left where it is. -/
  | ahead (inner : Grammar ρ) (text : String) (merge : Tree → Tree)

namespace Grammar

variable {ρ : Type}

/-- A step that may fail quietly. -/
def step (g : Grammar ρ) : Step (Grammar ρ) := ⟨g, none⟩

/-- A step that must match. -/
def orFail (g : Grammar ρ) (message : String) : Step (Grammar ρ) := ⟨g, some message⟩

/-- A step that is done `count` times. -/
def times (count : Int) (s : Step (Grammar ρ)) : Except ParseFailure (List (Step (Grammar ρ))) :=
  if count ≤ 0 then .error .badCount else .ok (List.replicate count.toNat s)

/-- The first grammar of several that matches. -/
def oneOf (first : Grammar ρ) (others : List (Grammar ρ)) : Grammar ρ :=
  others.foldl choice first

/-- The number of grammars and steps that a grammar consists of. -/
def size : Grammar ρ → Nat
  | .choice first second => first.size + second.size + 1
  | .sequence steps _ => sizeOfSteps steps + 1
  | .fold first other _ _ => first.size + other.size + 1
  | .block _ _ inner _ => inner.size + 1
  | .items element _ _ _ => element.size + 1
  | .prefixed _ operand _ => operand.size + 1
  | .suffixed operand _ _ => operand.size + 1
  | .ahead inner _ _ => inner.size + 1
  | _ => 1
where
  /-- The number of grammars and steps in several steps. -/
  sizeOfSteps : List (Step (Grammar ρ)) → Nat
    | [] => 0
    | ⟨g, _⟩ :: rest => g.size + 1 + sizeOfSteps rest

/-- Fuel for matching against `count` tokens with grammars that consist of `size` grammars and steps
in all, where no rule is entered twice at one place: a chain of nested calls goes through each of
them at most once at a place, and through each element of a repetition once. -/
def fuelFor (size count : Nat) : Nat := 2 * (size + 2) * (count + 2)

/-- The operator and the right operand of a binary operator, merged with the left operand. -/
def mergeBinary (left : Tree) : Tree → Tree
  | .group [.leaf operator _, right] => .node (.word operator.text) [left, right]
  | _ => left

/-- Operands with operators between them, grouped from the left; there is at least one operator. -/
def binary (left right operator : Grammar ρ) : Grammar ρ :=
  .fold left (.sequence [operator.step, right.step] fun trees => .ok (.group trees)) mergeBinary
    false

end Grammar

end MiniC
