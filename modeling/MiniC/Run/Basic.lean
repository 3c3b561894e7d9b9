import MiniC.Run.Machine
import MiniC.Trace.Basic

set_option autoImplicit false

/-! # Running

A step of a run changes the state of the machine and ends with a result or a stop; the state is kept
even then. A stop about no place in particular gets the place of the instruction that it happens
in. -/

namespace MiniC

/-- Why a run stops before its end. -/
inductive Stop
  /-- Something went wrong, at a place if it is known. -/
  | fault (cause : Fault) (pos : Option Position)
  /-- A struct contains itself, so that its values have no end. -/
  | tooDeep
  /-- A struct declares a field again that was an array, and keeps bounds that do not fit the new
  type. -/
  | badBounds
  /-- An integer has to become a floating number, and is too large for one. -/
  | tooLarge
  /-- The run takes more steps than it was given. -/
  | unfinished
deriving DecidableEq, Repr

/-- A stop with the given place, if it is a fault at no known place. -/
def Stop.locate (pos : Option Position) : Stop → Stop
  | .fault cause none => .fault cause pos
  | stop => stop

/-- The stop where the size of a type is needed that has none. -/
def StructTable.SizeError.stop : SizeError → Stop
  | .endless => .tooDeep
  | .badBounds => .badBounds

/-- What a run does at a moment. -/
inductive Deed
  /-- A call has begun. -/
  | call
  /-- A call has ended. -/
  | return
  /-- A declaration or a parameter with this name has made its variable. -/
  | declare (name : Leaf)
  /-- This occurrence of a name is looked up as a variable. -/
  | use (name : Leaf)
deriving DecidableEq, Repr

/-- A step of a run. -/
abbrev Run := Traced Stop Machine Deed

namespace Run

variable {α : Type}

/-- Stops because of a fault. -/
def fail (cause : Fault) (pos : Option Position) : Run α :=
  throw (.fault cause pos)

/-- Stops because of a fault at a place. -/
def failAt (cause : Fault) (pos : Position) : Run α :=
  fail cause (some pos)

/-- The result of a computation, whose fault is at the given place. -/
def liftAt (pos : Option Position) : Except Fault α → Run α
  | .ok a => pure a
  | .error cause => fail cause pos

/-- The result of a computation, whose fault is at no known place. -/
def lift (x : Except Fault α) : Run α :=
  liftAt none x

/-- A step whose faults are at the given place unless they are at a place of their own. -/
def located (pos : Option Position) (x : Run α) : Run α :=
  x.mapError (Stop.locate pos)

/-- A step in a new scope inside the current one. -/
def inScope {δ : Type} (x : Traced Stop Machine δ α) : Traced Stop Machine δ α :=
  x.between none none (fun m => m.push m.current) Machine.pop

/-- A step in a new scope inside the global one, as a call of the function with the given name. -/
def inCall (name : String) (x : Run α) : Run α := do
  let caller := (← get).current
  x.between (some .call) (some .return) (·.enterCall name) (·.leaveCall caller)

end Run

/-- What a run knows apart from the state of its machine: the types that were found for occurrences
before, and how a function is called with arguments by an expression at a place. -/
structure Context where
  known : Nat → Option CType
  call : FunctionDef → List Value → Option Position → Run (Option Value)

end MiniC
