import MiniC.Run.Basic

set_option autoImplicit false

/-! # Control

How statements end, and how loops and jumps go on from there. A loop takes a step from its budget
for every turn, and a sequence of statements for every jump to one of its labels. -/

namespace MiniC

/-- How a statement ends. -/
inductive Signal
  | normal
  | break
  | continue
  | return (v : Option Value)
  | goto (label : Token)
deriving DecidableEq, Repr

namespace Run

variable {δ : Type}

/-- Does `next` if a statement ended normally; otherwise what is around it ends the same way. -/
@[inline] def onward (signal : Signal) (next : Traced Stop Machine δ Signal) :
    Traced Stop Machine δ Signal :=
  match signal with
  | .normal => next
  | signal => pure signal

/-- How a switch ends whose case ended with a signal. -/
def afterCase : Signal → Signal
  | .break => .normal
  | signal => signal

/-- Does the body of a loop once, and then `next` unless the loop is left. -/
def turn (body next : Traced Stop Machine δ Signal) : Traced Stop Machine δ Signal := do
  match ← body with
  | .break => pure .normal
  | .normal | .continue => next
  | signal => pure signal

/-- Repeats the body of a loop while the test holds, with a step after each turn. The first test is
left out if the body comes first. -/
def loop (test : Traced Stop Machine δ Bool) (body : Traced Stop Machine δ Signal)
    (step : Traced Stop Machine δ Unit) : Nat → Bool → Traced Stop Machine δ Signal
  | 0, _ => throw .unfinished
  | fuel + 1, bodyFirst => do
    if ← (if bodyFirst then pure true else test) then
      turn body do
        step
        loop test body step fuel false
    else pure .normal

/-- Does `start`, and goes on after the label whenever a jump to one of the known labels comes out.
The statements after a label are given by `resume`. -/
def jumping (resume : String → Option (Traced Stop Machine δ Signal)) :
    Nat → Traced Stop Machine δ Signal → Traced Stop Machine δ Signal
  | 0, _ => throw .unfinished
  | fuel + 1, start => do
    match ← start with
    | .goto label =>
      match resume label.text with
      | none => pure (.goto label)
      | some next => jumping resume fuel next
    | signal => pure signal

end Run

end MiniC
