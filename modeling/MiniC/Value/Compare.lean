import MiniC.Ast.Operator
import MiniC.Value.Fault

set_option autoImplicit false

/-! # Comparison and truth

Numbers are compared by their exact values, whatever their types. A pointer is compared with another
pointer, or with an integer zero, which stands for the start of no buffer. A value counts as true if
it is a number other than zero or a pointer to a buffer. -/

namespace MiniC

/-- The exact number that a numeric value is. -/
inductive Numeral
  | int (n : Int)
  | float (x : Float)
deriving DecidableEq, Repr

namespace Numeral

/-- How two floating numbers compare; a NaN compares with nothing. -/
def compareFloats (x y : Float) : Option Ordering :=
  if x < y then some .lt
  else if x == y then some .eq
  else if y < x then some .gt
  else none

/-- How two numbers compare. -/
def compare : Numeral → Numeral → Option Ordering
  | .int m, .int n => some (Ord.compare m n)
  | .int m, .float y => Binary64.compareInt m y
  | .float x, .int n => (Binary64.compareInt n x).map Ordering.swap
  | .float x, .float y => compareFloats x y

end Numeral

namespace Value

/-- The number that a value is. -/
def numeral : Value → Except Fault Numeral
  | .int n => .ok (.int n.value)
  | .float x => .ok (.float x)
  | .double x => .ok (.float x)
  | v => .error (.notANumber v)

/-- The place that a value is compared as with a pointer: a buffer and an index. -/
def place : Value → Except Fault (Nat × Int)
  | .pointer p => .ok (p.buffer, p.index)
  | .int n => if n.value = 0 then .ok (0, 0) else .error (.pointerComparison "int")
  | v => .error (.pointerComparison v.kind)

/-- Whether a value is a pointer. -/
def isPointer : Value → Bool
  | .pointer _ => true
  | _ => false

/-- Whether two places are in a relation. Places in different buffers are unequal and have no
order. -/
def comparePlaces (op : RelOp) (p q : Nat × Int) : Except Fault Bool :=
  match op with
  | .eq => .ok (p = q)
  | .ne => .ok (p ≠ q)
  | _ =>
    if p.1 ≠ q.1 then .error .unrelatedComparison
    else .ok (op.holds (some (Ord.compare p.2 q.2)))

/-- Whether two values are in a relation. -/
def compare (op : RelOp) (left right : Value) : Except Fault Bool :=
  if left.isPointer || right.isPointer then do
    comparePlaces op (← left.place) (← right.place)
  else do
    return op.holds ((← left.numeral).compare (← right.numeral))

/-- Whether a value counts as true. -/
def truth : Value → Except Fault Bool
  | .int n => .ok (n.value ≠ 0)
  | .float x => .ok (x != Binary64.zero false)
  | .double x => .ok (x != Binary64.zero false)
  | .pointer p => .ok (!p.isNull)
  | v => .error (.invalidCondition v)

end Value

end MiniC
