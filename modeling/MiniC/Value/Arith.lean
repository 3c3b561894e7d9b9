import MiniC.Ast.Operator
import MiniC.Value.Fault

set_option autoImplicit false

/-! # Arithmetic

What the arithmetic operators compute. The kinds of the two operands decide what is computed: with
two integers, arithmetic of their common type; with a floating number, floating arithmetic of the
more precise of the two; with a pointer, a pointer that was moved or the distance of two pointers.
-/

namespace MiniC

/-! ## Integers -/

namespace MachineInt

/-- The width that two integers are brought to: at least the plain one. -/
def commonWidth (a b : MachineInt) : Nat :=
  max (max a.width b.width) plainWidth

/-- Whether an integer keeps its sign, or gets one, in a type of the given width. -/
def signedIn (width : Nat) (a : MachineInt) : Bool :=
  a.signed || a.width < width

/-- The signedness of the type that two integers are brought to. -/
def commonSigned (a b : MachineInt) : Bool :=
  a.signedIn (commonWidth a b) && b.signedIn (commonWidth a b)

/-- The width that one integer is brought to by itself. -/
def promotedWidth (a : MachineInt) : Nat :=
  max a.width plainWidth

/-- An integer of the type that `a` is brought to by itself. -/
def ofPromoted (a : MachineInt) (n : Int) : MachineInt :=
  ofInt a.promotedWidth (a.signedIn a.promotedWidth) n

/-- An integer of the common type of two integers. -/
def ofCommon (a b : MachineInt) (n : Int) : MachineInt :=
  ofInt (commonWidth a b) (commonSigned a b) n

/-- The integer with all bits of another turned over. -/
def complement (a : MachineInt) : MachineInt :=
  a.ofPromoted (-a.value - 1)

/-- The bits of two integers, combined place by place in their common type. -/
def combineBits (f : {w : Nat} → BitVec w → BitVec w → BitVec w) (a b : MachineInt) : MachineInt :=
  let width := commonWidth a b
  ofCommon a b (f (BitVec.ofInt width a.value) (BitVec.ofInt width b.value)).toInt

/-- The bits of an integer moved to the left. Bits that leave the type are lost. -/
def shiftLeft (a : MachineInt) (count : Nat) : MachineInt :=
  if a.promotedWidth ≤ count then a.ofPromoted 0 else a.ofPromoted (a.value * Int.pow 2 count)

/-- The quotient of an integer by a power of two, rounded down. A shift by more places than the
integer has bits gives what a shift by all of them gives. -/
def shiftRight (a : MachineInt) (count : Nat) : MachineInt :=
  a.ofPromoted (a.value / Int.pow 2 (min count (a.value.natAbs.log2 + 1)))

/-- The quotient and the remainder of a division towards zero. -/
def divide (a b : Int) : Except Fault (Int × Int) :=
  if b = 0 then .error .divisionByZero else .ok (a.tdiv b, a.tmod b)

/-- Arithmetic of two integers. -/
def arith (op : ArithOp) (a b : MachineInt) : Except Fault MachineInt :=
  match op with
  | .add => .ok (ofCommon a b (a.value + b.value))
  | .sub => .ok (ofCommon a b (a.value - b.value))
  | .mul => .ok (ofCommon a b (a.value * b.value))
  | .div => (divide a.value b.value).map fun (q, _) => ofCommon a b q
  | .rem => (divide a.value b.value).map fun (_, r) => ofCommon a b r
  | .bitAnd => .ok (combineBits (· &&& ·) a b)
  | .bitXor => .ok (combineBits (· ^^^ ·) a b)
  | .bitOr => .ok (combineBits (· ||| ·) a b)
  | .shiftLeft => if b.value < 0 then .error .negativeShift else .ok (a.shiftLeft b.value.toNat)
  | .shiftRight => if b.value < 0 then .error .negativeShift else .ok (a.shiftRight b.value.toNat)

end MachineInt

/-! ## Floating numbers -/

/-- Arithmetic of two floating numbers in double precision. Division by a zero of either sign is a
fault, and only the four basic operators are defined. -/
def floatArith (op : ArithOp) (x y : Float) : Except Fault Float :=
  match op with
  | .add => .ok (x + y)
  | .sub => .ok (x - y)
  | .mul => .ok (x * y)
  | .div => if y == Binary64.zero false then .error .divisionByZero else .ok (x / y)
  | _ => .error (.invalidOperands op.text)

/-! ## Values -/

/-- Two values that arithmetic is defined for, by what is computed with them. -/
inductive Operands
  | ints (a b : MachineInt)
  | singles (x y : Float)
  | doubles (x y : Float)
  | pointerInt (p : Pointer) (n : MachineInt)
  | intPointer (n : MachineInt) (p : Pointer)
  | pointers (p q : Pointer)
deriving DecidableEq, Repr

namespace Operands

/-- Two values as operands, if arithmetic is defined for their kinds. -/
def of? : Value → Value → Option Operands
  | .int a, .int b => some (.ints a b)
  | .int a, .float y => some (.singles (Float.ofInt a.value) y)
  | .float x, .int b => some (.singles x (Float.ofInt b.value))
  | .float x, .float y => some (.singles x y)
  | .int a, .double y => some (.doubles (Float.ofInt a.value) y)
  | .double x, .int b => some (.doubles x (Float.ofInt b.value))
  | .float x, .double y => some (.doubles x y)
  | .double x, .float y => some (.doubles x y)
  | .double x, .double y => some (.doubles x y)
  | .pointer p, .int n => some (.pointerInt p n)
  | .int n, .pointer p => some (.intPointer n p)
  | .pointer p, .pointer q => some (.pointers p q)
  | _, _ => none

/-- Whether the operands are floating. -/
def areFloating : Operands → Bool
  | .singles _ _ | .doubles _ _ => true
  | _ => false

/-- Whether the operands are integers. -/
def areInts : Operands → Bool
  | .ints _ _ => true
  | _ => false

/-- Two values as the operands of an operator, or why the operator does not take them. -/
def select (op : ArithOp) (left right : Value) : Except Fault Operands :=
  match of? left right with
  | none => .error (.invalidOperands op.text)
  | some operands =>
    if op = .rem && operands.areFloating then .error (.invalidOperands op.text)
    else if op.isBitwise && !operands.areInts then .error .notIntegers
    else .ok operands

/-- What an operator computes from operands. -/
def eval (op : ArithOp) : Operands → Except Fault Value
  | .ints a b => (MachineInt.arith op a b).map .int
  | .singles x y => (floatArith op x y).map fun z => .float (Binary64.toSingle z)
  | .doubles x y => (floatArith op x y).map .double
  | .pointerInt p n =>
    match op with
    | .add => .ok (.pointer (p.moved n.value))
    | .sub => .ok (.pointer (p.moved (-n.value)))
    | _ => .error (.invalidPointerOperands op.text)
  | .intPointer n p =>
    match op with
    | .add => .ok (.pointer (p.moved n.value))
    | _ => .error (.invalidPointerOperands op.text)
  | .pointers p q =>
    match op with
    | .sub =>
      if p.buffer = q.buffer then .ok (.int ⟨p.index - q.index, 64, true⟩)
      else .error .unrelatedDifference
    | _ => .error (.invalidPointerOperands op.text)

end Operands

namespace Value

/-- What an operator computes from two values. -/
def arith (op : ArithOp) (left right : Value) : Except Fault Value := do
  (← Operands.select op left right).eval op

/-- The complaint about an operator that is not defined for any operands. -/
def unknownOperator (op : String) (left right : Value) : Fault :=
  match Operands.of? left right with
  | some (.pointerInt _ _) | some (.intPointer _ _) | some (.pointers _ _) =>
    .invalidPointerOperands op
  | _ => .invalidOperands op

/-- What the operator with the given spelling computes from two values. -/
def arithNamed (op : String) (left right : Value) : Except Fault Value :=
  match ArithOp.ofText? op with
  | some op => arith op left right
  | none => .error (unknownOperator op left right)

/-- The zero of the type of a number. -/
def zeroLike : Value → Except Fault Value
  | .int n => .ok (.int ⟨0, n.width, n.signed⟩)
  | .float _ => .ok (.float (Binary64.zero false))
  | .double _ => .ok (.double (Binary64.zero false))
  | v => .error (.invalidOperand v)

end Value

end MiniC
