import MiniC.Value.Fault

set_option autoImplicit false

/-! # Conversion of single values

What a value becomes in a location of a type that is no struct: integers are wrapped to the width of
the type, floating numbers rounded to its precision or cut off to an integer, and pointers get the
target of the type. The integer zero is a null pointer. -/

namespace MiniC.Value

/-- The floating number that a number is. -/
def toFloat? : Value → Option Float
  | .int n => some (Float.ofInt n.value)
  | .float x => some x
  | .double x => some x
  | _ => none

/-- Whether a value is an integer that is rounded to no finite floating number. -/
def exceedsFloats : Value → Bool
  | .int n => Binary64.exceeds n.value
  | _ => false

/-- A value in a location of a pointer type. -/
def toPointer (t : CType) : Value → Except Fault Value
  | .pointer p => .ok (.pointer { p with target := t.pointee? })
  | .int n =>
    if n.value = 0 then .ok (.pointer (.null t.pointee?)) else .error (.invalidPointer (.int n))
  | v => .error (.invalidPointer v)

/-- A value in a location of a floating type. -/
def toFloating (t : CType) (v : Value) : Except Fault Value :=
  match v.toFloat? with
  | none => .error (.invalidNumeric v)
  | some x => .ok (if t.isDouble then .double x else .float (Binary64.toSingle x))

/-- A value in a location of an integer type. -/
def toInteger (t : CType) (v : Value) : Except Fault Value :=
  let fit (n : Int) : Value := .int (.ofInt t.width (!t.isUnsigned) n)
  let cut (x : Float) : Except Fault Value :=
    match Binary64.truncate x with
    | none => .error .invalidInteger
    | some n => .ok (fit n)
  match v with
  | .int n => .ok (fit n.value)
  | .float x => cut x
  | .double x => cut x
  | v => .error (.invalidNumeric v)

/-- A value in a location of a type that is no struct. A location whose type says nothing about its
values takes them as they are. -/
def convertScalar (t : CType) (v : Value) : Except Fault Value :=
  if t.isAuto || t.isVoid then .ok v
  else if t.isPointer then v.toPointer t
  else if t.isFloating then v.toFloating t
  else v.toInteger t

/-- The value that a location of a single value begins with. -/
def zeroScalar (t : CType) : Except Fault Value :=
  if t.isPointer then .ok (.pointer (.null t.pointee?))
  else if t.isFloating then
    .ok (if t.isDouble then .double (Binary64.zero false) else .float (Binary64.zero false))
  else if t.isInteger then .ok (.int ⟨0, t.width, !t.isUnsigned⟩)
  else .error (.noValue t)

end MiniC.Value
