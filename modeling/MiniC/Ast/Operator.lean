set_option autoImplicit false

/-! # Operators

The operators of expressions, with their spellings. -/

namespace MiniC

/-- The operators that compute a value from two values. -/
inductive ArithOp
  | add
  | sub
  | mul
  | div
  | rem
  | bitAnd
  | bitXor
  | bitOr
  | shiftLeft
  | shiftRight
deriving DecidableEq, Repr

namespace ArithOp

/-- The spelling of an arithmetic operator. -/
def text : ArithOp → String
  | .add => "+"
  | .sub => "-"
  | .mul => "*"
  | .div => "/"
  | .rem => "%"
  | .bitAnd => "&"
  | .bitXor => "^"
  | .bitOr => "|"
  | .shiftLeft => "<<"
  | .shiftRight => ">>"

/-- All arithmetic operators. -/
def all : List ArithOp :=
  [.add, .sub, .mul, .div, .rem, .bitAnd, .bitXor, .bitOr, .shiftLeft, .shiftRight]

/-- The operator with the given spelling. -/
def ofText? (s : String) : Option ArithOp :=
  all.find? (·.text = s)

/-- Whether the operator shifts bits. -/
def isShift : ArithOp → Bool
  | .shiftLeft | .shiftRight => true
  | _ => false

/-- Whether the operator works on bits. -/
def isBitwise : ArithOp → Bool
  | .bitAnd | .bitXor | .bitOr | .shiftLeft | .shiftRight => true
  | _ => false

end ArithOp

/-- The operators that compare two values. -/
inductive RelOp
  | eq
  | ne
  | gt
  | lt
  | ge
  | le
deriving DecidableEq, Repr

namespace RelOp

/-- The spelling of a relational operator. -/
def text : RelOp → String
  | .eq => "=="
  | .ne => "!="
  | .gt => ">"
  | .lt => "<"
  | .ge => ">="
  | .le => "<="

/-- All relational operators. -/
def all : List RelOp := [.eq, .ne, .gt, .lt, .ge, .le]

/-- The operator with the given spelling. -/
def ofText? (s : String) : Option RelOp :=
  all.find? (·.text = s)

/-- Whether the relation holds of two things that compare as `order`, which is nothing where they
cannot be compared. Things that cannot be compared are unequal and in no other relation. -/
def holds (op : RelOp) (order : Option Ordering) : Bool :=
  match op, order with
  | .eq, some .eq => true
  | .ne, some .eq => false
  | .ne, _ => true
  | .lt, some .lt => true
  | .le, some .lt => true
  | .le, some .eq => true
  | .gt, some .gt => true
  | .ge, some .gt => true
  | .ge, some .eq => true
  | _, _ => false

end RelOp

/-- The operators that need their second operand only where the first does not decide. -/
inductive LogicOp
  | and
  | or
deriving DecidableEq, Repr

/-- The spelling of a logical operator. -/
def LogicOp.text : LogicOp → String
  | .and => "&&"
  | .or => "||"

/-- The operators with two operands that do not assign. -/
inductive BinaryOp
  | arith (op : ArithOp)
  | relation (op : RelOp)
  | logic (op : LogicOp)
deriving DecidableEq, Repr

namespace BinaryOp

/-- The spelling of a binary operator. -/
def text : BinaryOp → String
  | .arith op => op.text
  | .relation op => op.text
  | .logic op => op.text

/-- The operator with the given spelling. -/
def ofText? (s : String) : Option BinaryOp :=
  if s = "&&" then some (.logic .and)
  else if s = "||" then some (.logic .or)
  else (RelOp.ofText? s).map .relation <|> (ArithOp.ofText? s).map .arith

end BinaryOp

/-- The operators that stand before their only operand and do not assign to it. -/
inductive UnaryOp
  | negate
  | plus
  | deref
  | not
  | complement
  | address
deriving DecidableEq, Repr

/-- Where an increment or decrement stands: before its operand, with the new value as its result, or
after it, with the old one. -/
inductive Fixity
  | before
  | after
deriving DecidableEq, Repr

/-- An increment or a decrement. -/
structure StepOp where
  fixity : Fixity
  increases : Bool
deriving DecidableEq, Repr

/-- The arithmetic operator that an increment or decrement applies with the operand one. -/
def StepOp.arith (op : StepOp) : ArithOp :=
  if op.increases then .add else .sub

end MiniC
