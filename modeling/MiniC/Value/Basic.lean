import MiniC.CType.Basic
import MiniC.Decimal.Binary64

set_option autoImplicit false

/-! # Values

What variables hold and expressions yield. An integer carries its width and signedness; a floating
number of single precision is kept as a binary64 number that is already rounded; a pointer is a
place in a buffer; a struct is known by the number of its record, so that two values can be the same
struct. -/

namespace MiniC

/-- An integer of a fixed width. -/
structure MachineInt where
  value : Int
  width : Nat
  signed : Bool
deriving DecidableEq, Repr, Inhabited

/-- A place in a buffer, and the type of what stands there, where it is known. Buffer zero is no
buffer: a pointer to it is null. -/
structure Pointer where
  buffer : Nat
  index : Int
  target : Option CType
deriving DecidableEq, Repr, Inhabited

/-- A value. -/
inductive Value
  | int (n : MachineInt)
  | float (x : Float)
  | double (x : Float)
  | pointer (p : Pointer)
  | record (id : Nat)
  | function (name : String)
deriving DecidableEq, Repr, Inhabited

/-! ## Integers of fixed width -/

/-- The only integer of the given width and signedness that is congruent to `n` modulo two to the
power of the width. -/
def wrap (n : Int) (width : Nat) (signed : Bool) : Int :=
  if signed then Int.bmod n (Nat.pow 2 width) else n % Nat.pow 2 width

namespace MachineInt

/-- The width that arithmetic is at least done in. -/
def plainWidth : Nat := 32

/-- The width of a character. -/
def charWidth : Nat := 8

/-- The integer congruent to `n` of the given width and signedness. -/
def ofInt (width : Nat) (signed : Bool) (n : Int) : MachineInt :=
  ⟨wrap n width signed, width, signed⟩

/-- An integer of the plain type, as it is. -/
def plain (n : Int) : MachineInt := ⟨n, plainWidth, true⟩

/-- A character with the given code, as it is. -/
def ofCode (code : Nat) : MachineInt := ⟨Int.ofNat code, charWidth, true⟩

/-- A truth value: one or zero. -/
def ofBool (b : Bool) : MachineInt := ⟨if b then 1 else 0, charWidth, true⟩

/-- Whether an integer lies in the range of its width and signedness. -/
def InRange (n : MachineInt) : Prop :=
  if n.signed then -Int.pow 2 (n.width - 1) ≤ n.value ∧ n.value < Int.pow 2 (n.width - 1)
  else 0 ≤ n.value ∧ n.value < Int.pow 2 n.width

instance (n : MachineInt) : Decidable n.InRange := by
  unfold InRange; infer_instance

end MachineInt

/-! ## Pointers -/

namespace Pointer

/-- The null pointer to the given type. -/
def null (target : Option CType) : Pointer := ⟨0, 0, target⟩

/-- Whether a pointer points to no buffer. -/
def isNull (p : Pointer) : Bool := p.buffer = 0

/-- The pointer `offset` places further. -/
def moved (p : Pointer) (offset : Int) : Pointer := { p with index := p.index + offset }

end Pointer

/-! ## Kinds -/

/-- The word for the kind of a value. -/
def Value.kind : Value → String
  | .int _ => "int"
  | .float _ => "float"
  | .double _ => "double"
  | .pointer _ => "pointer"
  | .record _ => "struct"
  | .function _ => "function"

/-- A truth value. -/
def Value.ofBool (b : Bool) : Value := .int (.ofBool b)

end MiniC
