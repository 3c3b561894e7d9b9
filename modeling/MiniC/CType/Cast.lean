import MiniC.CType.Basic

set_option autoImplicit false

/-! # Implicit casts

When a value of one type may stand where another type is asked for. -/

namespace MiniC

/-- Why a type cannot be cast implicitly to another. -/
inductive CastError
  | pointer
  | void
  | struct
  | float
  | double
  | numeric
deriving DecidableEq, Repr

/-- The words of a cast error. -/
def CastError.message : CastError → String
  | .pointer => "Invalid pointer casting."
  | .void => "Invalid void casting."
  | .struct => "Invalid struct casting."
  | .float => "Invalid float casting."
  | .double => "Invalid double casting."
  | .numeric => "Invalid numeric cast."

namespace CType

/-- Why `src` cannot be cast implicitly to `dst`. Pointers need equally many levels; structs need
the same tag; a floating number never loses precision or becomes an integer; and between other
numbers the rank must not fall. -/
def castError? (src dst : CType) : Option CastError :=
  if src.levels.length ≠ dst.levels.length then some .pointer
  else if src.isPointer then none
  else if src.isVoid || dst.isVoid then some .void
  else if src.struct?.isSome || dst.struct?.isSome then
    if src.tag? = dst.tag? then none else some .struct
  else
    match src.base with
    | .float => if dst.isFloating then none else some .float
    | .double => if dst.isDouble then none else some .double
    | .longDouble => if dst.base = .longDouble then none else some .double
    | _ => if src.rank ≤ dst.rank then none else some .numeric

/-- Whether `src` can be cast implicitly to `dst`. -/
def canCast (src dst : CType) : Bool :=
  (src.castError? dst).isNone

end CType

end MiniC
