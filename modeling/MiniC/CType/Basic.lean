set_option autoImplicit false

/-! # Types

A type is a base with any number of pointer levels around it. The base may be read-only, and so may
each pointer level. A struct base names its tag and the declaration that the tag stood for when the
type was made, since a tag may come to stand for another declaration later. -/

namespace MiniC

/-- The integer bases. -/
inductive IntKind
  | char
  | short
  | int
  | long
deriving DecidableEq, Repr, Inhabited

/-- What a type is apart from its pointer levels. -/
inductive Base
  | integer (kind : IntKind) (unsigned : Bool)
  | float
  | double
  | longDouble
  | void
  | auto
  /-- The struct `tag`, as declared by the declaration with the number `decl`. -/
  | struct (tag : String) (decl : Nat)
deriving DecidableEq, Repr, Inhabited

/-- A pointer level: whether the pointer itself may be written. -/
inductive Level
  | writable
  | readOnly
deriving DecidableEq, Repr, Inhabited

/-- A type. Its pointer levels are listed from the outermost inwards, so that the first level is
that of the pointer itself. -/
structure CType where
  isConst : Bool
  base : Base
  levels : List Level
deriving DecidableEq, Repr, Inhabited

/-! ## Text -/

/-- The words of an integer base. -/
def IntKind.words : IntKind → List String
  | .char => ["char"]
  | .short => ["short"]
  | .int => ["int"]
  | .long => ["long", "int"]

/-- The words of a base. -/
def Base.words : Base → List String
  | .integer kind unsigned => (if unsigned then ["unsigned"] else []) ++ kind.words
  | .float => ["float"]
  | .double => ["double"]
  | .longDouble => ["long", "double"]
  | .void => ["void"]
  | .auto => ["auto"]
  | .struct tag _ => ["struct", tag]

/-- The mark of a pointer level. -/
def Level.word : Level → String
  | .writable => "*"
  | .readOnly => "*const"

namespace CType

/-- The words of a type apart from its pointer levels. -/
def baseWords (t : CType) : List String :=
  (if t.isConst then ["const"] else []) ++ t.base.words

/-- The marks of the pointer levels, in the order of a declaration. -/
def marks (t : CType) : List String :=
  (t.levels.map Level.word).reverse

/-- The words of a type in their canonical order. -/
def words (t : CType) : List String :=
  t.baseWords ++ t.marks

/-- A type as it is shown. -/
def text (t : CType) : String :=
  " ".intercalate t.words

/-! ## Simple types -/

/-- A writable type without pointer levels. -/
def ofBase (base : Base) : CType := ⟨false, base, []⟩

/-- The type of characters and of truth values. -/
def char : CType := ofBase (.integer .char false)

/-- The type of plain integers. -/
def int : CType := ofBase (.integer .int false)

/-- The type of pointer differences. -/
def long : CType := ofBase (.integer .long false)

/-! ## Views -/

/-- Whether values of the type are pointers. -/
def isPointer (t : CType) : Bool :=
  !t.levels.isEmpty

/-- Whether a location of the type must not be written: its outermost level is read-only. -/
def isReadOnly (t : CType) : Bool :=
  match t.levels with
  | [] => t.isConst
  | level :: _ => level = .readOnly

/-- Whether values of the type are integers. -/
def isInteger (t : CType) : Bool :=
  match t.levels, t.base with
  | [], .integer _ _ => true
  | _, _ => false

/-- Whether values of the type are floating numbers. -/
def isFloating (t : CType) : Bool :=
  match t.levels, t.base with
  | [], .float => true
  | [], .double => true
  | [], .longDouble => true
  | _, _ => false

/-- Whether the type is `void`. -/
def isVoid (t : CType) : Bool :=
  t.levels.isEmpty && t.base = .void

/-- Whether the type is left to the initializer. -/
def isAuto (t : CType) : Bool :=
  t.levels.isEmpty && t.base = .auto

/-- Whether the base of the type is unsigned. -/
def isUnsigned (t : CType) : Bool :=
  match t.base with
  | .integer _ unsigned => unsigned
  | _ => false

/-- The tag of the struct at the base of the type, and the number of its declaration. -/
def struct? (t : CType) : Option (String × Nat) :=
  match t.base with
  | .struct tag decl => some (tag, decl)
  | _ => none

/-- The tag of the struct at the base of the type. -/
def tag? (t : CType) : Option String :=
  t.struct?.map (·.1)

/-- Whether values of the type are structs. -/
def isStruct (t : CType) : Bool :=
  t.levels.isEmpty && t.struct?.isSome

/-- Whether two types are the same: they are written the same. -/
def sameAs (s t : CType) : Bool :=
  s.words = t.words && s.tag? = t.tag?

/-! ## Derived types -/

/-- The type of what a pointer of type `t` points to. -/
def pointee? (t : CType) : Option CType :=
  match t.levels with
  | [] => none
  | _ :: levels => some { t with levels }

/-- The type of pointers to `t`. -/
def pointerTo (t : CType) (level : Level) : CType :=
  { t with levels := level :: t.levels }

/-- The type of writable pointers to `t`. -/
def pointer (t : CType) : CType :=
  t.pointerTo .writable

/-- The type with `n` writable pointer levels put on. -/
def pointers (t : CType) : Nat → CType
  | 0 => t
  | n + 1 => (t.pointers n).pointer

/-- The type with `n` pointer levels taken off, if it has as many. -/
def element? (t : CType) : Nat → Option CType
  | 0 => some t
  | n + 1 => t.pointee?.bind fun inner => inner.element? n

/-- The same type with its outermost level writable. -/
def writable (t : CType) : CType :=
  match t.levels with
  | [] => { t with isConst := false }
  | _ :: levels => { t with levels := .writable :: levels }

/-! ## Integer types -/

/-- The weight of a base among the numeric types. -/
def baseRank : Base → Nat
  | .integer .char _ => 1
  | .integer .short _ => 2
  | .integer .int _ => 4
  | .integer .long _ => 8
  | .float => 2
  | .double => 4
  | .longDouble => 8
  | .void => 0
  | .auto => 0
  | .struct _ _ => 0

/-- The weight of a type among the numeric types; an unsigned base weighs double. -/
def rank (t : CType) : Nat :=
  if t.isUnsigned then 2 * baseRank t.base else baseRank t.base

/-- The number of bits of an integer of the type. -/
def width (t : CType) : Nat :=
  match t.base with
  | .integer .char _ => 8
  | .integer .short _ => 16
  | .integer .long _ => 64
  | .longDouble => 64
  | _ => 32

/-- The type of integers of the given width and signedness. A width that no type has counts as that
of plain integers. -/
def ofWidth (width : Nat) (signed : Bool) : CType :=
  let kind : IntKind :=
    match width with
    | 8 => .char
    | 16 => .short
    | 64 => .long
    | _ => .int
  ofBase (.integer kind (!signed))

/-- Whether floating values of the type have double precision. -/
def isDouble (t : CType) : Bool :=
  t.base = .double || t.base = .longDouble

end CType

end MiniC
