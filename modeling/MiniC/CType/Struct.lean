import MiniC.CType.Normalize

set_option autoImplicit false

/-! # Struct declarations and the sizes of types

The structs that a program declares, in the order of their declarations. A tag stands for the latest
declaration that has it. A field that is an array has a type with one pointer level for each
dimension; its bounds, where they are known, make it take up the space of its elements. -/

namespace MiniC

/-- A field of a struct. -/
structure Field where
  name : String
  type : CType
  bounds : Option (List Nat)
deriving DecidableEq, Repr, Inhabited

/-- A declared struct. -/
structure StructDecl where
  tag : String
  fields : List Field
deriving DecidableEq, Repr, Inhabited

namespace StructDecl

/-- The field with the given name. -/
def field? (s : StructDecl) (name : String) : Option Field :=
  s.fields.find? (·.name = name)

/-- The struct with a field added after the others. A field of the same name gets the new type in
its old place, and keeps its bounds if no new ones are given. -/
def addField (s : StructDecl) (new : Field) : StructDecl :=
  match s.field? new.name with
  | none => { s with fields := s.fields ++ [new] }
  | some old =>
    let merged := { new with bounds := new.bounds <|> old.bounds }
    { s with fields := s.fields.map fun f => if f.name = new.name then merged else f }

end StructDecl

/-- The structs that are declared, each under its number. -/
structure StructTable where
  decls : Array StructDecl
deriving Repr, Inhabited

namespace StructTable

/-- No struct is declared. -/
def empty : StructTable := ⟨#[]⟩

/-- The number of the latest declaration of a tag. -/
def find? (table : StructTable) (tag : String) : Option Nat :=
  (List.range table.decls.size).reverse.find? fun i =>
    match table.decls[i]? with
    | some s => s.tag = tag
    | none => false

/-- The latest declaration of a tag. -/
def latest? (table : StructTable) (tag : String) : Option StructDecl :=
  (table.find? tag).bind fun i => table.decls[i]?

/-- The table with a new struct without fields, and the number of its declaration. -/
def declare (table : StructTable) (tag : String) : Nat × StructTable :=
  (table.decls.size, ⟨table.decls.push ⟨tag, []⟩⟩)

/-- The table with a field added to the struct declared under a number. -/
def addField (table : StructTable) (decl : Nat) (field : Field) : StructTable :=
  ⟨table.decls.modify decl (·.addField field)⟩

/-- The type that words name. -/
def typeOf (table : StructTable) (words : List String) : Except TypeError CType :=
  CType.ofWords table.find? words

/-- The fields of the struct at the base of a type, as its own declaration has them. -/
def fieldsOf (table : StructTable) (t : CType) : List Field :=
  match t.struct? with
  | none => []
  | some (_, decl) =>
    match table.decls[decl]? with
    | none => []
    | some s => s.fields

/-- The fields of a struct type. -/
def members? (table : StructTable) (t : CType) : Option (List Field) :=
  if t.isStruct then some (table.fieldsOf t) else none

/-- The fields of the struct that a pointer type points to. -/
def arrowMembers? (table : StructTable) (t : CType) : Option (List Field) :=
  t.pointee?.bind table.members?

/-! ## Sizes -/

/-- The number of bytes of a pointer. -/
def pointerSize : Nat := 8

/-- The number of bytes of a base that is no struct. -/
def baseSize : Base → Nat
  | .integer .char _ => 1
  | .integer .short _ => 2
  | .integer .int _ => 4
  | .integer .long _ => 8
  | .float => 4
  | .double => 8
  | .longDouble => 16
  | _ => 0

/-- Why a type has no size. -/
inductive SizeError
  /-- A struct contains itself. -/
  | endless
  /-- The type of a field has fewer pointer levels than the field has bounds. -/
  | badBounds
deriving DecidableEq, Repr

/-- The number of bytes of a type in which structs are nested at most `depth` deep. -/
def sizeWithin (table : StructTable) : Nat → CType → Except SizeError Nat
  | 0, t =>
    if t.isPointer then .ok pointerSize
    else if t.struct?.isSome then .error .endless
    else .ok (baseSize t.base)
  | depth + 1, t =>
    if t.isPointer then .ok pointerSize
    else if t.struct?.isSome then
      (table.fieldsOf t).foldlM (fun total f =>
        match f.bounds with
        | none => do return total + (← table.sizeWithin depth f.type)
        | some dims =>
          match f.type.element? dims.length with
          | none => .error .badBounds
          | some elem => do
            return total + dims.foldl (· * ·) 1 * (← table.sizeWithin depth elem)) 0
    else .ok (baseSize t.base)

/-- The number of bytes of a type. A struct that contains itself has no size: its nesting is deeper
than there are structs. -/
def sizeOf (table : StructTable) (t : CType) : Except SizeError Nat :=
  table.sizeWithin table.decls.size t

/-- The number of bytes of a type that has a size. -/
def size? (table : StructTable) (t : CType) : Option Nat :=
  (table.sizeOf t).toOption

end StructTable

end MiniC
