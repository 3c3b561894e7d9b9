import MiniC.Run.Basic
import MiniC.Value.Convert

set_option autoImplicit false

/-! # Making and copying values

The values that variables begin with, and the values that they get. A struct that is stored is
copied, with everything that belongs to it: the structs and the arrays among its fields. The fields
of a struct and the bounds of its arrays are those of the latest declaration of its tag. -/

namespace MiniC

/-- The largest rank of an array. -/
def maxRank : Nat := 2

namespace StructTable

/-- The fields that the values of a struct type have. -/
def currentFields (table : StructTable) (t : CType) : List Field :=
  match t.tag?.bind table.latest? with
  | none => []
  | some decl => decl.fields

/-- The rank of a field as an array; a field that is no array has rank zero. -/
def rankOf (table : StructTable) (tag name : String) : Nat :=
  match (table.latest? tag).bind (·.field? name) with
  | none => 0
  | some field => (field.bounds.map List.length).getD 0

/-- The largest rank of a field as an array. -/
def largestRank (table : StructTable) : Nat :=
  ((table.decls.toList.flatMap (·.fields)).map fun f => (f.bounds.map List.length).getD 0).foldr
    max 0

end StructTable

namespace Run

/-! ## Slots -/

/-- The value that a pointer points to. -/
def load (p : Pointer) : Run Value := do
  lift ((← get).arena.load p)

/-- Puts a value in the slot that a pointer points to. -/
def store (p : Pointer) (v : Value) : Run Unit := do
  let _ ← lift ((← get).arena.locate p)
  modify fun m => { m with arena := m.arena.put p v }

/-! ## New values -/

/-- Makes a buffer, which belongs to the current scope if it is `owned`, and to none otherwise. -/
def newBuffer (owned : Bool) (values : Array Value) : Run Nat :=
  modifyGet fun m => if owned then m.own values else m.alloc values

/-- Makes a struct value. -/
def newRecord (record : Record) : Run Value := do
  return .record (← modifyGet fun m => m.addRecord record)

/-- Values that are made one after another, `n` of them, after those in `made`. -/
def makeValues (make : Run Value) : Nat → Array Value → Run (Array Value)
  | 0, made => pure made
  | n + 1, made => do makeValues make n (made.push (← make))

/-- Makes an array of the given sizes with elements of the type `elem`, made one by one. The rows of
an array of arrays are made before the buffer that holds the pointers to them. -/
def newArrayOf (owned : Bool) (elem : CType) (make : Run Value) : List Nat → Run Pointer
  | [] => do return ⟨← newBuffer owned #[], 0, elem⟩
  | [n] => do return ⟨← newBuffer owned (← makeValues make n #[]), 0, elem⟩
  | n :: size :: sizes => do
    let row : Run Value := do return .pointer (← newArrayOf owned elem make (size :: sizes))
    return ⟨← newBuffer owned (← makeValues row n #[]), 0, elem.pointer⟩

/-- The type of the elements of a field that is an array, whose type has one pointer level for each
of its bounds. -/
def elementType (t : CType) (bounds : List Nat) : Run CType :=
  match t.element? bounds.length with
  | none => throw .badBounds
  | some elem => pure elem

/-- The value that a location of a type begins with, where structs are nested at most `depth`
deep. -/
def zeroWithin : Nat → CType → Run Value
  | 0, t => if t.isStruct then throw .tooDeep else lift (Value.zeroScalar t)
  | depth + 1, t => do
    if t.isStruct then
      let fields ← ((← get).structs.currentFields t).mapM fun f => do
        match f.bounds with
        | none => return (f.name, ← zeroWithin depth f.type)
        | some dims => do
          let elem ← elementType f.type dims
          return (f.name, .pointer (← newArrayOf false elem (zeroWithin depth elem) dims))
      newRecord ⟨t.tag?.getD "", fields⟩
    else lift (Value.zeroScalar t)

/-- The value that a location of a type begins with. Structs are nested at most as deep as there are
structs, unless one contains itself. -/
def zeroValue (t : CType) : Run Value := do
  zeroWithin (← get).structs.decls.size t

/-- Makes an array of the given sizes. -/
def newArray (owned : Bool) (elem : CType) (sizes : List Nat) : Run Pointer :=
  newArrayOf owned elem (zeroValue elem) sizes

/-! ## Copies -/

/-- A copy of a value, in which structs and arrays are nested at most `depth` deep. A pointer stands
for an array of the given rank, and is left as it is if the rank is zero. -/
def copyWithin : Nat → Nat → Value → Run Value
  | depth + 1, _, .record id => do
    let m ← get
    let record := m.records.get id
    let structs := m.structs
    let fields ← record.fields.mapM fun (name, v) => do
      return (name, ← copyWithin depth (structs.rankOf record.tag name) v)
    newRecord ⟨record.tag, fields⟩
  | depth + 1, rank + 1, .pointer p => do
    let values ← lift ((← get).arena.contents p.buffer)
    let copies ← values.mapM fun v => copyWithin depth rank v
    return .pointer { p with buffer := ← newBuffer false copies }
  | 0, _, .record _ => throw .tooDeep
  | 0, _ + 1, .pointer _ => throw .tooDeep
  | _, _, v => pure v

/-- A copy of a struct; any other value is left as it is. Between two structs that are nested there
are at most as many arrays as the rank of a field allows. -/
def copy (v : Value) : Run Value := do
  let m ← get
  copyWithin ((m.structs.largestRank + 1) * (m.records.all.size + 1)) 0 v

/-! ## Types of values -/

/-- The type that a variable gets from its first value. -/
def typeOfValue (pos : Option Position) : Value → Run CType
  | .int n => pure (.ofWidth n.width n.signed)
  | .float _ => pure (.ofBase .float)
  | .double _ => pure (.ofBase .double)
  | .pointer p =>
    match p.target with
    | none => fail (.uninferable (.pointer p)) pos
    | some t => pure t.pointer
  | .record id => do
    let m ← get
    lift ((m.structs.typeOf ["struct", (m.records.get id).tag]).mapError .type)
  | .function name => fail (.uninferable (.function name)) pos

/-- The value that is stored in a location of the type `t` when it is given `v`. -/
def convert (t : CType) (v : Value) (pos : Option Position) : Run Value :=
  if t.isStruct then
    match v with
    | .record id => do
      if t.tag? = some ((← get).records.get id).tag then copy v else fail (.invalidStruct v) pos
    | _ => fail (.invalidStruct v) pos
  else if t.isFloating && v.exceedsFloats then throw .tooLarge
  else liftAt pos (v.convertScalar t)

end Run

end MiniC
