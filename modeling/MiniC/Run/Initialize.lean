import MiniC.Run.Place
import MiniC.Value.Literal

set_option autoImplicit false

/-! # Initializers

How the items of an initializer list fill an array or a struct. An array of arrays is filled row by
row from a list that has lists among its items, and element by element from a flat list. A string
fills an array of any elements with its characters. What is not covered keeps the value that it has
already. -/

namespace MiniC.Run

/-! ## Sizes -/

/-- The size that an array gets where it is left open, unless its initializer needs more. -/
def openSize : Nat := 5

/-- The size that an array needs to have for an initializer. -/
def neededSize (init : Expr) : Nat :=
  match init.items?, init.string? with
  | some items, _ => items.length
  | none, some token => token.codePoints.length + 1
  | none, none => 0

/-- The sizes of an array with the given dimensions. The first size, if it is left open, is at least
`needed`. -/
def sizesOf (eval : Expr → Run Value) (needed : Nat) : List Dim → Run (List Nat)
  | [] => pure []
  | .unsized :: rest => do return max openSize needed :: (← sizesOf eval 0 rest)
  | .sized size :: rest => do
    match ← eval size with
    | .int n =>
      if n.value ≤ 0 then failAt .invalidArraySize size.pos
      else return n.value.toNat :: (← sizesOf eval 0 rest)
    | _ => failAt .invalidArraySize size.pos

/-- The sizes of a declared array. -/
def arraySizes (eval : Expr → Run Value) (d : Declarator) (init : Option Expr) :
    Run (List Nat) :=
  if maxRank < d.dims.length then failAt .rankTooHigh d.pos
  else sizesOf eval ((init.map neededSize).getD 0) d.dims

/-! ## Slots -/

/-- Puts values in the slots from a pointer on. -/
def storeAll (p : Pointer) : List Value → Run Unit
  | [] => pure ()
  | v :: rest => do
    store p v
    storeAll (p.moved 1) rest

/-- The row that a slot of an array of arrays points to. -/
def rowAt (slot : Pointer) : Run Pointer := do
  match ← load slot with
  | .pointer row => pure row
  | _ => fail .derefOfNonPointer none

/-- The value that an item gives to a location of the type `t`. -/
def itemValue (eval : Expr → Run Value) (t : CType) (item : Expr) : Run Value := do
  convert t (← eval item) (some item.pos)

/-- Fills an array of rows of the given length with items from the one with the number `i` on, row
after row. -/
def fillFlat (eval : Expr → Run Value) (array : Pointer) (elem : CType) (length : Nat) :
    Nat → List Expr → Run Unit
  | _, [] => pure ()
  | i, item :: rest => do
    let row ← rowAt (array.moved (Int.ofNat (i / length)))
    let v ← itemValue eval elem item
    store (row.moved (Int.ofNat (i % length))) v
    fillFlat eval array elem length (i + 1) rest

/-- Fills an array with the characters of a string and the zero at its end. -/
def fillString (array : Pointer) (size : Nat) (token : Token) : Run Unit :=
  if size < token.characters.length then failAt .tooManyInitializers token.pos
  else storeAll array token.characters

/-- Fills the slot of an array that an item belongs to. The slot of an array of arrays is filled by
`fillRow`, and a new struct by `fillRecord`, if the item is a list. -/
def fillSlot (eval : Expr → Run Value) (slot : Pointer) (elem : CType) (isRow : Bool)
    (item : Expr) (fillRow : Pointer → Run Unit) (fillRecord : Nat → Run Unit) : Run Unit := do
  if isRow then fillRow (← rowAt slot)
  else if item.items?.isSome && elem.isStruct then
    let v ← zeroValue elem
    match v with
    | .record id => fillRecord id
    | _ => pure ()
    store slot v
  else store slot (← itemValue eval elem item)

/-- Fills the field of a struct that an item belongs to. A field that is an array is filled by
`fillArray`. -/
def fillField (eval : Expr → Run Value) (id : Nat) (field : Field) (item : Expr)
    (fillArray : Pointer → CType → List Nat → Run Unit) : Run Unit := do
  let place := Place.field id field.name (some field.type)
  match field.bounds with
  | none => place.write (← itemValue eval field.type item)
  | some dims => do
    match ← place.read with
    | .pointer array => do fillArray array (← elementType field.type dims) dims
    | _ => fail .derefOfNonPointer none

/-- Whether a list fills an array of the given sizes element by element, although that is an array
of arrays. -/
def isFlat (sizes : List Nat) (items : List Expr) : Bool :=
  sizes.length = 2 && items.all fun item => item.items?.isNone

/-! ## Arrays and structs -/

mutual

/-- Fills an array of the given sizes with an initializer. -/
def fillArray (eval : Expr → Run Value) (array : Pointer) (elem : CType) (sizes : List Nat) :
    Expr → Run Unit
  | .list head tail =>
    let count := tail.length + 1
    if isFlat sizes (head :: tail) then
      if sizes.foldl (· * ·) 1 < count then failAt .tooManyInitializers head.pos
      else fillFlat eval array elem (sizes.getD 1 0) 0 (head :: tail)
    else if sizes.headD 0 < count then failAt .tooManyInitializers head.pos
    else do
      fillSlot eval array elem (1 < sizes.length) head
        (fun row => fillArray eval row elem sizes.tail head)
        (fun id => fillRecord eval id elem head)
      fillSlots eval (array.moved 1) elem sizes tail
  | init =>
    match init.string?, sizes with
    | some token, [size] => fillString array size token
    | _, _ => failAt .listNeeded init.pos

/-- Fills the slots of an array from the given one on with items. -/
def fillSlots (eval : Expr → Run Value) (slot : Pointer) (elem : CType) (sizes : List Nat) :
    List Expr → Run Unit
  | [] => pure ()
  | item :: rest => do
    fillSlot eval slot elem (1 < sizes.length) item
      (fun row => fillArray eval row elem sizes.tail item)
      (fun id => fillRecord eval id elem item)
    fillSlots eval (slot.moved 1) elem sizes rest

/-- Fills the first fields of a struct value of the type `t` with the items of a list. -/
def fillRecord (eval : Expr → Run Value) (id : Nat) (t : CType) : Expr → Run Unit
  | .list head tail => do
    let fields := (← get).structs.currentFields t
    if fields.length < tail.length + 1 then failAt .tooManyInitializers head.pos
    match fields with
    | [] => pure ()
    | field :: fields => do
      fillField eval id field head (fun array elem sizes => fillArray eval array elem sizes head)
      fillFields eval id fields tail
  | _ => pure ()

/-- Fills fields of a struct value with items. -/
def fillFields (eval : Expr → Run Value) (id : Nat) : List Field → List Expr → Run Unit
  | field :: fields, item :: rest => do
    fillField eval id field item (fun array elem sizes => fillArray eval array elem sizes item)
    fillFields eval id fields rest
  | _, _ => pure ()

end

end MiniC.Run
