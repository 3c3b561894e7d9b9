import MiniC.Run.Values

set_option autoImplicit false

/-! # Places

What can be assigned to: a slot of a buffer, or a field of a struct value. The type of a place is
not always known; a value that is put in a place without a known type stays as it is. -/

namespace MiniC

/-- A place that holds a value. The target of the pointer to a slot is the type of the slot. -/
inductive Place
  | slot (p : Pointer)
  | field (record : Nat) (name : String) (type : Option CType)
deriving DecidableEq, Repr

namespace Place

/-- The type of the values in a place. -/
def type? : Place → Option CType
  | .slot p => p.target
  | .field _ _ type => type

/-- The value in a place. -/
def read : Place → Run Value
  | .slot p => Run.load p
  | .field record name _ => do
    match (← get).records.field? record name with
    | none => Run.fail (.unknownField name) none
    | some v => pure v

/-- Puts a value in a place, as it is. -/
def write (v : Value) : Place → Run Unit
  | .slot p => Run.store p v
  | .field record name _ =>
    modify fun m => { m with records := m.records.setField record name v }

/-- The pointer to a place. -/
def address : Place → Run Value
  | .slot p => pure (.pointer p)
  | .field _ _ _ => Run.fail .addressOfField none

/-- The value that a place gets when it is given `v`. -/
def fit (place : Place) (v : Value) (pos : Option Position) : Run Value :=
  match place.type? with
  | none => Run.copy v
  | some t => Run.convert t v pos

/-- Gives a place a value; what it holds afterwards. -/
def assign (place : Place) (v : Value) (pos : Option Position) : Run Value := do
  place.write (← place.fit v pos)
  place.read

end Place

namespace Run

/-- The place of a variable. -/
def placeOf? (m : Machine) (name : Token) : Option Place :=
  (m.lookup name.id).map fun b => .slot ⟨b.handle, 0, some b.type⟩

/-- The place of the variable with the given name. -/
def variablePlace (name : Token) : Run Place := do
  match placeOf? (← get) name with
  | none => failAt (.undefinedName name.text) name.pos
  | some place => pure place

/-- The place of the variable with the given name. A name that means nothing yet becomes a variable
of the type of `v`. -/
def variableFor (name : Token) (v : Value) : Run Place := do
  match placeOf? (← get) name with
  | some place => pure place
  | none => do
    let t ← typeOfValue (some name.pos) v
    let zero ← zeroValue t
    modify fun m => m.bind name.id t zero
    variablePlace name

/-- The place that a pointer points to. -/
def target (pos : Position) : Value → Run Place
  | .pointer p => pure (.slot p)
  | _ => failAt .derefOfNonPointer pos

/-- The place a number of elements further than a pointer points to. -/
def element (pos : Position) : Value → Value → Run Place
  | .pointer p, .int n => pure (.slot (p.moved n.value))
  | .pointer _, _ => failAt .nonIntegerIndex pos
  | _, _ => failAt .indexOfNonPointer pos

/-- The place of a field of a struct. -/
def member (pos : Position) (field : Token) : Value → Run Place
  | .record id => do
    let m ← get
    let name := field.text
    match m.records.field? id name with
    | none => failAt (.unknownField name) field.pos
    | some _ =>
      let decl := m.structs.latest? (m.records.get id).tag
      pure (.field id name ((decl.bind (·.field? name)).map (·.type)))
  | _ => failAt .memberOfNonStruct pos

/-- The place of a field of the struct that a pointer points to. -/
def arrow (pos : Position) (field : Token) : Value → Run Place
  | .pointer p => do member pos field (← load p)
  | _ => failAt .arrowOfNonPointer pos

end Run

end MiniC
