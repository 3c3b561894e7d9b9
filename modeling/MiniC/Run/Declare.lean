import MiniC.Run.Expr
import MiniC.Run.Initialize

set_option autoImplicit false

/-! # Executing declarations

A declaration makes a variable of the current scope. Its value is made first, so that an initializer
that names the variable means another one. -/

namespace MiniC.Run

/-- The type of a declared variable, which has a pointer level for each dimension. -/
def declaredType (known : Nat → Option CType) (d : Declarator) : Run CType := do
  return (← resolve known d.type).pointers d.dims.length

/-- Makes a variable of the current scope. -/
def bind (name : Token) (t : CType) (v : Value) : Run Unit :=
  modify fun m => m.bind name.id t v

/-- Makes the variable that a declaration or a parameter with the given name stands for. -/
def introduce (name : Leaf) (t : CType) (v : Value) : Run Unit := do
  bind name.token t v
  Traced.note (.declare name)

/-- Declares an array with elements of the type `elem`. -/
def declareArray (ctx : Context) (d : Declarator) (elem : CType) : Run Unit := do
  let sizes ← arraySizes (eval ctx) d d.init
  let t ← declaredType ctx.known d
  let array ← newArray true elem sizes
  match d.init with
  | none => pure ()
  | some init => fillArray (eval ctx) array elem sizes init
  introduce d.name t (.pointer array)

/-- Declares a variable that is no array and has no initializer. -/
def declareZero (d : Declarator) (t : CType) : Run Unit := do
  if t.isAuto then failAt .uninitializedAuto d.pos
  introduce d.name t (← zeroValue t)

/-- Fills the struct that a value is from an initializer list. -/
def fillStruct (ctx : Context) (t : CType) (init : Expr) : Value → Run Unit
  | .record id => fillRecord (eval ctx) id t init
  | _ => pure ()

/-- Declares a struct with an initializer list. -/
def declareRecord (ctx : Context) (d : Declarator) (t : CType) (init : Expr) : Run Unit := do
  if !t.isStruct then failAt .listForScalar init.pos
  let v ← zeroValue t
  fillStruct ctx t init v
  introduce d.name t v

/-- Declares a variable with an initializer that is no list. A variable of the type `auto` gets the
type of its value. -/
def declareValue (ctx : Context) (d : Declarator) (t : CType) (init : Expr) : Run Unit := do
  let v ← eval ctx init
  let pos := some init.pos
  let t ← if t.isAuto then typeOfValue pos v else pure t
  introduce d.name t (← convert t v pos)

/-- Declares a variable. -/
def declarator (ctx : Context) (d : Declarator) : Run Unit := do
  let t ← resolve ctx.known d.type
  if !d.dims.isEmpty then declareArray ctx d t
  else
    match d.init with
    | none => declareZero d t
    | some init =>
      if init.items?.isSome then declareRecord ctx d t init else declareValue ctx d t init

/-- Declares the variables of a declaration. -/
def declaration (ctx : Context) (d : Declaration) : Run Unit :=
  d.all.forM (declarator ctx)

end MiniC.Run
