import MiniC.Run.Place
import MiniC.Value.Arith
import MiniC.Value.Compare
import MiniC.Value.Literal

set_option autoImplicit false

/-! # Evaluating expressions

The value of an expression, and the place that an expression denotes. The operands of an expression
are evaluated from the left to the right, except that an assignment evaluates its right side before
the place on its left. Every operand is evaluated at most once. -/

namespace MiniC.Run

/-! ## Types -/

/-- The type that a type name stands for by the structs that are declared now. -/
def typeNamed (name : TypeName) : Run CType := do
  match (← get).structs.typeOf name.words with
  | .error e => failAt (.type e) name.first.pos
  | .ok t => pure t

/-- The type that a type name stands for. A type that was found before is taken as it is unless it
is made from a struct, whose declaration may be another one now. -/
def resolve (known : Nat → Option CType) (name : TypeName) : Run CType :=
  match known name.slot with
  | none => typeNamed name
  | some t => if t.struct?.isNone then pure t else typeNamed name

/-- The size of the type that a type name stands for. -/
def sizeNamed (known : Nat → Option CType) (name : TypeName) : Run Value := do
  match (← get).structs.sizeOf (← resolve known name) with
  | .error e => throw e.stop
  | .ok n => return .int (.plain n)

/-! ## Literals -/

/-- The buffer of a string literal, which is made when the literal is evaluated first. -/
def stringBuffer (leaf : Leaf) : Run Nat := do
  match (← get).strings.lookup leaf.slot with
  | some handle => pure handle
  | none => modifyGet fun m => m.keepString leaf.slot leaf.token.characters.toArray

/-- The value of a literal. -/
def literal (leaf : Leaf) : LiteralKind → Run Value
  | .string => do return .pointer ⟨← stringBuffer leaf, 0, some .char⟩
  | kind => pure (leaf.token.value kind)

/-! ## Operators -/

/-- What an arithmetic operator computes. -/
def arith (op : ArithOp) (left right : Value) (pos : Position) : Run Value := do
  let operands ← liftAt (some pos) (Operands.select op left right)
  if operands.areFloating && (left.exceedsFloats || right.exceedsFloats) then throw .tooLarge
  else lift (operands.eval op)

/-- Whether a value counts as true. -/
def truth (v : Value) : Run Bool :=
  lift v.truth

/-- The value of an operator that is applied to a value. -/
def unary (op : UnaryOp) (v : Value) (pos : Position) : Run Value :=
  match op with
  | .negate => do arith .sub (← liftAt (some pos) v.zeroLike) v pos
  | .plus => do arith .add (← liftAt (some pos) v.zeroLike) v pos
  | .not => do return .ofBool (!(← truth v))
  | .complement =>
    match v with
    | .int n => pure (.int n.complement)
    | _ => failAt .notIntegerComplement pos
  | .deref => do (← target pos v).read
  | .address => failAt .notAssignable pos

/-- Increments or decrements what is in a place; the value of that. -/
def step (op : StepOp) (place : Place) (pos : Position) : Run Value := do
  let old ← place.read
  let new ← place.fit (← arith op.arith old (.int (.plain 1)) pos) (some pos)
  place.write new
  match op.fixity with
  | .before => pure new
  | .after => pure old

/-- Gives a place the value that an operator computes from its own and from `v`. -/
def update (op : ArithOp) (place : Place) (v : Value) (pos : Position) : Run Value := do
  place.assign (← arith op (← place.read) v pos) (some pos)

/-- Whether the first operand of a logical operator decides. -/
def decides (op : LogicOp) (left : Bool) : Bool :=
  match op with
  | .and => !left
  | .or => left

/-! ## Printing -/

/-- Prints a line: the string that a pointer points to, or the text of any other value. The result
is the number of characters printed. -/
def print (v : Value) : Run Value := do
  let text ←
    match v with
    | .pointer p => do
      pure (String.ofList ((← lift ((← get).arena.readString p)).map Char.ofNat))
    | v => do pure (v.text (← get).records)
  modify fun m => { m with output := m.output ++ text ++ "\n" }
  return .int (.plain (Int.ofNat text.length + 1))

/-! ## Calls -/

/-- Prints the value of the first argument of a call of the function that is there without a
declaration. -/
def printFirst (pos : Position) : Option (Run Value) → Run Value
  | none => failAt .emptyPrint pos
  | some arg => do print (← arg)

/-- The result of a call, if there is one. A function that was declared with a body is called with
all arguments; the function that is there without a declaration looks at the first one only. -/
def invoke (ctx : Context) (callee : Expr) (first : Option (Run Value))
    (args : Run (List Value)) : Run (Option Value) := do
  match callee with
  | .identifier leaf => do
    let name := leaf.token
    match (← get).functions.lookup name.id with
    | some f => do ctx.call f (← args) (some name.pos)
    | none =>
      if name.text = printName then return some (← printFirst name.pos first)
      else if ((← get).prototypes.lookup name.id).isSome then
        failAt (.missingBody name.text) name.pos
      else failAt (.undefinedFunction name.text) name.pos
  | _ => failAt .invalidCall callee.pos

/-! ## Expressions -/

mutual

/-- The value of an expression. -/
def eval (ctx : Context) : Expr → Run Value
  | .identifier leaf => do
    Traced.note (.use leaf)
    (← variablePlace leaf.token).read
  | .literal leaf kind => literal leaf kind
  | .parens e => eval ctx e
  | .unary .address e => do (← place ctx none e).address
  | .unary op e => do unary op (← eval ctx e) e.pos
  | .step op e => do step op (← place ctx none e) e.pos
  | .binary (.arith op) left right => do
    let l ← eval ctx left
    let r ← eval ctx right
    arith op l r left.pos
  | .binary (.relation op) left right => do
    let l ← eval ctx left
    let r ← eval ctx right
    return .ofBool (← lift (Value.compare op l r))
  | .binary (.logic op) left right => do
    let l ← truth (← eval ctx left)
    if decides op l then pure (.ofBool l)
    else return .ofBool (← truth (← eval ctx right))
  | .assign none left right => do
    let v ← eval ctx right
    (← place ctx (some v) left).assign v (some left.pos)
  | .assign (some op) left right => do
    let v ← eval ctx right
    update op (← place ctx none left) v left.pos
  | .conditional cond first second => do
    if ← truth (← eval ctx cond) then eval ctx first else eval ctx second
  | .call callee args => do
    match ← invoke ctx callee (evalFirst ctx args) (evalAll ctx args) with
    | none => failAt .noResult callee.pos
    | some v => pure v
  | .index base i => do
    let b ← eval ctx base
    (← element base.pos b (← eval ctx i)).read
  | .member e field => do (← member e.pos field.token (← eval ctx e)).read
  | .arrow e field => do (← arrow e.pos field.token (← eval ctx e)).read
  | .sizeOf type => sizeNamed ctx.known type
  | .cast type e => do
    let t ← resolve ctx.known type
    convert t (← eval ctx e) (some type.first.pos)
  | .list head _ => failAt .listAsExpression head.pos

/-- The place that an expression denotes. A name that means nothing yet becomes a variable if there
is a value `new` to be put in it. -/
def place (ctx : Context) (new : Option Value) : Expr → Run Place
  | .identifier leaf => do
    Traced.note (.use leaf)
    match new with
    | none => variablePlace leaf.token
    | some v => variableFor leaf.token v
  | .parens e => place ctx new e
  | .unary .deref e => do target e.pos (← eval ctx e)
  | .index base i => do
    let b ← eval ctx base
    element base.pos b (← eval ctx i)
  | .member e field => do member e.pos field.token (← eval ctx e)
  | .arrow e field => do arrow e.pos field.token (← eval ctx e)
  | e => failAt .notAssignable e.pos

/-- The value of the first of several expressions. -/
def evalFirst (ctx : Context) : List Expr → Option (Run Value)
  | [] => none
  | e :: _ => some (eval ctx e)

/-- The values of expressions. -/
def evalAll (ctx : Context) : List Expr → Run (List Value)
  | [] => pure []
  | e :: rest => do
    let v ← eval ctx e
    return v :: (← evalAll ctx rest)

end

/-- The result of a call of `callee` with arguments, if there is one. -/
def evalCall (ctx : Context) (callee : Expr) (args : List Expr) : Run (Option Value) :=
  invoke ctx callee (evalFirst ctx args) (evalAll ctx args)

end MiniC.Run
