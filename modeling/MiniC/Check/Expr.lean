import MiniC.Ast.OfTree
import MiniC.Check.Scope

set_option autoImplicit false

/-! # Types of expressions

The static type of every expression, and the rules that expressions obey. The operands of an
expression are looked at from the left to the right, and the first broken rule ends the analysis. -/

namespace MiniC

/-- The type of the values of a kind of literal. -/
def LiteralKind.ctype : LiteralKind → CType
  | .string => CType.char.pointer
  | .char => .char
  | .float => .ofBase .float
  | .double => .ofBase .double
  | .integer .plain signed _ => .ofBase (.integer .int (!signed))
  | .integer _ signed _ => .ofBase (.integer .long (!signed))

namespace Check

/-! ## Operators -/

/-- The wider of two types, written without a read-only mark on its outermost level. -/
def widerType (cause : SemanticCause) (pos : Position) (left right : CType) : Check CType :=
  if left.canCast right then pure right.writable
  else if right.canCast left then pure left.writable
  else failAt cause pos

/-- The type of the result of arithmetic on two operands that are neither structs nor void. -/
def arithType (op : ArithOp) (left right : CType) (pos : Position) : Check CType :=
  if op.isBitwise then
    if !left.isInteger || !right.isInteger then failAt .notIntegers pos
    else if op.isShift then pure left.writable
    else widerType (.operandType op.text) pos left right
  else if left.isPointer || right.isPointer then
    if op = .add && left.isPointer && right.isInteger then pure left.writable
    else if op = .add && right.isPointer && left.isInteger then pure right.writable
    else if op = .sub && left.isPointer && right.isInteger then pure left.writable
    else if op = .sub && left.isPointer && right.isPointer
        && left.levels.length = right.levels.length then pure .long
    else failAt (.operandType op.text) pos
  else if op = .rem && (left.isFloating || right.isFloating) then
    failAt (.operandType op.text) pos
  else widerType (.operandType op.text) pos left right

/-- The type of the result of a binary operator. -/
def operatorType (op : BinaryOp) (left right : CType) (pos : Position) : Check CType :=
  if left.isStruct || right.isStruct then failAt (.structOperand op.text) pos
  else if left.isVoid || right.isVoid then failAt (.voidOperand op.text) pos
  else
    match op with
    | .logic _ => pure .char
    | .relation _ =>
      if left.canCast right || right.canCast left then pure .char else failAt .incomparable pos
    | .arith op => arithType op left right pos

/-- The type of the result of an operator with one operand; `isPlace` says whether the operand
denotes a place. -/
def unaryType (op : UnaryOp) (isPlace : Bool) (t : CType) (pos : Position) : Check CType :=
  match op with
  | .negate | .plus =>
    if t.isStruct || t.isPointer || t.isVoid then failAt (.operandOf op.label.text) pos
    else pure t.writable
  | .not =>
    if t.isStruct || t.isVoid then failAt (.structOperand "!") pos else pure .char
  | .complement => if t.isInteger then pure t.writable else failAt .notIntegerComplement pos
  | .deref =>
    match t.pointee? with
    | none => failAt (.derefType t) pos
    | some pointee => pure pointee
  | .address => if isPlace then pure t.pointer else failAt .addressOfNonPlace pos

/-- A type that can be a condition. -/
def condition (t : CType) (pos : Position) : Check Unit :=
  if t.isStruct || t.isVoid then failAt (.condition t) pos else pure ()

/-- A type that can be cast implicitly to another one. -/
def implicitCast (cause : CastError → SemanticCause) (src dst : CType) (pos : Position) :
    Check Unit :=
  match src.castError? dst with
  | some e => failAt (cause e) pos
  | none => pure ()

/-! ## Names and members -/

/-- The type of a variable. -/
def variableType (leaf : Leaf) : Check CType := do
  let name := leaf.token
  match (← get).lookup name.id with
  | none => failAt (.undeclaredName name.text) name.pos
  | some (.function _) => failAt (.functionAsValue name.text) name.pos
  | some (.variable v) => do
    Traced.note (.meaning leaf (.variable v))
    annotate leaf.slot v.type

/-- The type of a field among the members of a struct, which are missing if the type `t` to the left
has none. -/
def fieldType (cause : CType → SemanticCause) (t : CType) (members : Option (List Field))
    (field : Leaf) (pos : Position) : Check CType :=
  match members with
  | none => failAt (cause t) pos
  | some fields =>
    match fields.find? (·.name = field.token.text) with
    | none => failAt (.unknownField field.token.text) field.token.pos
    | some f => pure f.type

/-- The function that a call of `callee` with `count` arguments calls; the function that is always
there is called where no other function has its name, and has no signature. -/
def calledFunction (callee : Expr) (count : Nat) : Check (Option Signature) := do
  match callee with
  | .identifier leaf =>
    let name := leaf.token
    match (← get).lookup name.id with
    | none =>
      if name.text = printName then
        if count = 0 then failAt .tooFewArgs callee.pos else pure none
      else failAt (.undeclaredName name.text) name.pos
    | some (.variable _) => failAt (.notAFunction name.text) name.pos
    | some (.function f) =>
      if f.params.length < count then failAt .tooManyArgs callee.pos
      else if count < f.params.length then failAt .tooFewArgs callee.pos
      else do
        Traced.note (.meaning leaf (.function f))
        pure (some f)
  | _ => failAt .invalidCall callee.pos

/-! ## Expressions -/

/-- The type of an expression. -/
def exprType : Expr → Check CType
  | .identifier leaf => variableType leaf
  | .literal leaf kind => annotate leaf.slot kind.ctype
  | .parens e => exprType e
  | .unary op e => do
    if op = .address && !e.isPlace then failAt .addressOfNonPlace e.pos
    unaryType op e.isPlace (← exprType e) e.pos
  | .step op e => do
    if !e.isPlace then failAt .notAssignable e.pos
    let t ← exprType e
    if t.isStruct then failAt (.steppedStruct op.label.text) e.pos
    if t.isReadOnly then failAt .readOnly e.pos
    pure t
  | .binary op left right => do
    let l ← exprType left
    let r ← exprType right
    operatorType op l r left.pos
  | .assign op left right => do
    if !left.isPlace then failAt .notAssignable left.pos
    let l ← exprType left
    if l.isReadOnly then failAt .readOnly left.pos
    let r ← exprType right
    let result ←
      match op with
      | none => pure r
      | some op => operatorType (.arith op) l r left.pos
    implicitCast .cast result l left.pos
    pure l
  | .conditional cond first second => do
    condition (← exprType cond) cond.pos
    let a ← exprType first
    let b ← exprType second
    widerType .ternaryTypes cond.pos a b
  | .call callee args => do
    match ← calledFunction callee args.length with
    | none => do
      argTypes args
      pure .int
    | some f => do
      argsFor f.params args
      pure f.returnType
  | .index base place => do
    let b ← exprType base
    match b.pointee? with
    | none => failAt (.notIndexed b) base.pos
    | some pointee => do
      if !(← exprType place).isInteger then failAt .nonIntegerIndex place.pos
      pure pointee
  | .member e field => do
    let t ← exprType e
    fieldType .notPointed t ((← get).structs.members? t) field e.pos
  | .arrow e field => do
    let t ← exprType e
    fieldType .notArrowed t ((← get).structs.arrowMembers? t) field e.pos
  | .sizeOf type => do
    let _ ← resolve type
    pure .int
  | .cast type e => do
    let target ← resolve type
    let pos := type.first.pos
    if e.stripParens.string?.isSome then failAt .castOfString pos
    let src ← exprType e
    if target.isAuto then failAt .castToAuto pos
    if (src.isStruct || target.isStruct) && src.tag? ≠ target.tag? then
      failAt (.cast .struct) pos
    if src.isVoid && !target.isVoid then failAt (.cast .void) pos
    pure target
  | .list head _ => failAt .listAsExpression head.pos
where
  /-- Looks at arguments that may have any type. -/
  argTypes : List Expr → Check Unit
    | [] => pure ()
    | arg :: rest => do
      let _ ← exprType arg
      argTypes rest
  /-- Looks at the arguments for the given parameters. -/
  argsFor : List Variable → List Expr → Check Unit
    | param :: params, arg :: rest => do
      let t ← exprType arg
      implicitCast (fun _ => .argumentType param.name.text) t param.type arg.pos
      argsFor params rest
    | _, _ => pure ()

/-- Looks at an initializer of a location of the given type. Each item of a list initializes what a
pointer of that type points to. -/
def initializer (target : CType) : Expr → Check Unit
  | .list head tail =>
    match target.pointee? with
    | none => failAt .listForScalar head.pos
    | some element => do
      initializer element head
      initializers element tail
  | e => do
    let t ← exprType e
    implicitCast .cast t target e.pos
where
  /-- Looks at the initializers of several locations of the given type. -/
  initializers (target : CType) : List Expr → Check Unit
    | [] => pure ()
    | e :: rest => do
      initializer target e
      initializers target rest

end Check

end MiniC
