import MiniC.Check.Expr

set_option autoImplicit false

/-! # Declarations and statements

The rules that declarations and statements obey. The body of a loop, a branch and a block have
scopes of their own; labels belong to the function, whichever scope they stand in. -/

namespace MiniC.Check

/-! ## Declarations -/

/-- Looks at the sizes of an array. -/
def dimensions : List Dim → Check Unit
  | [] => pure ()
  | .unsized :: rest => dimensions rest
  | .sized size :: rest => do
    if !(← exprType size).isInteger then failAt .arraySize size.pos
    dimensions rest

/-- The type of a declared variable. -/
def declaredType (d : Declarator) : Check CType := do
  let t ← resolve d.type
  dimensions d.dims
  pure (t.pointers d.dims.length)

/-- The type of a variable that is declared with the type `t` and without an initializer. -/
def uninitializedType (d : Declarator) (t : CType) : Check CType := do
  if t.isAuto then failAt .uninitializedAuto d.pos
  if t.isReadOnly && d.dims.isEmpty then failAt .uninitializedConst d.pos
  pure t

/-- The type of a variable that is declared with the type `t` and an initializer: a variable of the
type `auto` gets that of its initializer. -/
def initializedType (t : CType) (init : Expr) : Check CType := do
  if t.isAuto then
    if init.items?.isSome then failAt .listForAuto init.pos
    pure (← exprType init).writable
  else
    initializer t init
    pure t

/-- Declares a variable. -/
def declarator (d : Declarator) : Check Unit := do
  let declared ← declaredType d
  let t ←
    match d.init with
    | none => uninitializedType d declared
    | some init => initializedType declared init
  if t.isVoid then failAt .voidVariable d.pos
  declare ⟨d.name, t⟩

/-- Declares the variables of a declaration. -/
def declaration (d : Declaration) : Check Unit :=
  d.all.forM declarator

/-! ## Instructions -/

/-- Looks at a return with the given value from a function. -/
def returnFrom (f : Signature) : Option Expr → Check Unit
  | none =>
    if f.returnType.isVoid then pure () else fail (.missingValue f.name.text) none
  | some e => do
    if f.returnType.isVoid then failAt .unexpectedValue e.pos
    implicitCast .returnType (← exprType e) f.returnType e.pos

/-- Looks at an instruction. -/
def instr : Instr → Check Unit
  | .expr e => do
    let _ ← exprType e
    pure ()
  | .declare d => declaration d
  | .break token => do
    if !(← get).allowsJump [.loop, .switch] then failAt .strayBreak token.pos
  | .continue token => do
    if !(← get).allowsJump [.loop] then failAt .strayContinue token.pos
  | .return value => do
    let a ← get
    match (a.functionScope?.bind fun i => a.scopes[i]?).bind (·.function) with
    | none => fail .strayReturn (value.map Expr.pos)
    | some f => returnFrom f value
  | .goto label => do
    match (← get).functionScope? with
    | none => failAt .strayGoto label.token.pos
    | some i => modifyScope i fun s => { s with gotos := s.gotos ++ [label.token] }

/-- The type of an instruction that stands where an expression is needed, and its position. -/
def instrType : Instr → Check (CType × Position)
  | .expr e => do return (← exprType e, e.pos)
  | i => fail (.notAnExpression i.words) i.pos?

/-! ## Statements -/

/-- Declares a label in the function around the current scope. -/
def label (name : Leaf) : Check Unit := do
  let a ← get
  let text := name.token.text
  match a.functionScope? with
  | none => failAt .strayLabel name.token.pos
  | some i =>
    if (a.scopes[i]?.map (·.labels.contains text)).getD false then
      failAt (.repeatedLabel text) name.token.pos
    modifyScope i fun s => { s with labels := s.labels ++ [text] }

/-- Looks at the condition of a loop, which may be left out. -/
def loopCondition : Option Instr → Check Unit
  | none => pure ()
  | some i => do
    let (t, pos) ← instrType i
    condition t pos

/-- Looks at the step of a loop, which may be left out. -/
def loopStep : Option Instr → Check Unit
  | none => pure ()
  | some i => do
    let _ ← instrType i
    pure ()

/-- Looks at the label of a case; the default case has none. -/
def caseLabel : Option Expr → Check Unit
  | none => pure ()
  | some e => do
    if !(← exprType e).isInteger then failAt .caseLabel e.pos

/-- Looks at a statement. -/
def stmt : Stmt → Check Unit
  | .block body => do
    enter .block none
    stmts body
    leave
  | .line instrs => instrs.forM instr
  | .label name => label name
  | .branches conditional otherwise => do
    branches conditional
    elseBranch otherwise
  | .while cond body => do
    condition (← exprType cond) cond.pos
    enter .loop none
    stmt body
    leave
  | .doWhile cond body => do
    enter .loop none
    stmt body
    leave
    condition (← exprType cond) cond.pos
  | .for init cond step body => do
    enter .loop none
    match init with
    | none => pure ()
    | some i => instr i
    loopCondition cond
    loopStep step
    stmt body
    leave
  | .switch selector parts => do
    if !(← exprType selector).isInteger then failAt .switchSelector selector.pos
    if 1 < (parts.filter fun part => part.1.isNone).length then
      failAt .repeatedDefault selector.pos
    enter .switch none
    cases parts
    leave
where
  /-- Looks at statements one after another. -/
  stmts : List Stmt → Check Unit
    | [] => pure ()
    | s :: rest => do
      stmt s
      stmts rest
  /-- Looks at conditions and their branches. -/
  branches : List (Expr × Stmt) → Check Unit
    | [] => pure ()
    | (cond, body) :: rest => do
      condition (← exprType cond) cond.pos
      enter .block none
      stmt body
      leave
      branches rest
  /-- Looks at the branch for no condition, if there is one. -/
  elseBranch : Option Stmt → Check Unit
    | none => pure ()
    | some body => do
      enter .block none
      stmt body
      leave
  /-- Looks at the cases of a switch. -/
  cases : List (Option Expr × List Stmt) → Check Unit
    | [] => pure ()
    | (value, body) :: rest => do
      caseLabel value
      enter .block none
      stmts body
      leave
      cases rest

end MiniC.Check
