import MiniC.Ast.Basic
import MiniC.Tree.Basic

set_option autoImplicit false

/-! # From trees to programs

The program that a tree stands for. A node of each label has children of a number and of kinds that
belong to the label; a tree in which a node has others stands for no program. -/

namespace MiniC

/-! ## Leaves -/

/-- An occurrence of a name. -/
def Leaf.ofTree? : Tree → Option Leaf
  | .leaf token slot => some ⟨token, slot⟩
  | _ => none

/-- An occurrence of a type. -/
def TypeName.ofTree? : Tree → Option TypeName
  | .leaf token slot => some ⟨token, [], slot⟩
  | .typeName (first :: rest) slot => some ⟨first, rest, slot⟩
  | _ => none

/-! ## Expressions -/

/-- The operator of a node with one operand. -/
def UnaryOp.ofLabel? : Label → Option UnaryOp
  | .negation => some .negate
  | .plus => some .plus
  | .indirection => some .deref
  | .logicalNot => some .not
  | .complement => some .complement
  | .addressOf => some .address
  | _ => none

/-- The label of the node of an operator with one operand. -/
def UnaryOp.label : UnaryOp → Label
  | .negate => .negation
  | .plus => .plus
  | .deref => .indirection
  | .not => .logicalNot
  | .complement => .complement
  | .address => .addressOf

/-- The increment or decrement of a node. -/
def StepOp.ofLabel? : Label → Option StepOp
  | .preIncrement => some ⟨.before, true⟩
  | .preDecrement => some ⟨.before, false⟩
  | .postIncrement => some ⟨.after, true⟩
  | .postDecrement => some ⟨.after, false⟩
  | _ => none

/-- The label of the node of an increment or decrement. -/
def StepOp.label : StepOp → Label
  | ⟨.before, true⟩ => .preIncrement
  | ⟨.before, false⟩ => .preDecrement
  | ⟨.after, true⟩ => .postIncrement
  | ⟨.after, false⟩ => .postDecrement

/-- The assignment with the given spelling: with the operator that is applied first, if there is
one. -/
def assignment? (s : String) : Option (Option ArithOp) :=
  if s = "=" then some none
  else (ArithOp.all.find? fun op => op.text ++ "=" = s).map some

namespace Expr

/-- The expression that a single token is. -/
def ofLeaf? (leaf : Leaf) : Option Expr :=
  match leaf.token.kind with
  | .literal kind => some (.literal leaf kind)
  | .identifier => some (.identifier leaf)
  | _ => none

/-- The expression of a node with one operand. -/
def ofOne? (label : Label) (e : Expr) : Option Expr :=
  match label with
  | .parens => some (.parens e)
  | label =>
    (UnaryOp.ofLabel? label).map (fun op => .unary op e)
      <|> (StepOp.ofLabel? label).map fun op => .step op e

/-- The expression of a node with two operands. -/
def ofTwo? (label : Label) (left right : Expr) : Option Expr :=
  match label with
  | .indexer => some (.index left right)
  | .word s =>
    (BinaryOp.ofText? s).map (fun op => .binary op left right)
      <|> (assignment? s).map fun op => .assign op left right
  | _ => none

/-- The expression that a tree stands for. -/
def ofTree? : Tree → Option Expr
  | .leaf token slot => ofLeaf? ⟨token, slot⟩
  | .node .sizeOf [type] => (TypeName.ofTree? type).map .sizeOf
  | .node .typeCast [type, e] => do return .cast (← TypeName.ofTree? type) (← ofTree? e)
  | .node .member [e, field] => do return .member (← ofTree? e) (← Leaf.ofTree? field)
  | .node .arrow [e, field] => do return .arrow (← ofTree? e) (← Leaf.ofTree? field)
  | .node .call (callee :: args) => do return .call (← ofTree? callee) (← ofTrees? args)
  | .node .initList [.node .initValues (head :: tail)] => do
    return .list (← ofTree? head) (← ofTrees? tail)
  | .node .ternary [cond, first, second] => do
    return .conditional (← ofTree? cond) (← ofTree? first) (← ofTree? second)
  | .node label [e] => do ofOne? label (← ofTree? e)
  | .node label [left, right] => do ofTwo? label (← ofTree? left) (← ofTree? right)
  | _ => none
where
  /-- The expressions that several trees stand for. -/
  ofTrees? : List Tree → Option (List Expr)
    | [] => some []
    | t :: rest => do return (← ofTree? t) :: (← ofTrees? rest)

end Expr

/-! ## Declarations -/

/-- The dimension that a tree stands for. -/
def Dim.ofTree? : Tree → Option Dim
  | .node .arrayDim [size] => (Expr.ofTree? size).map .sized
  | .node .arrayOpen [.empty] => some .unsized
  | _ => none

namespace Declarator

/-- The declarator without initializer that a tree stands for. -/
def ofDecl? : Tree → Option Declarator
  | .node .variableDecl (type :: name :: dims) => do
    return ⟨← TypeName.ofTree? type, ← Leaf.ofTree? name, ← dims.mapM Dim.ofTree?, none⟩
  | _ => none

/-- The declarator that a tree stands for. -/
def ofTree? : Tree → Option Declarator
  | .node .variableInit [decl, init] => do
    return { ← ofDecl? decl with init := some (← Expr.ofTree? init) }
  | t => ofDecl? t

end Declarator

/-- The declaration that a tree stands for. -/
def Declaration.ofTree? : Tree → Option Declaration
  | .node .variablesDecl (head :: next :: tail) => do
    return ⟨← Declarator.ofTree? head, ← (next :: tail).mapM Declarator.ofTree?⟩
  | t => do return ⟨← Declarator.ofTree? t, []⟩

/-! ## Statements -/

/-- The jump that a single keyword is. -/
def Instr.ofKeyword? (token : Token) : Option Instr :=
  if token.isKeyword "break" then some (.break token)
  else if token.isKeyword "continue" then some (.continue token)
  else none

/-- The instruction that a tree stands for. -/
def Instr.ofTree? (t : Tree) : Option Instr :=
  match t with
  | .node .returnFrom [.empty] => some (.return none)
  | .node .returnFrom [value] => (Expr.ofTree? value).map fun e => .return (some e)
  | .node .goTo [label] => (Leaf.ofTree? label).map .goto
  | .node .variableDecl _ => (Declaration.ofTree? t).map .declare
  | .node .variableInit _ => (Declaration.ofTree? t).map .declare
  | .node .variablesDecl _ => (Declaration.ofTree? t).map .declare
  | .leaf token _ => Instr.ofKeyword? token <|> (Expr.ofTree? t).map .expr
  | _ => (Expr.ofTree? t).map .expr

/-- The instruction that a tree stands for, where it may be left out. -/
def Instr.ofOptional? : Tree → Option (Option Instr)
  | .empty => some none
  | t => (Instr.ofTree? t).map some

/-- The label of a case: an expression, or nothing for the default case. -/
def caseLabel? (t : Tree) : Option (Option Expr) :=
  match t with
  | .leaf token _ =>
    if token.isKeyword "default" then some none else (Expr.ofTree? t).map some
  | _ => (Expr.ofTree? t).map some

namespace Stmt

/-- The statement that a tree stands for. -/
def ofTree? : Tree → Option Stmt
  | .node .block body => do return .block (← ofTrees? body)
  | .node .emptyLine [] => some (.line [])
  | .node .line [instr] => do return .line [← Instr.ofTree? instr]
  | .node .lines instrs => do return .line (← instrs.mapM Instr.ofTree?)
  | .node .jumpLabel [name] => (Leaf.ofTree? name).map .label
  | .node .ifChain parts => do
    let (conditional, otherwise) ← branches? parts
    return .branches conditional otherwise
  | .node .ifChainElse parts => do
    let (conditional, otherwise) ← branches? parts
    return .branches conditional otherwise
  | .node .whileLoop [cond, body] => do return .while (← Expr.ofTree? cond) (← ofTree? body)
  | .node .doWhileLoop [cond, body] => do return .doWhile (← Expr.ofTree? cond) (← ofTree? body)
  | .node .forLoop [init, cond, step, body] => do
    return .for (← Instr.ofOptional? init) (← Instr.ofOptional? cond) (← Instr.ofOptional? step)
      (← ofTree? body)
  | .node .switchOn [selector, .node .cases cases] => do
    return .switch (← Expr.ofTree? selector) (← cases? cases)
  | _ => none
where
  /-- The statements that several trees stand for. -/
  ofTrees? : List Tree → Option (List Stmt)
    | [] => some []
    | t :: rest => do return (← ofTree? t) :: (← ofTrees? rest)
  /-- The branches of a chain of conditions. -/
  branches? : List Tree → Option (List (Expr × Stmt) × Option Stmt)
    | [] => some ([], none)
    | [.node .elseBranch [body]] => do return ([], some (← ofTree? body))
    | .node .ifBranch [cond, body] :: rest => do
      let branch := (← Expr.ofTree? cond, ← ofTree? body)
      let (conditional, otherwise) ← branches? rest
      return (branch :: conditional, otherwise)
    | .node .elseIfBranch [cond, body] :: rest => do
      let branch := (← Expr.ofTree? cond, ← ofTree? body)
      let (conditional, otherwise) ← branches? rest
      return (branch :: conditional, otherwise)
    | _ => none
  /-- The cases of a switch. -/
  cases? : List Tree → Option (List (Option Expr × List Stmt))
    | [] => some []
    | .node .switchCase [value, .node .block body] :: rest => do
      return (← caseLabel? value, ← ofTrees? body) :: (← cases? rest)
    | _ => none

end Stmt

/-! ## Programs -/

/-- The piece of a program that a tree stands for. -/
def Item.ofTree? (t : Tree) : Option Item :=
  match t with
  | .leaf token _ => if token.kind = .directive then some (.directive token) else none
  | .node .structDecl [name, .node .structFields fields] => do
    return .struct (← Leaf.ofTree? name) (← fields.mapM Declarator.ofTree?)
  | .node .functionDecl [type, name, .node .functionParameters params, .node .block body] => do
    return .function (← TypeName.ofTree? type) (← Leaf.ofTree? name)
      (← params.mapM Declarator.ofTree?) (← Stmt.ofTree?.ofTrees? body)
  | .node .functionPrototype [type, name, .node .functionParameters params] => do
    return .prototype (← TypeName.ofTree? type) (← Leaf.ofTree? name)
      (← params.mapM Declarator.ofTree?)
  | t => (Declaration.ofTree? t).map .declaration

/-- The program that a tree stands for. -/
def Program.ofTree? : Tree → Option Program
  | .node .program items => do return ⟨← items.mapM Item.ofTree?⟩
  | _ => none

end MiniC
