import MiniC.Ast.Operator
import MiniC.Token.Basic
import MiniC.Tree.Label

set_option autoImplicit false

/-! # Programs

Programs by meaning. Every occurrence of a name, a literal or a type in a program is a leaf with a
number of its own, so that what is found out about one occurrence can be kept apart from the
program. Parts that a message can be about know their first token. -/

namespace MiniC

/-- An occurrence of a name or a literal: its token, and the number of the leaf. -/
structure Leaf where
  token : Token
  slot : Nat
deriving DecidableEq, Repr

/-- An occurrence of a type: its tokens, at least one, and the number of the leaf. -/
structure TypeName where
  first : Token
  rest : List Token
  slot : Nat
deriving DecidableEq, Repr

/-- The words of a type name. -/
def TypeName.words (t : TypeName) : List String :=
  (t.first :: t.rest).map (·.text)

/-! ## Expressions -/

/-- An expression. -/
inductive Expr
  | identifier (leaf : Leaf)
  | literal (leaf : Leaf) (kind : LiteralKind)
  | parens (e : Expr)
  | unary (op : UnaryOp) (e : Expr)
  | step (op : StepOp) (e : Expr)
  | binary (op : BinaryOp) (left right : Expr)
  /-- An assignment, after an arithmetic operator was applied if there is one. -/
  | assign (op : Option ArithOp) (left right : Expr)
  | conditional (cond first second : Expr)
  | call (callee : Expr) (args : List Expr)
  | index (base place : Expr)
  | member (e : Expr) (field : Leaf)
  | arrow (e : Expr) (field : Leaf)
  | sizeOf (type : TypeName)
  | cast (type : TypeName) (e : Expr)
  /-- An initializer list, which is never empty. -/
  | list (head : Expr) (tail : List Expr)
deriving Repr

namespace Expr

/-- The leftmost token of an expression that belongs to a leaf. -/
def first : Expr → Token
  | .identifier leaf => leaf.token
  | .literal leaf _ => leaf.token
  | .parens e => e.first
  | .unary _ e => e.first
  | .step _ e => e.first
  | .binary _ left _ => left.first
  | .assign _ left _ => left.first
  | .conditional cond _ _ => cond.first
  | .call callee _ => callee.first
  | .index base _ => base.first
  | .member e _ => e.first
  | .arrow e _ => e.first
  | .sizeOf type => type.first
  | .cast type _ => type.first
  | .list head _ => head.first

/-- The position that messages about an expression name. -/
def pos (e : Expr) : Position := e.first.pos

/-- An expression without the parentheses around it. -/
def stripParens : Expr → Expr
  | .parens e => e.stripParens
  | e => e

/-- Whether an expression denotes a place. -/
def isPlace (e : Expr) : Bool :=
  match e.stripParens with
  | .identifier _ => true
  | .unary .deref _ => true
  | .index _ _ => true
  | .member _ _ => true
  | .arrow _ _ => true
  | _ => false

/-- The items of an initializer list. -/
def items? : Expr → Option (List Expr)
  | .list head tail => some (head :: tail)
  | _ => none

/-- The token of a string literal. -/
def string? : Expr → Option Token
  | .literal leaf .string => some leaf.token
  | _ => none

end Expr

/-! ## Declarations -/

/-- A dimension of an array. -/
inductive Dim
  | sized (size : Expr)
  | unsized
deriving Repr

/-- A declared variable: its type apart from the dimensions, its name, its dimensions if it is an
array, and its initializer if it has one. -/
structure Declarator where
  type : TypeName
  name : Leaf
  dims : List Dim
  init : Option Expr
deriving Repr

/-- The position that messages about a declarator name. -/
def Declarator.pos (d : Declarator) : Position := d.type.first.pos

/-- A declaration of one variable or of several. -/
structure Declaration where
  head : Declarator
  tail : List Declarator
deriving Repr

namespace Declaration

/-- The declared variables in order. -/
def all (d : Declaration) : List Declarator := d.head :: d.tail

/-- The label of the node of a declaration. -/
def label (d : Declaration) : Label :=
  if !d.tail.isEmpty then .variablesDecl
  else if d.head.init.isSome then .variableInit
  else .variableDecl

end Declaration

/-! ## Statements -/

/-- What stands in a line between commas, and in the header of a loop. -/
inductive Instr
  | expr (e : Expr)
  | declare (d : Declaration)
  | break (token : Token)
  | continue (token : Token)
  | return (value : Option Expr)
  | goto (label : Leaf)
deriving Repr

/-- The leftmost token of an instruction that belongs to a leaf; a return without a value has
none. -/
def Instr.first? : Instr → Option Token
  | .expr e => some e.first
  | .declare d => some d.head.type.first
  | .break token => some token
  | .continue token => some token
  | .return value => value.map Expr.first
  | .goto label => some label.token

/-- The position that messages about an instruction name. -/
def Instr.pos? (i : Instr) : Option Position :=
  i.first?.map (·.pos)

/-- The words for an instruction that stands where an expression is needed. -/
def Instr.words : Instr → String
  | .expr _ => ""
  | .declare d => d.label.text ++ "."
  | .break token => token.text
  | .continue token => token.text
  | .return _ => Label.returnFrom.text ++ "."
  | .goto _ => Label.goTo.text ++ "."

/-- A statement. -/
inductive Stmt
  | block (body : List Stmt)
  | line (instrs : List Instr)
  | label (name : Leaf)
  /-- Conditions with their branches, and the branch for none of them. -/
  | branches (conditional : List (Expr × Stmt)) (otherwise : Option Stmt)
  | while (cond : Expr) (body : Stmt)
  | doWhile (cond : Expr) (body : Stmt)
  | for (init cond step : Option Instr) (body : Stmt)
  /-- A selector and the cases, of which the default case has no label. -/
  | switch (selector : Expr) (cases : List (Option Expr × List Stmt))
deriving Repr

/-! ## Programs -/

/-- The name of the function that is there without a declaration. -/
def printName : String := "printf"

/-- A piece of a program. -/
inductive Item
  | directive (token : Token)
  | struct (name : Leaf) (fields : List Declarator)
  | function (returnType : TypeName) (name : Leaf) (params : List Declarator) (body : List Stmt)
  | prototype (returnType : TypeName) (name : Leaf) (params : List Declarator)
  | declaration (d : Declaration)
deriving Repr

/-- The leftmost token of a piece of a program that belongs to a leaf. -/
def Item.first : Item → Token
  | .directive token => token
  | .struct name _ => name.token
  | .function returnType _ _ _ => returnType.first
  | .prototype returnType _ _ => returnType.first
  | .declaration d => d.head.type.first

/-- A program. -/
structure Program where
  items : List Item
deriving Repr

/-- The position that messages about a whole program name. -/
def Program.pos? (p : Program) : Option Position :=
  p.items.head?.map (·.first.pos)

end MiniC
