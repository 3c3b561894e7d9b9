import MiniC.Check.Scope

set_option autoImplicit false

/-! # Programs that hang together

What it means that the names, the calls and the jumps of a program make sense where they stand,
apart from types. This is a judgement over the syntax: `Γ` says what names mean at a place, and a
declaration changes it for what follows in the same scope. The analysis establishes it, and it is
all that a run needs to find its way. -/

namespace MiniC

/-! ## Meanings -/

/-- What a name means at a place: the variable of a declaration, or a function with a number of
parameters. -/
inductive Meaning
  | variable (leaf : Leaf)
  | function (arity : Nat)
deriving DecidableEq

/-- What an entity of the analysis means. -/
def Entity.meaning : Entity → Meaning
  | .variable v => .variable v.leaf
  | .function f => .function f.params.length

/-- What names mean at a place, under their numbers. -/
abbrev Meanings := Nat → Option Meaning

namespace Meanings

/-- No name means anything. -/
def empty : Meanings := fun _ => none

/-- The meanings after a name got a new one. -/
def set (Γ : Meanings) (id : Nat) (meaning : Meaning) : Meanings :=
  fun n => if n = id then some meaning else Γ n

/-- The meanings after a declaration of a variable. -/
def declare (Γ : Meanings) (leaf : Leaf) : Meanings :=
  Γ.set leaf.token.id (.variable leaf)

/-- The meanings after declarations of several variables. -/
def declareAll (Γ : Meanings) (leaves : List Leaf) : Meanings :=
  leaves.foldl declare Γ

/-- Whether names mean the same in `Δ`, as far as they mean anything in `Γ`. -/
def Within (Γ Δ : Meanings) : Prop :=
  ∀ id meaning, Γ id = some meaning → Δ id = some meaning

theorem set_same (Γ : Meanings) (id : Nat) (meaning : Meaning) :
    Γ.set id meaning id = some meaning := if_pos rfl

theorem set_other (Γ : Meanings) {id n : Nat} (meaning : Meaning) (h : n ≠ id) :
    Γ.set id meaning n = Γ n := if_neg h

@[simp]
theorem declareAll_nil (Γ : Meanings) : Γ.declareAll [] = Γ := rfl

@[simp]
theorem declareAll_cons (Γ : Meanings) (leaf : Leaf) (leaves : List Leaf) :
    Γ.declareAll (leaf :: leaves) = (Γ.declare leaf).declareAll leaves := rfl

theorem declareAll_append (Γ : Meanings) (leaves leaves' : List Leaf) :
    Γ.declareAll (leaves ++ leaves') = (Γ.declareAll leaves).declareAll leaves' :=
  List.foldl_append

end Meanings

/-! ## Leaves of programs -/

/-- The variables that an instruction declares. -/
def Instr.declared : Instr → List Leaf
  | .declare d => d.all.map (·.name)
  | _ => []

namespace Stmt

/-- The variables that a statement declares in the scope in which it stands, and not in one of its
own, when it is executed. A branch has no scope of its own unless it is a block or a loop. -/
def direct : Stmt → List Leaf
  | .line instrs => instrs.flatMap Instr.declared
  | .branches conditional otherwise => directBranches conditional ++ directElse otherwise
  | _ => []
where
  /-- The variables that branches declare. -/
  directBranches : List (Expr × Stmt) → List Leaf
    | [] => []
    | (_, body) :: rest => body.direct ++ directBranches rest
  /-- The variables that the branch for no condition declares. -/
  directElse : Option Stmt → List Leaf
    | none => []
    | some body => body.direct

/-- The variables that statements declare in the scope in which they stand. -/
def directAll (body : List Stmt) : List Leaf := body.flatMap direct

/-- The variables that a statement declares in scopes of its own. -/
def inner : Stmt → List Leaf
  | .block body => directAll body ++ innerAll body
  | .branches conditional otherwise => innerBranches conditional ++ innerElse otherwise
  | .while _ body => body.direct ++ body.inner
  | .doWhile _ body => body.direct ++ body.inner
  | .for init _ _ body => init.toList.flatMap Instr.declared ++ (body.direct ++ body.inner)
  | .switch _ parts => innerCases parts
  | _ => []
where
  /-- The variables that statements declare in scopes of their own. -/
  innerAll : List Stmt → List Leaf
    | [] => []
    | s :: rest => s.inner ++ innerAll rest
  /-- The variables that branches declare in scopes of their own. -/
  innerBranches : List (Expr × Stmt) → List Leaf
    | [] => []
    | (_, body) :: rest => body.inner ++ innerBranches rest
  /-- The variables that the branch for no condition declares in scopes of its own. -/
  innerElse : Option Stmt → List Leaf
    | none => []
    | some body => body.inner
  /-- The variables that the cases of a switch declare. -/
  innerCases : List (Option Expr × List Stmt) → List Leaf
    | [] => []
    | (_, body) :: rest => (directAll body ++ innerAll body) ++ innerCases rest

/-- The variables that are declared in a branch or in the body of a loop without a block around
them. For the analysis such a declaration ends with the branch or the body. -/
def bare : Stmt → List Leaf
  | .block body => bareAll body
  | .branches conditional otherwise => bareBranches conditional ++ bareElse otherwise
  | .while _ body => body.direct ++ body.bare
  | .doWhile _ body => body.direct ++ body.bare
  | .for _ _ _ body => body.direct ++ body.bare
  | .switch _ parts => bareCases parts
  | _ => []
where
  /-- The variables that are declared without a block in statements. -/
  bareAll : List Stmt → List Leaf
    | [] => []
    | s :: rest => s.bare ++ bareAll rest
  /-- The variables that are declared without a block in branches. -/
  bareBranches : List (Expr × Stmt) → List Leaf
    | [] => []
    | (_, body) :: rest => (body.direct ++ body.bare) ++ bareBranches rest
  /-- The variables that are declared without a block in the branch for no condition. -/
  bareElse : Option Stmt → List Leaf
    | none => []
    | some body => body.direct ++ body.bare
  /-- The variables that are declared without a block in the cases of a switch. -/
  bareCases : List (Option Expr × List Stmt) → List Leaf
    | [] => []
    | (_, body) :: rest => bareAll body ++ bareCases rest

/-- The variables that a statement declares for what follows it, as the analysis sees it. -/
def declared : Stmt → List Leaf
  | .line instrs => instrs.flatMap Instr.declared
  | _ => []

end Stmt

/-! ## Names and jumps in programs -/

/-- The names in an expression, apart from those of fields. -/
def Expr.names : Expr → List Leaf
  | .identifier leaf => [leaf]
  | .parens e => e.names
  | .unary _ e => e.names
  | .step _ e => e.names
  | .binary _ left right => left.names ++ right.names
  | .assign _ left right => left.names ++ right.names
  | .conditional cond first second => cond.names ++ first.names ++ second.names
  | .call callee args => callee.names ++ namesAll args
  | .index base place => base.names ++ place.names
  | .member e _ => e.names
  | .arrow e _ => e.names
  | .cast _ e => e.names
  | .list head tail => head.names ++ namesAll tail
  | .literal _ _ => []
  | .sizeOf _ => []
where
  /-- The names in several expressions. -/
  namesAll : List Expr → List Leaf
    | [] => []
    | e :: rest => e.names ++ namesAll rest

/-- The names in the size of an array. -/
def Dim.names : Dim → List Leaf
  | .sized size => size.names
  | .unsized => []

/-- The names in the sizes of a declarator. -/
def Declarator.sizeNames (d : Declarator) : List Leaf :=
  d.dims.flatMap Dim.names

/-- The names in the sizes and the initializer of a declarator. -/
def Declarator.names (d : Declarator) : List Leaf :=
  d.sizeNames ++ d.init.toList.flatMap Expr.names

/-- The names in an instruction, apart from those it declares. -/
def Instr.names : Instr → List Leaf
  | .expr e => e.names
  | .declare d => d.all.flatMap Declarator.names
  | .return value => value.toList.flatMap Expr.names
  | _ => []

/-- The label that an instruction jumps to. -/
def Instr.gotos : Instr → List Leaf
  | .goto label => [label]
  | _ => []

namespace Stmt

/-- The names in a statement, apart from those it declares. -/
def names : Stmt → List Leaf
  | .block body => namesAll body
  | .line instrs => instrs.flatMap Instr.names
  | .label _ => []
  | .branches conditional otherwise => namesBranches conditional ++ namesElse otherwise
  | .while cond body => cond.names ++ body.names
  | .doWhile cond body => cond.names ++ body.names
  | .for init cond step body =>
    (init.toList ++ cond.toList ++ step.toList).flatMap Instr.names ++ body.names
  | .switch selector parts => selector.names ++ namesCases parts
where
  /-- The names in statements. -/
  namesAll : List Stmt → List Leaf
    | [] => []
    | s :: rest => s.names ++ namesAll rest
  /-- The names in conditions and their branches. -/
  namesBranches : List (Expr × Stmt) → List Leaf
    | [] => []
    | (cond, body) :: rest => cond.names ++ body.names ++ namesBranches rest
  /-- The names in the branch for no condition. -/
  namesElse : Option Stmt → List Leaf
    | none => []
    | some body => body.names
  /-- The names in the cases of a switch. -/
  namesCases : List (Option Expr × List Stmt) → List Leaf
    | [] => []
    | (value, body) :: rest =>
      value.toList.flatMap Expr.names ++ namesAll body ++ namesCases rest

/-- The labels that a statement jumps to. -/
def gotos : Stmt → List Leaf
  | .block body => gotosAll body
  | .line instrs => instrs.flatMap Instr.gotos
  | .label _ => []
  | .branches conditional otherwise => gotosBranches conditional ++ gotosElse otherwise
  | .while _ body => body.gotos
  | .doWhile _ body => body.gotos
  | .for init _ _ body => init.toList.flatMap Instr.gotos ++ body.gotos
  | .switch _ parts => gotosCases parts
where
  /-- The labels that statements jump to. -/
  gotosAll : List Stmt → List Leaf
    | [] => []
    | s :: rest => s.gotos ++ gotosAll rest
  /-- The labels that branches jump to. -/
  gotosBranches : List (Expr × Stmt) → List Leaf
    | [] => []
    | (_, body) :: rest => body.gotos ++ gotosBranches rest
  /-- The labels that the branch for no condition jumps to. -/
  gotosElse : Option Stmt → List Leaf
    | none => []
    | some body => body.gotos
  /-- The labels that the cases of a switch jump to. -/
  gotosCases : List (Option Expr × List Stmt) → List Leaf
    | [] => []
    | (_, body) :: rest => gotosAll body ++ gotosCases rest

end Stmt

namespace Item

/-- The names in a piece of a program: those of functions, and those that are not declared. -/
def names : Item → List Leaf
  | .directive _ => []
  | .struct _ fields => fields.flatMap Declarator.sizeNames
  | .function _ name params body =>
    name :: params.flatMap Declarator.sizeNames ++ Stmt.names.namesAll body
  | .prototype _ name params => name :: params.flatMap Declarator.sizeNames
  | .declaration d => d.all.flatMap Declarator.names

/-- The labels that a piece of a program jumps to. -/
def gotos : Item → List Leaf
  | .function _ _ _ body => Stmt.gotos.gotosAll body
  | _ => []

/-- The variables and parameters that a piece of a program declares. -/
def declared : Item → List Leaf
  | .function _ _ params body =>
    params.map (·.name) ++ (Stmt.directAll body ++ Stmt.inner.innerAll body)
  | .declaration d => d.all.map (·.name)
  | _ => []

/-- The global variables that a piece of a program declares. -/
def globals : Item → List Leaf
  | .declaration d => d.all.map (·.name)
  | _ => []

/-- The variables that are declared in a piece of a program without a block around them, as the
whole branch of a condition or the whole body of a loop. -/
def bare : Item → List Leaf
  | .function _ _ _ body => Stmt.bare.bareAll body
  | _ => []

end Item

/-! ## The judgement -/

/-- What the judgement depends on: which entity an occurrence of a name was found to stand for,
which names are those of the function that is there without a declaration, whether the program may
define that function itself, and whether there may be jumps to labels. -/
structure Linkage where
  resolves : Leaf → Entity → Prop
  isPrint : Nat → Prop
  hasPrint : Prop
  hasGotos : Prop

section

variable (L : Linkage)

namespace Expr

/-- Whether a call of `callee` with `count` arguments calls something. -/
def IsCallee (Γ : Meanings) (callee : Expr) (count : Nat) : Prop :=
  ∃ leaf, callee = .identifier leaf ∧
    (Γ leaf.token.id = some (.function count) ∨
      Γ leaf.token.id = none ∧ leaf.token.text = printName ∧ L.isPrint leaf.token.id)

/-- Whether the names in an expression mean variables, its calls call something, and what is
changed in it denotes a place. -/
def Linked (Γ : Meanings) : Expr → Prop
  | .identifier leaf =>
    ∃ v, L.resolves leaf (.variable v) ∧ Γ leaf.token.id = some (.variable v.leaf)
  | .literal _ _ => True
  | .parens e => e.Linked Γ
  | .unary op e => (op = .address → e.isPlace) ∧ e.Linked Γ
  | .step _ e => e.isPlace ∧ e.Linked Γ
  | .binary _ left right => left.Linked Γ ∧ right.Linked Γ
  | .assign _ left right => left.isPlace ∧ left.Linked Γ ∧ right.Linked Γ
  | .conditional cond first second => cond.Linked Γ ∧ first.Linked Γ ∧ second.Linked Γ
  | .call callee args => IsCallee L Γ callee args.length ∧ AllLinked Γ args
  | .index base place => base.Linked Γ ∧ place.Linked Γ
  | .member e _ => e.Linked Γ
  | .arrow e _ => e.Linked Γ
  | .sizeOf _ => True
  | .cast _ e => e.Linked Γ
  | .list head tail => head.Linked Γ ∧ AllLinked Γ tail
where
  /-- Whether this is so for all of several expressions. -/
  AllLinked (Γ : Meanings) : List Expr → Prop
    | [] => True
    | e :: rest => e.Linked Γ ∧ AllLinked Γ rest

end Expr

/-- Whether the sizes in a declarator are linked. -/
def Declarator.SizesLinked (Γ : Meanings) (d : Declarator) : Prop :=
  ∀ size, .sized size ∈ d.dims → size.Linked L Γ

/-- Whether the expressions in a declarator are linked. -/
def Declarator.Linked (Γ : Meanings) (d : Declarator) : Prop :=
  d.SizesLinked L Γ ∧ ∀ init ∈ d.init, init.Linked L Γ

/-- Whether declarators are linked one after another. -/
def Declarator.AllLinked (Γ : Meanings) : List Declarator → Prop
  | [] => True
  | d :: rest => d.Linked L Γ ∧ AllLinked (Γ.declare d.name) rest

/-- Which jumps out of statements are allowed at a place. -/
structure Jumps where
  «break» : Bool
  «continue» : Bool
deriving DecidableEq

namespace Jumps

/-- No jumps, as in the body of a function. -/
def none : Jumps := ⟨false, false⟩

/-- The jumps in the body of a loop. -/
def loop : Jumps := ⟨true, true⟩

/-- The jumps in the cases of a switch. -/
def inSwitch (jumps : Jumps) : Jumps := { jumps with «break» := true }

end Jumps

/-- Whether an instruction is linked, and is no jump but an allowed one. -/
def Instr.Linked (Γ : Meanings) (jumps : Jumps) : Instr → Prop
  | .expr e => e.Linked L Γ
  | .declare d => Declarator.AllLinked L Γ d.all
  | .break _ => jumps.break
  | .continue _ => jumps.continue
  | .return value => ∀ e ∈ value, e.Linked L Γ
  | .goto _ => L.hasGotos

/-- Whether instructions are linked one after another. -/
def Instr.AllLinked (Γ : Meanings) (jumps : Jumps) : List Instr → Prop
  | [] => True
  | i :: rest => i.Linked L Γ jumps ∧ AllLinked (Γ.declareAll i.declared) jumps rest

/-- Whether an instruction is linked that stands where an expression is needed. -/
def Instr.ValueLinked (Γ : Meanings) (i : Instr) : Prop :=
  ∀ e, i = .expr e → e.Linked L Γ

/-- Whether a statement is linked. -/
def Stmt.Linked (Γ : Meanings) (jumps : Jumps) : Stmt → Prop
  | .block body => AllLinked Γ jumps body
  | .line instrs => Instr.AllLinked L Γ jumps instrs
  | .label _ => True
  | .branches conditional otherwise =>
    BranchesLinked Γ jumps conditional ∧ ElseLinked Γ jumps otherwise
  | .while cond body => cond.Linked L Γ ∧ body.Linked Γ .loop
  | .doWhile cond body => cond.Linked L Γ ∧ body.Linked Γ .loop
  | .for init cond step body =>
    let Δ := Γ.declareAll (init.toList.flatMap Instr.declared)
    (∀ i ∈ init, i.Linked L Γ .loop) ∧ (∀ i ∈ cond, i.ValueLinked L Δ) ∧
      (∀ i ∈ step, i.ValueLinked L Δ) ∧ body.Linked Δ .loop
  | .switch selector parts => selector.Linked L Γ ∧ CasesLinked Γ jumps.inSwitch parts
where
  /-- Whether statements are linked one after another. -/
  AllLinked (Γ : Meanings) (jumps : Jumps) : List Stmt → Prop
    | [] => True
    | s :: rest => s.Linked Γ jumps ∧ AllLinked (Γ.declareAll s.declared) jumps rest
  /-- Whether conditions and their branches are linked. -/
  BranchesLinked (Γ : Meanings) (jumps : Jumps) : List (Expr × Stmt) → Prop
    | [] => True
    | (cond, body) :: rest =>
      cond.Linked L Γ ∧ body.Linked Γ jumps ∧ BranchesLinked Γ jumps rest
  /-- Whether the branch for no condition is linked. -/
  ElseLinked (Γ : Meanings) (jumps : Jumps) : Option Stmt → Prop
    | none => True
    | some body => body.Linked Γ jumps
  /-- Whether the cases of a switch are linked. -/
  CasesLinked (Γ : Meanings) (jumps : Jumps) : List (Option Expr × List Stmt) → Prop
    | [] => True
    | (value, body) :: rest =>
      (∀ e ∈ value, e.Linked L Γ) ∧ AllLinked Γ jumps body ∧ CasesLinked Γ jumps rest

/-- Whether the declarators of global variables are linked one after another, and give new names. -/
def Declarator.GlobalsLinked (Γ : Meanings) : List Declarator → Prop
  | [] => True
  | d :: rest =>
    d.Linked L Γ ∧ Γ d.name.token.id = none ∧ GlobalsLinked (Γ.declare d.name) rest

/-- Whether a name is new as that of a function, or is one of a function with as many
parameters. -/
def Meanings.Admits (Γ : Meanings) (id arity : Nat) : Prop :=
  Γ id = none ∨ Γ id = some (.function arity)

/-- Whether a piece of a program is linked. -/
def Item.Linked (Γ : Meanings) : Item → Prop
  | .directive _ => True
  | .struct _ fields => ∀ d ∈ fields, d.SizesLinked L Γ
  | .function _ name params body =>
    Γ.Admits name.token.id params.length ∧ (L.isPrint name.token.id → L.hasPrint) ∧
      Stmt.Linked.AllLinked L
        ((Γ.set name.token.id (.function params.length)).declareAll (params.map (·.name)))
        .none body
  | .prototype _ name params => Γ.Admits name.token.id params.length
  | .declaration d => Declarator.GlobalsLinked L Γ d.all

end

/-- The meanings of names after a piece of a program. -/
def Item.after (Γ : Meanings) : Item → Meanings
  | .function _ name params _ => Γ.set name.token.id (.function params.length)
  | .prototype _ name params => Γ.set name.token.id (.function params.length)
  | .declaration d => Γ.declareAll (d.all.map (·.name))
  | _ => Γ

/-- Whether the pieces of a program are linked one after another. -/
def Item.AllLinked (L : Linkage) (Γ : Meanings) : List Item → Prop
  | [] => True
  | i :: rest => i.Linked L Γ ∧ AllLinked L (i.after Γ) rest

end MiniC
