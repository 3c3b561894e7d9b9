import MiniC.Run.Control
import MiniC.Run.Declare

set_option autoImplicit false

/-! # Executing statements

A block and a loop have scopes of their own; a loop has one scope for all its turns. A jump to a
label looks for the label among the statements of the blocks around it, from the inside out, and the
last of several labels of one name counts. A fault in an instruction is at the place of the
instruction, unless it has a place of its own. -/

namespace MiniC.Run

/-! ## Instructions -/

/-- Executes an instruction; faults may have no place. -/
def bareInstr (ctx : Context) : Instr → Run Signal
  | .expr (.call callee args) => do
    let _ ← evalCall ctx callee args
    pure .normal
  | .expr e => do
    let _ ← eval ctx e
    pure .normal
  | .declare d => do
    declaration ctx d
    pure .normal
  | .break _ => pure .break
  | .continue _ => pure .continue
  | .return none => pure (.return none)
  | .return (some e) => do return .return (some (← eval ctx e))
  | .goto label => pure (.goto label.token)

/-- Executes an instruction. -/
def instr (ctx : Context) (i : Instr) : Run Signal :=
  located i.pos? (bareInstr ctx i)

/-- Executes instructions one after another. -/
def instrs (ctx : Context) : List Instr → Run Signal
  | [] => pure .normal
  | i :: rest => do onward (← instr ctx i) (instrs ctx rest)

/-- The value of an instruction that stands where an expression is needed. -/
def instrValue (ctx : Context) : Instr → Run Value
  | .expr e => eval ctx e
  | i => fail (.notAnExpression i.words) i.pos?

/-! ## Parts of statements -/

/-- Whether the condition of a loop holds; a condition that is left out does. -/
def loopTest (ctx : Context) : Option Instr → Run Bool
  | none => pure true
  | some i => do truth (← instrValue ctx i)

/-- Executes the step of a loop, which may be left out. -/
def loopStep (ctx : Context) : Option Instr → Run Unit
  | none => pure ()
  | some i => do
    let _ ← instrValue ctx i
    pure ()

/-- Executes the initial instruction of a loop, which may be left out. Its signal is dropped. -/
def loopStart (ctx : Context) : Option Instr → Run Unit
  | none => pure ()
  | some i => do
    let _ ← instr ctx i
    pure ()

/-- Whether a case with the given label is chosen; the default case has no label. -/
def isChosen (ctx : Context) (selector : Value) : Option Expr → Run Bool
  | none => pure true
  | some label => do lift (Value.compare .eq selector (← eval ctx label))

/-- Whether a statement is the label with the given name. -/
def isLabel (name : String) : Stmt → Bool
  | .label leaf => leaf.token.text = name
  | _ => false

/-! ## Statements -/

mutual

/-- Executes a statement. Its loops and jumps have `fuel` steps each. -/
def stmt (ctx : Context) (fuel : Nat) : Stmt → Run Signal
  | .block body =>
    inScope (jumping (resume ctx fuel body) fuel (stmts ctx fuel body))
  | .line is => instrs ctx is
  | .label _ => pure .normal
  | .branches conditional otherwise =>
    branches ctx fuel (otherBranch ctx fuel otherwise) conditional
  | .while cond body =>
    inScope (loop (do truth (← eval ctx cond)) (stmt ctx fuel body) (pure ()) fuel false)
  | .doWhile cond body =>
    inScope (loop (do truth (← eval ctx cond)) (stmt ctx fuel body) (pure ()) fuel true)
  | .for init cond step body =>
    inScope do
      loopStart ctx init
      inScope (loop (loopTest ctx cond) (stmt ctx fuel body) (loopStep ctx step) fuel false)
  | .switch selector parts => do
    cases ctx fuel (← eval ctx selector) parts

/-- Executes statements one after another. -/
def stmts (ctx : Context) (fuel : Nat) : List Stmt → Run Signal
  | [] => pure .normal
  | s :: rest => do onward (← stmt ctx fuel s) (stmts ctx fuel rest)

/-- What comes after the last label with the given name among statements. -/
def resume (ctx : Context) (fuel : Nat) : List Stmt → String → Option (Run Signal)
  | [], _ => none
  | s :: rest, name =>
    match resume ctx fuel rest name with
    | some next => some next
    | none => if isLabel name s then some (stmts ctx fuel rest) else none

/-- Executes the branch of the first condition that holds, or `otherwise`. -/
def branches (ctx : Context) (fuel : Nat) (otherwise : Run Signal) :
    List (Expr × Stmt) → Run Signal
  | [] => otherwise
  | (cond, body) :: rest => do
    if ← truth (← eval ctx cond) then stmt ctx fuel body
    else branches ctx fuel otherwise rest

/-- Executes the branch for no condition, if there is one. -/
def otherBranch (ctx : Context) (fuel : Nat) : Option Stmt → Run Signal
  | none => pure .normal
  | some body => stmt ctx fuel body

/-- Executes the first case that is chosen. -/
def cases (ctx : Context) (fuel : Nat) (selector : Value) :
    List (Option Expr × List Stmt) → Run Signal
  | [] => pure .normal
  | (label, body) :: rest => do
    if ← isChosen ctx selector label then
      return afterCase
        (← inScope (jumping (resume ctx fuel body) fuel (stmts ctx fuel body)))
    else cases ctx fuel selector rest

end

/-! ## Calls -/

/-- The number of calls that can be open at once. -/
def maxDepth : Nat := 1000

/-- Makes variables of the parameters of a function, with the arguments as their values. -/
def bindParams (known : Nat → Option CType) : List Declarator → List Value → Run Unit
  | d :: params, v :: args => do
    let t ← declaredType known d
    introduce d.name t (← convert t v (some d.pos))
    bindParams known params args
  | _, _ => pure ()

/-- The result of a call of a function whose body ended with a signal. -/
def callResult (f : FunctionDef) (pos : Option Position) : Signal → Run (Option Value)
  | .goto label => failAt (.missingLabel label.text) label.pos
  | .break => fail .strayBreak pos
  | .continue => fail .strayContinue pos
  | .return (some v) =>
    if f.returnType.isVoid then pure none
    else do return some (← convert f.returnType v pos)
  | .normal | .return none => pure none

/-- Calls a function with arguments, from an expression at the given place. -/
def call (known : Nat → Option CType) :
    Nat → FunctionDef → List Value → Option Position → Run (Option Value)
  | 0, _, _, _ => throw .unfinished
  | fuel + 1, f, args, pos => do
    if args.length ≠ f.params.length then fail (.wrongArgumentCount f.name) pos
    if maxDepth ≤ (← get).depth then fail .callOverflow pos
    let signal ← inCall f.name do
      bindParams known f.params args
      stmt ⟨known, call known fuel⟩ fuel (.block f.body)
    callResult f pos signal

end MiniC.Run
